import GccCil.Scil.Types
import GccCil.Scil.Opcodes

/-!
# Decoding of method bodies

The loop of `parse_method` (`scil-pnet.c`) over the bytes of a body, and the
bodies that ECMA-335 allows.  The array `extended_instructions` is built by
position from a file whose numbers have gaps, so a two-byte opcode runs its own
function only below the first gap.
-/

namespace GccCil.Scil

structure Cursor where
  pc : Nat
  rest : List UInt8
  deriving DecidableEq, Repr

def littleEndian : List UInt8 → Nat
  | [] => 0
  | byte :: rest => byte.toNat + 256 * littleEndian rest

/-- Read `size` bytes; `none` is a read behind the end of the code. -/
def readBytes (size : Nat) (cursor : Cursor) : Option (Nat × Cursor) :=
  if size ≤ cursor.rest.length then
    some (littleEndian (cursor.rest.take size), ⟨cursor.pc + size, cursor.rest.drop size⟩)
  else none

def readUint8 : Cursor → Option (Nat × Cursor) := readBytes 1

def readUint16 : Cursor → Option (Nat × Cursor) := readBytes 2

def readToken : Cursor → Option (Nat × Cursor) := readBytes 4

def readInt8 (cursor : Cursor) : Option (Int × Cursor) := do
  let (byte, cursor) ← readBytes 1 cursor
  return (IntType.int8.wrap byte, cursor)

def readInt32 (cursor : Cursor) : Option (Int × Cursor) := do
  let (word, cursor) ← readBytes 4 cursor
  return (IntType.int32.wrap word, cursor)

def readInt64 (cursor : Cursor) : Option (Int × Cursor) := do
  let (word, cursor) ← readBytes 8 cursor
  return (IntType.int64.wrap word, cursor)

/-- The sum is one of `unsigned int`. -/
def readTargetShort (cursor : Cursor) : Option (Int × Cursor) := do
  let (offset, cursor) ← readInt8 cursor
  return (IntType.uint32.wrap (offset + cursor.pc), cursor)

def readTargetLong (cursor : Cursor) : Option (Int × Cursor) := do
  let (offset, cursor) ← readInt32 cursor
  return (IntType.uint32.wrap (offset + cursor.pc), cursor)

/-- An instruction function that ran: where its instruction started, which
function it is and the branch target it computed. -/
structure Started where
  offset : Nat
  handler : Handler
  target : Option Int
  deriving DecidableEq, Repr

def Handler.run (handler : Handler) (cursor : Cursor) : Option (Option Int × Cursor) :=
  match handler.reads with
  | none | some .none | some .switch => some (none, cursor)
  | some .byte => do
      let (_, cursor) ← readUint8 cursor
      return (none, cursor)
  | some .uint16 => do
      let (_, cursor) ← readUint16 cursor
      return (none, cursor)
  | some .int32 => do
      let (_, cursor) ← readInt32 cursor
      return (none, cursor)
  | some .int64 => do
      let (_, cursor) ← readInt64 cursor
      return (none, cursor)
  | some .token => do
      let (_, cursor) ← readToken cursor
      return (none, cursor)
  | some .shortJump => do
      let (target, cursor) ← readTargetShort cursor
      return (some target, cursor)
  | some .longJump => do
      let (target, cursor) ← readTargetLong cursor
      return (some target, cursor)

/-- `instr_extended`: dispatch on the second byte; `none` is an index outside
the array. -/
def instrExtended (cursor : Cursor) : Option (Handler × Cursor) := do
  let (second, cursor) ← readUint8 cursor
  return (← extendedInstructions[second]?, cursor)

def startInstruction (cursor : Cursor) : Option (Started × Cursor) := do
  let (opcode, next) ← readUint8 cursor
  let handler ← instructions[opcode]?
  let (handler, next) ← if handler = .extended then instrExtended next else some (handler, next)
  let (target, next) ← handler.run next
  return (⟨cursor.pc, handler, target⟩, next)

/-- The loop, for at most `fuel` turns. -/
def parseLoop : Nat → Cursor → Option (List Started)
  | fuel, cursor =>
    match cursor.rest, fuel with
    | [], _ => some []
    | _ :: _, 0 => none
    | _ :: _, fuel + 1 => do
        let (started, next) ← startInstruction cursor
        return started :: (← parseLoop fuel next)

/-- The instruction functions that run for a body.  Each turn reads a byte, so
there are never more turns than bytes. -/
def decodeBody (code : List UInt8) : Option (List Started) := parseLoop code.length ⟨0, code⟩

def Operand.size : Operand → Nat
  | .none | .switch => 0
  | .byte | .shortJump => 1
  | .uint16 => 2
  | .int32 | .token | .longJump => 4
  | .int64 => 8

def Operand.Encodes (operand : Operand) (bytes : List UInt8) : Prop :=
  match operand with
  | .switch => bytes.length = 4 + 4 * littleEndian (bytes.take 4)
  | _ => bytes.length = operand.size

def definitions (extended : Bool) : List (Nat × Handler) :=
  if extended then extendedInstructionsDef else instructionsDef

/-- A well-formed instruction: an opcode with the function that its number has
in the file, and an operand of its kind. -/
structure EcmaInstr where
  extended : Bool
  opcode : UInt8
  handler : Handler
  operand : List UInt8
  defined : (opcode.toNat, handler) ∈ definitions extended
  notReserved : handler ≠ .invalid ∧ handler ≠ .extended
  encodes : handler.operand.Encodes operand

namespace EcmaInstr

def encode (instr : EcmaInstr) : List UInt8 :=
  (if instr.extended then [0xFE] else []) ++ instr.opcode :: instr.operand

def opcodeLength (instr : EcmaInstr) : Nat := if instr.extended then 2 else 1

theorem length_encode (instr : EcmaInstr) :
    instr.encode.length = instr.opcodeLength + instr.operand.length := by
  unfold encode opcodeLength
  split <;> simp <;> omega

/-- The branch target, for an instruction that starts at the offset: the offset
of the next instruction plus the sign-extended operand. -/
def target (instr : EcmaInstr) (offset : Nat) : Option Int :=
  match instr.handler.operand with
  | .shortJump =>
    some (IntType.uint32.wrap (IntType.int8.wrap (littleEndian instr.operand) +
      (offset + instr.encode.length : Nat)))
  | .longJump =>
    some (IntType.uint32.wrap (IntType.int32.wrap (littleEndian instr.operand) +
      (offset + instr.encode.length : Nat)))
  | _ => none

def dispatched (instr : EcmaInstr) : Option Handler :=
  (if instr.extended then extendedInstructions else instructions)[instr.opcode.toNat]?

/-- The instruction is not reported by `sorry` or `error`: its own function is
implemented, or the one that the array has for it is. -/
def NotReported (instr : EcmaInstr) : Prop :=
  instr.handler.reads ≠ none ∨ ∀ handler ∈ instr.dispatched, handler.reads ≠ none

/-- The opcode has one byte, or its second byte is below the first gap. -/
def BelowGap (instr : EcmaInstr) : Prop := instr.extended = true → instr.opcode.toNat < 0x08

end EcmaInstr

def encodeBody (body : List EcmaInstr) : List UInt8 := body.flatMap EcmaInstr.encode

def expectedFrom : Nat → List EcmaInstr → List Started
  | _, [] => []
  | offset, instr :: rest =>
    ⟨offset, instr.handler, instr.target offset⟩ ::
      expectedFrom (offset + instr.encode.length) rest

theorem Handler.reads_eq_operand (handler : Handler) {operand : Operand}
    (reads : handler.reads = some operand) : operand = handler.operand := by
  cases handler <;> cases reads <;> rfl

theorem getElem?_of_numbered {table : List (Nat × Handler)}
    (numbered : table.map Prod.fst = List.range table.length) {entry : Nat × Handler}
    (member : entry ∈ table) : (table.map Prod.snd)[entry.1]? = some entry.2 := by
  obtain ⟨place, bound, rfl⟩ := List.getElem_of_mem member
  have number : table[place].1 = place := by
    have entries := congrArg (fun numbers => numbers[place]?) numbered
    simpa [bound] using entries
  simp [number, bound]

set_option maxRecDepth 8000 in
theorem instructions_at_number (entry : Nat × Handler) (member : entry ∈ instructionsDef) :
    instructions[entry.1]? = some entry.2 :=
  getElem?_of_numbered (by decide) member

theorem extendedInstructions_at_number :
    ∀ entry ∈ extendedInstructionsDef,
      extendedInstructions[entry.1]? = some entry.2 ↔ entry.1 < 0x08 := by
  decide

theorem instructions_escape : instructions[0xFE]? = some .extended := by
  decide

namespace EcmaInstr

theorem dispatched_eq_iff (instr : EcmaInstr) :
    instr.dispatched = some instr.handler ↔ instr.BelowGap := by
  have defined := instr.defined
  unfold dispatched BelowGap
  cases extended : instr.extended with
  | false =>
    rw [extended] at defined
    simpa using instructions_at_number _ defined
  | true =>
    rw [extended] at defined
    simpa using extendedInstructions_at_number _ defined

theorem reads_of_belowGap {instr : EcmaInstr} (notReported : instr.NotReported)
    (belowGap : instr.BelowGap) : instr.handler.reads = some instr.handler.operand := by
  have implemented : instr.handler.reads ≠ none := by
    rcases notReported with own | array
    · exact own
    · exact array _ (instr.dispatched_eq_iff.mpr belowGap)
  obtain ⟨operand, reads⟩ := Option.ne_none_iff_exists'.mp implemented
  rw [reads, instr.handler.reads_eq_operand reads]

end EcmaInstr

theorem readBytes_append {size : Nat} {bytes : List UInt8} (length : bytes.length = size)
    (pc : Nat) (rest : List UInt8) :
    readBytes size ⟨pc, bytes ++ rest⟩ = some (littleEndian bytes, ⟨pc + size, rest⟩) := by
  subst length
  simp [readBytes]

theorem readUint8_cons (pc : Nat) (byte : UInt8) (rest : List UInt8) :
    readUint8 ⟨pc, byte :: rest⟩ = some (byte.toNat, ⟨pc + 1, rest⟩) := by
  have length : [byte].length = 1 := rfl
  have read := readBytes_append length pc rest
  simpa [readUint8, littleEndian] using read

theorem EcmaInstr.run_operand (instr : EcmaInstr)
    (reads : instr.handler.reads = some instr.handler.operand) (offset : Nat)
    (rest : List UInt8) :
    instr.handler.run ⟨offset + instr.opcodeLength, instr.operand ++ rest⟩ =
      some (instr.target offset, ⟨offset + instr.encode.length, rest⟩) := by
  have encodes := instr.encodes
  unfold Handler.run EcmaInstr.target
  rw [reads, instr.length_encode]
  cases kind : instr.handler.operand with
  | none =>
    have empty : instr.operand = [] := by
      simpa [kind, Operand.Encodes, Operand.size] using encodes
    simp [empty]
  | switch =>
    -- No implemented function has a jump table.
    rw [kind] at reads
    cases handler : instr.handler <;> rw [handler] at reads <;> contradiction
  | byte =>
    have length : instr.operand.length = 1 := by
      simpa [kind, Operand.Encodes, Operand.size] using encodes
    simp [readUint8, readBytes_append length, length, Nat.add_assoc]
  | uint16 =>
    have length : instr.operand.length = 2 := by
      simpa [kind, Operand.Encodes, Operand.size] using encodes
    simp [readUint16, readBytes_append length, length, Nat.add_assoc]
  | int32 =>
    have length : instr.operand.length = 4 := by
      simpa [kind, Operand.Encodes, Operand.size] using encodes
    simp [readInt32, readBytes_append length, length, Nat.add_assoc]
  | int64 =>
    have length : instr.operand.length = 8 := by
      simpa [kind, Operand.Encodes, Operand.size] using encodes
    simp [readInt64, readBytes_append length, length, Nat.add_assoc]
  | token =>
    have length : instr.operand.length = 4 := by
      simpa [kind, Operand.Encodes, Operand.size] using encodes
    simp [readToken, readBytes_append length, length, Nat.add_assoc]
  | shortJump =>
    have length : instr.operand.length = 1 := by
      simpa [kind, Operand.Encodes, Operand.size] using encodes
    simp [readTargetShort, readInt8, readBytes_append length, length, Nat.add_assoc]
  | longJump =>
    have length : instr.operand.length = 4 := by
      simpa [kind, Operand.Encodes, Operand.size] using encodes
    simp [readTargetLong, readInt32, readBytes_append length, length, Nat.add_assoc]

/-- One turn of the loop at the start of an instruction: the function comes
from the array and runs behind the opcode. -/
theorem startInstruction_encode (instr : EcmaInstr) (pc : Nat) (rest : List UInt8) :
    startInstruction ⟨pc, instr.encode ++ rest⟩ =
      instr.dispatched.bind fun handler =>
        (handler.run ⟨pc + instr.opcodeLength, instr.operand ++ rest⟩).map fun ran =>
          (⟨pc, handler, ran.1⟩, ran.2) := by
  unfold startInstruction EcmaInstr.dispatched EcmaInstr.encode EcmaInstr.opcodeLength
  cases extended : instr.extended with
  | false =>
    have own := instr.dispatched_eq_iff.mpr (by simp [EcmaInstr.BelowGap, extended])
    simp only [EcmaInstr.dispatched, extended, Bool.false_eq_true, ↓reduceIte] at own
    have escape := instr.notReserved.2
    simp [readUint8_cons, own, escape, Option.map_eq_bind]
  | true =>
    simp only [↓reduceIte, List.cons_append, List.nil_append, readUint8_cons,
      Option.bind_eq_bind, Option.bind_some]
    rw [show (0xFE : UInt8).toNat = 0xFE from rfl, instructions_escape]
    simp only [Option.bind_some, ↓reduceIte, instrExtended, readUint8_cons,
      Option.bind_eq_bind]
    cases extendedInstructions[instr.opcode.toNat]? with
    | none => rfl
    | some handler =>
      simp [Option.map_eq_bind, Nat.add_assoc]

theorem startInstruction_of_belowGap {instr : EcmaInstr} (notReported : instr.NotReported)
    (belowGap : instr.BelowGap) (pc : Nat) (rest : List UInt8) :
    startInstruction ⟨pc, instr.encode ++ rest⟩ =
      some (⟨pc, instr.handler, instr.target pc⟩, ⟨pc + instr.encode.length, rest⟩) := by
  have reads := EcmaInstr.reads_of_belowGap notReported belowGap
  rw [startInstruction_encode, instr.dispatched_eq_iff.mpr belowGap, Option.bind_some,
    instr.run_operand reads]
  rfl

theorem handler_ne_of_not_belowGap {instr : EcmaInstr} (above : ¬ instr.BelowGap)
    {pc : Nat} {rest : List UInt8} {started : Started} {next : Cursor}
    (ran : startInstruction ⟨pc, instr.encode ++ rest⟩ = some (started, next)) :
    started.handler ≠ instr.handler := by
  rw [startInstruction_encode, Option.bind_eq_some_iff] at ran
  obtain ⟨handler, dispatched, ran⟩ := ran
  obtain ⟨result, -, equality⟩ := Option.map_eq_some_iff.mp ran
  cases equality
  rintro rfl
  exact above (instr.dispatched_eq_iff.mp dispatched)

theorem EcmaInstr.encode_ne_nil (instr : EcmaInstr) : instr.encode ≠ [] := by
  simp [EcmaInstr.encode]

theorem parseLoop_cons (instr : EcmaInstr) (fuel pc : Nat) (rest : List UInt8) :
    parseLoop (fuel + 1) ⟨pc, instr.encode ++ rest⟩ =
      (startInstruction ⟨pc, instr.encode ++ rest⟩).bind fun ran =>
        (parseLoop fuel ran.2).map fun trace => ran.1 :: trace := by
  obtain ⟨byte, bytes, cons⟩ := List.exists_cons_of_ne_nil instr.encode_ne_nil
  rw [cons, List.cons_append]
  simp only [parseLoop]
  cases startInstruction ⟨pc, byte :: (bytes ++ rest)⟩ with
  | none => rfl
  | some ran =>
    simp only [Option.bind_eq_bind, Option.bind_some]
    cases parseLoop fuel ran.2 <;> rfl

theorem parseLoop_eq_iff {body : List EcmaInstr} (notReported : ∀ instr ∈ body, instr.NotReported)
    {fuel : Nat} (enough : body.length ≤ fuel) (pc : Nat) :
    parseLoop fuel ⟨pc, encodeBody body⟩ = some (expectedFrom pc body) ↔
      ∀ instr ∈ body, instr.BelowGap := by
  induction body generalizing fuel pc with
  | nil => cases fuel <;> simp [encodeBody, parseLoop, expectedFrom]
  | cons instr rest ih =>
    obtain ⟨fuel, rfl⟩ : ∃ fuel', fuel = fuel' + 1 :=
      ⟨fuel - 1, by simp only [List.length_cons] at enough; omega⟩
    have tail := ih
      (fun instr' inRest => notReported instr' (List.mem_cons_of_mem _ inRest))
      (Nat.le_of_succ_le_succ enough) (pc + instr.encode.length)
    have bytes : encodeBody (instr :: rest) = instr.encode ++ encodeBody rest := rfl
    rw [bytes, parseLoop_cons, List.forall_mem_cons, ← tail, expectedFrom]
    by_cases belowGap : instr.BelowGap
    · rw [startInstruction_of_belowGap (notReported instr List.mem_cons_self) belowGap]
      simp [belowGap, Option.map_eq_some_iff]
    · simp only [belowGap, false_and, iff_false]
      intro equality
      obtain ⟨⟨started, next⟩, ran, rest'⟩ := Option.bind_eq_some_iff.mp equality
      obtain ⟨trace, -, cons⟩ := Option.map_eq_some_iff.mp rest'
      obtain ⟨head, -⟩ := List.cons.inj cons
      exact handler_ne_of_not_belowGap belowGap ran (congrArg Started.handler head)

theorem length_le_encodeBody (body : List EcmaInstr) :
    body.length ≤ (encodeBody body).length := by
  induction body with
  | nil => simp
  | cons instr rest ih =>
    have nonempty := List.length_pos_of_ne_nil instr.encode_ne_nil
    have bytes : encodeBody (instr :: rest) = instr.encode ++ encodeBody rest := rfl
    rw [bytes, List.length_append, List.length_cons]
    omega

/-- A body of reported-free ECMA-335 instructions is decoded at its instruction
boundaries, with their functions and branch targets, exactly when no two-byte
opcode is above the first gap of the table. -/
theorem decodeBody_eq_iff (body : List EcmaInstr)
    (notReported : ∀ instr ∈ body, instr.NotReported) :
    decodeBody (encodeBody body) = some (expectedFrom 0 body) ↔
      ∀ instr ∈ body, instr.BelowGap :=
  parseLoop_eq_iff notReported (length_le_encodeBody body) 0

/-- `ldarg.0; brtrue.s +1; nop; ret`. -/
def shortBody : List EcmaInstr :=
  [⟨false, 0x02, .ldarg0, [], by decide, by decide, rfl⟩,
    ⟨false, 0x2D, .brtrueS, [0x01], by decide, by decide, rfl⟩,
    ⟨false, 0x00, .nop, [], by decide, by decide, rfl⟩,
    ⟨false, 0x2A, .ret, [], by decide, by decide, rfl⟩]

set_option maxRecDepth 8000 in
theorem decodeBody_shortBody :
    decodeBody (encodeBody shortBody) = some (expectedFrom 0 shortBody) ∧
      expectedFrom 0 shortBody = [⟨0, .ldarg0, none⟩, ⟨1, .brtrueS, some 4⟩, ⟨3, .nop, none⟩,
        ⟨4, .ret, none⟩] := by
  refine ⟨(decodeBody_eq_iff shortBody ?_).mpr ?_, by decide⟩
  · intro instr membership
    simp only [shortBody, List.mem_cons, List.not_mem_nil, or_false] at membership
    rcases membership with rfl | rfl | rfl | rfl <;> exact .inl (by decide)
  · intro instr membership
    simp only [shortBody, List.mem_cons, List.not_mem_nil, or_false] at membership
    rcases membership with rfl | rfl | rfl | rfl <;> exact fun extended => by contradiction

/-- `ldloc 0` with a two-byte opcode, then `ret`. -/
def longLocal : List EcmaInstr :=
  [⟨true, 0x0C, .ldloc, [0x00, 0x00], by decide, by decide, rfl⟩,
    ⟨false, 0x2A, .ret, [], by decide, by decide, rfl⟩]

/-- The function of `ldloca` runs for the two-byte `ldloc`. -/
theorem decodeBody_longLocal :
    (∀ instr ∈ longLocal, instr.NotReported) ∧
      decodeBody (encodeBody longLocal) = some [⟨0, .ldloca, none⟩, ⟨4, .ret, none⟩] ∧
      decodeBody (encodeBody longLocal) ≠ some (expectedFrom 0 longLocal) := by
  refine ⟨?_, by decide, by decide⟩
  intro instr membership
  simp only [longLocal, List.mem_cons, List.not_mem_nil, or_false] at membership
  rcases membership with rfl | rfl <;> exact .inl (by decide)

end GccCil.Scil
