import Mathlib.Data.BitVec
import GccCil.Cil.BodyScan

/-!
# Bounds of the scan

The loop of `parse_instructions` takes the size of an instruction off `csize`
without asking whether that much is left; only the size of a `switch` is
compared with it.  The scan stays inside the body exactly when every
instruction that it translates is there as a whole.
-/

namespace GccCil.Cil.BodyScan

/-- The size that the opcode table has for an instruction.  The size of a
`switch` depends on its operand; the table has zero. -/
def Operation.ecmaSize : Operation → Nat
  | .ldargS | .stargS | .ldlocS | .ldlocaS | .stlocS => 2
  | .ldc .i4s => 2
  | .ldc .i4 => 5
  | .ldc .r4 => 5
  | .ldc .r8 => 9
  | .call | .callvirt | .newobj | .ldstr | .ldfld | .stfld | .ldsfld | .stsfld | .newarr => 5
  | .br short | .brfalse short | .brtrue short | .branchComparison short _ _ =>
    if short then 2 else 5
  | .switch => 0
  | .compare _ => 2
  | .ldftn | .ldvirtftn | .initobj => 6
  | _ => 1

theorem Operation.ecmaSize_le (operation : Operation) : operation.ecmaSize ≤ 9 := by
  cases operation with
  | ldc form => cases form <;> simp [ecmaSize]
  | br short => cases short <;> simp [ecmaSize]
  | brfalse short => cases short <;> simp [ecmaSize]
  | brtrue short => cases short <;> simp [ecmaSize]
  | branchComparison short => cases short <;> simp [ecmaSize]
  | _ => simp [ecmaSize]

theorem Operation.ecmaSize_pos {operation : Operation} (other : operation ≠ .switch) :
    0 < operation.ecmaSize := by
  cases operation with
  | ldc form => cases form <;> simp [ecmaSize]
  | br short => cases short <;> simp [ecmaSize]
  | brfalse short => cases short <;> simp [ecmaSize]
  | brtrue short => cases short <;> simp [ecmaSize]
  | branchComparison short => cases short <;> simp [ecmaSize]
  | switch => exact absurd rfl other
  | _ => simp [ecmaSize]

section

variable {Node : Type} {w : Nat} (frontEnd : FrontEnd Node)

structure FrontEnd.EcmaSizes : Prop where
  main : ∀ opcode operation, mainOperation opcode = some operation →
    (frontEnd.ilMainOpcodeTable opcode).size = operation.ecmaSize
  prefixed : ∀ opcode operation, prefixedOperation opcode = some operation →
    (frontEnd.ilPrefixOpcodeTable opcode).size = operation.ecmaSize

/-- The number of targets of a `switch`. -/
def switchCount (code : Bytes) : Nat := (ilReadUint32 (code.advance 1)).toNat

/-- The size of the instruction `operation` at a pointer. -/
def instrSize (code : Bytes) : Operation → Nat
  | .switch => switchCount code * 4 + 5
  | operation => operation.ecmaSize

theorem instrSize_of_ne {operation : Operation} (code : Bytes) (other : operation ≠ .switch) :
    instrSize code operation = operation.ecmaSize := by
  cases operation with
  | switch => exact absurd rfl other
  | _ => rfl

def operationAt (code : Bytes) : Option Operation :=
  if code 0 = 0xFE then prefixedOperation (code 1) else mainOperation (code 0)

/-- The instruction at the offset of the scan ends within the bytes that are
left.  A `switch` is checked by `get_special_size`. -/
def Scan.Fits (code : Bytes) (scan : Scan w Node) : Prop :=
  ∀ operation, operationAt (code.advance scan.offset.toNat) = some operation →
    operation ≠ .switch → operation.ecmaSize ≤ scan.csize.toNat

/-- The scan stays inside the body: `csize` never wraps, no instruction is
decoded at or after `codeLen`, and the loop ends, at the end of the body or with
an error. -/
structure StaysInBounds (w : Nat) (code : Bytes) (codeLen : BitVec 32) (uid : Nat) : Prop where
  shrinks : ∀ before after : Scan w Node, Scan.Reaches frontEnd code (.initial Node codeLen uid) before →
    before.Step frontEnd code after → after.csize < before.csize
  inside : ∀ scan : Scan w Node, Scan.Reaches frontEnd code (.initial Node codeLen uid) scan →
    scan.csize ≠ 0 → scan.offset.toNat < codeLen.toNat
  ends : ∃ scan : Scan w Node, Scan.Reaches frontEnd code (.initial Node codeLen uid) scan ∧
    (scan.csize = 0 ∧ scan.offset.toNat = codeLen.toNat ∨ scan.round frontEnd code = none)

variable {frontEnd}

theorem parseInstr_eq_some {code : Bytes} {offset : BitVec w} {state after : ParseState Node}
    {isize : BitVec w} (parsed : parseInstr frontEnd code offset state = some (isize, after)) :
    ∃ operation, mainOperation (code 0) = some operation ∧
      isize = BitVec.ofNat w (frontEnd.ilMainOpcodeTable (code 0)).size := by
  simp only [parseInstr, Option.bind_eq_bind, Option.bind_eq_some_iff, Option.pure_def,
    Option.some.injEq, Prod.mk.injEq] at parsed
  obtain ⟨operation, found, _, _, size, _⟩ := parsed
  exact ⟨operation, found, size.symm⟩

theorem parsePrefixedInstr_eq_some {code : Bytes} {state after : ParseState Node}
    {isize : BitVec w} (parsed : parsePrefixedInstr frontEnd code state = some (isize, after)) :
    ∃ operation, prefixedOperation (code 1) = some operation ∧
      isize = BitVec.ofNat w (frontEnd.ilPrefixOpcodeTable (code 1)).size := by
  simp only [parsePrefixedInstr, Bytes.advance, Option.bind_eq_bind, Option.bind_eq_some_iff,
    Option.pure_def, Option.some.injEq, Prod.mk.injEq] at parsed
  obtain ⟨operation, found, _, _, size, _⟩ := parsed
  exact ⟨operation, found, size.symm⟩

theorem toNat_literal (value : Nat) (small : value < 2 ^ w) :
    (OfNat.ofNat value : BitVec w).toNat = value :=
  Nat.mod_eq_of_lt small

theorem getSpecialSize_eq {code : Bytes} {csize : BitVec w} (long : 32 ≤ w)
    (known : getSpecialSize code csize ≠ 0) :
    (getSpecialSize code csize).toNat = switchCount code * 4 + 5 ∧
      getSpecialSize code csize ≤ csize := by
  have power : 2 ^ 32 ≤ 2 ^ w := Nat.pow_le_pow_right (by decide) long
  have four : (4 : BitVec w).toNat = 4 := toNat_literal 4 (by omega)
  have five : (5 : BitVec w).toNat = 5 := toNat_literal 5 (by omega)
  have limit : (0x40000000 : BitVec w).toNat = 0x40000000 := toNat_literal 0x40000000 (by omega)
  have count : ((ilReadUint32 (code.advance 1)).setWidth w).toNat = switchCount code :=
    BitVec.toNat_setWidth_of_le long
  unfold getSpecialSize at known ⊢
  dsimp only at known ⊢
  split at known
  · rename_i isSwitch
    rw [if_pos isSwitch]
    split at known
    · exact absurd rfl known
    · rename_i enough
      split at known
      · exact absurd rfl known
      · rename_i small
        rw [if_neg enough, if_neg small]
        simp only [Bool.or_eq_true, decide_eq_true_eq, not_or, BitVec.not_le, BitVec.not_lt] at small
        obtain ⟨few, fits⟩ := small
        rw [BitVec.lt_def, count, limit] at few
        rw [BitVec.not_lt] at enough
        have product : ((ilReadUint32 (code.advance 1)).setWidth w * 4).toNat =
            switchCount code * 4 := by
          rw [BitVec.toNat_mul, count, four]
          exact Nat.mod_eq_of_lt (by omega)
        rw [BitVec.le_def, product, BitVec.toNat_sub_of_le enough, five] at fits
        rw [BitVec.le_def, five] at enough
        have bound := csize.isLt
        have total : ((ilReadUint32 (code.advance 1)).setWidth w * 4 + 5).toNat =
            switchCount code * 4 + 5 := by
          rw [BitVec.toNat_add, product, five]
          exact Nat.mod_eq_of_lt (by omega)
        refine ⟨total, ?_⟩
        rw [BitVec.le_def, total]
        omega
  · exact absurd rfl known

/-- What one round of the loop does: it takes the size of the instruction off
`csize`.  The size of a `switch` has been checked. -/
theorem Scan.round_eq_some (sizes : frontEnd.EcmaSizes) (long : 32 ≤ w) {code : Bytes}
    {before after : Scan w Node} (step : before.round frontEnd code = some after) :
    ∃ operation, ∃ isize : BitVec w,
      operationAt (code.advance before.offset.toNat) = some operation ∧ isize ≠ 0 ∧
      after.offset = before.offset + isize ∧ after.csize = before.csize - isize ∧
      isize.toNat = instrSize (code.advance before.offset.toNat) operation ∧
      (operation = .switch → isize ≤ before.csize) := by
  have power : 2 ^ 32 ≤ 2 ^ w := Nat.pow_le_pow_right (by decide) long
  simp only [Scan.round, Option.bind_eq_bind, Option.bind_eq_some_iff, Prod.exists] at step
  obtain ⟨size, state, parsed, step⟩ := step
  have found : ∃ operation, operationAt (code.advance before.offset.toNat) = some operation ∧
      size = BitVec.ofNat w operation.ecmaSize := by
    unfold operationAt
    split at parsed
    · rename_i isPrefix
      obtain ⟨operation, found, equal⟩ := parsePrefixedInstr_eq_some parsed
      exact ⟨operation, by rw [if_pos isPrefix, found], by rw [equal, sizes.prefixed _ _ found]⟩
    · rename_i isMain
      obtain ⟨operation, found, equal⟩ := parseInstr_eq_some parsed
      exact ⟨operation, by rw [if_neg isMain, found], by rw [equal, sizes.main _ _ found]⟩
  obtain ⟨operation, found, equal⟩ := found
  have value : size.toNat = operation.ecmaSize := by
    rw [equal, BitVec.toNat_ofNat]
    exact Nat.mod_eq_of_lt (by have := operation.ecmaSize_le; omega)
  generalize chosen : (if size = 0 then
    getSpecialSize (code.advance before.offset.toNat) before.csize else size) = isize at step
  split at step
  · cases step
  · rename_i nonzero
    cases step
    refine ⟨operation, isize, found, nonzero, rfl, rfl, ?_⟩
    by_cases isSwitch : operation = .switch
    · subst isSwitch
      have special : size = 0 := BitVec.eq_of_toNat_eq (by rw [value]; rfl)
      rw [if_pos special] at chosen
      subst chosen
      obtain ⟨exact, small⟩ := getSpecialSize_eq long nonzero
      exact ⟨exact, fun _ => small⟩
    · have special : size ≠ 0 := by
        intro zero
        have positive := operation.ecmaSize_pos isSwitch
        rw [← value, zero] at positive
        exact absurd positive (by simp)
      rw [if_neg special] at chosen
      subst chosen
      exact ⟨by rw [value, instrSize_of_ne _ isSwitch], fun equal => absurd equal isSwitch⟩

theorem Scan.Fits.shrinks (sizes : frontEnd.EcmaSizes) (long : 32 ≤ w) {code : Bytes}
    {before after : Scan w Node} (fits : before.Fits code)
    (step : before.round frontEnd code = some after) :
    ∃ isize : BitVec w, isize ≠ 0 ∧ isize ≤ before.csize ∧
      after.csize = before.csize - isize ∧ after.offset = before.offset + isize := by
  obtain ⟨operation, isize, found, nonzero, offset, csize, size, checked⟩ :=
    Scan.round_eq_some sizes long step
  refine ⟨isize, nonzero, ?_, csize, offset⟩
  by_cases isSwitch : operation = .switch
  · exact checked isSwitch
  · rw [BitVec.le_def, size, instrSize_of_ne _ isSwitch]
    exact fits operation found isSwitch

theorem lt_of_sub_of_le {csize isize : BitVec w} (nonzero : isize ≠ 0) (small : isize ≤ csize) :
    csize - isize < csize := by
  have positive : isize.toNat ≠ 0 := by
    intro zero
    exact nonzero (BitVec.eq_of_toNat_eq (by simpa using zero))
  rw [BitVec.lt_def, BitVec.toNat_sub_of_le small]
  rw [BitVec.le_def] at small
  omega

theorem le_of_sub_lt {csize isize : BitVec w} (less : csize - isize < csize) : isize ≤ csize := by
  by_contra large
  rw [BitVec.not_le, BitVec.lt_def] at large
  have bound := isize.isLt
  rw [BitVec.lt_def, BitVec.toNat_sub, Nat.mod_eq_of_lt (by omega)] at less
  omega

theorem Scan.Fits.of_shrinks (sizes : frontEnd.EcmaSizes) (long : 32 ≤ w) {code : Bytes}
    {before after : Scan w Node} (step : before.round frontEnd code = some after)
    (less : after.csize < before.csize) : before.Fits code := by
  obtain ⟨operation, isize, found, _, _, csize, size, _⟩ := Scan.round_eq_some sizes long step
  intro operation' found' other
  rw [found] at found'
  cases found'
  rw [csize] at less
  have small := le_of_sub_lt less
  rw [BitVec.le_def, size, instrSize_of_ne _ other] at small
  exact small

/-- While every step so far took a whole instruction, `offset` and `csize`
divide the body between them. -/
theorem Scan.Reaches.balanced (sizes : frontEnd.EcmaSizes) (long : 32 ≤ w) {code : Bytes}
    {first : Scan w Node}
    (whole : ∀ before after : Scan w Node, Scan.Reaches frontEnd code first before →
      before.Step frontEnd code after → before.Fits code)
    {scan : Scan w Node} (reaches : Scan.Reaches frontEnd code first scan)
    (start : first.offset.toNat + first.csize.toNat < 2 ^ w) :
    scan.offset.toNat + scan.csize.toNat = first.offset.toNat + first.csize.toNat := by
  induction reaches with
  | refl => rfl
  | @tail before after reached step ih =>
    obtain ⟨isize, _, small, csize, offset⟩ :=
      (whole before after reached step).shrinks sizes long step.2
    rw [BitVec.le_def] at small
    rw [offset, csize, BitVec.toNat_sub_of_le (BitVec.le_def.mpr small), BitVec.toNat_add,
      Nat.mod_eq_of_lt (by omega)]
    omega

theorem Scan.Reaches.ends {code : Bytes} {first : Scan w Node}
    (shrinks : ∀ before after : Scan w Node, Scan.Reaches frontEnd code first before →
      before.Step frontEnd code after → after.csize < before.csize)
    (scan : Scan w Node) (reaches : Scan.Reaches frontEnd code first scan) :
    ∃ last, Scan.Reaches frontEnd code first last ∧
      (last.csize = 0 ∨ last.round frontEnd code = none) := by
  induction size : scan.csize.toNat using Nat.strong_induction_on generalizing scan with
  | _ size ih =>
    by_cases done : scan.csize = 0
    · exact ⟨scan, reaches, .inl done⟩
    · cases result : scan.round frontEnd code with
      | none => exact ⟨scan, reaches, .inr result⟩
      | some after =>
        have step : scan.Step frontEnd code after := ⟨done, result⟩
        have less := shrinks scan after reaches step
        rw [BitVec.lt_def, size] at less
        exact ih _ less after (reaches.tail step) rfl

/-- The scan of every body stays in bounds exactly when each instruction that
the loop translates is there as a whole. -/
theorem scan_staysInBounds_iff (sizes : frontEnd.EcmaSizes) (long : 32 ≤ w) (code : Bytes)
    (codeLen : BitVec 32) (uid : Nat) :
    StaysInBounds frontEnd w code codeLen uid ↔
      ∀ before after : Scan w Node,
        Scan.Reaches frontEnd code (.initial Node codeLen uid) before →
          before.Step frontEnd code after → before.Fits code := by
  constructor
  · intro bounds before after reaches step
    exact .of_shrinks sizes long step.2 (bounds.shrinks before after reaches step)
  · intro whole
    have power : 2 ^ 32 ≤ 2 ^ w := Nat.pow_le_pow_right (by decide) long
    have start : (Scan.initial (w := w) Node codeLen uid).csize.toNat = codeLen.toNat := by
      rw [Scan.initial, BitVec.toNat_setWidth]
      exact Nat.mod_eq_of_lt (by have := codeLen.isLt; omega)
    have balanced : ∀ scan : Scan w Node,
        Scan.Reaches frontEnd code (.initial Node codeLen uid) scan →
          scan.offset.toNat + scan.csize.toNat = codeLen.toNat := by
      intro scan reaches
      rw [reaches.balanced sizes long whole, start]
      · simp [Scan.initial]
      · rw [start]
        have := codeLen.isLt
        simp [Scan.initial]
        omega
    have shrinks : ∀ before after : Scan w Node,
        Scan.Reaches frontEnd code (.initial Node codeLen uid) before →
          before.Step frontEnd code after → after.csize < before.csize := by
      intro before after reaches step
      obtain ⟨isize, nonzero, small, csize, _⟩ :=
        (whole before after reaches step).shrinks sizes long step.2
      rw [csize]
      exact lt_of_sub_of_le nonzero small
    refine ⟨shrinks, ?_, ?_⟩
    · intro scan reaches more
      have total := balanced scan reaches
      have left : scan.csize.toNat ≠ 0 := by
        intro zero
        exact more (BitVec.eq_of_toNat_eq (by simpa using zero))
      omega
    · obtain ⟨last, reaches, stopped⟩ := Scan.Reaches.ends shrinks _ .refl
      refine ⟨last, reaches, ?_⟩
      rcases stopped with done | failed
      · left
        have total := balanced last reaches
        rw [done] at total
        exact ⟨done, by simpa using total⟩
      · exact .inr failed

end

def Operation.ecmaArgs : Operation → OpcodeArgs
  | .ldc .i4s => .int8
  | .ldc .i4 => .int32
  | .ldc .r4 => .float32
  | .ldc .r8 => .float64
  | .br short | .brfalse short | .brtrue short | .branchComparison short _ _ =>
    if short then .shortJump else .longJump
  | .switch => .switch
  | .nop | .ldarg _ | .ldloc _ | .stloc _ | .ldnull | .ldcI4 _ | .dup | .pop | .ret
  | .arithmetic _ | .unary _ | .conv _ | .ldlen | .ldelem | .stelem | .compare _ => .none
  | _ => .other

/-- The tables of the standard, with builders that make a tree of no content
and never stop the compiler. -/
def ecmaFrontEnd : FrontEnd Unit where
  ilMainOpcodeTable opcode :=
    (mainOperation opcode).elim ⟨.other, 1⟩ fun operation =>
      ⟨operation.ecmaArgs, operation.ecmaSize⟩
  ilPrefixOpcodeTable opcode :=
    (prefixedOperation opcode).elim ⟨.other, 2⟩ fun operation =>
      ⟨operation.ecmaArgs, operation.ecmaSize⟩
  assertChecking := true
  ilMethodFromToken _ := some ⟨0, true⟩
  accepts _ _ _ := true
  pushed _ _ _ _ := some ()
  statements _ _ _ := []
  toBoolean _ := some ()
  toUint32 _ := some ()
  comparison _ _ _ _ := some ()

theorem ecmaFrontEnd_sizes : ecmaFrontEnd.EcmaSizes where
  main opcode operation found := by simp [ecmaFrontEnd, found]
  prefixed opcode operation found := by simp [ecmaFrontEnd, found]

def Bytes.ofList (bytes : List Byte) : Bytes := fun index => bytes.getD index 0

/-- The one byte of an `ldc.i4` whose operand is cut off: `csize` becomes
`1 - 5` and the loop goes on. -/
theorem ldcI4_cutOff :
    ¬ StaysInBounds ecmaFrontEnd 64 (.ofList [0x20]) 1 0 := by
  intro bounds
  have step : (Scan.initial (w := 64) Unit 1 0).Step ecmaFrontEnd (.ofList [0x20])
      (((Scan.initial (w := 64) Unit 1 0).round ecmaFrontEnd (.ofList [0x20])).getD
        (.initial Unit 0 0)) := ⟨by decide, rfl⟩
  exact absurd (bounds.shrinks _ _ .refl step) (by decide)

def uncheckedFrontEnd : FrontEnd Unit := { ecmaFrontEnd with assertChecking := false }

/-- The bytes of `ldc.i4.s 5`, of a `switch` without targets and of `ret`. -/
def switchBody : Bytes := .ofList [0x1F, 5, 0x45, 0, 0, 0, 0, 0x2A]

def switchScan (rounds : Nat) : Scan 64 Unit :=
  (fun scan => (scan.round uncheckedFrontEnd switchBody).getD scan)^[rounds] (.initial Unit 8 0)

theorem switchScan_of_reaches {scan : Scan 64 Unit}
    (reaches : Scan.Reaches uncheckedFrontEnd switchBody (.initial Unit 8 0) scan) :
    ∃ rounds < 4, scan = switchScan rounds := by
  induction reaches with
  | refl => exact ⟨0, by decide, rfl⟩
  | tail _ step ih =>
    obtain ⟨rounds, less, rfl⟩ := ih
    have more : rounds ≠ 3 := by
      rintro rfl
      exact step.1 (by decide)
    refine ⟨rounds + 1, by omega, ?_⟩
    rw [switchScan, Function.iterate_succ_apply', ← switchScan, step.2]
    rfl

/-- The body is scanned to its end. -/
theorem scan_staysInBounds_switch : StaysInBounds uncheckedFrontEnd 64 switchBody 8 0 := by
  have sizes : uncheckedFrontEnd.EcmaSizes :=
    ⟨ecmaFrontEnd_sizes.main, ecmaFrontEnd_sizes.prefixed⟩
  refine (scan_staysInBounds_iff sizes (by decide) _ 8 0).mpr fun before _ reaches step => ?_
  obtain ⟨rounds, less, rfl⟩ := switchScan_of_reaches reaches
  intro operation found notSwitch
  obtain rfl | rfl | rfl | rfl : rounds = 0 ∨ rounds = 1 ∨ rounds = 2 ∨ rounds = 3 := by omega
  · obtain rfl := Option.some.inj ((show some (Operation.ldc .i4s) = _ by decide).trans found)
    decide
  · exact absurd (Option.some.inj ((show some Operation.switch = _ by decide).trans found)).symm
      notSwitch
  · obtain rfl := Option.some.inj ((show some Operation.ret = _ by decide).trans found)
    decide
  · exact absurd (show (switchScan 3).csize = 0 by decide) step.1

end GccCil.Cil.BodyScan
