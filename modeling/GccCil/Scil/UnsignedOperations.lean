import GccCil.Scil.Execution

/-!
# Unsigned operations

`div.un`, `rem.un`, `shr.un` and the unsigned comparisons.  ECMA-335 takes both
operands to the wider of their stack types, which has at least 32 bits, and
reads them as unsigned numbers; the front end converts both to the unsigned
type of the operand on top.  `computesEcma_iff` says for which pairs of tracked
types the two are the same function.
-/

namespace GccCil.Scil

open GccCil.Lib

inductive UnsignedInstr where
  | divUn | remUn | shrUn
  | cgtUn | cltUn
  | bgeUn | bgtUn | bleUn | bltUn | bneUn
  deriving DecidableEq, Repr

/-- The instruction; a branch goes to `target`. -/
def UnsignedInstr.instr (target : Nat) : UnsignedInstr → Instr
  | .divUn => .operator .divUn
  | .remUn => .operator .remUn
  | .shrUn => .operator .shrUn
  | .cgtUn => .compare .gtUn
  | .cltUn => .compare .ltUn
  | .bgeUn => .branch .geUn target
  | .bgtUn => .branch .gtUn target
  | .bleUn => .branch .leUn target
  | .bltUn => .branch .ltUn target
  | .bneUn => .branch .neUn target

/-- The instruction has an integer result and not a truth value. -/
def UnsignedInstr.isArithmetic : UnsignedInstr → Bool
  | .divUn | .remUn | .shrUn => true
  | _ => false

/-- The width of the wider ECMA-335 stack type of the operands. -/
def ecmaWidth (type1 type2 : TrackedInt) : Nat :=
  max 32 (max type1.type.precision type2.type.precision)

/-- The ECMA-335 result on words of `w` bits; the result of an arithmetic
instruction as the integer that the stack type represents.  `none` is a
division by zero or a shift count that ECMA-335 leaves unspecified. -/
def ecmaUnsigned (w : Nat) (instr : UnsignedInstr) (x y : Int) : Option Int :=
  let a := BitVec.ofInt w x
  let b := BitVec.ofInt w y
  match instr with
  | .divUn => if b = 0 then none else some (a / b).toInt
  | .remUn => if b = 0 then none else some (a % b).toInt
  | .shrUn => if b.toNat < w then some (a >>> b.toNat).toInt else none
  | .cgtUn | .bgtUn => some (truth (b.toNat < a.toNat))
  | .cltUn | .bltUn => some (truth (a.toNat < b.toNat))
  | .bgeUn => some (truth (b.toNat ≤ a.toNat))
  | .bleUn => some (truth (a.toNat ≤ b.toNat))
  | .bneUn => some (truth (a ≠ b))

/-- What the emitted statements compute: the value left on top of the stack,
or the condition of the branch at their end. -/
def outcome (start : Memory) (state : State) : Option Int :=
  match state.body.getLast? with
  | some (.condGoto condition _ _) =>
    (execStmts start state.body.dropLast).bind fun memory => condition.eval memory
  | _ => do
      let memory ← execStmts start state.body
      let top ← scilStackTop state
      return memory.value top

/-- In every state with operands of these types, the instruction is translated
to statements that compute the ECMA-335 result. -/
def ComputesEcma (instr : UnsignedInstr) (type1 type2 : TrackedInt) : Prop :=
  ∀ (method : Method) (state : State) (start memory : Memory) (op1 op2 : Decl)
    (rest : List Decl),
    Running start state memory → state.size = method.maxStack →
    state.stack.entries = op2 :: op1 :: rest → rest.length < method.maxStack →
    op1.type = .int type1.type → op2.type = .int type2.type →
    type1.type.Holds (memory.value op1) → type2.type.Holds (memory.value op2) →
    ∀ target, ∀ result ∈ ecmaUnsigned (ecmaWidth type1 type2) instr
        (memory.value op1) (memory.value op2),
      ∃ state', execute method (instr.instr target) state = some state' ∧
        outcome start state' = some result

def TrackedInt.unsignedType : TrackedInt → IntType
  | .int8 => .uint8
  | .int16 => .uint16
  | .int32 => .uint32
  | .int64 => .uint64

theorem scilHookUnsignedType_tracked (target : Target) (type : TrackedInt) :
    scilHookUnsignedType target (.int type.type) = some type.unsignedType := by
  cases type <;> rfl

def UnsignedInstr.code : UnsignedInstr → BinaryCode
  | .divUn => .truncDiv
  | .remUn => .truncMod
  | .shrUn => .rshift
  | .cgtUn | .bgtUn => .gt
  | .cltUn | .bltUn => .lt
  | .bgeUn => .ge
  | .bleUn => .le
  | .bneUn => .ne

def UnsignedInstr.resultType (instr : UnsignedInstr) (type2 : TrackedInt) : IntType :=
  if instr.isArithmetic then type2.unsignedType else .bool

def emittedUnsigned (instr : UnsignedInstr) (type2 : TrackedInt) (x y : Int) : Option Int :=
  (instr.code.compute (instr.resultType type2) (type2.unsignedType.wrap x)
    (type2.unsignedType.wrap y)).map (instr.resultType type2).tracked.type.wrap

section Emitted

variable {method : Method} {state : State} {start memory : Memory} {op1 op2 : Decl}
  {rest : List Decl} {type1 type2 : TrackedInt}

def unsignedExpr (instr : UnsignedInstr) (type2 : TrackedInt) (op1 op2 : Decl) : Expr :=
  .binary instr.code (.int (instr.resultType type2))
    (.convert (.int type2.unsignedType) (.decl op1))
    (.convert (.int type2.unsignedType) (.decl op2))

theorem eval_unsignedExpr (instr : UnsignedInstr) :
    (unsignedExpr instr type2 op1 op2).eval memory =
      instr.code.compute (instr.resultType type2) (type2.unsignedType.wrap (memory.value op1))
        (type2.unsignedType.wrap (memory.value op2)) := by
  simp [unsignedExpr, Expr.eval]

theorem unsigned_push (running : Running start state memory)
    (size : state.size = method.maxStack) (entries : state.stack.entries = op2 :: op1 :: rest)
    (room : rest.length < method.maxStack) (instr : UnsignedInstr)
    (type2 : TrackedInt) :
    ∃ state' variable_,
      append (instrPush (.int (instr.resultType type2)) (unsignedExpr instr type2 op1 op2))
        state.popped.popped = some state' ∧ state'.stack.entries = variable_ :: rest ∧
      (state'.body.getLast? = some (.modify (.decl variable_)
        (.convert (.int (instr.resultType type2).tracked.type)
          (unsignedExpr instr type2 op1 op2)))) ∧
      execStmts start state'.body = (instr.code.compute (instr.resultType type2)
          (type2.unsignedType.wrap (memory.value op1))
          (type2.unsignedType.wrap (memory.value op2))).map fun x =>
        memory.set variable_ ((instr.resultType type2).tracked.type.wrap x) := by
  have entries1 : state.popped.stack.entries = op1 :: rest := by simp [State.popped, entries]
  have running2 := (running.popped entries).popped entries1
  have entries2 : state.popped.popped.stack.entries = rest := by
    simp [State.popped, entries]
  have room2 : state.popped.popped.stack.topIndex < state.popped.popped.size := by
    rw [running2.wellFormed.topIndex, entries2]
    exact size ▸ room
  obtain ⟨state', variable_, appended, pushed⟩ := append_push running2.wellFormed room2
    (.int (instr.resultType type2)) (unsignedExpr instr type2 op1 op2)
  refine ⟨state', variable_, appended, pushed.entries.trans (by rw [entries2]), ?_, ?_⟩
  · rw [pushed.body, stackType_int, List.getLast?_append]
    rfl
  · rw [running2.executed_push pushed, eval_unsignedExpr]

theorem execute_arithmetic (entries : state.stack.entries = op2 :: op1 :: rest)
    (type2Eq : op2.type = .int type2.type) {instr : UnsignedInstr}
    (arithmetic : instr.isArithmetic = true) (target : Nat) :
    execute method (instr.instr target) state =
      append (instrPush (.int (instr.resultType type2)) (unsignedExpr instr type2 op1 op2))
        state.popped.popped := by
  have entries1 : state.popped.stack.entries = op1 :: rest := by simp [State.popped, entries]
  have top : scilStackTop state = some op2 := by simp [scilStackTop, entries]
  cases instr <;> first
    | contradiction
    | simp [execute, UnsignedInstr.instr, scilInstrOperator, append, instrBinopUn, top, type2Eq,
        scilHookUnsignedType_tracked, popConvert, scilStackPop_cons entries,
        scilStackPop_cons entries1, unsignedExpr, UnsignedInstr.code, UnsignedInstr.resultType,
        UnsignedInstr.isArithmetic]

/-- The comparison that a comparing or branching instruction makes. -/
def UnsignedInstr.comparison : UnsignedInstr → Comparison
  | .cgtUn | .bgtUn => .gtUn
  | .cltUn | .bltUn => .ltUn
  | .bgeUn => .geUn
  | .bleUn => .leUn
  | _ => .neUn

theorem scilInstrCompare_unsigned (entries : state.stack.entries = op2 :: op1 :: rest)
    (type2Eq : op2.type = .int type2.type) {instr : UnsignedInstr}
    (comparing : instr.isArithmetic = false) (target : Target) :
    scilInstrCompare target instr.comparison state =
      append (instrPush (.int (instr.resultType type2)) (unsignedExpr instr type2 op1 op2))
        state.popped.popped := by
  have entries1 : state.popped.stack.entries = op1 :: rest := by simp [State.popped, entries]
  have top : scilStackTop state = some op2 := by simp [scilStackTop, entries]
  have integer : (Ty.int type2.type).isIntegerType = true := by cases type2 <;> rfl
  cases instr <;> first
    | contradiction
    | simp [scilInstrCompare, UnsignedInstr.comparison, appendCompareUn, top, type2Eq, integer,
        append, instrBinopUnTyped, scilHookUnsignedType_tracked, popConvert,
        scilStackPop_cons entries, scilStackPop_cons entries1, unsignedExpr,
        UnsignedInstr.code, UnsignedInstr.resultType, UnsignedInstr.isArithmetic]

theorem outcome_of_push {variable_ : Decl} {left right : Expr} {state' : State}
    (entries : state'.stack.entries = variable_ :: rest)
    (last : state'.body.getLast? = some (.modify left right)) {computed : Option Int}
    {value : Int → Int}
    (executed : execStmts start state'.body = computed.map fun x =>
      memory.set variable_ (value x)) :
    outcome start state' = computed.map value := by
  unfold outcome
  rw [last, executed]
  cases computed with
  | none => rfl
  | some x => simp [scilStackTop, entries]

theorem truth_eq (condition : Prop) [Decidable condition] :
    truth condition = 0 ∨ truth condition = 1 := by
  unfold truth
  split
  · exact .inr rfl
  · exact .inl rfl

theorem compute_comparison {instr : UnsignedInstr} (comparing : instr.isArithmetic = false)
    (x y : Int) : ∃ value, instr.code.compute .bool x y = some value ∧
      (value = 0 ∨ value = 1) := by
  have wrapped : ∀ (condition : Prop) [Decidable condition],
      IntType.bool.wrap (truth condition) = 0 ∨ IntType.bool.wrap (truth condition) = 1 := by
    intro condition _
    rcases truth_eq condition with equality | equality <;> rw [equality] <;> decide
  cases instr <;> first | contradiction | exact ⟨_, rfl, wrapped _⟩

theorem outcome_branchTrue {variable_ : Decl} {state' : State} (target : Nat)
    (entries : state'.stack.entries = variable_ :: rest) {computed : Option Int}
    {value : Int → Int}
    (executed : execStmts start state'.body = computed.map fun x =>
      memory.set variable_ (value x)) :
    ∃ state'', scilInstrBranchTrue target state' = some state'' ∧
      outcome start state'' = computed.map fun x => IntType.bool.wrap (value x) := by
  refine ⟨_, by simp [scilInstrBranchTrue, popConvert, scilStackPop_cons entries]; rfl, ?_⟩
  unfold outcome
  simp only [scilAppendStmt, instrGoto_body, List.getLast?_append, List.getLast?_singleton,
    Option.some_or, List.dropLast_concat]
  rw [show state'.popped.body = state'.body from rfl, executed]
  cases computed with
  | none => rfl
  | some x => simp [Expr.eval]

theorem outcome_unsigned (running : Running start state memory)
    (size : state.size = method.maxStack) (entries : state.stack.entries = op2 :: op1 :: rest)
    (room : rest.length < method.maxStack) (type2Eq : op2.type = .int type2.type)
    (instr : UnsignedInstr) (target : Nat) :
    ∃ state', execute method (instr.instr target) state = some state' ∧
      outcome start state' =
        emittedUnsigned instr type2 (memory.value op1) (memory.value op2) := by
  obtain ⟨state', variable_, appended, entries', last, executed⟩ :=
    unsigned_push running size entries room instr type2
  cases arithmetic : instr.isArithmetic with
  | true =>
    refine ⟨state', ?_, outcome_of_push entries' last executed⟩
    rw [execute_arithmetic entries type2Eq arithmetic, appended]
  | false =>
    have compared := scilInstrCompare_unsigned entries type2Eq arithmetic method.target
    rw [appended] at compared
    by_cases branching : instr = .cgtUn ∨ instr = .cltUn
    · refine ⟨state', ?_, outcome_of_push entries' last executed⟩
      rcases branching with rfl | rfl
      · exact compared
      · exact compared
    · obtain ⟨state'', branched, result⟩ := outcome_branchTrue target entries' executed
      have resultType : instr.resultType type2 = .bool := by
        simp [UnsignedInstr.resultType, arithmetic]
      have isBranch : instr.instr target = .branch instr.comparison target := by
        cases instr <;> first | contradiction | rfl
      refine ⟨state'', ?_, ?_⟩
      · rw [isBranch]
        simp [execute, compared, branched]
      · rw [result, emittedUnsigned, resultType]
        obtain ⟨value, computed, bit⟩ := compute_comparison arithmetic
          (type2.unsignedType.wrap (memory.value op1))
          (type2.unsignedType.wrap (memory.value op2))
        rw [computed]
        rcases bit with rfl | rfl <;> rfl

end Emitted

/-- The operand on top is at least as wide as the other one and, for a result
that is an integer, has at least 32 bits. -/
def TopIsWide (instr : UnsignedInstr) (type1 type2 : TrackedInt) : Prop :=
  type1.type.precision ≤ type2.type.precision ∧
    (instr.isArithmetic = true → 32 ≤ type2.type.precision)

instance (instr : UnsignedInstr) (type1 type2 : TrackedInt) :
    Decidable (TopIsWide instr type1 type2) :=
  inferInstanceAs (Decidable (_ ∧ (_ → _)))

section Agreement

variable {type type1 type2 : TrackedInt}

@[simp]
theorem TrackedInt.precision_unsignedType (type : TrackedInt) :
    type.unsignedType.precision = type.type.precision := by
  cases type <;> rfl

@[simp]
theorem TrackedInt.tracked_unsignedType (type : TrackedInt) :
    type.unsignedType.tracked = type := by
  cases type <;> rfl

theorem TrackedInt.wrap_unsignedType (type : TrackedInt) (x : Int) :
    type.unsignedType.wrap x = (BitVec.ofInt type.type.precision x).toNat := by
  have positive : (0 : Int) < (2 ^ type.type.precision : Nat) := by positivity
  have unsigned : type.unsignedType.unsigned = true := by cases type <;> rfl
  rw [IntType.wrap, unsigned, wrap_unsigned, BitVec.toNat_ofInt, type.precision_unsignedType,
    Int.toNat_of_nonneg (Int.emod_nonneg _ positive.ne')]

theorem TrackedInt.wrap_toNat (word : BitVec type.type.precision) :
    type.type.wrap (type.unsignedType.wrap word.toNat) = word.toInt := by
  rw [type.wrap_unsignedType, BitVec.ofInt_natCast, BitVec.ofNat_toNat, BitVec.setWidth_eq,
    IntType.wrap, type.unsigned_type, wrap_signed, BitVec.toInt_eq_toNat_bmod]

theorem emitted_arithmetic {instr : UnsignedInstr} (arithmetic : instr.isArithmetic = true)
    {x y result : Int} (defined : ecmaUnsigned type.type.precision instr x y = some result) :
    emittedUnsigned instr type x y = some result := by
  unfold emittedUnsigned UnsignedInstr.resultType
  rw [if_pos arithmetic, type.tracked_unsignedType, type.wrap_unsignedType,
    type.wrap_unsignedType]
  simp only [ecmaUnsigned] at defined
  generalize BitVec.ofInt type.type.precision x = a at defined ⊢
  generalize BitVec.ofInt type.type.precision y = b at defined ⊢
  have positive (nonzero : ¬ b = 0) : ¬ (b.toNat : Int) = 0 := fun zero =>
    nonzero (BitVec.eq_of_toNat_eq (by simpa using zero))
  cases instr with
  | divUn =>
    dsimp only at defined
    split at defined
    case isTrue => contradiction
    case isFalse nonzero =>
      cases defined
      simp only [UnsignedInstr.code, BinaryCode.compute, if_neg (positive nonzero), Option.map_some]
      rw [← Int.ofNat_tdiv, ← BitVec.toNat_udiv, TrackedInt.wrap_toNat]
  | remUn =>
    dsimp only at defined
    split at defined
    case isTrue => contradiction
    case isFalse nonzero =>
      cases defined
      simp only [UnsignedInstr.code, BinaryCode.compute, if_neg (positive nonzero), Option.map_some]
      rw [← Int.ofNat_tmod, ← BitVec.toNat_umod, TrackedInt.wrap_toNat]
  | shrUn =>
    dsimp only at defined
    split at defined
    case isFalse => contradiction
    case isTrue small =>
      cases defined
      have small' : 0 ≤ (b.toNat : Int) ∧
          (b.toNat : Int) < (type.unsignedType.precision : Nat) := by
        rw [type.precision_unsignedType]
        omega
      have shifted : (a.toNat : Int) / 2 ^ b.toNat = ((a >>> b.toNat).toNat : Nat) := by
        rw [BitVec.toNat_ushiftRight, Nat.shiftRight_eq_div_pow]
        push_cast
        rfl
      simp only [UnsignedInstr.code, BinaryCode.compute, if_pos small', Option.map_some,
        Int.toNat_natCast]
      rw [shifted, TrackedInt.wrap_toNat]
  | _ => contradiction

theorem toNat_lt_iff {v w : Nat} (narrower : v ≤ w) {x y : Int} (xFits : InRange false v x)
    (yFits : InRange false v y) :
    (BitVec.ofInt v x).toNat < (BitVec.ofInt v y).toNat ↔
      (BitVec.ofInt w x).toNat < (BitVec.ofInt w y).toNat := by
  have reading : ∀ (u : Nat) (z : Int), v ≤ u → InRange false v z →
      ((BitVec.ofInt u z).toNat : Int) = if z < 0 then z + (2 ^ u : Nat) else z := by
    intro u z wide fits
    have powers : 2 ^ v ≤ 2 ^ u := Nat.pow_le_pow_right (by omega) wide
    rw [inRange_signed] at fits
    rw [BitVec.toNat_ofInt, Int.toNat_of_nonneg (Int.emod_nonneg _ (by positivity))]
    split
    · rw [← Int.add_emod_right, Int.emod_eq_of_lt (by omega) (by omega)]
    · exact Int.emod_eq_of_lt (by omega) (by omega)
  have powers : 2 ^ v ≤ 2 ^ w := Nat.pow_le_pow_right (by omega) narrower
  have narrowX := reading v x (Nat.le_refl v) xFits
  have narrowY := reading v y (Nat.le_refl v) yFits
  have wideX := reading w x narrower xFits
  have wideY := reading w y narrower yFits
  rw [inRange_signed] at xFits yFits
  rw [← Int.ofNat_lt, ← Int.ofNat_lt, narrowX, narrowY, wideX, wideY]
  split_ifs <;> omega

theorem wrap_truth (condition : Prop) [Decidable condition] :
    IntType.int8.wrap (IntType.bool.wrap (truth condition)) = truth condition := by
  rcases truth_eq condition with equality | equality <;> rw [equality] <;> decide

theorem truth_congr {first second : Prop} [Decidable first] [Decidable second]
    (equivalent : first ↔ second) : truth first = truth second := by
  simp [truth, equivalent]

theorem emitted_comparison {instr : UnsignedInstr} (comparing : instr.isArithmetic = false)
    {w : Nat} (narrower : type.type.precision ≤ w) {x y result : Int}
    (xHolds : type.type.Holds x) (yHolds : type.type.Holds y)
    (defined : ecmaUnsigned w instr x y = some result) :
    emittedUnsigned instr type x y = some result := by
  unfold IntType.Holds at xHolds yHolds
  rw [type.unsigned_type] at xHolds yHolds
  have less := toNat_lt_iff narrower xHolds yHolds
  have greater := toNat_lt_iff narrower yHolds xHolds
  have differ : BitVec.ofInt w x ≠ BitVec.ofInt w y ↔
      (BitVec.ofInt w x).toNat < (BitVec.ofInt w y).toNat ∨
      (BitVec.ofInt w y).toNat < (BitVec.ofInt w x).toNat := by
    rw [ne_eq, ← BitVec.toNat_inj]
    omega
  unfold emittedUnsigned UnsignedInstr.resultType
  rw [if_neg (by simp [comparing]), type.wrap_unsignedType, type.wrap_unsignedType]
  have stored : ∀ (condition : Prop) [Decidable condition],
      (some (IntType.bool.wrap (truth condition))).map IntType.bool.tracked.type.wrap =
        some (truth condition) := by
    intro condition _
    exact congrArg some (wrap_truth condition)
  cases instr with
  | cgtUn => cases defined; exact (stored _).trans (congrArg some (truth_congr (by omega)))
  | cltUn => cases defined; exact (stored _).trans (congrArg some (truth_congr (by omega)))
  | bgeUn => cases defined; exact (stored _).trans (congrArg some (truth_congr (by omega)))
  | bgtUn => cases defined; exact (stored _).trans (congrArg some (truth_congr (by omega)))
  | bleUn => cases defined; exact (stored _).trans (congrArg some (truth_congr (by omega)))
  | bltUn => cases defined; exact (stored _).trans (congrArg some (truth_congr (by omega)))
  | bneUn =>
    cases defined
    refine (stored _).trans (congrArg some (truth_congr ?_))
    rw [differ]
    omega
  | _ => contradiction

/-- Values on which an instruction goes wrong when the top operand is too
narrow. -/
def failingValues (instr : UnsignedInstr) (type2 : TrackedInt) : Int × Int :=
  match instr with
  | .divUn => (-1, 2)
  | .remUn => (-1, 11)
  | .shrUn => (-1, 1)
  | .cgtUn | .bgtUn | .bleUn | .bneUn => (2 ^ type2.type.precision, 0)
  | .cltUn | .bltUn | .bgeUn => (2 ^ type2.type.precision, 1)

theorem failingValues_spec (instr : UnsignedInstr) (narrow : ¬ TopIsWide instr type1 type2) :
    type1.type.Holds (failingValues instr type2).1 ∧
      type2.type.Holds (failingValues instr type2).2 ∧
      ∃ result, ecmaUnsigned (ecmaWidth type1 type2) instr (failingValues instr type2).1
          (failingValues instr type2).2 = some result ∧
        emittedUnsigned instr type2 (failingValues instr type2).1
          (failingValues instr type2).2 ≠ some result := by
  cases instr <;> cases type1 <;> cases type2 <;> first
    | exact absurd (by decide) narrow
    | exact ⟨by decide, by decide, _, rfl, by decide⟩

theorem ecmaWidth_of_wide {instr : UnsignedInstr} (wide : TopIsWide instr type1 type2)
    (arithmetic : instr.isArithmetic = true) :
    ecmaWidth type1 type2 = type2.type.precision := by
  have := wide.2 arithmetic
  have := wide.1
  unfold ecmaWidth
  omega

theorem TopIsWide.computesEcma {instr : UnsignedInstr} (wide : TopIsWide instr type1 type2) :
    ComputesEcma instr type1 type2 := by
  intro method state start memory op1 op2 rest running size entries room _ type2Eq
    holds1 holds2 target result defined
  obtain ⟨state', executed, outcomeEq⟩ :=
    outcome_unsigned running size entries room type2Eq instr target
  refine ⟨state', executed, outcomeEq.trans ?_⟩
  cases arithmetic : instr.isArithmetic with
  | true =>
    rw [ecmaWidth_of_wide wide arithmetic] at defined
    exact emitted_arithmetic arithmetic defined
  | false =>
    have holds1' : type2.type.Holds (memory.value op1) :=
      TrackedInt.holds_mono wide.1 holds1
    have narrower : type2.type.precision ≤ ecmaWidth type1 type2 := by
      unfold ecmaWidth
      omega
    exact emitted_comparison arithmetic narrower holds1' holds2 defined

theorem two_constants {x y : Int} (xHolds : type1.type.Holds x) (yHolds : type2.type.Holds y) :
    ∃ state memory op1 op2, Running zeroMemory state memory ∧
      state.size = oneLocal.maxStack ∧ state.stack.entries = [op2, op1] ∧
      op1.type = .int type1.type ∧ op2.type = .int type2.type ∧
      memory.value op1 = x ∧ memory.value op2 = y := by
  have initial : Running zeroMemory (State.initial oneLocal.maxStack 0) zeroMemory :=
    ⟨State.initial_wellFormed _ _, rfl⟩
  obtain ⟨state1, op1, -, pushed1⟩ := append_push initial.wellFormed (by decide)
    (.int type1.type) (.intCst type1.type x)
  have running1 := initial.push pushed1 (x := type1.type.wrap x) rfl
  have room : state1.stack.topIndex < state1.size := by
    rw [running1.wellFormed.topIndex, pushed1.entries, pushed1.size]
    simp [State.initial, oneLocal]
  obtain ⟨state2, op2, -, pushed2⟩ := append_push running1.wellFormed room
    (.int type2.type) (.intCst type2.type y)
  have running2 := running1.push pushed2 (x := type2.type.wrap y) rfl
  have different : op1 ≠ op2 := pushed2.fresh op1 (by simp [pushed1.entries])
  refine ⟨state2, _, op1, op2, running2, pushed2.size.trans pushed1.size, ?_, ?_, ?_, ?_, ?_⟩
  · rw [pushed2.entries, pushed1.entries]
    rfl
  · rw [pushed1.typeEq, stackType_int, TrackedInt.tracked_type]
  · rw [pushed2.typeEq, stackType_int, TrackedInt.tracked_type]
  · rw [Memory.set_value_of_ne _ _ different, Memory.set_value_self, TrackedInt.tracked_type,
      IntType.wrap_of_holds xHolds, IntType.wrap_of_holds xHolds]
  · rw [Memory.set_value_self, TrackedInt.tracked_type, IntType.wrap_of_holds yHolds,
      IntType.wrap_of_holds yHolds]

theorem ComputesEcma.topIsWide {instr : UnsignedInstr}
    (computes : ComputesEcma instr type1 type2) : TopIsWide instr type1 type2 := by
  by_contra narrow
  obtain ⟨xHolds, yHolds, result, defined, wrong⟩ := failingValues_spec instr narrow
  obtain ⟨state, memory, op1, op2, running, size, entries, type1Eq, type2Eq, value1, value2⟩ :=
    two_constants xHolds yHolds
  obtain ⟨state', executed, right⟩ := computes oneLocal state _ memory op1 op2 [] running size
    entries (by decide) type1Eq type2Eq (value1 ▸ xHolds) (value2 ▸ yHolds) 0 result
    (by rw [value1, value2]; exact defined)
  obtain ⟨state'', executed', emitted⟩ :=
    outcome_unsigned running size entries (by decide) type2Eq instr 0
  cases executed.symm.trans executed'
  rw [value1, value2] at emitted
  exact wrong (emitted.symm.trans right)

end Agreement

/-- An unsigned instruction computes the ECMA-335 result on all operands of two
tracked types exactly when the type on top is wide enough. -/
theorem computesEcma_iff (instr : UnsignedInstr) (type1 type2 : TrackedInt) :
    ComputesEcma instr type1 type2 ↔ TopIsWide instr type1 type2 :=
  ⟨ComputesEcma.topIsWide, TopIsWide.computesEcma⟩

/-- `ldc.i4.m1; ldc.i4.2; div.un` leaves 127: both constants are `int8`, so the
division is one of 8 bits. -/
theorem divUn_int8 :
    ((parseInstructions oneLocal [(0, .ldcI4Short (-1)), (1, .ldcI4Short 2),
        (2, .operator .divUn)] (State.initial 8 0)).bind fun state =>
      outcome zeroMemory state) = some 127 ∧
    ecmaUnsigned (ecmaWidth .int8 .int8) .divUn (-1) 2 = some 2147483647 ∧
    ¬ ComputesEcma .divUn .int8 .int8 := by
  refine ⟨by decide, by decide, ?_⟩
  intro computes
  exact absurd computes.topIsWide (by decide)

end GccCil.Scil
