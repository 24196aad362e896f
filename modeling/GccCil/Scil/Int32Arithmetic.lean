import GccCil.Scil.Execution
import GccCil.Scil.StackEffect

/-!
# Arithmetic on int32 locals

Straight-line code over `int32` locals, run by the ECMA-335 machine with 32-bit
words and by the statements that the front end emits for it.  The front end
computes in the wider of the two tracked types, which can be narrower than 32
bits: the two agree step by step exactly as long as every result fits the type
it is computed in.
-/

namespace GccCil.Scil

open GccCil.Lib

structure Machine where
  stack : List (BitVec 32)
  locals : List (BitVec 32)

def int32Binary (operator : Operator) (x y : BitVec 32) : Option (BitVec 32) :=
  match operator with
  | .add => some (x + y)
  | .sub => some (x - y)
  | .mul => some (x * y)
  | .and => some (x &&& y)
  | .or => some (x ||| y)
  | .xor => some (x ^^^ y)
  | .shl => if y.toNat < 32 then some (x <<< y.toNat) else none
  | .shr => if y.toNat < 32 then some (x.sshiftRight y.toNat) else none
  | .div | .divUn | .remUn | .shrUn => none

namespace Machine

def push (maxStack : Nat) (machine : Machine) (x : BitVec 32) : Option Machine :=
  if machine.stack.length < maxStack then some { machine with stack := x :: machine.stack }
  else none

/-- One instruction; `none` for an instruction outside the fragment, an operand
that its encoding cannot hold, an underflow or a push above `maxStack`. -/
def step (maxStack : Nat) (instr : Instr) (machine : Machine) : Option Machine :=
  match instr, machine.stack with
  | .ldcI4Short constant, _ =>
    if -1 ≤ constant ∧ constant ≤ 8 then machine.push maxStack (BitVec.ofInt 32 constant)
    else none
  | .ldcI4S byte, _ => machine.push maxStack ((BitVec.ofNat 8 byte).signExtend 32)
  | .ldcI4 constant, _ => machine.push maxStack (BitVec.ofInt 32 constant)
  | .ldloc index, _ => do machine.push maxStack (← machine.locals[index]?)
  | .stloc index, x :: rest =>
    if index < machine.locals.length then some ⟨rest, machine.locals.set index x⟩ else none
  | .dup, x :: _ => machine.push maxStack x
  | .pop, _ :: rest => some { machine with stack := rest }
  | .operator operator, y :: x :: rest => do
      push maxStack { machine with stack := rest } (← int32Binary operator x y)
  | .neg, x :: rest => push maxStack { machine with stack := rest } (-x)
  | .not, x :: rest => push maxStack { machine with stack := rest } (~~~x)
  | _, _ => none

def run (maxStack : Nat) : List (Nat × Instr) → Machine → Option Machine
  | [], machine => some machine
  | (_, instr) :: rest, machine => do run maxStack rest (← machine.step maxStack instr)

end Machine

/-- The result of the step fits the type that the front end computes it in,
and a shift count is below the width of that type. -/
def FitsStep (target : Target) (instr : Instr) (types : List Ty) (machine : Machine) : Prop :=
  match instr, types, machine.stack with
  | .operator operator, type2 :: type1 :: _, y :: x :: _ =>
    match widerType target type1 type2 with
    | .int type =>
      (operator = .shl ∨ operator = .shr → y.toNat < type.precision) ∧
      ∀ result ∈ int32Binary operator x y, type.Holds result.toInt
    | _ => True
  | .neg, .int type :: _, x :: _ => type.Holds (-x).toInt
  | _, _, _ => True

def FitsRun (method : Method) : List (Nat × Instr) → List Ty → Machine → Prop
  | [], _, _ => True
  | (_, instr) :: rest, types, machine =>
    FitsStep method.target instr types machine ∧
    ∀ types' machine', stackEffect method instr types = some types' →
      machine.step method.maxStack instr = some machine' →
        FitsRun method rest types' machine'

section Compute

variable {type : TrackedInt}

theorem TrackedInt.wrap_eq (type : TrackedInt) (x : Int) :
    type.type.wrap x = Int.bmod x (2 ^ type.type.precision) := by
  rw [IntType.wrap, type.unsigned_type, wrap_signed]

theorem TrackedInt.wrap_bmod (narrow : type.type.precision ≤ 32) (x : Int) :
    type.type.wrap (Int.bmod x (2 ^ 32)) = type.type.wrap x := by
  rw [← wrap_signed]
  exact wrap_wrap_of_le narrow _ false x

theorem toInt_eq_toNat_of_lt_32 {y : BitVec 32} (small : y.toNat < 32) :
    y.toInt = y.toNat :=
  BitVec.toInt_eq_toNat_of_lt (by omega)

theorem wrap_shiftLeft (narrow : type.type.precision ≤ 32) (x : BitVec 32) (n : Nat) :
    type.type.wrap (x.toInt * 2 ^ n) = type.type.wrap (x <<< n).toInt := by
  rw [BitVec.toInt_shiftLeft, type.wrap_bmod narrow, Nat.shiftLeft_eq]
  push_cast
  have residue : x.toInt ≡ x.toNat [ZMOD (2 ^ 32 : Nat)] := by
    rw [BitVec.toInt_eq_toNat_bmod]
    exact Int.bmod_emod
  exact wrap_congr _ (modEq_of_le narrow (residue.mul_right _))

theorem bitwise_toInt (operation : (w : Nat) → BitVec w → BitVec w → BitVec w)
    (narrow : type.type.precision ≤ 32)
    (extends_ : ∀ a b : BitVec type.type.precision,
      operation 32 (a.signExtend 32) (b.signExtend 32) = (operation _ a b).signExtend 32)
    {x y : BitVec 32} (xHolds : type.type.Holds x.toInt) (yHolds : type.type.Holds y.toInt) :
    bitwise operation type.type.precision x.toInt y.toInt = (operation 32 x y).toInt := by
  unfold IntType.Holds at xHolds yHolds
  rw [TrackedInt.unsigned_type] at xHolds yHolds
  rw [bitwise_eq_of_le narrow extends_ xHolds yHolds, bitwise, BitVec.ofInt_toInt,
    BitVec.ofInt_toInt]

end Compute

/-- The tree code of the operators that `append_binop` translates. -/
def Operator.binop? : Operator → Option BinaryCode
  | .add => some .plus
  | .sub => some .minus
  | .mul => some .mult
  | .and => some .bitAnd
  | .or => some .bitIor
  | .xor => some .bitXor
  | .shl => some .lshift
  | .shr => some .rshift
  | .div | .divUn | .remUn | .shrUn => none

theorem scilInstrOperator_binop {operator : Operator} {code : BinaryCode}
    (binop : operator.binop? = some code) (target : Target) (state : State) :
    scilInstrOperator target operator state = append (instrBinop target code) state := by
  cases operator <;> cases binop <;> rfl

/-- An operation built with a narrow type computes the 32-bit result modulo
the narrow width; a shift count has to be below that width. -/
theorem compute_eq {operator : Operator} {x y result : BitVec 32}
    (defined : int32Binary operator x y = some result) {type : TrackedInt}
    (narrow : type.type.precision ≤ 32)
    (xHolds : type.type.Holds x.toInt) (yHolds : type.type.Holds y.toInt) :
    ∃ code, operator.binop? = some code ∧
      code.compute type.type x.toInt y.toInt =
        if operator = .shl ∨ operator = .shr → y.toNat < type.type.precision
        then some (type.type.wrap result.toInt) else none := by
  cases operator with
  | add =>
    cases defined
    refine ⟨_, rfl, ?_⟩
    rw [BitVec.toInt_add, type.wrap_bmod narrow]
    simp [BinaryCode.compute]
  | sub =>
    cases defined
    refine ⟨_, rfl, ?_⟩
    rw [BitVec.toInt_sub, type.wrap_bmod narrow]
    simp [BinaryCode.compute]
  | mul =>
    cases defined
    refine ⟨_, rfl, ?_⟩
    rw [BitVec.toInt_mul, type.wrap_bmod narrow]
    simp [BinaryCode.compute]
  | and =>
    cases defined
    refine ⟨_, rfl, ?_⟩
    have equal := bitwise_toInt (fun _ => (· &&& ·)) narrow
      (fun _ _ => BitVec.signExtend_and.symm) xHolds yHolds
    simp only [BinaryCode.compute, equal]
    simp
  | or =>
    cases defined
    refine ⟨_, rfl, ?_⟩
    have equal := bitwise_toInt (fun _ => (· ||| ·)) narrow
      (fun _ _ => BitVec.signExtend_or.symm) xHolds yHolds
    simp only [BinaryCode.compute, equal]
    simp
  | xor =>
    cases defined
    refine ⟨_, rfl, ?_⟩
    have equal := bitwise_toInt (fun _ => (· ^^^ ·)) narrow
      (fun _ _ => BitVec.signExtend_xor.symm) xHolds yHolds
    simp only [BinaryCode.compute, equal]
    simp
  | shl =>
    simp only [int32Binary] at defined
    split at defined
    case isFalse => contradiction
    case isTrue small =>
      cases defined
      refine ⟨_, rfl, ?_⟩
      simp only [BinaryCode.compute, toInt_eq_toNat_of_lt_32 small, Int.toNat_natCast,
        wrap_shiftLeft narrow, true_or, true_imp_iff, Int.natCast_nonneg, true_and,
        Nat.cast_lt]
  | shr =>
    simp only [int32Binary] at defined
    split at defined
    case isFalse => contradiction
    case isTrue small =>
      cases defined
      refine ⟨_, rfl, ?_⟩
      simp only [BinaryCode.compute, toInt_eq_toNat_of_lt_32 small, Int.toNat_natCast,
        BitVec.toInt_sshiftRight, Int.shiftRight_eq_div_pow, or_true, true_imp_iff,
        Int.natCast_nonneg, true_and, Nat.cast_lt]
      norm_cast
  | div => contradiction
  | divUn => contradiction
  | remUn => contradiction
  | shrUn => contradiction

/-- The declaration of an `int32` local. -/
def int32Local (index : Nat) : Decl where
  kind := .methodVariable
  index := index
  type := .int .int32

/-- A method whose locals are `count` variables of type `int32`. -/
def HasInt32Locals (method : Method) (count : Nat) : Prop :=
  method.locals = (List.range count).map int32Local

theorem HasInt32Locals.getElem? {method : Method} {count index : Nat}
    (hasLocals : HasInt32Locals method count) (bound : index < count) :
    method.locals[index]? = some (int32Local index) := by
  rw [hasLocals, List.getElem?_map, List.getElem?_range bound]
  rfl

def LocalsAgree (memory : Memory) (machine : Machine) : Prop :=
  ∀ index x, machine.locals[index]? = some x → memory.value (int32Local index) = x.toInt

structure Matches (state : State) (memory : Memory) (machine : Machine) : Prop where
  stack : state.stack.entries.map memory.value = machine.stack.map BitVec.toInt
  locals : LocalsAgree memory machine

structure Carries (memory : Memory) (entry : Decl) (type : TrackedInt) (x : BitVec 32) :
    Prop where
  typeEq : entry.type = .int type.type
  narrow : type.type.precision ≤ 32
  holds : type.type.Holds x.toInt
  value : memory.value entry = x.toInt

structure Agree (method : Method) (count : Nat) (start : Memory) (state : State)
    (memory : Memory) (machine : Machine) : Prop where
  running : Running start state memory
  size : state.size = method.maxStack
  unsaved : ∀ label stack, state.labelData label ≠ .saved stack
  stack : List.Forall₂ (fun entry x => ∃ type, Carries memory entry type x)
    state.stack.entries machine.stack
  count : machine.locals.length = count
  locals : LocalsAgree memory machine

section Simulation

variable {method : Method} {count : Nat} {start memory : Memory} {state : State}
  {machine : Machine}

theorem Agree.matches (agree : Agree method count start state memory machine) :
    Matches state memory machine := by
  refine ⟨?_, agree.locals⟩
  have stack := agree.stack
  generalize state.stack.entries = entries at stack ⊢
  generalize machine.stack = values at stack ⊢
  induction stack with
  | nil => rfl
  | cons related _ ih =>
    obtain ⟨type, carries⟩ := related
    simp [carries.value, ih]

theorem Carries.set {entry : Decl} {type : TrackedInt} {x : BitVec 32}
    (carries : Carries memory entry type x) {decl : Decl} (different : entry ≠ decl) (y : Int) :
    Carries (memory.set decl y) entry type x :=
  ⟨carries.typeEq, carries.narrow, carries.holds,
    (memory.set_value_of_ne y different).trans carries.value⟩

theorem forall_carries_set {entries : List Decl} {values : List (BitVec 32)} {decl : Decl}
    (different : ∀ entry ∈ entries, entry ≠ decl) (y : Int)
    (carried : List.Forall₂ (fun entry x => ∃ type, Carries memory entry type x)
      entries values) :
    List.Forall₂ (fun entry x => ∃ type, Carries (memory.set decl y) entry type x)
      entries values := by
  induction carried with
  | nil => exact .nil
  | cons related _ ih =>
    obtain ⟨type, carries⟩ := related
    refine .cons ⟨type, carries.set (different _ List.mem_cons_self) y⟩
      (ih fun entry membership => ?_)
    exact different entry (List.mem_cons_of_mem _ membership)

theorem Agree.push (agree : Agree method count start state memory machine) {type : IntType}
    {expr : Expr} {state' : State} {variable_ : Decl}
    (pushed : Pushed state (.int type) expr state' variable_)
    (narrow : type.tracked.type.precision ≤ 32) {value : Int}
    (evaluated : expr.eval memory = some value) {x : BitVec 32}
    (exact_ : type.tracked.type.wrap value = x.toInt) :
    Agree method count start state' (memory.set variable_ x.toInt)
      { machine with stack := x :: machine.stack } where
  running := exact_ ▸ agree.running.push pushed evaluated
  size := pushed.size.trans agree.size
  unsaved := by
    rw [pushed.labelData]
    exact agree.unsaved
  stack := by
    rw [pushed.entries]
    refine .cons ⟨type.tracked, ?_, narrow, ?_, by simp⟩
      (forall_carries_set pushed.fresh _ agree.stack)
    · rw [pushed.typeEq, stackType_int]
    · rw [← exact_]
      exact IntType.wrap_holds _ _
  count := agree.count
  locals := by
    intro index y present
    have different : int32Local index ≠ variable_ := by
      intro same
      have kind := pushed.kind
      rw [← same] at kind
      contradiction
    rw [memory.set_value_of_ne _ different]
    exact agree.locals index y present

theorem Running.push_matches (running : Running start state memory) {type : IntType}
    {expr : Expr} {state' : State} {variable_ : Decl}
    (pushed : Pushed state (.int type) expr state' variable_) {memory' : Memory}
    (executed : execStmts start state'.body = some memory') {x : BitVec 32}
    {rest : List (BitVec 32)} {locals : List (BitVec 32)}
    (same : Matches state' memory' ⟨x :: rest, locals⟩) :
    ∃ value, expr.eval memory = some value ∧ type.tracked.type.wrap value = x.toInt := by
  rw [running.executed_push pushed, Option.map_eq_some_iff] at executed
  obtain ⟨value, evaluated, rfl⟩ := executed
  refine ⟨value, evaluated, ?_⟩
  have stack := same.stack
  rw [pushed.entries] at stack
  simpa using (List.cons.inj stack).1

theorem Agree.room (agree : Agree method count start state memory machine)
    (room : machine.stack.length < method.maxStack) :
    state.stack.topIndex < state.size := by
  rw [agree.size, agree.running.wellFormed.topIndex, agree.stack.length_eq]
  exact room

theorem Agree.pop (agree : Agree method count start state memory machine) {x : BitVec 32}
    {rest : List (BitVec 32)} (stack : machine.stack = x :: rest) :
    ∃ entry type, scilStackPop state = some (entry, state.popped) ∧
      scilStackTop state = some entry ∧ Carries memory entry type x ∧
      state.types = .int type.type :: state.popped.types ∧
      Agree method count start state.popped memory { machine with stack := rest } := by
  have related := agree.stack
  rw [stack] at related
  cases entries : state.stack.entries with
  | nil =>
    rw [entries] at related
    cases related
  | cons entry below =>
    rw [entries] at related
    obtain ⟨⟨type, carries⟩, relatedRest⟩ := List.forall₂_cons.mp related
    refine ⟨entry, type, scilStackPop_cons entries, by simp [scilStackTop, entries], carries,
      ?_, agree.running.popped entries, agree.size, agree.unsaved, ?_, agree.count,
      agree.locals⟩
    · simp [State.types, State.popped, entries, carries.typeEq]
    · simpa [State.popped, entries] using relatedRest

theorem Agree.setLabel (agree : Agree method count start state memory machine) (offset : Nat) :
    Agree method count start (scilSetLabel offset state) memory machine ∧
      (scilSetLabel offset state).types = state.types := by
  obtain ⟨running, stackEq, unsaved⟩ := agree.running.setLabel agree.unsaved offset
  refine ⟨⟨running, by simpa using agree.size, unsaved, ?_, agree.count, agree.locals⟩, ?_⟩
  · rw [stackEq]
    exact agree.stack
  · rw [State.types, stackEq]
    rfl

theorem Agree.pushStep (agree : Agree method count start state memory machine)
    (room : machine.stack.length < method.maxStack) (type : IntType) {expr : Expr}
    (narrow : type.tracked.type.precision ≤ 32) {x : BitVec 32} {fits : Prop}
    (fits_iff : fits ↔ ∃ value, expr.eval memory = some value ∧
      type.tracked.type.wrap value = x.toInt) :
    ∃ state', append (instrPush (.int type) expr) state = some state' ∧
      (fits → ∃ memory', Agree method count start state' memory'
        { machine with stack := x :: machine.stack }) ∧
      (∀ memory', execStmts start state'.body = some memory' →
        Matches state' memory' { machine with stack := x :: machine.stack } → fits) := by
  obtain ⟨state', variable_, appended, pushed⟩ :=
    append_push agree.running.wellFormed (agree.room room) (.int type) expr
  refine ⟨state', appended, ?_, ?_⟩
  · intro fitting
    obtain ⟨value, evaluated, exact_⟩ := fits_iff.mp fitting
    exact ⟨_, agree.push pushed narrow evaluated exact_⟩
  · intro memory' executed same
    exact fits_iff.mpr (agree.running.push_matches pushed executed same)

theorem Agree.pushConstant (agree : Agree method count start state memory machine)
    (room : machine.stack.length < method.maxStack) (type : TrackedInt) {constant : Int}
    (narrow : type.type.precision ≤ 32) {x : BitVec 32}
    (exact_ : type.type.wrap constant = x.toInt) :
    ∃ state', scilInstrPushInteger constant type.type state = some state' ∧
      (True → ∃ memory', Agree method count start state' memory'
        { machine with stack := x :: machine.stack }) ∧
      (∀ memory', execStmts start state'.body = some memory' →
        Matches state' memory' { machine with stack := x :: machine.stack } → True) := by
  refine agree.pushStep room _ (by simpa using narrow) ⟨fun _ => ?_, fun _ => trivial⟩
  refine ⟨type.type.wrap constant, rfl, ?_⟩
  rw [TrackedInt.tracked_type, exact_]
  refine IntType.wrap_of_holds ?_
  rw [← exact_]
  exact IntType.wrap_holds _ _

theorem widerType_tracked (target : Target) (type1 type2 : TrackedInt) :
    ∃ type : TrackedInt, widerType target (.int type1.type) (.int type2.type) = .int type.type ∧
      type1.type.precision ≤ type.type.precision ∧
      type2.type.precision ≤ type.type.precision ∧
      (type = type1 ∨ type = type2) := by
  unfold widerType
  split
  case isTrue wider =>
    exact ⟨type2, rfl, Nat.le_of_lt wider, Nat.le_refl _, .inr rfl⟩
  case isFalse notWider =>
    exact ⟨type1, rfl, Nat.le_refl _, Nat.le_of_not_lt notWider, .inl rfl⟩

theorem Agree.binaryStep (agree : Agree method count start state memory machine)
    {operator : Operator} {x y result : BitVec 32} {rest : List (BitVec 32)}
    (stack : machine.stack = y :: x :: rest)
    (defined : int32Binary operator x y = some result)
    (room : rest.length < method.maxStack) :
    ∃ state', scilInstrOperator method.target operator state = some state' ∧
      (FitsStep method.target (.operator operator) state.types machine →
        ∃ memory', Agree method count start state' memory'
          { machine with stack := result :: rest }) ∧
      (∀ memory', execStmts start state'.body = some memory' →
        Matches state' memory' { machine with stack := result :: rest } →
        FitsStep method.target (.operator operator) state.types machine) := by
  obtain ⟨op2, type2, popped2, -, carries2, types2, agree2⟩ := agree.pop stack
  obtain ⟨op1, type1, popped1, -, carries1, types1, agree1⟩ := agree2.pop rfl
  obtain ⟨type, wider, le1, le2, choice⟩ := widerType_tracked method.target type1 type2
  have narrow : type.type.precision ≤ 32 := by
    rcases choice with rfl | rfl
    · exact carries1.narrow
    · exact carries2.narrow
  obtain ⟨code, binop, computed⟩ := compute_eq defined narrow
    (TrackedInt.holds_mono le1 carries1.holds) (TrackedInt.holds_mono le2 carries2.holds)
  -- The statement is a push of the operation on the two popped operands.
  have statement : scilInstrOperator method.target operator state =
      append (instrPush (.int type.type) (.binary code (.int type.type)
        (widen method.target (.int type1.type) (.int type2.type) (.decl op1))
        (widen method.target (.int type2.type) (.int type1.type) (.decl op2))))
        state.popped.popped := by
    rw [scilInstrOperator_binop binop]
    simp [append, instrBinop, popped2, popped1, carries1.typeEq, carries2.typeEq, wider]
  have evaluated : (Expr.binary code (.int type.type)
        (widen method.target (.int type1.type) (.int type2.type) (.decl op1))
        (widen method.target (.int type2.type) (.int type1.type) (.decl op2))).eval memory =
      code.compute type.type x.toInt y.toInt := by
    simp [Expr.eval, eval_widen carries1.value carries1.holds,
      eval_widen carries2.value carries2.holds]
  rw [statement]
  refine agree1.pushStep room _ (by simpa using narrow) ?_
  rw [evaluated, computed, types2, types1]
  simp only [FitsStep, stack, wider, defined, Option.mem_def, Option.some.injEq, forall_eq',
    TrackedInt.tracked_type]
  constructor
  · rintro ⟨count, holds⟩
    rw [if_pos count]
    exact ⟨_, rfl, by rw [IntType.wrap_of_holds holds, IntType.wrap_of_holds holds]⟩
  · rintro ⟨value, valueEq, exact_⟩
    split at valueEq
    case isFalse => contradiction
    case isTrue count =>
      refine ⟨count, ?_⟩
      rw [← exact_]
      exact IntType.wrap_holds _ _

theorem holds_int32 (x : BitVec 32) : IntType.int32.Holds x.toInt := by
  unfold IntType.Holds
  rw [show IntType.int32.unsigned = false from rfl, inRange_signed]
  exact ⟨BitVec.le_two_mul_toInt, BitVec.two_mul_toInt_lt⟩

theorem Agree.storeStep (agree : Agree method count start state memory machine)
    {x : BitVec 32} {rest : List (BitVec 32)} (stack : machine.stack = x :: rest) (index : Nat) :
    ∃ state', scilInstrPopInto (int32Local index) state = some state' ∧
      ∃ memory', Agree method count start state' memory'
        ⟨rest, machine.locals.set index x⟩ := by
  obtain ⟨entry, type, popped, -, carries, -, agree'⟩ := agree.pop stack
  have executed : (Stmt.modify (.decl (int32Local index))
      (.convert (.int .int32) (.decl entry))).exec memory =
        some (memory.set (int32Local index) x.toInt) := by
    simp [Stmt.exec, Expr.eval, carries.value, IntType.wrap_of_holds (holds_int32 x)]
  refine ⟨scilAppendStmt _ state.popped, by simp [scilInstrPopInto, popConvert, popped]; rfl,
    memory.set (int32Local index) x.toInt, agree'.running.appendStmt executed, agree'.size,
    agree'.unsaved, ?_, by simpa using agree'.count, ?_⟩
  · refine forall_carries_set ?_ _ agree'.stack
    intro older membership same
    have kind := agree'.running.wellFormed.owns.kind agree'.running.wellFormed.typedStacks
      membership
    rw [same] at kind
    contradiction
  · intro other y present
    by_cases here : other = index
    · subst other
      rw [List.getElem?_set] at present
      split at present
      case isTrue =>
        split at present
        case isTrue =>
          cases present
          simp
        case isFalse => contradiction
      case isFalse => contradiction
    · have different : int32Local other ≠ int32Local index := by
        intro same
        exact here (Decl.mk.inj same).2.1
      rw [memory.set_value_of_ne _ different]
      rw [List.getElem?_set_ne (Ne.symm here)] at present
      exact agree.locals other y present

theorem wrap_negate {type : TrackedInt} (narrow : type.type.precision ≤ 32) (x : BitVec 32) :
    UnaryCode.negate.compute type.type x.toInt = type.type.wrap (-x).toInt := by
  rw [BitVec.toInt_neg, type.wrap_bmod narrow, UnaryCode.compute]

theorem toInt_bitNot (x : BitVec 32) : (~~~x).toInt = -x.toInt - 1 := by
  have bounds := x.isLt
  rw [BitVec.toInt_eq_toNat_cond, BitVec.toInt_eq_toNat_cond, BitVec.toNat_not]
  split <;> split <;> omega

theorem TrackedInt.holds_bitNot {type : TrackedInt} {x : BitVec 32}
    (holds : type.type.Holds x.toInt) : type.type.Holds (~~~x).toInt := by
  unfold IntType.Holds at holds ⊢
  rw [TrackedInt.unsigned_type, inRange_signed] at holds ⊢
  rw [toInt_bitNot]
  obtain ⟨half, even⟩ : 2 ∣ 2 ^ type.type.precision :=
    dvd_pow_self 2 type.type.precision_pos.ne'
  omega

theorem Agree.unaryStep (agree : Agree method count start state memory machine)
    (code : UnaryCode) {x : BitVec 32} (result : BitVec 32) {rest : List (BitVec 32)}
    (stack : machine.stack = x :: rest)
    (computes : ∀ type : TrackedInt, type.type.precision ≤ 32 →
      code.compute type.type x.toInt = type.type.wrap result.toInt)
    (room : rest.length < method.maxStack) :
    ∃ type : TrackedInt, state.types = .int type.type :: state.popped.types ∧
      type.type.Holds x.toInt ∧
      ∃ state', append (instrUnop code) state = some state' ∧
        (type.type.Holds result.toInt → ∃ memory', Agree method count start state' memory'
          { machine with stack := result :: rest }) ∧
        (∀ memory', execStmts start state'.body = some memory' →
          Matches state' memory' { machine with stack := result :: rest } →
          type.type.Holds result.toInt) := by
  obtain ⟨op, type, popped, -, carries, types, agree'⟩ := agree.pop stack
  refine ⟨type, types, carries.holds, ?_⟩
  have statement : append (instrUnop code) state =
      append (instrPush (.int type.type) (.unary code (.int type.type) (.decl op)))
        state.popped := by
    simp [append, instrUnop, popped, carries.typeEq]
  rw [statement]
  refine agree'.pushStep room _ (by simpa using carries.narrow) ?_
  have evaluated : (Expr.unary code (.int type.type) (.decl op)).eval memory =
      some (type.type.wrap result.toInt) := by
    simp [Expr.eval, carries.value, computes type carries.narrow]
  rw [evaluated, TrackedInt.tracked_type]
  constructor
  · intro holds
    exact ⟨_, rfl, by rw [IntType.wrap_of_holds holds, IntType.wrap_of_holds holds]⟩
  · rintro ⟨value, -, exact_⟩
    rw [← exact_]
    exact IntType.wrap_holds _ _

theorem Machine.push_eq_some {maxStack : Nat} {x : BitVec 32} {machine' : Machine}
    (pushed : machine.push maxStack x = some machine') :
    machine.stack.length < maxStack ∧
      machine' = { machine with stack := x :: machine.stack } := by
  unfold Machine.push at pushed
  split at pushed
  · exact ⟨‹_›, (Option.some.inj pushed).symm⟩
  · contradiction

theorem TrackedInt.wrap_constant {type : TrackedInt} (narrow : type.type.precision ≤ 32)
    {constant : Int} (holds : type.type.Holds constant) :
    type.type.wrap constant = (BitVec.ofInt 32 constant).toInt := by
  have holds32 : TrackedInt.int32.type.Holds constant := TrackedInt.holds_mono narrow holds
  rw [IntType.wrap_of_holds holds, BitVec.toInt_ofInt]
  exact (IntType.wrap_of_holds holds32).symm

theorem ldcI4Type_wrap (constant : Int) :
    ∃ type : TrackedInt, ldcI4Type constant = type.type ∧ type.type.precision ≤ 32 ∧
      type.type.wrap constant = (BitVec.ofInt 32 constant).toInt := by
  unfold ldcI4Type
  split
  case isTrue byte =>
    have holds : InRange false 8 constant := (inRange_signed 8 constant).mpr (by omega)
    exact ⟨.int8, rfl, by decide, TrackedInt.wrap_constant (by decide) holds⟩
  case isFalse =>
    split
    case isTrue half =>
      have holds : InRange false 16 constant := (inRange_signed 16 constant).mpr (by omega)
      exact ⟨.int16, rfl, by decide,
        TrackedInt.wrap_constant (by decide) holds⟩
    case isFalse =>
      refine ⟨.int32, rfl, by decide, ?_⟩
      rw [BitVec.toInt_ofInt]
      exact TrackedInt.wrap_eq _ _

/-- One instruction: it is translated, and its statements agree with the machine
exactly when the step fits. -/
theorem Agree.step (hasLocals : HasInt32Locals method count)
    (agree : Agree method count start state memory machine) {instr : Instr}
    {machine' : Machine} (stepped : machine.step method.maxStack instr = some machine') :
    ∃ state', execute method instr state = some state' ∧
      (FitsStep method.target instr state.types machine →
        ∃ memory', Agree method count start state' memory' machine') ∧
      (∀ memory', execStmts start state'.body = some memory' →
        Matches state' memory' machine' → FitsStep method.target instr state.types machine) := by
  cases instr with
  | ldcI4Short constant =>
    simp only [Machine.step] at stepped
    split at stepped
    case isFalse => contradiction
    case isTrue small =>
      obtain ⟨room, rfl⟩ := Machine.push_eq_some stepped
      refine agree.pushConstant room .int8 (by decide) ?_
      have holds : InRange false 8 constant := (inRange_signed 8 constant).mpr (by omega)
      exact TrackedInt.wrap_constant (by decide) holds
  | ldcI4S byte =>
    obtain ⟨room, rfl⟩ := Machine.push_eq_some stepped
    refine agree.pushConstant room .int8 (by decide) ?_
    rw [BitVec.toInt_signExtend_of_le (by decide), BitVec.toInt_eq_toNat_bmod,
      BitVec.toNat_ofNat, TrackedInt.wrap_eq, Int.natCast_mod]
    exact (Int.emod_bmod ..).symm
  | ldcI4 constant =>
    obtain ⟨room, rfl⟩ := Machine.push_eq_some stepped
    obtain ⟨type, typeEq, narrow, exact_⟩ := ldcI4Type_wrap constant
    have pushed := agree.pushConstant room _ narrow exact_
    rw [← typeEq] at pushed
    exact pushed
  | ldloc index =>
    simp only [Machine.step, Option.bind_eq_bind, Option.bind_eq_some_iff] at stepped
    obtain ⟨x, present, pushed⟩ := stepped
    obtain ⟨room, rfl⟩ := Machine.push_eq_some pushed
    have bound : index < count := by
      rw [← agree.count]
      exact (List.getElem?_eq_some_iff.mp present).1
    simp only [execute, hasLocals.getElem? bound]
    refine agree.pushStep room .int32 (by decide) ⟨fun _ => ?_, fun _ => trivial⟩
    refine ⟨x.toInt, by simp [Expr.eval, agree.locals index x present], ?_⟩
    exact IntType.wrap_of_holds (holds_int32 x)
  | stloc index =>
    cases stack : machine.stack with
    | nil => simp [Machine.step, stack] at stepped
    | cons x rest =>
      simp only [Machine.step, stack] at stepped
      split at stepped
      case isFalse => contradiction
      case isTrue bound =>
        cases stepped
        rw [agree.count] at bound
        obtain ⟨state', stored, agree'⟩ := agree.storeStep stack index
        refine ⟨state', ?_, fun _ => agree', fun _ _ _ => trivial⟩
        simp only [execute, hasLocals.getElem? bound]
        exact stored
  | dup =>
    cases stack : machine.stack with
    | nil => simp [Machine.step, stack] at stepped
    | cons x rest =>
      simp only [Machine.step, stack] at stepped
      obtain ⟨room, rfl⟩ := Machine.push_eq_some stepped
      obtain ⟨entry, type, -, top, carries, -, -⟩ := agree.pop stack
      have statement : execute method .dup state =
          append (instrPush (.int type.type) (.decl entry)) state := by
        simp [execute, scilInstrDup, top, scilInstrPush, Expr.type, carries.typeEq]
      rw [statement]
      refine agree.pushStep room type.type (by simpa using carries.narrow)
        ⟨fun _ => ?_, fun _ => trivial⟩
      refine ⟨x.toInt, by simp [Expr.eval, carries.value], ?_⟩
      rw [TrackedInt.tracked_type]
      exact IntType.wrap_of_holds carries.holds
  | pop =>
    cases stack : machine.stack with
    | nil => simp [Machine.step, stack] at stepped
    | cons x rest =>
      simp only [Machine.step, stack] at stepped
      cases stepped
      obtain ⟨entry, type, popped, -, -, -, agree'⟩ := agree.pop stack
      refine ⟨state.popped, ?_, fun _ => ⟨memory, agree'⟩, fun _ _ _ => trivial⟩
      simp [execute, scilInstrPop, popped]
  | operator operator =>
    rcases stack : machine.stack with _ | ⟨y, _ | ⟨x, rest⟩⟩
    · simp [Machine.step, stack] at stepped
    · simp [Machine.step, stack] at stepped
    · simp only [Machine.step, stack, Option.bind_eq_bind, Option.bind_eq_some_iff] at stepped
      obtain ⟨result, defined, pushed⟩ := stepped
      obtain ⟨room, rfl⟩ := Machine.push_eq_some pushed
      exact agree.binaryStep stack defined room
  | neg =>
    cases stack : machine.stack with
    | nil => simp [Machine.step, stack] at stepped
    | cons x rest =>
      simp only [Machine.step, stack] at stepped
      obtain ⟨room, rfl⟩ := Machine.push_eq_some stepped
      obtain ⟨type, types, -, agreed⟩ := agree.unaryStep .negate _ stack
        (fun type narrow => wrap_negate narrow x) room
      rw [types]
      simpa only [execute, FitsStep, stack] using agreed
  | not =>
    cases stack : machine.stack with
    | nil => simp [Machine.step, stack] at stepped
    | cons x rest =>
      simp only [Machine.step, stack] at stepped
      obtain ⟨room, rfl⟩ := Machine.push_eq_some stepped
      obtain ⟨type, types, holds, state', executed, agree', -⟩ :=
        agree.unaryStep .bitNot (~~~x) stack
        (fun type _ => by rw [toInt_bitNot, UnaryCode.compute]) room
      exact ⟨state', executed, fun _ => agree' (TrackedInt.holds_bitNot holds),
        fun _ _ _ => trivial⟩
  | _ => simp [Machine.step] at stepped

def MatchesAfter (method : Method) (start : Memory) (state : State)
    (code : List (Nat × Instr)) (machine : Machine) : Prop :=
  ∃ state' memory', parseInstructions method code state = some state' ∧
    execStmts start state'.body = some memory' ∧ Matches state' memory' machine

/-- The stack and the locals match after every instruction of the code. -/
def MatchesThroughout (method : Method) (start : Memory) (state : State)
    (code : List (Nat × Instr)) (machine : Machine) : Prop :=
  ∀ length machine', machine.run method.maxStack (code.take length) = some machine' →
    MatchesAfter method start state (code.take length) machine'

theorem Machine.leave_of_step {instr : Instr} {maxStack : Nat} {machine' : Machine}
    (stepped : machine.step maxStack instr = some machine') (before : State) :
    leave instr before = before := by
  cases instr <;> first | rfl | simp [Machine.step] at stepped

theorem Agree.run (hasLocals : HasInt32Locals method count)
    (agree : Agree method count start state memory machine) {code : List (Nat × Instr)}
    {final : Machine} (ran : machine.run method.maxStack code = some final) :
    (FitsRun method code state.types machine → ∃ state' memory',
      parseInstructions method code state = some state' ∧
      Agree method count start state' memory' final) ∧
    (MatchesThroughout method start state code machine → FitsRun method code state.types machine) := by
  induction code generalizing state memory machine with
  | nil =>
    cases ran
    exact ⟨fun _ => ⟨state, memory, rfl, agree⟩, fun _ => trivial⟩
  | cons entry rest ih =>
    rcases entry with ⟨offset, instr⟩
    simp only [Machine.run, Option.bind_eq_bind, Option.bind_eq_some_iff] at ran
    obtain ⟨machine', stepped, ran'⟩ := ran
    obtain ⟨labelled, types⟩ := agree.setLabel offset
    obtain ⟨state', executed, forward, backward⟩ := labelled.step hasLocals stepped
    have effectEq := stackEffect_of_execute labelled.running.wellFormed labelled.size
      (Machine.leave_of_step stepped) executed
    rw [types] at forward backward effectEq
    constructor
    · rintro ⟨fits, fitsRest⟩
      obtain ⟨memory', agree'⟩ := forward fits
      obtain ⟨final', memory'', parsed, agreeFinal⟩ :=
        (ih agree' ran').1 (fitsRest _ _ effectEq stepped)
      exact ⟨final', memory'', by simp [parseInstructions, executed, parsed], agreeFinal⟩
    · intro throughout
      have fits : FitsStep method.target instr state.types machine := by
        obtain ⟨state'', memory'', parsed, ran'', same⟩ :=
          throughout 1 machine' (by simp [Machine.run, stepped])
        simp only [List.take_succ_cons, List.take_zero, parseInstructions, executed,
          Option.bind_eq_bind, Option.bind_some, Option.some.injEq] at parsed
        subst parsed
        exact backward memory'' ran'' same
      obtain ⟨memory', agree'⟩ := forward fits
      refine ⟨fits, ?_⟩
      intro types' machine'' effect' stepped'
      cases effectEq.symm.trans effect'
      cases stepped.symm.trans stepped'
      refine (ih agree' ran').2 ?_
      intro length machine'' ranLength
      obtain ⟨state'', memory'', parsed, ran'', same⟩ :=
        throughout (length + 1) machine'' (by simp [Machine.run, stepped, ranLength])
      refine ⟨state'', memory'', ?_, ran'', same⟩
      simpa [parseInstructions, executed] using parsed

theorem FitsRun.take {code : List (Nat × Instr)} {types : List Ty}
    (fits : FitsRun method code types machine) (length : Nat) :
    FitsRun method (code.take length) types machine := by
  induction code generalizing types machine length with
  | nil => simpa using fits
  | cons entry rest ih =>
    cases length with
    | zero => trivial
    | succ length =>
      refine ⟨fits.1, ?_⟩
      intro types' machine' effectEq stepped
      exact ih (fits.2 types' machine' effectEq stepped) length

theorem initial_agree (method : Method) {locals : List (BitVec 32)} (nextIndex : Nat)
    (agree : LocalsAgree start ⟨[], locals⟩) :
    Agree method locals.length start (State.initial method.maxStack nextIndex) start
      ⟨[], locals⟩ where
  running := ⟨State.initial_wellFormed _ _, rfl⟩
  size := rfl
  unsaved := by simp [State.initial]
  stack := .nil
  count := rfl
  locals := agree

end Simulation

/-- Straight-line arithmetic on `int32` locals.  When every step fits, the
emitted statements leave every local with the value of the ECMA-335 machine;
and the stack and the locals match after every instruction only then. -/
theorem int32_arithmetic (method : Method) (nextIndex : Nat) (start : Memory)
    (locals : List (BitVec 32)) (hasLocals : HasInt32Locals method locals.length)
    (agree : LocalsAgree start ⟨[], locals⟩) (code : List (Nat × Instr)) (final : Machine)
    (ran : Machine.run method.maxStack code ⟨[], locals⟩ = some final) :
    (FitsRun method code [] ⟨[], locals⟩ → ∃ state memory,
      parseInstructions method code (State.initial method.maxStack nextIndex) = some state ∧
      execStmts start state.body = some memory ∧ LocalsAgree memory final) ∧
    (MatchesThroughout method start (State.initial method.maxStack nextIndex) code
        ⟨[], locals⟩ ↔
      FitsRun method code [] ⟨[], locals⟩) := by
  have initial := initial_agree method nextIndex agree
  have whole := initial.run hasLocals ran
  refine ⟨?_, whole.2, ?_⟩
  · intro fits
    obtain ⟨state, memory, parsed, agreed⟩ := whole.1 fits
    exact ⟨state, memory, parsed, agreed.running.executed, agreed.locals⟩
  · intro fits length machine' ranTake
    obtain ⟨state, memory, parsed, agreed⟩ := (initial.run hasLocals ranTake).1 (fits.take length)
    exact ⟨state, memory, parsed, agreed.running.executed, agreed.matches⟩

/-- `local0 = 100 + 27`: the sum still fits an `int8`. -/
theorem int32_arithmetic_fitting :
    Machine.run 8 [(0, .ldcI4S 100), (2, .ldcI4S 27), (4, .operator .add), (5, .stloc 0)]
        ⟨[], [0]⟩ = some ⟨[], [127]⟩ ∧
      ∃ state memory, parseInstructions oneLocal
          [(0, .ldcI4S 100), (2, .ldcI4S 27), (4, .operator .add), (5, .stloc 0)]
          (State.initial 8 0) = some state ∧
        execStmts zeroMemory state.body = some memory ∧
        LocalsAgree memory ⟨[], [127]⟩ := by
  refine ⟨rfl, (int32_arithmetic oneLocal 0 zeroMemory [0] rfl ?_ _ ⟨[], [127]⟩ rfl).1 ?_⟩
  · intro index x present
    cases index with
    | zero =>
      cases present
      rfl
    | succ index => simp at present
  · refine ⟨trivial, fun types1 machine1 effect1 step1 => ?_⟩
    cases effect1
    cases step1
    refine ⟨trivial, fun types2 machine2 effect2 step2 => ?_⟩
    cases effect2
    cases step2
    refine ⟨⟨by decide, ?_⟩, fun types3 machine3 effect3 step3 => ?_⟩
    · intro result defined
      cases defined
      decide
    · cases effect3
      cases step3
      exact ⟨trivial, fun _ _ _ _ => trivial⟩

/-- `local0 = 100 + 100` leaves -56, since both constants are pushed as `int8`. -/
theorem int32_arithmetic_overflow :
    Machine.run 8 [(0, .ldcI4S 100), (2, .ldcI4S 100), (4, .operator .add), (5, .stloc 0)]
        ⟨[], [0]⟩ = some ⟨[], [200]⟩ ∧
      ¬ ∃ state memory, parseInstructions oneLocal
          [(0, .ldcI4S 100), (2, .ldcI4S 100), (4, .operator .add), (5, .stloc 0)]
          (State.initial 8 0) = some state ∧
        execStmts zeroMemory state.body = some memory ∧
        LocalsAgree memory ⟨[], [200]⟩ := by
  refine ⟨rfl, ?_⟩
  rintro ⟨state, memory, parsed, executed, agree⟩
  have stored : ((parseInstructions oneLocal
      [(0, .ldcI4S 100), (2, .ldcI4S 100), (4, .operator .add), (5, .stloc 0)]
      (State.initial 8 0)).bind fun state =>
        (execStmts zeroMemory state.body).map fun memory => memory.value (int32Local 0)) =
      some (-56) := by
    decide
  rw [parsed, Option.bind_some, executed, Option.map_some, Option.some.injEq] at stored
  have wanted := agree 0 200 rfl
  rw [stored] at wanted
  contradiction

end GccCil.Scil
