import GccCil.Scil.EmissionFrames

/-!
# The statements of one instruction

Where the stack, the locals and the arguments of the machine are in the variables of a method, the
statements that an instruction emits leave them as the machine does.
-/

namespace GccCil.Scil

open GccCil.Lib

/-- The declaration of an `int32` parameter. -/
def int32Parameter (index : Nat) : Decl where
  kind := .parameter
  index := index
  type := .int .int32

/-- A method of `int32` parameters and locals, which returns an `int32` or nothing. -/
structure IsInt32Method (method : Method) (parameters locals : Nat) : Prop where
  parameters : method.parameters = (List.range parameters).map int32Parameter
  locals : HasInt32Locals method locals
  result : ∀ result ∈ method.result, result.type = .int .int32

theorem IsInt32Method.getElem?_parameters {method : Method} {parameters locals index : Nat}
    (isInt32 : IsInt32Method method parameters locals) (bound : index < parameters) :
    method.parameters[index]? = some (int32Parameter index) := by
  rw [isInt32.parameters, List.getElem?_map, List.getElem?_range bound]
  rfl

structure Represents (parameters locals : Nat) (entries : List Decl) (memory : Memory)
    (activation : Activation) : Prop where
  stack : List.Forall₂ (fun entry x => ∃ type, Carries memory entry type x) entries
    activation.machine.stack
  localCount : activation.machine.locals.length = locals
  locals : LocalsAgree memory activation.machine
  argumentCount : activation.arguments.length = parameters
  arguments : ∀ index x, activation.arguments[index]? = some x →
    memory.value (int32Parameter index) = x.toInt

def Leaves (parameters locals : Nat) (labelled left : State) (memory : Memory)
    (activation : Activation) : Prop :=
  ∃ stmts memory', left.body = labelled.body ++ stmts ∧ execStmts memory stmts = some memory' ∧
    Represents parameters locals left.stack.entries memory' activation

section Straight

variable {method : Method} {parameters locals : Nat} {labelled : State} {memory : Memory}
  {activation : Activation}

section Alone

variable (represents : Represents parameters locals labelled.stack.entries memory activation)
include represents

theorem Represents.leaves {left leftAlone : State} {emitted emittedAlone : Option State}
    (alike : Option.Rel (Alike labelled.body []) emitted emittedAlone)
    (executed : emitted = some left) (executedAlone : emittedAlone = some leftAlone)
    {memory' : Memory} {machine : Machine}
    (agree : Agree method locals memory leftAlone memory' machine) :
    Leaves parameters locals labelled left memory { activation with machine := machine } := by
  rw [executed, executedAlone] at alike
  obtain ⟨_, same, alike⟩ := rel_some_left alike
  cases same
  obtain ⟨stmts, body, bodyAlone, spares⟩ := alike.body
  have executed := agree.running.executed
  rw [bodyAlone, List.nil_append] at executed
  refine ⟨stmts, memory', body, executed, ?_, agree.count, agree.locals, represents.argumentCount,
    fun index x present => ?_⟩
  · rw [alike.stack]
    exact agree.stack
  · rw [execStmts_spares spares executed rfl]
    exact represents.arguments index x present

variable (wellFormed : labelled.WellFormed) (size : labelled.size = method.maxStack)
include wellFormed size

theorem Represents.alone :
    Agree method locals memory labelled.alone memory activation.machine where
  running := ⟨⟨wellFormed.typedStacks, wellFormed.topIndex, wellFormed.owns⟩, rfl⟩
  size := size
  unsaved := nofun
  stack := represents.stack
  count := represents.localCount
  locals := represents.locals

theorem Represents.straight (hasLocals : HasInt32Locals method locals) {instr : Instr}
    {machine : Machine} (stepped : activation.machine.step method.maxStack instr = some machine)
    (fits : FitsStep method.target instr labelled.types activation.machine) {left : State}
    (executed : execute method instr labelled = some left) :
    Leaves parameters locals labelled left memory { activation with machine := machine } := by
  obtain ⟨leftAlone, executedAlone, forward, -⟩ :=
    (represents.alone wellFormed size).step hasLocals stepped
  obtain ⟨memory', agree⟩ := forward fits
  exact represents.leaves (emits_execute hasLocals stepped (.alone wellFormed)) executed
    executedAlone agree

theorem Represents.pushed (room : activation.machine.stack.length < method.maxStack) {index : Nat}
    {x : BitVec 32} (present : activation.arguments[index]? = some x) {left : State}
    (executed : scilInstrPush (.decl (int32Parameter index)) labelled = some left) :
    Leaves parameters locals labelled left memory
      { activation with
        machine := { activation.machine with stack := x :: activation.machine.stack } } := by
  have evaluated : (Expr.decl (int32Parameter index)).eval memory = some x.toInt := by
    simp [Expr.eval, represents.arguments index x present]
  obtain ⟨leftAlone, executedAlone, forward, -⟩ :=
    (represents.alone wellFormed size).pushStep room .int32 (by decide) (iff_of_true trivial
      ⟨_, evaluated, IntType.wrap_of_holds (holds_int32 x)⟩)
  obtain ⟨memory', agree⟩ := forward trivial
  exact represents.leaves (emits_push _ (.alone wellFormed)) executed executedAlone agree

end Alone

theorem Agree.compared {start : Memory} {state : State} {machine : Machine}
    (agree : Agree method locals start state memory machine) {comparison : Comparison}
    {x y : BitVec 32} {rest : List (BitVec 32)} (stack : machine.stack = y :: x :: rest)
    (fits : FitsInstr method.target (.compare comparison) state.types machine) :
    ∃ expr, scilInstrCompare method.target comparison state =
        append (instrPush (.int .bool) expr) state.popped.popped ∧
      expr.eval memory = some (truth (int32Compare comparison x y = true)) ∧
      Agree method locals start state.popped.popped memory { machine with stack := rest } := by
  obtain ⟨op2, type2, popped2, top, carries2, types2, agree2⟩ := agree.pop stack
  obtain ⟨op1, type1, popped1, -, carries1, -, agree1⟩ := agree2.pop rfl
  cases unsigned : comparison.isUnsigned with
  | false =>
    refine ⟨.binary comparison.code (.int .bool)
      (widen method.target (.int type1.type) (.int type2.type) (.decl op1))
      (widen method.target (.int type2.type) (.int type1.type) (.decl op2)), ?_, ?_, agree1⟩
    · cases comparison <;> first
        | contradiction
        | simp [scilInstrCompare, appendCompare, append, instrBinopTyped, popped2, popped1,
            carries1.typeEq, carries2.typeEq, Comparison.code]
    · rw [← compute_signed unsigned]
      simp [Expr.eval, eval_widen carries1.value carries1.holds,
        eval_widen carries2.value carries2.holds]
  | true =>
    have holds : type2.type.Holds x.toInt := by
      rw [types2] at fits
      simpa [FitsInstr, stack, unsigned] using fits
    refine ⟨.binary comparison.code (.int .bool)
      (.convert (.int type2.unsignedType) (.decl op1))
      (.convert (.int type2.unsignedType) (.decl op2)), ?_, ?_, agree1⟩
    · have integer : (Ty.int type2.type).isIntegerType = true := by cases type2 <;> rfl
      cases comparison <;> first
        | contradiction
        | simp [scilInstrCompare, appendCompareUn, top, carries2.typeEq, integer, append,
            instrBinopUnTyped, scilHookUnsignedType_tracked, popConvert, popped2, popped1,
            Comparison.code]
    · rw [← compute_unsigned unsigned carries2.narrow holds carries2.holds]
      simp [Expr.eval, carries1.value, carries2.value]

theorem Represents.compares (represents : Represents parameters locals labelled.stack.entries memory
    activation) (wellFormed : labelled.WellFormed) (size : labelled.size = method.maxStack)
    {comparison : Comparison} {x y : BitVec 32} {rest : List (BitVec 32)}
    (stack : activation.machine.stack = y :: x :: rest) (room : rest.length < method.maxStack)
    (fits : FitsInstr method.target (.compare comparison) labelled.types activation.machine)
    {left : State} (executed : scilInstrCompare method.target comparison labelled = some left) :
    Leaves parameters locals labelled left memory
      (activation.withStack ((if int32Compare comparison x y then 1 else 0) :: rest)) := by
  obtain ⟨expr, statement, evaluated, agree⟩ :=
    (represents.alone wellFormed size).compared stack fits
  have value : IntType.bool.tracked.type.wrap (truth (int32Compare comparison x y = true)) =
      (if int32Compare comparison x y then 1 else 0 : BitVec 32).toInt := by
    cases int32Compare comparison x y <;> decide
  obtain ⟨leftAlone, appended, forward, -⟩ := agree.pushStep room .bool (by decide)
    (iff_of_true trivial ⟨_, evaluated, value⟩)
  obtain ⟨memory', agree'⟩ := forward trivial
  exact represents.leaves (emits_compare _ _ (.alone wellFormed)) executed
    (statement.trans appended) agree'

theorem Represents.top {entries : List Decl}
    (represents : Represents parameters locals entries memory activation) {x : BitVec 32}
    {rest : List (BitVec 32)} (stack : activation.machine.stack = x :: rest) :
    ∃ entry below type, entries = entry :: below ∧ Carries memory entry type x ∧
      Represents parameters locals below memory (activation.withStack rest) := by
  have related := represents.stack
  rw [stack] at related
  cases related with
  | cons top others =>
    obtain ⟨type, carries⟩ := top
    exact ⟨_, _, type, rfl, carries, others, represents.localCount, represents.locals,
      represents.argumentCount, represents.arguments⟩

theorem toInt_ne_zero_iff (x : BitVec 32) : x.toInt ≠ 0 ↔ x ≠ 0 := by
  rw [not_iff_not, ← BitVec.toInt_inj]
  rfl

theorem Represents.branches (represents : Represents parameters locals labelled.stack.entries memory
    activation) {x : BitVec 32} {rest : List (BitVec 32)}
    (stack : activation.machine.stack = x :: rest) (holds : IntType.bool.Holds x.toInt)
    {onTrue : Bool} {target : Nat} {left : State}
    (executed : (do
      let (condition, state) ← popConvert (.int .bool) labelled
      return scilAppendStmt (.condGoto condition onTrue target) (instrGoto target state)) =
        some left) :
    ∃ condition, left.body = labelled.body ++ [.condGoto condition onTrue target] ∧
      condition.eval memory = some x.toInt ∧
      Represents parameters locals left.stack.entries memory (activation.withStack rest) := by
  obtain ⟨entry, below, type, entries, carries, represents'⟩ := represents.top stack
  simp only [popConvert, scilStackPop_cons entries, Option.bind_eq_bind, Option.bind_some, pure,
    Option.some.injEq] at executed
  subst executed
  refine ⟨.convert (.int .bool) (.decl entry), by simp [scilAppendStmt, State.popped], ?_, ?_⟩
  · simp [Expr.eval, carries.value, IntType.wrap_of_holds holds]
  · simpa [scilAppendStmt, State.popped, entries] using represents'

theorem Represents.starg (represents : Represents parameters locals labelled.stack.entries memory
    activation) (wellFormed : labelled.WellFormed) {x : BitVec 32} {rest : List (BitVec 32)}
    (stack : activation.machine.stack = x :: rest) {index : Nat} {left : State}
    (executed : scilInstrPopInto (int32Parameter index) labelled = some left) :
    Leaves parameters locals labelled left memory
      { activation.withStack rest with arguments := activation.arguments.set index x } := by
  obtain ⟨entry, below, type, entries, carries, below_⟩ := represents.top stack
  simp only [scilInstrPopInto, popConvert, scilStackPop_cons entries, Option.bind_eq_bind,
    Option.bind_some, pure, Option.some.injEq] at executed
  subst executed
  have isBelow : labelled.popped.stack.entries = below := by simp [State.popped, entries]
  have kind : ∀ older ∈ below, older ≠ int32Parameter index := by
    rintro older membership rfl
    rw [← isBelow] at membership
    cases (wellFormed.popped entries).owns.kind wellFormed.typedStacks membership
  refine ⟨[.modify (.decl (int32Parameter index)) (.convert (.int .int32) (.decl entry))],
    memory.set (int32Parameter index) x.toInt, rfl, ?_, ?_, represents.localCount, ?_, ?_, ?_⟩
  · simp [execStmts, Stmt.exec, Expr.eval, carries.value, IntType.wrap_of_holds (holds_int32 x)]
  · change List.Forall₂ _ labelled.popped.stack.entries rest
    rw [isBelow]
    exact forall_carries_set kind _ below_.stack
  · intro place y present
    have different : int32Local place ≠ int32Parameter index := by
      intro same
      cases congrArg Decl.kind same
    rw [memory.set_value_of_ne _ different]
    exact represents.locals place y present
  · rw [List.length_set]
    exact represents.argumentCount
  · intro place y present
    by_cases here : index = place
    · subst here
      rw [List.getElem?_set_self'] at present
      obtain ⟨_, -, rfl⟩ := Option.map_eq_some_iff.mp present
      exact memory.set_value_self _ _
    · have different : int32Parameter place ≠ int32Parameter index := by
        intro same
        exact here (Decl.mk.inj same).2.1.symm
      rw [memory.set_value_of_ne _ different]
      rw [List.getElem?_set_ne here] at present
      exact represents.arguments place y present

theorem Represents.returns (represents : Represents parameters locals labelled.stack.entries memory
    activation) (wellFormed : labelled.WellFormed) {left : State}
    (isInt32 : ∀ result ∈ method.result, result.type = .int .int32)
    (executed : scilInstrRet method.result labelled = some left) :
    (method.result = none → activation.machine.stack = [] →
      left.body = labelled.body ++ [.return_ none]) ∧
    (∀ result x, method.result = some result → activation.machine.stack = [x] →
      ∃ value, left.body = labelled.body ++ [.return_ (some value)] ∧
        value.eval memory = some x.toInt) := by
  have topIndex := wellFormed.topIndex
  refine ⟨fun isNone stack => ?_, fun result x isSome stack => ?_⟩
  · have entries := represents.stack
    rw [stack] at entries
    rw [List.forall₂_nil_right_iff.mp entries] at topIndex
    rw [scilInstrRet, if_pos (by simp [scilStackIsEmpty, topIndex])] at executed
    cases executed
    rfl
  · obtain ⟨entry, below, type, entries, carries, -⟩ := represents.top stack
    rw [entries, List.length_cons] at topIndex
    rw [scilInstrRet, if_neg (by simp [scilStackIsEmpty, topIndex]),
      scilStackPop_cons entries, isSome] at executed
    cases executed
    refine ⟨.convert result.type (.decl entry), rfl, ?_⟩
    rw [isInt32 result isSome]
    simp [Expr.eval, carries.value, IntType.wrap_of_holds (holds_int32 x)]

end Straight

end GccCil.Scil
