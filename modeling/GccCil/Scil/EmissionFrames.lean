import GccCil.Scil.BranchingMachine

/-!
# Instructions in front of any statements

What an instruction emits depends on the stack and its variables only, and not on the statements
and the labels before it.  So the statements of one instruction can be run alone.  None of them
stores into a parameter, but for those of `starg`.
-/

namespace GccCil.Scil

open GccCil.Lib

def Stmt.SparesParameters (stmt : Stmt) : Prop :=
  ∀ variable_ value, stmt = .modify (.decl variable_) value → variable_.kind ≠ .parameter

theorem exec_spares {stmt : Stmt} {memory memory' : Memory} (spares : stmt.SparesParameters)
    (executed : stmt.exec memory = some memory') {parameter : Decl}
    (isParameter : parameter.kind = .parameter) :
    memory'.value parameter = memory.value parameter := by
  cases stmt with
  | modify target value =>
    cases target with
    | decl variable_ =>
      obtain ⟨x, -, rfl⟩ := Option.map_eq_some_iff.mp executed
      refine memory.set_value_of_ne x ?_
      rintro rfl
      exact spares _ _ rfl isParameter
    | _ => cases executed
  | label programCounter =>
    cases executed
    rfl
  | _ => cases executed

theorem execStmts_spares {stmts : List Stmt} {memory memory' : Memory}
    (spares : ∀ stmt ∈ stmts, stmt.SparesParameters)
    (executed : execStmts memory stmts = some memory') {parameter : Decl}
    (isParameter : parameter.kind = .parameter) :
    memory'.value parameter = memory.value parameter := by
  induction stmts generalizing memory with
  | nil =>
    cases executed
    rfl
  | cons stmt stmts ih =>
    obtain ⟨next, first, others⟩ := Option.bind_eq_some_iff.mp executed
    rw [ih (fun later inStmts => spares later (List.mem_cons_of_mem _ inStmts))
      others]
    exact exec_spares (spares stmt List.mem_cons_self) first isParameter

structure Alike (front front' : List Stmt) (state state' : State) : Prop where
  size : state.size = state'.size
  stack : state.stack = state'.stack
  typedStacks : state.typedStacks = state'.typedStacks
  wellFormed : state.typedStacks.WellFormed
  body : ∃ stmts, state.body = front ++ stmts ∧ state'.body = front' ++ stmts ∧
    ∀ stmt ∈ stmts, stmt.SparesParameters

inductive AlikeWith {α : Type} (holds : α → Prop) (front front' : List Stmt) :
    α × State → α × State → Prop
  | intro (result : α) {state state' : State} (isResult : holds result)
      (alike : Alike front front' state state') :
      AlikeWith holds front front' (result, state) (result, state')

def Uniform {α : Type} (holds : α → Prop) (function : State → Option (α × State)) : Prop :=
  ∀ ⦃front front' state state'⦄, Alike front front' state state' →
    Option.Rel (AlikeWith holds front front') (function state) (function state')

def Emits (function : State → Option State) : Prop :=
  ∀ ⦃front front' state state'⦄, Alike front front' state state' →
    Option.Rel (Alike front front') (function state) (function state')

section Alike

variable {front front' : List Stmt} {state state' : State}

theorem Alike.appendStmt (alike : Alike front front' state state') {stmt : Stmt}
    (spares : stmt.SparesParameters) :
    Alike front front' (scilAppendStmt stmt state) (scilAppendStmt stmt state') := by
  obtain ⟨stmts, body, body', others⟩ := alike.body
  refine ⟨alike.size, alike.stack, alike.typedStacks, alike.wellFormed, stmts ++ [stmt], ?_, ?_, ?_⟩
  · rw [scilAppendStmt, body, List.append_assoc]
  · rw [scilAppendStmt, body', List.append_assoc]
  · intro later membership
    rcases List.mem_append.mp membership with earlier | last
    · exact others later earlier
    · exact (List.mem_singleton.mp last) ▸ spares

theorem Alike.top (alike : Alike front front' state state') :
    scilStackTop state = scilStackTop state' := by
  rw [scilStackTop, scilStackTop, alike.stack]

end Alike

theorem uniform_push (type : Ty) (expr : Expr) :
    Uniform Stmt.SparesParameters (instrPush type expr) := by
  intro front front' state state' alike
  unfold instrPush scilGetStackVariable
  rw [← alike.size, ← alike.stack, ← alike.typedStacks]
  split
  case isFalse => exact .none
  case isTrue =>
    have wellFormed := TypedStacks.allocate_wellFormed alike.wellFormed (getStack type)
      state.stack.topIndex
    have owned := state.typedStacks.find_allocate (getStack type) state.stack.topIndex
    generalize state.typedStacks.allocate (getStack type) state.stack.topIndex = allocated
      at wellFormed owned ⊢
    obtain ⟨kind, -⟩ := wellFormed.registered _ _ _ owned
    refine .some ⟨_, ?_, rfl, rfl, rfl, wellFormed, alike.body⟩
    intro variable_ value same
    cases same
    rw [kind]
    nofun

theorem uniform_pop : Uniform (fun _ => True) scilStackPop := by
  intro front front' state state' alike
  unfold scilStackPop
  rw [← alike.stack]
  split
  · exact .none
  · exact .some ⟨_, trivial, alike.size, rfl, alike.typedStacks, alike.wellFormed, alike.body⟩

theorem uniform_popConvert (type : Ty) : Uniform (fun _ => True) (popConvert type) := by
  intro front front' state state' alike
  refine rel_bind (uniform_pop alike) ?_
  rintro _ _ ⟨entry, -, alike⟩
  exact .some ⟨_, trivial, alike⟩

theorem uniform_unop (operation : UnaryCode) :
    Uniform Stmt.SparesParameters (instrUnop operation) := by
  intro front front' state state' alike
  refine rel_bind (uniform_pop alike) ?_
  rintro _ _ ⟨op, -, alike⟩
  exact uniform_push _ _ alike

theorem uniform_binop (target : Target) (operation : BinaryCode) :
    Uniform Stmt.SparesParameters (instrBinop target operation) := by
  intro front front' state state' alike
  refine rel_bind (uniform_pop alike) ?_
  rintro _ _ ⟨op2, -, alike⟩
  refine rel_bind (uniform_pop alike) ?_
  rintro _ _ ⟨op1, -, alike⟩
  exact uniform_push _ _ alike

theorem uniform_binopTyped (target : Target) (operation : BinaryCode) (type : Ty) :
    Uniform Stmt.SparesParameters (instrBinopTyped target operation type) := by
  intro front front' state state' alike
  refine rel_bind (uniform_pop alike) ?_
  rintro _ _ ⟨op2, -, alike⟩
  refine rel_bind (uniform_pop alike) ?_
  rintro _ _ ⟨op1, -, alike⟩
  exact uniform_push _ _ alike

theorem uniform_binopUnTyped (target : Target) (operation : BinaryCode) (type : Ty) :
    Uniform Stmt.SparesParameters (instrBinopUnTyped target operation type) := by
  intro front front' state state' alike
  unfold instrBinopUnTyped
  rw [← alike.top]
  refine rel_bind (rel_refl (scilStackTop state)) ?_
  rintro top _ ⟨rfl, -⟩
  refine rel_bind (rel_refl (scilHookUnsignedType target top.type)) ?_
  rintro unsignedType _ ⟨rfl, -⟩
  refine rel_bind (uniform_popConvert _ alike) ?_
  rintro _ _ ⟨op2, -, alike⟩
  refine rel_bind (uniform_popConvert _ alike) ?_
  rintro _ _ ⟨op1, -, alike⟩
  exact uniform_push _ _ alike

theorem Uniform.append {build : State → Option (Stmt × State)}
    (uniform : Uniform Stmt.SparesParameters build) : Emits (append build) := by
  intro front front' state state' alike
  refine rel_bind (uniform alike) ?_
  rintro _ _ ⟨stmt, spares, alike⟩
  exact .some (alike.appendStmt spares)

theorem emits_push (expr : Expr) : Emits (scilInstrPush expr) := by
  intro front front' state state' alike
  refine rel_bind (rel_refl expr.type) ?_
  rintro type _ ⟨rfl, -⟩
  exact (uniform_push type expr).append alike

theorem emits_popInto {variable_ : Decl} (notParameter : variable_.kind ≠ .parameter) :
    Emits (scilInstrPopInto variable_) := by
  intro front front' state state' alike
  refine rel_bind (uniform_popConvert variable_.type alike) ?_
  rintro _ _ ⟨value, -, alike⟩
  refine .some (alike.appendStmt ?_)
  intro target value' same
  cases same
  exact notParameter

theorem emits_compareUn (target : Target) (intCode realCode : BinaryCode) :
    Emits (appendCompareUn target intCode realCode) := by
  intro front front' state state' alike
  unfold appendCompareUn
  rw [← alike.top]
  refine rel_bind (rel_refl (scilStackTop state)) ?_
  rintro top _ ⟨rfl, -⟩
  split
  · exact (uniform_binopUnTyped target intCode (.int .bool)).append alike
  · exact (uniform_binopTyped target realCode (.int .bool)).append alike

theorem emits_compare (target : Target) (comparison : Comparison) :
    Emits (scilInstrCompare target comparison) := by
  have signed : ∀ code, Emits (appendCompare target code) :=
    fun code => (uniform_binopTyped target code (.int .bool)).append
  cases comparison with
  | eq | ge | gt | le | lt => exact signed _
  | _ => exact emits_compareUn target _ _

theorem emits_execute {method : Method} {count : Nat} (hasLocals : HasInt32Locals method count)
    {instr : Instr} {machine machine' : Machine}
    (stepped : machine.step method.maxStack instr = some machine') :
    Emits (execute method instr) := by
  intro front front' state state' alike
  cases instr with
  | ldcI4Short | ldcI4S | ldcI4 => exact (uniform_push _ _).append alike
  | ldloc index =>
    refine rel_bind (rel_refl _) ?_
    rintro variable_ _ ⟨rfl, -⟩
    exact emits_push _ alike
  | stloc index =>
    refine rel_bind (rel_refl _) ?_
    rintro variable_ _ ⟨rfl, isLocal⟩
    rw [hasLocals, List.getElem?_map, Option.map_eq_some_iff] at isLocal
    obtain ⟨place, -, rfl⟩ := isLocal
    exact emits_popInto (show (int32Local place).kind ≠ .parameter from nofun) alike
  | dup =>
    change Option.Rel _ (scilInstrDup state) (scilInstrDup state')
    unfold scilInstrDup
    rw [← alike.top]
    refine rel_bind (rel_refl _) ?_
    rintro top _ ⟨rfl, -⟩
    exact emits_push _ alike
  | pop =>
    refine rel_bind (uniform_pop alike) ?_
    rintro _ _ ⟨entry, -, alike⟩
    exact .some alike
  | operator operator =>
    have isBinop : ∃ code, operator.binop? = some code := by
      rcases stack : machine.stack with _ | ⟨y, _ | ⟨x, rest⟩⟩
      · simp [Machine.step, stack] at stepped
      · simp [Machine.step, stack] at stepped
      · simp only [Machine.step, stack, Option.bind_eq_bind, Option.bind_eq_some_iff] at stepped
        obtain ⟨result, defined, -⟩ := stepped
        cases operator <;> first | exact ⟨_, rfl⟩ | cases defined
    obtain ⟨code, isCode⟩ := isBinop
    change Option.Rel _ (scilInstrOperator method.target operator state)
      (scilInstrOperator method.target operator state')
    rw [scilInstrOperator_binop isCode, scilInstrOperator_binop isCode]
    exact (uniform_binop _ _).append alike
  | neg | not => exact (uniform_unop _).append alike
  | _ => simp [Machine.step] at stepped

def State.alone (state : State) : State :=
  { state with body := [], labelData := fun _ => .null }

theorem Alike.alone {state : State} (wellFormed : state.WellFormed) :
    Alike state.body [] state state.alone :=
  ⟨rfl, rfl, rfl, wellFormed.typedStacks, [], by simp, rfl, by simp⟩

end GccCil.Scil
