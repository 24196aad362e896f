import GccCil.Scil.Instructions

/-!
# Running the emitted statements

A state of the translation together with the memory that its statements leave.
A push stores into a variable that no entry of the stack uses, so the values
below stay what they were.
-/

namespace GccCil.Scil

/-- The statements emitted so far take `start` to `memory`. -/
structure Running (start : Memory) (state : State) (memory : Memory) : Prop where
  wellFormed : state.WellFormed
  executed : execStmts start state.body = some memory

structure Pushed (state : State) (type : Ty) (expr : Expr) (state' : State)
    (variable_ : Decl) : Prop where
  wellFormed : state'.WellFormed
  entries : state'.stack.entries = variable_ :: state.stack.entries
  typeEq : variable_.type = stackType type
  kind : variable_.kind = .stackVariable
  fresh : ∀ entry ∈ state.stack.entries, entry ≠ variable_
  size : state'.size = state.size
  labelData : state'.labelData = state.labelData
  body : state'.body = state.body ++ [.modify (.decl variable_) (.convert (stackType type) expr)]

theorem append_push {state : State} (wellFormed : state.WellFormed)
    (room : state.stack.topIndex < state.size) (type : Ty) (expr : Expr) :
    ∃ state' variable_, append (instrPush type expr) state = some state' ∧
      Pushed state type expr state' variable_ := by
  obtain ⟨typedStacks, topIndex, owns⟩ := wellFormed
  have owned := state.typedStacks.find_allocate (getStack type) state.stack.topIndex
  have extension := state.typedStacks.allocate_extends (getStack type) state.stack.topIndex
  have wellFormed' :=
    TypedStacks.allocate_wellFormed typedStacks (getStack type) state.stack.topIndex
  have pushed : append (instrPush type expr) state =
      let allocated := state.typedStacks.allocate (getStack type) state.stack.topIndex
      some (scilAppendStmt (.modify (.decl allocated.1) (.convert allocated.1.type expr))
        (scilStackPush allocated.1 { state with typedStacks := allocated.2 })) := by
    simp [append, instrPush, scilGetStackVariable, room]
  rw [pushed]
  generalize state.typedStacks.allocate (getStack type) state.stack.topIndex = allocated
    at owned extension wellFormed'
  obtain ⟨kind, variableType, -⟩ := wellFormed'.registered _ _ _ owned
  refine ⟨_, allocated.1, rfl, ?_⟩
  refine ⟨⟨wellFormed', ?_, ?_, owns.extend extension⟩, rfl, variableType, kind, ?_, rfl, rfl, ?_⟩
  · simp [scilAppendStmt, scilStackPush, topIndex]
  · change allocated.2.find (getStack allocated.1.type) state.stack.entries.length = _
    rw [variableType, ← topIndex]
    change allocated.2.find (getStack (stackType type)) _ = _
    rw [getStack_stackType]
    exact owned
  · intro entry membership
    exact (owns.extend extension).ne_of_find wellFormed' owned topIndex.ge membership
  · rw [variableType]
    rfl

namespace Running

variable {start memory : Memory} {state : State}

theorem appendStmt (running : Running start state memory) {stmt : Stmt} {memory' : Memory}
    (executed : stmt.exec memory = some memory') :
    Running start (scilAppendStmt stmt state) memory' := by
  refine ⟨⟨running.wellFormed.typedStacks, running.wellFormed.topIndex,
    running.wellFormed.owns⟩, ?_⟩
  simp [scilAppendStmt, execStmts_append, running.executed, execStmts, executed]

theorem executed_push (running : Running start state memory) {type : IntType} {expr : Expr}
    {state' : State} {variable_ : Decl}
    (pushed : Pushed state (.int type) expr state' variable_) :
    execStmts start state'.body =
      (expr.eval memory).map fun x => memory.set variable_ (type.tracked.type.wrap x) := by
  rw [pushed.body, execStmts_append, running.executed, stackType_int]
  simp only [Option.bind_some, execStmts, Stmt.exec, Expr.eval, Option.bind_fun_some,
    Option.map_map]
  rfl

theorem push (running : Running start state memory) {type : IntType} {expr : Expr}
    {state' : State} {variable_ : Decl}
    (pushed : Pushed state (.int type) expr state' variable_) {x : Int}
    (value : expr.eval memory = some x) :
    Running start state' (memory.set variable_ (type.tracked.type.wrap x)) := by
  refine ⟨pushed.wellFormed, ?_⟩
  rw [running.executed_push pushed, value]
  rfl

theorem setLabel (running : Running start state memory)
    (unsaved : ∀ label stack, state.labelData label ≠ .saved stack) (offset : Nat) :
    Running start (scilSetLabel offset state) memory ∧
      (scilSetLabel offset state).stack = state.stack ∧
      ∀ label stack, (scilSetLabel offset state).labelData label ≠ .saved stack := by
  have stackEq : (scilSetLabel offset state).stack = state.stack := by
    rw [scilSetLabel_stack]
    split
    case h_1 stack data => exact absurd data (unsaved offset stack)
    case h_2 => rfl
  refine ⟨⟨⟨?_, ?_, ?_⟩, ?_⟩, stackEq, ?_⟩
  · simpa using running.wellFormed.typedStacks
  · rw [stackEq]
    exact running.wellFormed.topIndex
  · rw [stackEq, scilSetLabel_typedStacks]
    exact running.wellFormed.owns
  · rw [scilSetLabel_body, execStmts_append, running.executed]
    rfl
  · intro label stack
    rw [scilSetLabel_labelData]
    split
    · simp
    · exact unsaved label stack

end Running

theorem eval_widen {memory : Memory} {entry : Decl} {type other : TrackedInt} {x : Int}
    {target : Target} (value : memory.value entry = x) (holds : type.type.Holds x) :
    (widen target (.int type.type) (.int other.type) (.decl entry)).eval memory = some x := by
  unfold widen
  split
  case isTrue wider =>
    have holds' : other.type.Holds x := TrackedInt.holds_mono (Nat.le_of_lt wider) holds
    simp [Expr.eval, value, IntType.wrap_of_holds holds']
  case isFalse => simp [Expr.eval, value]

def State.popped (state : State) : State :=
  { state with stack := ⟨state.stack.topIndex - 1, state.stack.entries.tail⟩ }

theorem scilStackPop_cons {state : State} {entry : Decl} {rest : List Decl}
    (entries : state.stack.entries = entry :: rest) :
    scilStackPop state = some (entry, state.popped) := by
  simp [scilStackPop, entries, State.popped]

theorem State.WellFormed.popped {state : State} (wellFormed : state.WellFormed)
    {entry : Decl} {rest : List Decl} (entries : state.stack.entries = entry :: rest) :
    state.popped.WellFormed := by
  obtain ⟨typedStacks, topIndex, owns⟩ := wellFormed
  refine ⟨typedStacks, ?_, ?_⟩
  · simp [State.popped, topIndex]
  · rw [entries] at owns
    simpa [State.popped, entries] using owns.2

theorem Running.popped {start memory : Memory} {state : State}
    (running : Running start state memory) {entry : Decl} {rest : List Decl}
    (entries : state.stack.entries = entry :: rest) : Running start state.popped memory :=
  ⟨running.wellFormed.popped entries, running.executed⟩

end GccCil.Scil
