import Mathlib.Logic.Relation
import GccCil.Scil.Execution

/-!
# Stack variables do not clash

The translation of a method body changes the evaluation stack through seven
operations only.  Each of them keeps the invariant that the stack and every
saved stack hold the variable of slot `i` at depth `i`; so the variable for the
next push is never one of the variables that are on the stack.
-/

namespace GccCil.Scil

open Relation

/-- One operation of `scil-evalstack.c`, or one that saves or installs a stack
at a label, as the instruction functions call them. -/
inductive StackStep : State → State → Prop where
  | allocate {type : Ty} {found : Decl} {state state' : State}
      (returned : scilGetStackVariable type state = some (found, state')) :
      StackStep state state'
  /-- `instr_push` pushes the variable that `scil_get_stack_variable` returned -/
  | push {type : Ty} {found : Decl} {state : State}
      (returned : scilGetStackVariable type state = some (found, state)) :
      StackStep state (scilStackPush found state)
  | pop {entry : Decl} {state state' : State}
      (popped : scilStackPop state = some (entry, state')) : StackStep state state'
  | clear (state : State) : StackStep state (scilClearStack state)
  | save (target : Nat) (state : State) : StackStep state (instrGoto target state)
  | label (offset : Nat) (state : State) : StackStep state (scilSetLabel offset state)
  | emit (stmt : Stmt) (state : State) : StackStep state (scilAppendStmt stmt state)

/-- A state that the translation of a method can pass through. -/
def Reached (method : Method) (nextIndex : Nat) (state : State) : Prop :=
  ReflTransGen StackStep (State.initial method.maxStack nextIndex) state

/-- A partial function that takes `state` on by stack operations; `next` is
the state in its result. -/
def LeadsTo {α : Type} (next : α → State) (state : State) (result : Option α) : Prop :=
  ∀ value, result = some value → ReflTransGen StackStep state (next value)

/-- A partial function that stays within a relation; `next` is the state in its
result. -/
def Takes {α : Type} (Step : State → State → Prop) (next : α → State) (state : State)
    (result : Option α) : Prop :=
  ∀ value, result = some value → Step state (next value)

/-- A reflexive and transitive relation that contains what instructions do to
the stack and to the statements when they do not branch. -/
structure Straight (Step : State → State → Prop) : Prop where
  refl : ∀ state, Step state state
  trans : ∀ {state state' state''}, Step state state' → Step state' state'' → Step state state''
  allocates : ∀ {type found state state'},
    scilGetStackVariable type state = some (found, state') → Step state state'
  pushes : ∀ {type found state}, scilGetStackVariable type state = some (found, state) →
    Step state (scilStackPush found state)
  pops : ∀ {entry state state'}, scilStackPop state = some (entry, state') → Step state state'
  emits : ∀ stmt state, stmt.target? = none → stmt.label? = none →
    Step state (scilAppendStmt stmt state)

def appended (built : Stmt × State) : State := scilAppendStmt built.1 built.2

section Runs

variable {α β : Type} {Step : State → State → Prop} {state : State}

theorem Takes.bind {middle : α → State} {next : β → State} {first : Option α}
    {second : α → Option β} (before : Takes Step middle state first) (straight : Straight Step)
    (after : ∀ value, Takes Step next (middle value) (second value)) :
    Takes Step next state (first.bind second) := by
  intro result returned
  obtain ⟨value, found, last⟩ := Option.bind_eq_some_iff.mp returned
  exact straight.trans (before value found) (after value result last)

theorem Takes.lookup {next : β → State} {first : Option α} {second : α → Option β}
    (after : ∀ value, Takes Step next state (second value)) :
    Takes Step next state (first.bind second) := by
  intro result returned
  obtain ⟨value, -, last⟩ := Option.bind_eq_some_iff.mp returned
  exact after value result last

theorem Straight.after (straight : Straight Step) {next : α → State} {state' : State}
    {result : Option α} (step : Step state state') (rest : Takes Step next state' result) :
    Takes Step next state result :=
  fun value returned => straight.trans step (rest value returned)

theorem takes_some {next : α → State} {value : α} (step : Step state (next value)) :
    Takes Step next state (some value) := by
  intro result returned
  cases returned
  exact step

theorem Straight.pop (straight : Straight Step) (state : State) :
    Takes Step Prod.snd state (scilStackPop state) :=
  fun _ returned => straight.pops returned

theorem Straight.emit (straight : Straight Step) (stmt : Stmt) (state : State)
    (noTarget : stmt.target? = none) (noLabel : stmt.label? = none) :
    Takes Step id state (some (scilAppendStmt stmt state)) :=
  takes_some (straight.emits stmt state noTarget noLabel)

theorem scilGetStackVariable_again {type : Ty} {found : Decl} {state' : State}
    (returned : scilGetStackVariable type state = some (found, state')) :
    scilGetStackVariable type state' = some (found, state') := by
  unfold scilGetStackVariable at returned ⊢
  split at returned
  case isFalse => contradiction
  case isTrue room =>
    have owned := state.typedStacks.find_allocate (getStack type) state.stack.topIndex
    simp only [Option.some.injEq, Prod.mk.injEq] at returned
    obtain ⟨rfl, rfl⟩ := returned
    simp only [room, if_true]
    rw [TypedStacks.allocate_of_some owned]

theorem Straight.push (straight : Straight Step) (type : Ty) (expr : Expr) (state : State) :
    Takes Step appended state (instrPush type expr state) := by
  intro pushed returned
  obtain ⟨⟨found, state'⟩, allocated, result⟩ := Option.bind_eq_some_iff.mp returned
  cases result
  exact straight.trans (straight.allocates allocated)
    (straight.trans (straight.pushes (scilGetStackVariable_again allocated))
      (straight.emits _ _ rfl rfl))

theorem Straight.append (straight : Straight Step) {build : State → Option (Stmt × State)}
    (built : Takes Step appended state (build state)) : Takes Step id state (append build state) :=
  built.bind straight fun _ => takes_some (straight.refl _)

theorem Straight.popConvert (straight : Straight Step) (type : Ty) (state : State) :
    Takes Step Prod.snd state (popConvert type state) :=
  (straight.pop state).bind straight fun _ => takes_some (straight.refl _)

theorem Straight.resolveField (straight : Straight Step) (field : Decl) (state : State) :
    Takes Step Prod.snd state (instrResolveField field state) := by
  refine (straight.pop state).bind straight ?_
  intro popped
  dsimp only
  split
  · exact takes_some (straight.refl _)
  · exact takes_some (straight.refl _)

theorem Straight.popParameters (straight : Straight Step) (types : List Ty)
    (arguments : List Expr) (state : State) :
    Takes Step Prod.snd state (popParameters types arguments state) := by
  induction types generalizing arguments state with
  | nil => exact takes_some (straight.refl _)
  | cons type rest ih =>
    refine (straight.popConvert type state).bind straight ?_
    intro popped
    exact ih _ popped.2

theorem Straight.scilInstrPush (straight : Straight Step) (expr : Expr) (state : State) :
    Takes Step id state (scilInstrPush expr state) :=
  Takes.lookup fun type => straight.append (straight.push type expr state)

theorem Straight.popInto (straight : Straight Step) (variable_ : Decl) (state : State) :
    Takes Step id state (scilInstrPopInto variable_ state) :=
  (straight.popConvert _ state).bind straight fun popped => straight.emit _ popped.2 rfl rfl

theorem Straight.binop (straight : Straight Step) (target : Target) (operation : BinaryCode)
    (state : State) :
    Takes Step appended state (instrBinop target operation state) :=
  (straight.pop state).bind straight fun op2 => (straight.pop op2.2).bind straight fun op1 =>
    straight.push _ _ op1.2

theorem Straight.binopTyped (straight : Straight Step) (target : Target)
    (operation : BinaryCode) (type : Ty)
    (state : State) : Takes Step appended state (instrBinopTyped target operation type state) :=
  (straight.pop state).bind straight fun op2 => (straight.pop op2.2).bind straight fun op1 =>
    straight.push _ _ op1.2

theorem Straight.binopUn (straight : Straight Step) (target : Target) (operation : BinaryCode)
    (state : State) :
    Takes Step appended state (instrBinopUn target operation state) :=
  Takes.lookup fun _ => Takes.lookup fun _ => (straight.popConvert _ state).bind straight fun op2 =>
    (straight.popConvert _ op2.2).bind straight fun op1 => straight.push _ _ op1.2

theorem Straight.binopUnTyped (straight : Straight Step) (target : Target)
    (operation : BinaryCode) (type : Ty)
    (state : State) : Takes Step appended state (instrBinopUnTyped target operation type state) :=
  Takes.lookup fun _ => Takes.lookup fun _ => (straight.popConvert _ state).bind straight fun op2 =>
    (straight.popConvert _ op2.2).bind straight fun op1 => straight.push _ _ op1.2

theorem Straight.compareUn (straight : Straight Step) (target : Target)
    (intCode realCode : BinaryCode) (state : State) :
    Takes Step id state (appendCompareUn target intCode realCode state) := by
  refine Takes.lookup ?_
  intro top
  split
  · exact straight.append (straight.binopUnTyped target intCode _ state)
  · exact straight.append (straight.binopTyped target realCode _ state)

theorem Straight.compare (straight : Straight Step) (target : Target)
    (comparison : Comparison) (state : State) :
    Takes Step id state (scilInstrCompare target comparison state) := by
  have signed : ∀ code, Takes Step id state (appendCompare target code state) :=
    fun code => straight.append (straight.binopTyped target code _ state)
  cases comparison with
  | eq => exact signed _
  | ge => exact signed _
  | gt => exact signed _
  | le => exact signed _
  | lt => exact signed _
  | neUn => exact straight.compareUn target _ _ state
  | geUn => exact straight.compareUn target _ _ state
  | gtUn => exact straight.compareUn target _ _ state
  | leUn => exact straight.compareUn target _ _ state
  | ltUn => exact straight.compareUn target _ _ state

theorem Straight.operator (straight : Straight Step) (target : Target) (operator : Operator)
    (state : State) :
    Takes Step id state (scilInstrOperator target operator state) := by
  cases operator with
  | div =>
    apply Takes.lookup
    intro top
    exact straight.append (straight.binop target _ state)
  | divUn => exact straight.append (straight.binopUn target _ state)
  | remUn => exact straight.append (straight.binopUn target _ state)
  | shrUn => exact straight.append (straight.binopUn target _ state)
  | _ => exact straight.append (straight.binop target _ state)

theorem Straight.finishCall (straight : Straight Step) (type : Option Ty) (callee : Callee)
    (arguments : List Expr)
    (state : State) : Takes Step id state (finishCall type callee arguments state) := by
  cases type with
  | none => exact straight.emit _ state rfl rfl
  | some type => exact straight.append (straight.push type _ state)

theorem Straight.ret (straight : Straight Step) (result : Option Decl) (state : State) :
    Takes Step id state (scilInstrRet result state) := by
  unfold scilInstrRet
  split
  · exact straight.emit _ state rfl rfl
  · exact (straight.pop state).bind straight fun popped => straight.emit _ popped.2 rfl rfl

theorem Straight.executePlain (straight : Straight Step) (method : Method) {instr : Instr}
    (noBranch : instr.target? = none) (state : State) :
    Takes Step id state (execute method instr state) := by
  cases instr with
  | br => cases noBranch
  | brfalse => cases noBranch
  | brtrue => cases noBranch
  | branch => cases noBranch
  | nop => exact takes_some (straight.refl _)
  | ldarg index => exact Takes.lookup fun _ => straight.scilInstrPush _ state
  | ldarga index => exact Takes.lookup fun _ => straight.append (straight.push _ _ state)
  | starg index => exact Takes.lookup fun parameter => straight.popInto parameter state
  | ldloc index => exact Takes.lookup fun _ => straight.scilInstrPush _ state
  | ldloca index => exact Takes.lookup fun _ => straight.append (straight.push _ _ state)
  | stloc index => exact Takes.lookup fun variable_ => straight.popInto variable_ state
  | ldnull => exact straight.scilInstrPush _ state
  | ldcI4Short constant => exact straight.append (straight.push _ _ state)
  | ldcI4S byte => exact straight.append (straight.push _ _ state)
  | ldcI4 constant => exact straight.append (straight.push _ _ state)
  | ldcI8 constant => exact straight.append (straight.push _ _ state)
  | dup => exact Takes.lookup fun _ => straight.scilInstrPush _ state
  | pop => exact (straight.pop state).bind straight fun _ => takes_some (straight.refl _)
  | call callee methodType =>
    exact (straight.popParameters _ _ state).bind straight fun popped =>
      straight.finishCall _ _ _ popped.2
  | callvirt methodType slot =>
    exact (straight.popParameters _ _ state).bind straight fun popped =>
      straight.finishCall _ _ _ popped.2
  | callDelegate methodType =>
    exact (straight.popParameters _ _ state).bind straight fun popped =>
      (straight.popConvert _ popped.2).bind straight fun callee =>
        straight.finishCall _ _ _ callee.2
  | ret => exact straight.ret _ state
  | operator operator => exact straight.operator _ operator state
  | neg =>
    exact straight.append ((straight.pop state).bind straight fun op => straight.push _ _ op.2)
  | not =>
    exact straight.append ((straight.pop state).bind straight fun op => straight.push _ _ op.2)
  | conv type =>
    exact (straight.pop state).bind straight fun value =>
      straight.append (straight.push _ _ value.2)
  | ldstr index => exact straight.append (straight.push _ _ state)
  | newobj constructor parameterTypes =>
    intro after executed
    obtain ⟨popped, pops, last⟩ := Option.bind_eq_some_iff.mp
      (show scilInstrNewobj constructor parameterTypes state = some after from executed)
    -- The vtable of the new object is stored before the arguments are popped.
    exact straight.trans (straight.emits (.modify _ _) state rfl rfl)
      (straight.trans (straight.popParameters _ _ _ popped pops)
        (straight.trans (straight.emits (.expr _) popped.2 rfl rfl)
          (straight.scilInstrPush _ _ after last)))
  | newStaticDelegate =>
    exact (straight.pop state).bind straight fun function =>
      (straight.pop function.2).bind straight fun object =>
        straight.append (straight.push _ _ object.2)
  | ldfld field =>
    exact (straight.resolveField field state).bind straight fun resolved =>
      straight.scilInstrPush _ resolved.2
  | ldflda field =>
    exact (straight.resolveField field state).bind straight fun resolved =>
      straight.append (straight.push _ _ resolved.2)
  | stfld field =>
    exact (straight.popConvert _ state).bind straight fun value =>
      (straight.resolveField field value.2).bind straight fun resolved =>
        straight.emit _ resolved.2 rfl rfl
  | ldsfld field => exact straight.scilInstrPush _ state
  | ldsflda field => exact straight.append (straight.push _ _ state)
  | stsfld field => exact straight.popInto field state
  | compare comparison => exact straight.compare _ comparison state
  | ldftn callee => exact straight.append (straight.push _ _ state)
  | ldvirtftn slot =>
    exact (straight.popConvert _ state).bind straight fun object =>
      straight.scilInstrPush _ object.2

theorem Straight.executeBranch (straight : Straight Step) (method : Method) {instr : Instr}
    {target : Nat} (branches : instr.target? = some target) {state after : State}
    (executed : execute method instr state = some after) :
    ∃ before stmt, Step state before ∧ stmt.target? = some target ∧ stmt.label? = none ∧
      (after = scilAppendStmt stmt (instrGoto target before) ∨
        after = scilClearStack (scilAppendStmt stmt (instrGoto target before))) := by
  have condition : ∀ {start : State}, Step state start → ∀ onTrue popped,
      Scil.popConvert (.int .bool) start = some popped →
      scilAppendStmt (.condGoto popped.1 onTrue target) (instrGoto target popped.2) = after →
      ∃ before stmt, Step state before ∧ stmt.target? = some target ∧ stmt.label? = none ∧
        (after = scilAppendStmt stmt (instrGoto target before) ∨
          after = scilClearStack (scilAppendStmt stmt (instrGoto target before))) := by
    rintro start reached onTrue popped pops rfl
    exact ⟨popped.2, _, straight.trans reached (straight.popConvert _ start _ pops), rfl, rfl,
      .inl rfl⟩
  cases instr with
  | br =>
    cases branches
    cases executed
    exact ⟨state, _, straight.refl state, rfl, rfl, .inr rfl⟩
  | brfalse =>
    cases branches
    obtain ⟨popped, pops, last⟩ := Option.bind_eq_some_iff.mp executed
    exact condition (straight.refl state) false popped pops (Option.some.inj last)
  | brtrue =>
    cases branches
    obtain ⟨popped, pops, last⟩ := Option.bind_eq_some_iff.mp executed
    exact condition (straight.refl state) true popped pops (Option.some.inj last)
  | branch comparison =>
    cases branches
    obtain ⟨compared, compares, ends⟩ := Option.bind_eq_some_iff.mp executed
    obtain ⟨popped, pops, last⟩ := Option.bind_eq_some_iff.mp ends
    exact condition (straight.compare _ comparison state compared compares) true popped pops
      (Option.some.inj last)
  | _ => cases branches

end Runs

theorem straight_stackStep : Straight (ReflTransGen StackStep) where
  refl _ := ReflTransGen.refl
  trans := ReflTransGen.trans
  allocates returned := ReflTransGen.single (.allocate returned)
  pushes returned := ReflTransGen.single (.push returned)
  pops popped := ReflTransGen.single (.pop popped)
  emits stmt state _ _ := ReflTransGen.single (.emit stmt state)

theorem leadsTo_execute (method : Method) (instr : Instr) (state : State) :
    LeadsTo id state (execute method instr state) := by
  cases target : instr.target? with
  | none => exact straight_stackStep.executePlain method target state
  | some target' =>
    intro after executed
    obtain ⟨before, stmt, reached, -, -, rfl | rfl⟩ :=
      straight_stackStep.executeBranch method target executed
    · exact (reached.tail (.save target' before)).tail (.emit stmt _)
    · exact ((reached.tail (.save target' before)).tail (.emit stmt _)).tail (.clear _)

theorem leadsTo_parseInstructions (method : Method) (instructions : List (Nat × Instr))
    (state : State) : LeadsTo id state (parseInstructions method instructions state) := by
  induction instructions generalizing state with
  | nil => exact takes_some ReflTransGen.refl
  | cons entry rest ih =>
    rcases entry with ⟨offset, instr⟩
    apply straight_stackStep.after (ReflTransGen.single (.label offset state))
    intro final parsed
    obtain ⟨next, executed, last⟩ := Option.bind_eq_some_iff.mp parsed
    exact (leadsTo_execute method instr _ next executed).trans
      (ih next final last)

structure SlotsOwned (state : State) : Prop where
  wellFormed : state.WellFormed
  saved : ∀ label stack, state.labelData label = .saved stack →
    stack.topIndex = stack.entries.length ∧ state.typedStacks.Owns stack.entries

theorem initial_slotsOwned (size nextIndex : Nat) :
    SlotsOwned (State.initial size nextIndex) := by
  refine ⟨State.initial_wellFormed size nextIndex, ?_⟩
  intro label stack saved
  simp [State.initial] at saved

theorem scilGetStackVariable_eq_some {type : Ty} {found : Decl} {state state' : State}
    (returned : scilGetStackVariable type state = some (found, state')) :
    state'.typedStacks.find (getStack type) state.stack.topIndex = some found ∧
      state' = { state with
        typedStacks :=
          (state.typedStacks.allocate (getStack type) state.stack.topIndex).2 } := by
  unfold scilGetStackVariable at returned
  split at returned
  case isFalse => contradiction
  case isTrue =>
    have owned := state.typedStacks.find_allocate (getStack type) state.stack.topIndex
    simp only [Option.some.injEq, Prod.mk.injEq] at returned
    obtain ⟨rfl, rfl⟩ := returned
    exact ⟨owned, rfl⟩

theorem SlotsOwned.allocate {type : Ty} {found : Decl} {state state' : State}
    (invariant : SlotsOwned state)
    (returned : scilGetStackVariable type state = some (found, state')) :
    SlotsOwned state' := by
  obtain ⟨⟨typedStacks, topIndex, owns⟩, saved⟩ := invariant
  have extension := state.typedStacks.allocate_extends (getStack type) state.stack.topIndex
  obtain ⟨-, rfl⟩ := scilGetStackVariable_eq_some returned
  refine ⟨⟨TypedStacks.allocate_wellFormed typedStacks _ _, topIndex, owns.extend extension⟩, ?_⟩
  intro label stack data
  obtain ⟨length, owned⟩ := saved label stack data
  exact ⟨length, owned.extend extension⟩

theorem SlotsOwned.push {type : Ty} {found : Decl} {state : State} (invariant : SlotsOwned state)
    (returned : scilGetStackVariable type state = some (found, state)) :
    SlotsOwned (scilStackPush found state) := by
  obtain ⟨⟨typedStacks, topIndex, owns⟩, saved⟩ := invariant
  have owned := (scilGetStackVariable_eq_some returned).1
  have variableType : found.type = stackType type := (typedStacks.registered _ _ _ owned).2.1
  refine ⟨⟨typedStacks, ?_, ?_, owns⟩, saved⟩
  · simp [scilStackPush, topIndex]
  · change state.typedStacks.find (getStack found.type) state.stack.entries.length = _
    rw [variableType, getStack_stackType, ← topIndex]
    exact owned

theorem SlotsOwned.pop {entry : Decl} {state state' : State} (invariant : SlotsOwned state)
    (popped : scilStackPop state = some (entry, state')) : SlotsOwned state' := by
  cases entries : state.stack.entries with
  | nil => simp [scilStackPop, entries] at popped
  | cons top rest =>
    rw [scilStackPop_cons entries] at popped
    cases popped
    exact ⟨invariant.wellFormed.popped entries, invariant.saved⟩

theorem SlotsOwned.clear {state : State} (invariant : SlotsOwned state) :
    SlotsOwned (scilClearStack state) :=
  ⟨⟨invariant.wellFormed.typedStacks, rfl, trivial⟩, invariant.saved⟩

theorem SlotsOwned.save {state : State} (invariant : SlotsOwned state) (target : Nat) :
    SlotsOwned (instrGoto target state) := by
  obtain ⟨⟨typedStacks, topIndex, owns⟩, saved⟩ := invariant
  refine ⟨⟨?_, ?_, ?_⟩, ?_⟩
  · rwa [instrGoto_typedStacks]
  · rwa [instrGoto_stack]
  · rwa [instrGoto_typedStacks, instrGoto_stack]
  · intro label stack data
    rw [instrGoto_typedStacks]
    rw [instrGoto_labelData] at data
    split at data
    case isTrue =>
      cases data
      exact ⟨topIndex, owns⟩
    case isFalse => exact saved label stack data

theorem SlotsOwned.label {state : State} (invariant : SlotsOwned state) (offset : Nat) :
    SlotsOwned (scilSetLabel offset state) := by
  obtain ⟨⟨typedStacks, topIndex, owns⟩, saved⟩ := invariant
  have installed : (scilSetLabel offset state).stack.topIndex =
        (scilSetLabel offset state).stack.entries.length ∧
      state.typedStacks.Owns (scilSetLabel offset state).stack.entries := by
    rw [scilSetLabel_stack]
    split
    case h_1 stack data => exact saved offset stack data
    case h_2 => exact ⟨topIndex, owns⟩
  refine ⟨⟨?_, installed.1, ?_⟩, ?_⟩
  · rwa [scilSetLabel_typedStacks]
  · rw [scilSetLabel_typedStacks]
    exact installed.2
  · intro label stack data
    rw [scilSetLabel_typedStacks]
    rw [scilSetLabel_labelData] at data
    split at data
    case isTrue => contradiction
    case isFalse => exact saved label stack data

theorem SlotsOwned.step {state state' : State} (invariant : SlotsOwned state)
    (step : StackStep state state') : SlotsOwned state' := by
  cases step with
  | allocate returned => exact invariant.allocate returned
  | push returned => exact invariant.push returned
  | pop popped => exact invariant.pop popped
  | clear => exact invariant.clear
  | save target => exact invariant.save target
  | label offset => exact invariant.label offset
  | emit stmt =>
    exact ⟨⟨invariant.wellFormed.typedStacks, invariant.wellFormed.topIndex,
      invariant.wellFormed.owns⟩, invariant.saved⟩

theorem Reached.slotsOwned {method : Method} {nextIndex : Nat} {state : State}
    (reached : Reached method nextIndex state) : SlotsOwned state := by
  induction reached with
  | refl => exact initial_slotsOwned _ _
  | tail earlier step ih => exact ih.step step

structure NoClash (state : State) : Prop where
  topIndex : state.stack.topIndex = state.stack.entries.length
  /-- depths count from the bottom of the stack -/
  allocated : ∀ depth entry, state.stack.entries.reverse[depth]? = some entry →
    ∃ family, state.typedStacks.find family depth = some entry
  distinct : state.stack.entries.Nodup
  fresh : ∀ type found state', scilGetStackVariable type state = some (found, state') →
    found ∉ state.stack.entries
  /-- a push stores into a variable that is not live, and every live value stays -/
  pushes : ∀ type expr stmt state', instrPush type expr state = some (stmt, state') →
    ∃ found value, stmt = .modify (.decl found) value ∧ found ∉ state.stack.entries ∧
      ∀ memory memory', stmt.exec memory = some memory' →
        ∀ entry ∈ state.stack.entries, memory'.value entry = memory.value entry

theorem TypedStacks.Owns.find_of_getElem? {slots : TypedStacks} {entries : List Decl} (owned : slots.Owns entries)
    {depth : Nat} {entry : Decl} (at_ : entries.reverse[depth]? = some entry) :
    ∃ family, slots.find family depth = some entry := by
  induction entries with
  | nil => simp at at_
  | cons top rest ih =>
    rw [List.reverse_cons, List.getElem?_append] at at_
    split at at_
    case isTrue => exact ih owned.2 at_
    case isFalse above =>
      simp only [List.length_reverse] at above at_
      obtain ⟨bound, rfl⟩ := List.getElem?_eq_some_iff.mp at_
      have same : depth = rest.length := by
        simp only [List.length_singleton] at bound
        omega
      subst same
      exact ⟨_, by simpa using owned.1⟩

theorem TypedStacks.Owns.nodup {slots : TypedStacks} (wellFormed : slots.WellFormed) {entries : List Decl}
    (owned : slots.Owns entries) : entries.Nodup := by
  induction entries with
  | nil => exact List.nodup_nil
  | cons top rest ih =>
    refine List.nodup_cons.mpr ⟨?_, ih owned.2⟩
    intro membership
    exact TypedStacks.Owns.ne_of_find wellFormed owned.2 owned.1 le_rfl membership rfl

theorem SlotsOwned.fresh {state state' : State} (invariant : SlotsOwned state) {type : Ty}
    {found : Decl} (returned : scilGetStackVariable type state = some (found, state')) :
    found ∉ state.stack.entries := by
  have later := (invariant.allocate returned).wellFormed
  obtain ⟨owned, equal⟩ := scilGetStackVariable_eq_some returned
  have sameStack : state'.stack = state.stack := by rw [equal]
  have owns := later.owns
  rw [sameStack] at owns
  intro membership
  exact owns.ne_of_find later.typedStacks owned invariant.wellFormed.topIndex.ge membership rfl

theorem SlotsOwned.noClash {state : State} (invariant : SlotsOwned state) : NoClash state where
  topIndex := invariant.wellFormed.topIndex
  allocated := fun _ _ at_ => invariant.wellFormed.owns.find_of_getElem? at_
  distinct := invariant.wellFormed.owns.nodup invariant.wellFormed.typedStacks
  fresh := fun _ _ _ returned => invariant.fresh returned
  pushes := by
    intro type expr stmt state' pushed
    obtain ⟨⟨found, later⟩, returned, built⟩ := Option.bind_eq_some_iff.mp pushed
    cases built
    have notLive := invariant.fresh returned
    refine ⟨found, _, rfl, notLive, ?_⟩
    intro memory memory' executed entry live
    obtain ⟨x, -, rfl⟩ := Option.map_eq_some_iff.mp executed
    apply Memory.set_value_of_ne
    rintro rfl
    exact notLive live

/-- Stack variables never clash: in every state that the translation of a
method passes through, the entry at depth `i` is a variable of slot `i`, and the
next push uses a variable that is not on the stack. -/
theorem reached_noClash (method : Method) (nextIndex : Nat) :
    (∀ instructions final,
      parseInstructions method instructions (State.initial method.maxStack nextIndex) =
          some final →
        Reached method nextIndex final) ∧
      ∀ state, Reached method nextIndex state → NoClash state := by
  refine ⟨?_, ?_⟩
  · intro instructions final parsed
    exact leadsTo_parseInstructions method instructions _ final parsed
  · intro state reached
    exact reached.slotsOwned.noClash

end GccCil.Scil
