import GccCil.Lib.PartialSimulation
import GccCil.Scil.Instructions

/-!
# The stack effect of an instruction

What an instruction does to the evaluation stack is a function of the types on
the stack alone.  `effect` is that function for any way of typing the stack,
and `stackEffect` the one for the types of the stack variables;
`execute_spec` says that the translation of an instruction succeeds exactly
when `stackEffect` is defined, and that it keeps the invariant of the stack.
-/

namespace GccCil.Scil

open GccCil.Lib

structure StackTyping (α : Type) where
  /-- a value that was loaded or computed with this type -/
  entry : Ty → α
  longConstant : Int → α
  unary : UnaryCode → α → Option α
  operator : Operator → α → α → Option α
  compare : Comparison → α → α → Option α

section Effect

variable {α : Type}

def popType : List α → Option (α × List α)
  | [] => none
  | type :: rest => some (type, rest)

/-- Push on a stack of at most `size` entries. -/
def pushType (size : Nat) (type : α) (types : List α) : Option (List α) :=
  if types.length < size then some (type :: types) else none

def popTypes : List Ty → List α → Option (List α)
  | [], types => some types
  | _ :: parameters, types => do
      let (_, types) ← popType types
      popTypes parameters types

def resultEffect (size : Nat) (result : Option α) (types : List α) : Option (List α) :=
  match result with
  | none => some types
  | some type => pushType size type types

def binaryEffect (size : Nat) (result : α → α → Option α) (types : List α) :
    Option (List α) := do
  let (type2, types) ← popType types
  let (type1, types) ← popType types
  pushType size (← result type1 type2) types

/-- The types on the stack after an instruction; for `br` those at the jump. -/
def effect (typing : StackTyping α) (method : Method) (instr : Instr) (types : List α) :
    Option (List α) :=
  match instr with
  | .nop | .br _ => some types
  | .ldarg index => do
      let parameter ← method.parameters[index]?
      pushType method.maxStack (typing.entry parameter.type) types
  | .ldloc index => do
      let variable_ ← method.locals[index]?
      pushType method.maxStack (typing.entry variable_.type) types
  | .ldarga index => do
      let _ ← method.parameters[index]?
      pushType method.maxStack (typing.entry .pointer) types
  | .ldloca index => do
      let _ ← method.locals[index]?
      pushType method.maxStack (typing.entry .pointer) types
  | .starg index => do
      let _ ← method.parameters[index]?
      return (← popType types).2
  | .stloc index => do
      let _ ← method.locals[index]?
      return (← popType types).2
  | .ldcI4Short _ | .ldcI4S _ => pushType method.maxStack (typing.entry (.int .int8)) types
  | .ldcI4 constant =>
    pushType method.maxStack (typing.entry (.int (ldcI4Type constant))) types
  | .ldcI8 constant => pushType method.maxStack (typing.longConstant constant) types
  | .ldnull | .ldstr _ | .ldsflda _ | .ldftn _ =>
    pushType method.maxStack (typing.entry .pointer) types
  | .ldsfld field => pushType method.maxStack (typing.entry field.type) types
  | .dup => do
      let (type, _) ← popType types
      pushType method.maxStack type types
  | .pop | .brfalse _ | .brtrue _ | .stsfld _ => do
      return (← popType types).2
  | .call _ methodType | .callvirt methodType _ => do
      resultEffect method.maxStack (methodType.returnType.map typing.entry)
        (← popTypes methodType.parameterTypes types)
  | .callDelegate methodType => do
      let types ← popTypes methodType.parameterTypes types
      resultEffect method.maxStack (methodType.returnType.map typing.entry) (← popType types).2
  | .ret => some types.tail
  | .branch comparison _ => do
      let types ← binaryEffect method.maxStack (typing.compare comparison) types
      return (← popType types).2
  | .compare comparison => binaryEffect method.maxStack (typing.compare comparison) types
  | .operator operator => binaryEffect method.maxStack (typing.operator operator) types
  | .neg => do
      let (type, types) ← popType types
      pushType method.maxStack (← typing.unary .negate type) types
  | .not => do
      let (type, types) ← popType types
      pushType method.maxStack (← typing.unary .bitNot type) types
  | .conv type => do
      pushType method.maxStack (typing.entry type) (← popType types).2
  | .newobj _ parameterTypes => do
      pushType method.maxStack (typing.entry .pointer) (← popTypes parameterTypes types)
  | .newStaticDelegate => do
      let (_, types) ← popType types
      pushType method.maxStack (typing.entry .pointer) (← popType types).2
  | .ldfld field => do
      pushType method.maxStack (typing.entry field.type) (← popType types).2
  | .ldflda _ | .ldvirtftn _ => do
      pushType method.maxStack (typing.entry .pointer) (← popType types).2
  | .stfld _ => do
      let (_, types) ← popType types
      return (← popType types).2

theorem popTypes_congr {first second : List Ty} (length : first.length = second.length)
    (types : List α) : popTypes first types = popTypes second types := by
  induction first generalizing second types with
  | nil =>
    obtain rfl := List.eq_nil_of_length_eq_zero length.symm
    rfl
  | cons type rest ih =>
    cases second with
    | nil => simp at length
    | cons type' rest' =>
      simp only [List.length_cons, Nat.add_right_cancel_iff] at length
      simp only [popTypes, ih length]

end Effect

def compareType (target : Target) (comparison : Comparison) (_type1 type2 : Ty) : Option Ty :=
  match comparison with
  | .eq | .gt | .lt | .ge | .le => some (.int .bool)
  | .neUn | .geUn | .gtUn | .leUn | .ltUn =>
    if type2.isIntegerType then
      (scilHookUnsignedType target type2).map fun _ => .int .bool
    else some (.int .bool)

def operatorType (target : Target) (operator : Operator) (type1 type2 : Ty) : Option Ty :=
  match operator with
  | .add | .sub | .mul | .div | .and | .or | .xor | .shl | .shr =>
    some (widerType target type1 type2)
  | .divUn | .remUn | .shrUn => (scilHookUnsignedType target type2).map Ty.int

def trackedTyping (target : Target) : StackTyping Ty where
  entry := stackType
  longConstant constant := stackType (.int (ldcI8Type constant))
  unary _ type := some type
  operator operator type1 type2 := (operatorType target operator type1 type2).map stackType
  compare comparison type1 type2 := (compareType target comparison type1 type2).map stackType

def stackEffect (method : Method) : Instr → List Ty → Option (List Ty) :=
  effect (trackedTyping method.target) method

/-- A reachable state with these types on the stack.  `earlier` is a table of
variables from before, `labelData` what the labels hold. -/
structure Tracks (earlier : TypedStacks) (size : Nat) (labelData : Nat → LabelData)
    (state : State) (types : List Ty) : Prop where
  wellFormed : state.WellFormed
  later : earlier.Extends state.typedStacks
  size : state.size = size
  labelData : state.labelData = labelData
  types : state.types = types

section Simulation

variable {earlier : TypedStacks} {size : Nat} {labelData : Nat → LabelData}

theorem tracks_self {state : State} (wellFormed : state.WellFormed) :
    Tracks state.typedStacks state.size state.labelData state state.types :=
  ⟨wellFormed, TypedStacks.Extends.refl _, rfl, rfl, rfl⟩

theorem Tracks.appendStmt {state : State} {types : List Ty}
    (tracks : Tracks earlier size labelData state types) (stmt : Stmt) :
    Tracks earlier size labelData (scilAppendStmt stmt state) types :=
  ⟨⟨tracks.wellFormed.typedStacks, tracks.wellFormed.topIndex, tracks.wellFormed.owns⟩,
    tracks.later, tracks.size, tracks.labelData, tracks.types⟩

theorem Tracks.length_eq {state : State} {types : List Ty}
    (tracks : Tracks earlier size labelData state types) :
    types.length = state.stack.topIndex := by
  rw [← tracks.types, State.types, List.length_map, tracks.wellFormed.topIndex]

theorem Tracks.pop {state : State} {types : List Ty}
    (tracks : Tracks earlier size labelData state types) :
    Option.Rel (fun popped rest => popped.1.type = rest.1 ∧
        Tracks earlier size labelData popped.2 rest.2)
      (scilStackPop state) (popType types) := by
  obtain ⟨⟨typedStacks, topIndex, owns⟩, later, sizeEq, labels, rfl⟩ := tracks
  rcases state with ⟨stateSize, ⟨top, entries⟩, slots, data, forced, body⟩
  cases entries with
  | nil => exact .none
  | cons entry rest =>
    simp only [List.length_cons] at topIndex
    exact .some ⟨rfl, ⟨typedStacks, by simp [topIndex], owns.2⟩, later, sizeEq, labels, rfl⟩

theorem Tracks.top {state : State} {types : List Ty}
    (tracks : Tracks earlier size labelData state types) :
    Option.Rel (fun top type => top.type = type) (scilStackTop state) types.head? := by
  obtain rfl := tracks.types
  rcases state with ⟨stateSize, ⟨top, entries⟩, slots, data, forced, body⟩
  cases entries with
  | nil => exact .none
  | cons entry rest => exact .some rfl

theorem Tracks.stackType_head {state : State} {type : Ty} {types : List Ty}
    (tracks : Tracks earlier size labelData state (type :: types)) : stackType type = type := by
  have typesEq := tracks.types
  have owns := tracks.wellFormed.owns
  unfold State.types at typesEq
  cases entries : state.stack.entries with
  | nil => simp [entries] at typesEq
  | cons entry rest =>
    rw [entries] at typesEq owns
    obtain ⟨rfl, -⟩ := List.cons.inj typesEq
    exact (tracks.wellFormed.typedStacks.registered _ _ _ owns.1).2.1.symm

theorem Tracks.push {state : State} {types : List Ty}
    (tracks : Tracks earlier size labelData state types) (type : Ty) (expr : Expr) :
    Option.Rel (fun pushed types' => Tracks earlier size labelData pushed.2 types')
      (instrPush type expr state) (pushType size (stackType type) types) := by
  have length := tracks.length_eq
  obtain ⟨⟨typedStacks, topIndex, owns⟩, later, rfl, labels, rfl⟩ := tracks
  unfold pushType instrPush scilGetStackVariable
  rw [length]
  split
  case isFalse => exact .none
  case isTrue =>
    have owned := state.typedStacks.find_allocate (getStack type) state.stack.topIndex
    have extension := state.typedStacks.allocate_extends (getStack type) state.stack.topIndex
    have wellFormed :=
      TypedStacks.allocate_wellFormed typedStacks (getStack type) state.stack.topIndex
    have variableType := (wellFormed.registered _ _ _ owned).2.1
    generalize state.typedStacks.allocate (getStack type) state.stack.topIndex = allocated
      at owned extension wellFormed variableType ⊢
    refine .some ⟨⟨wellFormed, ?_, ?_, owns.extend extension⟩, later.trans extension, rfl,
      labels, ?_⟩
    · simp [scilStackPush, topIndex]
    · change allocated.2.find (getStack allocated.1.type) state.stack.entries.length = _
      rw [variableType, ← topIndex]
      change allocated.2.find (getStack (stackType type)) _ = _
      rw [getStack_stackType]
      exact owned
    · simp only [State.types, scilStackPush, List.map_cons]
      rw [variableType]
      rfl

/-- Both fail, or both succeed and the types are those on the stack. -/
abbrev Simulates (earlier : TypedStacks) (size : Nat) (labelData : Nat → LabelData) :
    Option State → Option (List Ty) → Prop :=
  Option.Rel (Tracks earlier size labelData)

theorem Tracks.append {state : State} {build : State → Option (Stmt × State)}
    {effect : Option (List Ty)}
    (built : Option.Rel (fun result types' => Tracks earlier size labelData result.2 types')
      (build state) effect) :
    Simulates earlier size labelData (append build state) effect := by
  exact rel_bind_left built fun _ _ tracks => .some (tracks.appendStmt _)

theorem Tracks.popConvert {state : State} {types : List Ty}
    (tracks : Tracks earlier size labelData state types) (type : Ty) :
    Option.Rel (fun popped rest => Tracks earlier size labelData popped.2 rest.2)
      (popConvert type state) (popType types) := by
  exact rel_bind_left tracks.pop fun _ _ popped => .some popped.2

theorem Tracks.resolveField {state : State} {types : List Ty}
    (tracks : Tracks earlier size labelData state types) (field : Decl) :
    Option.Rel (fun popped rest => popped.1.type = some field.type ∧
        Tracks earlier size labelData popped.2 rest.2)
      (instrResolveField field state) (popType types) := by
  refine rel_bind_left tracks.pop ?_
  rintro ⟨object, state'⟩ rest ⟨-, next⟩
  dsimp only
  split
  · exact .some ⟨rfl, next⟩
  · exact .some ⟨rfl, next⟩

theorem Tracks.popParameters {state : State} {types : List Ty}
    (tracks : Tracks earlier size labelData state types) (parameters : List Ty)
    (arguments : List Expr) :
    Option.Rel (fun popped types' => Tracks earlier size labelData popped.2 types')
      (popParameters parameters arguments state) (popTypes parameters types) := by
  induction parameters generalizing state types arguments with
  | nil => exact .some tracks
  | cons type rest ih =>
    refine rel_bind (tracks.popConvert type) ?_
    intro popped types' next
    exact ih next _

theorem Tracks.instrPopParameters {state : State} {types : List Ty}
    (tracks : Tracks earlier size labelData state types) (parameters : List Ty) :
    Option.Rel (fun popped types' => Tracks earlier size labelData popped.2 types')
      (instrPopParameters parameters state) (popTypes parameters types) := by
  rw [popTypes_congr (List.length_reverse).symm]
  exact tracks.popParameters _ _

theorem Tracks.unop {state : State} {types : List Ty}
    (tracks : Tracks earlier size labelData state types) (operation : UnaryCode) :
    Simulates earlier size labelData (Scil.append (instrUnop operation) state)
      (popType types >>= fun popped => pushType size popped.1 popped.2) := by
  apply Tracks.append
  cases types with
  | nil =>
    change Option.Rel _ (instrUnop operation state) none
    rw [instrUnop, rel_none_right tracks.pop]
    exact .none
  | cons type rest =>
    have tracked := tracks.stackType_head
    obtain ⟨⟨op, state'⟩, popped, rfl, next⟩ := rel_some_right tracks.pop
    rw [instrUnop, popped]
    change Option.Rel _ _ (pushType size op.type rest)
    rw [← tracked]
    exact next.push _ _

theorem Tracks.binary {state : State} {types : List Ty}
    (tracks : Tracks earlier size labelData state types) (result : Ty → Ty → Ty)
    (value : Decl → Decl → Expr) :
    Option.Rel (fun pushed types' => Tracks earlier size labelData pushed.2 types')
      (do
        let (op2, state) ← scilStackPop state
        let (op1, state) ← scilStackPop state
        instrPush (result op1.type op2.type) (value op1 op2) state)
      (binaryEffect size (fun type1 type2 => some (stackType (result type1 type2))) types) := by
  refine rel_bind tracks.pop ?_
  rintro ⟨op2, state₂⟩ ⟨type2, rest₂⟩ ⟨rfl, next₂⟩
  refine rel_bind next₂.pop ?_
  rintro ⟨op1, state₁⟩ ⟨type1, rest₁⟩ ⟨rfl, next₁⟩
  exact next₁.push _ _

theorem Tracks.binop {state : State} {types : List Ty}
    (tracks : Tracks earlier size labelData state types) (target : Target)
    (operation : BinaryCode) :
    Simulates earlier size labelData (Scil.append (instrBinop target operation) state)
      (binaryEffect size (fun type1 type2 => some (stackType (widerType target type1 type2)))
        types) :=
  Tracks.append (tracks.binary (widerType target) fun op1 op2 =>
    .binary operation (widerType target op1.type op2.type)
      (widen target op1.type op2.type (.decl op1))
      (widen target op2.type op1.type (.decl op2)))

theorem Tracks.binopTyped {state : State} {types : List Ty}
    (tracks : Tracks earlier size labelData state types) (target : Target)
    (operation : BinaryCode) (type : Ty) :
    Simulates earlier size labelData (Scil.append (instrBinopTyped target operation type) state)
      (binaryEffect size (fun _ _ => some (stackType type)) types) :=
  Tracks.append (tracks.binary (fun _ _ => type) fun op1 op2 =>
    .binary operation type
      (widen target op1.type op2.type (.decl op1))
      (widen target op2.type op1.type (.decl op2)))

theorem Tracks.binaryUn {state : State} {types : List Ty}
    (tracks : Tracks earlier size labelData state types) (target : Target)
    (result : IntType → Ty) (value : IntType → Expr → Expr → Expr) :
    Option.Rel (fun pushed types' => Tracks earlier size labelData pushed.2 types')
      (do
        let top ← scilStackTop state
        let type ← scilHookUnsignedType target top.type
        let (op2, state) ← Scil.popConvert (.int type) state
        let (op1, state) ← Scil.popConvert (.int type) state
        instrPush (result type) (value type op1 op2) state)
      (binaryEffect size
        (fun _ type2 => ((scilHookUnsignedType target type2).map result).map stackType)
        types) := by
  -- The top is read before it is popped, and the hook fails before the second
  -- pop does; the effect orders the two failures the other way round.
  have popped := tracks.pop
  obtain rfl := tracks.types
  rcases stackEq : state.stack.entries with _ | ⟨op2, rest⟩
  · simp only [State.types, scilStackTop, stackEq, binaryEffect]
    exact .none
  · have top : scilStackTop state = some op2 := by simp [scilStackTop, stackEq]
    have types : state.types = op2.type :: rest.map Decl.type := by simp [State.types, stackEq]
    rw [top, types, binaryEffect]
    change Option.Rel _ ((scilHookUnsignedType target op2.type).bind _)
      ((popType (rest.map Decl.type)).bind fun popped =>
        (((scilHookUnsignedType target op2.type).map result).map stackType).bind fun type =>
          pushType size type popped.2)
    cases scilHookUnsignedType target op2.type with
    | none =>
      cases popType (rest.map Decl.type) with
      | none => exact .none
      | some popped => exact .none
    | some type =>
      rw [types] at tracks
      obtain ⟨⟨value2, state₂⟩, popped₂, next₂⟩ :=
        rel_some_right (tracks.popConvert (.int type))
      change Option.Rel _ ((Scil.popConvert (.int type) state).bind _) _
      rw [popped₂]
      change Option.Rel _ ((Scil.popConvert (.int type) state₂).bind _) _
      refine rel_bind (next₂.popConvert (.int type)) ?_
      intro popped₁ rest₁ next₁
      exact next₁.push _ _

theorem Tracks.compare {state : State} {types : List Ty}
    (tracks : Tracks earlier size labelData state types) (target : Target)
    (comparison : Comparison) :
    Simulates earlier size labelData (scilInstrCompare target comparison state)
      (binaryEffect size ((trackedTyping target).compare comparison) types) := by
  have signed : ∀ code, Simulates earlier size labelData (appendCompare target code state)
      (binaryEffect size (fun _ _ => some (stackType (.int .bool))) types) :=
    fun code => tracks.binopTyped target code (.int .bool)
  have unsigned : ∀ intCode realCode, Simulates earlier size labelData
      (appendCompareUn target intCode realCode state)
      (binaryEffect size ((trackedTyping target).compare .neUn) types) := by
    intro intCode realCode
    have integers : Simulates earlier size labelData
        (Scil.append (instrBinopUnTyped target intCode (.int .bool)) state) _ := Tracks.append
      (tracks.binaryUn target (fun _ => .int .bool)
        fun _ op1 op2 => .binary intCode (.int .bool) op1 op2)
    have reals := tracks.binopTyped target realCode (.int .bool)
    have top := tracks.top
    unfold appendCompareUn
    cases types with
    | nil =>
      rw [rel_none_right top]
      exact .none
    | cons type2 rest =>
      obtain ⟨entry, topEq, rfl⟩ := rel_some_right top
      rw [topEq]
      change Option.Rel _ (if entry.type.isIntegerType = true then _ else _) _
      simp only [trackedTyping, compareType, binaryEffect] at integers reals ⊢
      split
      case isTrue integer => simpa [popType, integer] using integers
      case isFalse real => simpa [popType, real] using reals
  cases comparison with
  | eq => exact signed _
  | ge => exact signed _
  | gt => exact signed _
  | le => exact signed _
  | lt => exact signed _
  | neUn => exact unsigned _ _
  | geUn => exact unsigned _ _
  | gtUn => exact unsigned _ _
  | leUn => exact unsigned _ _
  | ltUn => exact unsigned _ _

theorem Tracks.operator {state : State} {types : List Ty}
    (tracks : Tracks earlier size labelData state types) (target : Target)
    (operator : Operator) :
    Simulates earlier size labelData (scilInstrOperator target operator state)
      (binaryEffect size ((trackedTyping target).operator operator) types) := by
  have unsigned : ∀ operation, Simulates earlier size labelData
      (Scil.append (instrBinopUn target operation) state)
      (binaryEffect size
        (fun _ type2 => ((scilHookUnsignedType target type2).map Ty.int).map stackType)
        types) :=
    fun operation => Tracks.append (tracks.binaryUn target Ty.int
      fun type op1 op2 => .binary operation (.int type) op1 op2)
  cases operator with
  | div =>
    have top := tracks.top
    change Simulates earlier size labelData (appendBinopCases _ _ _ _) _
    unfold appendBinopCases
    cases types with
    | nil =>
      rw [rel_none_right top]
      exact .none
    | cons type2 rest =>
      obtain ⟨entry, topEq, rfl⟩ := rel_some_right top
      rw [topEq]
      exact tracks.binop target _
  | divUn => exact unsigned _
  | remUn => exact unsigned _
  | shrUn => exact unsigned _
  | _ => exact tracks.binop target _

theorem Tracks.finishCall {state : State} {types : List Ty}
    (tracks : Tracks earlier size labelData state types) (type : Option Ty) (callee : Callee)
    (arguments : List Expr) :
    Simulates earlier size labelData (finishCall type callee arguments state)
      (resultEffect size (type.map stackType) types) := by
  cases type with
  | none => exact .some (tracks.appendStmt _)
  | some type => exact Tracks.append (tracks.push _ _)

/-- The end of an instruction function: a branch records its stack at the
target, and an unconditional one then clears it. -/
def leave (instr : Instr) (state : State) : State :=
  match instr with
  | .br target => scilClearStack (instrGoto target state)
  | .brfalse target | .brtrue target | .branch _ target => instrGoto target state
  | _ => state

theorem instrGoto_appendStmt (target : Nat) (stmt : Stmt) (state : State) :
    scilAppendStmt stmt (instrGoto target state) =
      instrGoto target (scilAppendStmt stmt state) := by
  simp only [instrGoto, scilAppendStmt]
  split <;> rfl

theorem Tracks.branchTo {state : State} {types : List Ty} (onTrue : Bool) (target : Nat)
    (tracks : Tracks earlier size labelData state types) :
    Option.Rel (fun state' outgoing => ∃ before, Tracks earlier size labelData before outgoing ∧
        state' = instrGoto target before)
      (do
        let (condition, state) ← Scil.popConvert (.int .bool) state
        return scilAppendStmt (.condGoto condition onTrue target) (instrGoto target state))
      (do return (← popType types).2) := by
  refine rel_bind (tracks.popConvert (.int .bool)) ?_
  intro popped rest next
  exact .some ⟨_, next.appendStmt _, instrGoto_appendStmt _ _ _⟩

/-- An instruction is translated exactly when its effect is defined, and the
types at its end are those of the effect. -/
theorem execute_spec {method : Method} {state : State} {types : List Ty} (instr : Instr)
    (tracks : Tracks earlier method.maxStack labelData state types) :
    Option.Rel (fun state' outgoing =>
        ∃ before, Tracks earlier method.maxStack labelData before outgoing ∧
          state' = leave instr before)
      (execute method instr state) (stackEffect method instr types) := by
  -- Every instruction but the branches only has to simulate its effect.
  have plain : ∀ {result : Option State} {effect : Option (List Ty)},
      Simulates earlier method.maxStack labelData result effect →
      Option.Rel (fun state' outgoing =>
        ∃ before, Tracks earlier method.maxStack labelData before outgoing ∧ state' = before)
        result effect :=
    fun simulation => rel_mono simulation fun state' _ next => ⟨state', next, rfl⟩
  cases instr with
  | nop => exact .some ⟨state, tracks, rfl⟩
  | ldarg index =>
    refine plain (rel_bind (rel_refl _) ?_)
    rintro parameter _ ⟨rfl, -⟩
    exact Tracks.append (tracks.push _ _)
  | ldarga index =>
    refine plain (rel_bind (rel_refl _) ?_)
    rintro parameter _ ⟨rfl, -⟩
    exact Tracks.append (tracks.push _ _)
  | starg index =>
    refine plain (rel_bind (rel_refl _) ?_)
    rintro parameter _ ⟨rfl, -⟩
    exact rel_bind (tracks.popConvert _) fun _ _ next => .some (next.appendStmt _)
  | ldloc index =>
    refine plain (rel_bind (rel_refl _) ?_)
    rintro variable_ _ ⟨rfl, -⟩
    exact Tracks.append (tracks.push _ _)
  | ldloca index =>
    refine plain (rel_bind (rel_refl _) ?_)
    rintro variable_ _ ⟨rfl, -⟩
    exact Tracks.append (tracks.push _ _)
  | stloc index =>
    refine plain (rel_bind (rel_refl _) ?_)
    rintro variable_ _ ⟨rfl, -⟩
    exact rel_bind (tracks.popConvert _) fun _ _ next => .some (next.appendStmt _)
  | ldnull => exact plain (Tracks.append (tracks.push _ _))
  | ldcI4Short constant => exact plain (Tracks.append (tracks.push _ _))
  | ldcI4S byte => exact plain (Tracks.append (tracks.push _ _))
  | ldcI4 constant => exact plain (Tracks.append (tracks.push _ _))
  | ldcI8 constant => exact plain (Tracks.append (tracks.push _ _))
  | dup =>
    refine plain ?_
    have top := tracks.top
    cases types with
    | nil =>
      change Simulates earlier _ labelData (scilInstrDup state) _
      rw [scilInstrDup, rel_none_right top]
      exact .none
    | cons type rest =>
      obtain ⟨entry, topEq, rfl⟩ := rel_some_right top
      change Simulates earlier _ labelData (scilInstrDup state) _
      rw [scilInstrDup, topEq]
      have pushed := Tracks.append (tracks.push entry.type (.decl entry))
      rw [tracks.stackType_head] at pushed
      exact pushed
  | pop => exact plain (rel_bind tracks.pop fun _ _ popped => .some popped.2)
  | call callee methodType =>
    exact plain (rel_bind (tracks.instrPopParameters _)
      fun _ _ next => next.finishCall _ _ _)
  | callvirt methodType slot =>
    exact plain (rel_bind (tracks.instrPopParameters _)
      fun _ _ next => next.finishCall _ _ _)
  | callDelegate methodType =>
    exact plain (rel_bind (tracks.instrPopParameters _) fun _ _ popped =>
      rel_bind (popped.popConvert _) fun _ _ next => next.finishCall _ _ _)
  | ret =>
    refine plain ?_
    have length := tracks.length_eq
    change Simulates earlier _ labelData (scilInstrRet method.result state) (some types.tail)
    unfold scilInstrRet scilStackIsEmpty
    cases types with
    | nil =>
      rw [if_pos (by simpa using length.symm)]
      exact .some (tracks.appendStmt _)
    | cons type rest =>
      rw [if_neg (by simp only [List.length_cons] at length; simp; omega)]
      obtain ⟨popped, poppedEq, -, next⟩ := rel_some_right tracks.pop
      rw [poppedEq]
      exact .some (next.appendStmt _)
  | br target =>
    refine .some ⟨_, tracks.appendStmt (.goto target), ?_⟩
    simp only [leave, scilInstrBranch, instrGoto_appendStmt]
  | brfalse target => exact tracks.branchTo false target
  | brtrue target => exact tracks.branchTo true target
  | branch comparison target =>
    exact rel_bind (tracks.compare _ comparison) fun _ _ next => next.branchTo true target
  | operator operator => exact plain (tracks.operator _ operator)
  | neg => exact plain (tracks.unop .negate)
  | not => exact plain (tracks.unop .bitNot)
  | conv type =>
    exact plain (rel_bind tracks.pop fun _ _ popped => Tracks.append (popped.2.push _ _))
  | ldstr index => exact plain (Tracks.append (tracks.push _ _))
  | newobj constructor parameterTypes =>
    exact plain (rel_bind ((tracks.appendStmt _).instrPopParameters _) fun _ _ next =>
      Tracks.append ((next.appendStmt _).push _ _))
  | newStaticDelegate =>
    exact plain (rel_bind tracks.pop fun _ _ function =>
      rel_bind function.2.pop fun _ _ popped => Tracks.append (popped.2.push _ _))
  | ldfld field =>
    refine plain (rel_bind (tracks.resolveField field) ?_)
    rintro ⟨reference, state'⟩ rest ⟨type, next⟩
    dsimp only at type ⊢
    rw [scilInstrPush, type]
    exact Tracks.append (next.push _ _)
  | ldflda field =>
    exact plain (rel_bind (tracks.resolveField field) fun _ _ resolved =>
      Tracks.append (resolved.2.push _ _))
  | stfld field =>
    exact plain (rel_bind (tracks.popConvert _) fun _ _ value =>
      rel_bind (value.resolveField field) fun _ _ resolved =>
        .some (resolved.2.appendStmt _))
  | ldsfld field => exact plain (Tracks.append (tracks.push _ _))
  | ldsflda field => exact plain (Tracks.append (tracks.push _ _))
  | stsfld field =>
    exact plain (rel_bind (tracks.popConvert _) fun _ _ next => .some (next.appendStmt _))
  | compare comparison => exact plain (tracks.compare _ comparison)
  | ldftn callee => exact plain (Tracks.append (tracks.push _ _))
  | ldvirtftn slot =>
    exact plain (rel_bind (tracks.popConvert _) fun _ _ next =>
      Tracks.append (next.push _ _))

end Simulation

theorem stackEffect_of_execute {method : Method} {instr : Instr} {state state' : State}
    (wellFormed : state.WellFormed) (size : state.size = method.maxStack)
    (straight : ∀ before, leave instr before = before)
    (executed : execute method instr state = some state') :
    stackEffect method instr state.types = some state'.types := by
  have tracks := tracks_self wellFormed
  rw [size] at tracks
  have spec := execute_spec instr tracks
  rw [executed] at spec
  obtain ⟨outgoing, effectEq, before, tracked, left⟩ := rel_some_left spec
  rw [straight] at left
  subst left
  rw [effectEq, tracked.types]

end GccCil.Scil
