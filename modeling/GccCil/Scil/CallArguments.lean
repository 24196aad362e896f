import GccCil.Scil.Instructions
import GccCil.Scil.MethodTypes

/-!
# The arguments of calls

`instr_pop_parameters` and the four instructions that call, on the types of a
method as they are chained in `TYPE_ARG_TYPES`.  The chain is copied in reverse
order, the copy is reversed again while the arguments are popped, and `void` is
dropped on the way; the argument for a type is the value that was pushed for it.
-/

namespace GccCil.Scil

variable {T : Type}

inductive Argument (T : Type) where
  | popped (type : T) (value : Decl)
  /-- the `SAVE_EXPR` of the instance of a virtual call -/
  | saved (type : T) (value : Decl)
  | newObject
  deriving DecidableEq

/-- A node of the list that `instr_pop_parameters` works on: the type as
`TREE_PURPOSE`, `void_type_node` being `none`, or the argument as `TREE_VALUE`. -/
inductive ParameterNode (T : Type) where
  | type (type : Option T)
  | argument (argument : Argument T)

/-- The first loop of `instr_pop_parameters`: the types in reverse order. -/
def reverseTypes (parameters : List (ParameterNode T)) :
    List (Option T) → List (ParameterNode T)
  | [] => parameters
  | type :: rest => reverseTypes (.type type :: parameters) rest

def popArgument (type : T) (state : State) : Option (Argument T × State) := do
  let (entry, state) ← scilStackPop state
  return (.popped type entry, state)

/-- The second loop: the nodes move to `p`, the arguments in place of the types. -/
def popNodes (p : List (ParameterNode T)) :
    List (ParameterNode T) → State → Option (List (ParameterNode T) × State)
  | [], state => some (p, state)
  | .type (some ptype) :: parameters, state => do
      let (argument, state) ← popArgument ptype state
      popNodes (.argument argument :: p) parameters state
  | _ :: parameters, state => popNodes p parameters state

/-- `TREE_VALUE` of the nodes. -/
def nodeArguments (p : List (ParameterNode T)) : List (Argument T) :=
  p.filterMap fun
    | .argument argument => some argument
    | .type _ => none

/-- `instr_pop_parameters`. -/
def popMethodParameters (parameterTypes : List (Option T)) (state : State) :
    Option (List (Argument T) × State) := do
  let (p, state) ← popNodes [] (reverseTypes [] parameterTypes) state
  return (nodeArguments p, state)

structure Call (T : Type) where
  callee : Callee
  /-- the function that an indirect call pops -/
  function : Option (Argument T)
  arguments : List (Argument T)
  returnType : Option T
  deriving DecidableEq

/-- The call of `scil_instr_call`, with the stack after the pops. -/
def buildCall (method : Nat) (type : FunctionType T) (state : State) :
    Option (Call T × State) := do
  let (parameters, state) ← popMethodParameters type.argTypes state
  return ({ callee := .method method, function := none, arguments := parameters
            returnType := type.returnType }, state)

/-- The call of `scil_instr_callvirt`.  The implicit instance parameter is
replaced by a `SAVE_EXPR`. -/
def buildCallvirt (index : Nat) (type : FunctionType T) (state : State) :
    Option (Call T × State) := do
  let (parameters, state) ← popMethodParameters type.argTypes state
  match parameters with
  | .popped thisType object :: rest =>
    return ({ callee := .virtualSlot index, function := none
              arguments := .saved thisType object :: rest, returnType := type.returnType }, state)
  | _ => none

/-- The call of `scil_instr_call_indirect`; the function was pushed before the
arguments. -/
def buildCallIndirect (functionPointer : T) (type : FunctionType T) (state : State) :
    Option (Call T × State) := do
  let (parameters, state) ← popMethodParameters type.argTypes state
  let (function, state) ← popArgument functionPointer state
  return ({ callee := .indirect, function := some function, arguments := parameters
            returnType := type.returnType }, state)

/-- The call of the constructor of `scil_instr_newobj`. -/
def buildNewobj (constructor : Nat) (type : FunctionType T) (state : State) :
    Option (Call T × State) := do
  -- leave out first argument ...
  let (parameters, state) ← popMethodParameters type.argTypes.tail state
  -- ... and add it to the head
  return ({ callee := .method constructor, function := none
            arguments := .newObject :: parameters, returnType := type.returnType }, state)

theorem reverseTypes_eq (parameters : List (ParameterNode T)) (types : List (Option T)) :
    reverseTypes parameters types = types.reverse.map .type ++ parameters := by
  induction types generalizing parameters with
  | nil => rfl
  | cons type rest ih => simp [reverseTypes, ih]

def popped (count : Nat) (rest : List Decl) (state : State) : State :=
  { state with stack := ⟨state.stack.topIndex - count, rest⟩ }

def passed (types : List T) (values : List Decl) : List (Argument T) :=
  List.zipWith .popped types values

theorem popNodes_eq (types : List T) (values rest : List Decl) (p : List (ParameterNode T))
    (state : State) (enough : values.length = types.length)
    (onStack : state.stack.entries = values ++ rest) :
    popNodes p (types.map fun type => .type (some type)) state =
      some ((List.zipWith (fun type value => ParameterNode.argument (.popped type value))
        types values).reverse ++ p, popped values.length rest state) := by
  induction types generalizing values p state with
  | nil =>
    obtain rfl := List.length_eq_zero_iff.mp enough
    have same : state.stack = ⟨state.stack.topIndex, rest⟩ := by
      rw [List.nil_append] at onStack
      rw [← onStack]
    simp only [popNodes, popped, List.map_nil, List.length_nil, Nat.sub_zero, ← same]
    rfl
  | cons type types ih =>
    cases values with
    | nil => simp at enough
    | cons value values =>
      have pop : scilStackPop state = some (value, popped 1 (values ++ rest) state) := by
        simp [scilStackPop, onStack, popped]
      have next := ih values (.argument (.popped type value) :: p)
        (popped 1 (values ++ rest) state) (by simpa using enough) rfl
      simp only [List.map_cons, popNodes, popArgument, pop]
      simpa [popped, Nat.sub_sub, Nat.add_comm] using next

theorem popMethodParameters_eq (signature : Signature T) (types : List T)
    (values rest : List Decl) (state : State) (enough : values.length = types.length)
    (onStack : state.stack.entries = values.reverse ++ rest) :
    popMethodParameters (types.map some ++ terminator signature) state =
      some (passed types values, popped values.length rest state) := by
  have nodes : reverseTypes [] (types.map some ++ terminator signature) =
      (terminator signature).map .type ++ types.reverse.map fun type => .type (some type) := by
    rw [reverseTypes_eq]
    cases varargs : signature.varargs <;> simp [terminator, varargs, List.map_reverse, Function.comp_def]
  have skip : popNodes [] (reverseTypes [] (types.map some ++ terminator signature)) state =
      popNodes [] (types.reverse.map fun type => .type (some type)) state := by
    rw [nodes]
    cases varargs : signature.varargs <;> simp [terminator, varargs, popNodes]
  rw [popMethodParameters, skip, popNodes_eq types.reverse values.reverse rest [] state
    (by simpa using enough) onStack]
  have forward : nodeArguments (List.zipWith
      (fun type value => ParameterNode.argument (.popped type value)) types values) =
      passed types values := by
    rw [passed, ← List.map_zipWith (f := ParameterNode.argument), nodeArguments,
      List.filterMap_map]
    exact List.filterMap_some
  rw [← List.reverse_zipWith enough.symm, List.reverse_reverse, List.append_nil]
  simp [forward]

/-- The calls pass the values in the order in which they were pushed, each
converted to the type of its parameter, and pop nothing else. -/
theorem calls_pass_arguments (pointerTo : T → T) (signature : Signature T)
    (instanceType : Option T) (functionPointer : T) (method index : Nat) :
    let type := registerMethodTypeDirect pointerTo signature instanceType
    let arguments := argumentTypes pointerTo signature instanceType
    (∀ values rest state, values.length = arguments.length →
        state.stack.entries = values.reverse ++ rest →
        buildCall method type state =
          some ({ callee := .method method, function := none
                  arguments := passed arguments values, returnType := signature.returnType },
            popped values.length rest state)) ∧
      (∀ owner this others rest state, instanceType = some owner →
        others.length = signature.parameters.length →
        state.stack.entries = (this :: others).reverse ++ rest →
        buildCallvirt index type state =
          some ({ callee := .virtualSlot index, function := none
                  arguments := .saved (pointerTo owner) this :: passed signature.parameters others
                  returnType := signature.returnType },
            popped (others.length + 1) rest state)) ∧
      (∀ function values rest state, values.length = arguments.length →
        state.stack.entries = values.reverse ++ function :: rest →
        buildCallIndirect functionPointer type state =
          some ({ callee := .indirect, function := some (.popped functionPointer function)
                  arguments := passed arguments values, returnType := signature.returnType },
            popped (values.length + 1) rest state)) ∧
      (∀ owner values rest state, instanceType = some owner →
        values.length = signature.parameters.length →
        state.stack.entries = values.reverse ++ rest →
        buildNewobj method type state =
          some ({ callee := .method method, function := none
                  arguments := .newObject :: passed signature.parameters values
                  returnType := signature.returnType },
            popped values.length rest state)) := by
  intro type arguments
  have argTypes : type.argTypes = arguments.map some ++ terminator signature :=
    registerMethodTypeDirect_argTypes pointerTo signature instanceType
  have returnType : type.returnType = signature.returnType :=
    registerMethodTypeDirect_returnType pointerTo signature instanceType
  refine ⟨?call, ?callvirt, ?indirect, ?newobj⟩
  case call =>
    intro values rest state enough onStack
    rw [buildCall, argTypes, popMethodParameters_eq signature arguments values rest state enough
      onStack, returnType]
    rfl
  case callvirt =>
    intro owner this others rest state isInstance enough onStack
    have types : arguments = pointerTo owner :: signature.parameters := by
      simp [arguments, argumentTypes, isInstance]
    have pops := popMethodParameters_eq signature arguments (this :: others) rest state
      (by simp [types, enough]) onStack
    rw [buildCallvirt, argTypes, pops, returnType, types]
    rfl
  case indirect =>
    intro function values rest state enough onStack
    rw [buildCallIndirect, argTypes, popMethodParameters_eq signature arguments values
      (function :: rest) state enough onStack, returnType]
    simp [popArgument, popped, scilStackPop, Nat.sub_sub]
  case newobj =>
    intro owner values rest state isInstance enough onStack
    have types : type.argTypes.tail = signature.parameters.map some ++ terminator signature := by
      simp [argTypes, arguments, argumentTypes, isInstance]
    rw [buildNewobj, types, popMethodParameters_eq signature signature.parameters values rest state
      enough onStack, returnType]
    rfl

def stackValue (index : Nat) : Decl where
  kind := .stackVariable
  index := index
  type := .int .int32

/-- The four calls of a method `(this, 1, 2)` with one value under the arguments. -/
theorem calls_pass_arguments_instance :
    let signature : Signature Nat := { returnType := none, parameters := [1, 2], varargs := false }
    let type := registerMethodTypeDirect (fun pointed => pointed + 10) signature (some 0)
    let holding : Nat → State := fun count =>
      { State.initial 8 0 with
        stack := ⟨count, ((List.range count).map stackValue).reverse⟩ }
    (buildCall 5 type (holding 4)).map (fun built => built.1.arguments) =
        some [.popped 10 (stackValue 1), .popped 1 (stackValue 2), .popped 2 (stackValue 3)] ∧
      (buildCallvirt 6 type (holding 4)).map (fun built => built.1.arguments) =
        some [.saved 10 (stackValue 1), .popped 1 (stackValue 2), .popped 2 (stackValue 3)] ∧
      (buildCallIndirect 9 type (holding 4)).map (fun built => built.1.function) =
        some (some (.popped 9 (stackValue 0))) ∧
      (buildNewobj 5 type (holding 3)).map (fun built => built.1.arguments) =
        some [.newObject, .popped 1 (stackValue 1), .popped 2 (stackValue 2)] := by
  intro signature type holding
  obtain ⟨call, callvirt, indirect, newobj⟩ := calls_pass_arguments (fun pointed => pointed + 10)
    signature (some 0) 9 5 6
  refine ⟨?_, ?_, ?_, ?_⟩
  · rw [call [stackValue 1, stackValue 2, stackValue 3] [stackValue 0] (holding 4) rfl rfl]
    rfl
  · rw [callvirt 0 (stackValue 1) [stackValue 2, stackValue 3] [stackValue 0] (holding 4) rfl rfl rfl]
    rfl
  · rw [indirect (stackValue 0) [stackValue 1, stackValue 2, stackValue 3] [] (holding 4) rfl rfl]
    rfl
  · rw [newobj 0 [stackValue 1, stackValue 2] [stackValue 0] (holding 3) rfl rfl rfl]
    rfl

end GccCil.Scil
