import Mathlib.Data.List.Basic

/-!
# Method types and parameters

The type of a method is built from its signature by
`register_method_type_direct` (`scil-pnet.c`); `parse_method` then makes one
parameter for `this` and one for each `Param` row of the metadata.  The types
of the parameters come from the method type, one after the other, whatever the
rows say.
-/

namespace GccCil.Scil

variable {T : Type}

/-- A function or method type; in the list of the argument types `none` is
`void_type_node`. -/
structure FunctionType (T : Type) where
  returnType : Option T
  argTypes : List (Option T)
  deriving DecidableEq

def scilMakeMethodType (returnType : Option T) : FunctionType T :=
  { returnType := returnType, argTypes := [] }

/-- `scil_add_method_parameter_type`, which collects the types in reverse order. -/
def scilAddMethodParameterType (pointerTo : T → T) (methodType : FunctionType T) (type : T)
    (byref : Bool) : FunctionType T :=
  let actualType := if byref then pointerTo type else type
  { methodType with argTypes := some actualType :: methodType.argTypes }

/-- `scil_complete_method_type`; `thisType` is the type of pointers to the class. -/
def scilCompleteMethodType (methodType : FunctionType T) (thisType : Option T) (varargs : Bool) :
    FunctionType T :=
  -- last parameter if void indicates fixed argument list
  let argTypes := if varargs then methodType.argTypes else none :: methodType.argTypes
  let arguments := argTypes.reverse
  match thisType with
  | none => { returnType := methodType.returnType, argTypes := arguments }
  | some this => { returnType := methodType.returnType, argTypes := some this :: arguments }

/-- A signature of the metadata, its types already resolved by
`get_var_type_tree`. -/
structure Signature (T : Type) where
  returnType : Option T
  parameters : List T
  varargs : Bool
  deriving DecidableEq

/-- `register_method_type_direct`; there is no instance for static methods. -/
def registerMethodTypeDirect (pointerTo : T → T) (signature : Signature T)
    (instanceType : Option T) : FunctionType T :=
  let type := signature.parameters.foldl
    (fun type parameter => scilAddMethodParameterType pointerTo type parameter false)
    (scilMakeMethodType signature.returnType)
  scilCompleteMethodType type (instanceType.map pointerTo) signature.varargs

/-- The types of the arguments of a method, with the implicit instance. -/
def argumentTypes (pointerTo : T → T) (signature : Signature T) (instanceType : Option T) :
    List T :=
  (instanceType.map pointerTo).toList ++ signature.parameters

def terminator (signature : Signature T) : List (Option T) :=
  if signature.varargs then [] else [none]

theorem collected_argTypes (pointerTo : T → T) (parameters : List T) (type : FunctionType T) :
    parameters.foldl
        (fun type parameter => scilAddMethodParameterType pointerTo type parameter false) type =
      { type with argTypes := (parameters.map some).reverse ++ type.argTypes } := by
  induction parameters generalizing type with
  | nil => rfl
  | cons parameter rest ih =>
    rw [List.foldl_cons, ih]
    simp [scilAddMethodParameterType]

@[simp]
theorem registerMethodTypeDirect_returnType (pointerTo : T → T) (signature : Signature T)
    (instanceType : Option T) :
    (registerMethodTypeDirect pointerTo signature instanceType).returnType =
      signature.returnType := by
  rw [registerMethodTypeDirect, collected_argTypes]
  cases instanceType <;> rfl

theorem registerMethodTypeDirect_argTypes (pointerTo : T → T) (signature : Signature T)
    (instanceType : Option T) :
    (registerMethodTypeDirect pointerTo signature instanceType).argTypes =
      (argumentTypes pointerTo signature instanceType).map some ++ terminator signature := by
  have arguments : (if signature.varargs then (signature.parameters.map some).reverse
      else none :: (signature.parameters.map some).reverse).reverse =
      signature.parameters.map some ++ terminator signature := by
    cases varargs : signature.varargs <;> simp [terminator, varargs]
  rw [registerMethodTypeDirect, collected_argTypes, argumentTypes]
  simp only [scilMakeMethodType, List.append_nil, scilCompleteMethodType, arguments]
  cases instanceType <;> simp

/-- A `PARM_DECL`. -/
structure ParmDecl (T : Type) where
  name : String
  type : Option T
  deriving DecidableEq

/-- A row of the `Param` table; the sequence number zero is the return value. -/
structure ParamRow where
  sequence : Nat
  name : String
  deriving DecidableEq

/-- What the registration of the parameters changes: the cursor
`current_param_type`, the chain `DECL_ARGUMENTS`, and the array `parameters`,
whose elements are undefined until they are written. -/
structure ParameterState (T : Type) where
  currentParamType : List (Option T)
  declArguments : List (ParmDecl T)
  parameters : Nat → Option (ParmDecl T)
  written : List Nat

def scilIdThis : String := "this$"

/-- `scil_add_method_parameter`; `none` is the dereference of the empty list. -/
def scilAddMethodParameter (name : String) (state : ParameterState T) :
    Option (ParmDecl T × ParameterState T) :=
  match state.currentParamType with
  | [] => none
  | type :: rest =>
    let decl : ParmDecl T := { name := name, type := type }
    some (decl, { state with
      currentParamType := rest, declArguments := decl :: state.declArguments })

def storeParameter (p : Nat) (name : String) (state : ParameterState T) :
    Option (ParameterState T) := do
  let (decl, state) ← scilAddMethodParameter name state
  return { state with
    parameters := Function.update state.parameters p (some decl), written := p :: state.written }

/-- The loop of `parse_method` over `ILMethodNextParam`. -/
def storeRows (p : Nat) : List ParamRow → ParameterState T → Option (ParameterState T)
  | [], state => some state
  | row :: rest, state => do storeRows (p + 1) rest (← storeParameter p row.name state)

/-- The part of `parse_method` that fills the array of the parameters. -/
def parseParameters (methodType : FunctionType T) (isStatic : Bool) (rows : List ParamRow) :
    Option (ParameterState T) :=
  let start : ParameterState T :=
    { currentParamType := methodType.argTypes, declArguments := [], parameters := fun _ => none
      written := [] }
  if isStatic then storeRows 0 rows start
  else do storeRows 1 rows (← storeParameter 0 scilIdThis start)

/-- The number of elements that the array is allocated with. -/
def numParameters (signature : Signature T) (isStatic : Bool) : Nat :=
  signature.parameters.length + if isStatic then 0 else 1

/-- Every argument of the method has its declaration in the array, and nothing
is written outside of it. -/
structure Filled (types : List T) (size : Nat) (state : ParameterState T) : Prop where
  carries : ∀ k type, types[k]? = some type →
    ∃ decl, state.parameters k = some decl ∧ decl.type = some type
  inside : ∀ p ∈ state.written, p < size

/-- What the loop has done: the elements from `p` on carry the types under the
cursor. -/
structure Stored (p : Nat) (rows : List ParamRow) (state final : ParameterState T) : Prop where
  carries : ∀ i type, i < rows.length → state.currentParamType[i]? = some type →
    ∃ decl, final.parameters (p + i) = some decl ∧ decl.type = type
  outside : ∀ k, (k < p ∨ p + rows.length ≤ k) → final.parameters k = state.parameters k
  written : ∀ q, q ∈ final.written ↔ q ∈ state.written ∨ p ≤ q ∧ q < p + rows.length

theorem storeParameter_cons {type : Option T} {rest : List (Option T)} {state : ParameterState T}
    (cursor : state.currentParamType = type :: rest) (p : Nat) (name : String) :
    storeParameter p name state = some { state with
      currentParamType := rest
      declArguments := { name := name, type := type } :: state.declArguments
      parameters := Function.update state.parameters p (some { name := name, type := type })
      written := p :: state.written } := by
  simp [storeParameter, scilAddMethodParameter, cursor]

theorem storeRows_stored (p : Nat) (rows : List ParamRow) (state : ParameterState T)
    (enough : rows.length ≤ state.currentParamType.length) :
    ∃ final, storeRows p rows state = some final ∧ Stored p rows state final := by
  induction rows generalizing p state with
  | nil =>
    have nothing : ∀ q, ¬ (p ≤ q ∧ q < p + ([] : List ParamRow).length) := by
      intro q
      rw [List.length_nil]
      omega
    exact ⟨state, rfl, ⟨by simp, fun _ _ => rfl, fun q => (or_iff_left (nothing q)).symm⟩⟩
  | cons row rest ih =>
    cases cursor : state.currentParamType with
    | nil => simp [cursor] at enough
    | cons type types =>
      rw [cursor, List.length_cons, List.length_cons] at enough
      obtain ⟨final, run, carries, outside, written⟩ := ih (p + 1) _
        (show rest.length ≤ ({ state with
          currentParamType := types
          declArguments := { name := row.name, type := type } :: state.declArguments
          parameters := Function.update state.parameters p
            (some { name := row.name, type := type })
          written := p :: state.written } : ParameterState T).currentParamType.length by
            exact Nat.le_of_succ_le_succ enough)
      refine ⟨final, ?_, ?_, ?_, ?_⟩
      · rw [storeRows, storeParameter_cons cursor]
        exact run
      · intro i type' inside here
        rw [cursor] at here
        cases i with
        | zero =>
          cases here
          refine ⟨{ name := row.name, type := type }, ?_, rfl⟩
          rw [Nat.add_zero, outside p (.inl (Nat.lt_succ_self p))]
          exact Function.update_self _ _ _
        | succ i =>
          obtain ⟨decl, stored, typed⟩ :=
            carries i type' (Nat.lt_of_succ_lt_succ inside) (by simpa using here)
          exact ⟨decl, by rw [← stored]; congr 1; omega, typed⟩
      · intro k away
        rw [List.length_cons] at away
        rw [outside k (by omega)]
        exact Function.update_of_ne (by omega) _ _
      · intro q
        have span : p ≤ q ∧ q < p + (rest.length + 1) ↔
            q = p ∨ p + 1 ≤ q ∧ q < p + 1 + rest.length := by omega
        rw [written, List.mem_cons, List.length_cons, span, or_assoc, or_left_comm]

theorem storeRows_of_empty (p : Nat) (rows : List ParamRow) (state : ParameterState T)
    (few : state.currentParamType.length < rows.length) : storeRows p rows state = none := by
  induction rows generalizing p state with
  | nil => simp at few
  | cons row rest ih =>
    cases cursor : state.currentParamType with
    | nil => simp [storeRows, storeParameter, scilAddMethodParameter, cursor]
    | cons type types =>
      rw [cursor, List.length_cons, List.length_cons] at few
      rw [storeRows, storeParameter_cons cursor]
      exact ih _ _ (Nat.lt_of_succ_lt_succ few)

theorem parseParameters_eq (methodType : FunctionType T) (isStatic : Bool)
    (rows : List ParamRow) :
    parseParameters methodType isStatic rows =
      storeRows 0 ((if isStatic then [] else [{ sequence := 0, name := scilIdThis }]) ++ rows)
        { currentParamType := methodType.argTypes, declArguments := []
          parameters := fun _ => none, written := [] } := by
  cases isStatic <;> rfl

theorem storeRows_filled_iff (arguments : List T) (rest : List (Option T))
    (rows : List ParamRow) :
    (∃ final,
        storeRows 0 rows
          { currentParamType := arguments.map some ++ rest, declArguments := []
            parameters := fun _ => none, written := [] } = some final ∧
        Filled arguments arguments.length final) ↔
      rows.length = arguments.length := by
  have cursorLength : (arguments.map some ++ rest).length = arguments.length + rest.length := by
    simp
  constructor
  · rintro ⟨final, run, carries, inside⟩
    have enough : rows.length ≤ (arguments.map some ++ rest).length := by
      by_contra few
      rw [storeRows_of_empty _ _ _ (Nat.lt_of_not_le few)] at run
      cases run
    obtain ⟨stored, run', _, outside, written⟩ := storeRows_stored 0 rows
      { currentParamType := arguments.map some ++ rest, declArguments := []
        parameters := fun _ => none, written := [] } enough
    obtain rfl := Option.some.inj (run.symm.trans run')
    rcases Nat.lt_trichotomy rows.length arguments.length with fewer | same | more
    · obtain ⟨decl, here, _⟩ := carries rows.length _ (List.getElem?_eq_getElem fewer)
      rw [outside rows.length (.inr (by omega))] at here
      cases here
    · exact same
    · have beyond := inside arguments.length
        ((written arguments.length).mpr (.inr ⟨Nat.zero_le _, by omega⟩))
      omega
  · intro same
    obtain ⟨final, run, carries, _, written⟩ := storeRows_stored 0 rows
      { currentParamType := arguments.map some ++ rest, declArguments := []
        parameters := fun _ => none, written := [] }
      (show rows.length ≤ (arguments.map some ++ rest).length by omega)
    refine ⟨final, run, ?_, ?_⟩
    · intro k type here
      have below : k < arguments.length := (List.getElem?_eq_some_iff.mp here).1
      have cursor : (arguments.map some ++ rest)[k]? = some (some type) := by
        rw [List.getElem?_append_left (by simpa using below), List.getElem?_map, here]
        rfl
      have found := carries k (some type) (by omega) cursor
      rwa [Nat.zero_add] at found
    · intro p here
      rcases (written p).mp here with old | new
      · cases old
      · omega

/-- The array is filled as the instructions read it exactly when the method has
one `Param` row for each parameter of its signature; no row's sequence number is
looked at. -/
theorem parseParameters_filled_iff (pointerTo : T → T) (signature : Signature T) (owner : T)
    (isStatic : Bool) (rows : List ParamRow) :
    let instanceType := if isStatic then none else some owner
    (∃ final,
        parseParameters (registerMethodTypeDirect pointerTo signature instanceType) isStatic rows =
          some final ∧
        Filled (argumentTypes pointerTo signature instanceType)
          (numParameters signature isStatic) final) ↔
      rows.length = signature.parameters.length := by
  intro instanceType
  have size : (argumentTypes pointerTo signature instanceType).length =
      numParameters signature isStatic := by
    cases isStatic <;> simp [argumentTypes, numParameters, instanceType]
  rw [parseParameters_eq, registerMethodTypeDirect_argTypes]
  generalize types : argumentTypes pointerTo signature instanceType = arguments at size
  have rowCount : ((if isStatic then [] else
      [({ sequence := 0, name := scilIdThis } : ParamRow)]) ++ rows).length =
        rows.length + if isStatic then 0 else 1 := by
    cases isStatic <;> simp
  generalize (if isStatic then [] else
    [({ sequence := 0, name := scilIdThis } : ParamRow)]) ++ rows = allRows at rowCount
  have sameCount : rows.length = signature.parameters.length ↔
      allRows.length = arguments.length := by
    rw [size, rowCount, numParameters]
    omega
  rw [sameCount, ← size]
  exact storeRows_filled_iff arguments (terminator signature) allRows

/-- A static method with one parameter and no `Param` row leaves the array
undefined; rows for the return value and the parameter overrun it. -/
theorem parseParameters_not_filled :
    let signature : Signature Nat := { returnType := none, parameters := [7], varargs := false }
    let methodType := registerMethodTypeDirect id signature none
    (∃ final, parseParameters methodType true [] = some final ∧ final.parameters 0 = none) ∧
      ∃ final,
        parseParameters methodType true
          [{ sequence := 0, name := "" }, { sequence := 1, name := "x" }] = some final ∧
        1 ∈ final.written ∧ numParameters signature true = 1 :=
  ⟨⟨_, rfl, rfl⟩, _, rfl, by decide, rfl⟩

end GccCil.Scil
