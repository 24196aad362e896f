import Mathlib.Logic.Function.Basic
import GccCil.Lib.Forest

/-!
# Reading an image

The part of `scil-pnet.c` that decides what is compiled: which classes get
base information and a vtable, and which methods are registered, deferred and
parsed.  Of the body of a method only the instructions with a method or field
token matter.
-/

namespace GccCil.Scil.Reader

/-- The instructions with a token; `field` is every one that reads a field. -/
inductive Reference (Method Field : Type) where
  | call (method : Method)
  | ldftn (method : Method)
  | callvirt (method : Method)
  | ldvirtftn (method : Method)
  | newobj (constructor : Method)
  | field (field : Field)
  deriving DecidableEq, Repr

/-- The classes of an image without interfaces, and what the image library says
about their members. -/
structure Image (Class Method Field Decl : Type) extends Lib.Forest Class where
  isValueType : Class → Bool
  isDelegate : Class → Bool
  isStaticDelegate : Class → Bool
  /-- the methods of a delegate that `call_delegate` knows -/
  isDelegateMethod : Method → Bool
  /-- `System.Object` and `System.String`, which the front end makes itself -/
  isBuiltin : Class → Bool
  methods : Class → List Method
  owner : Method → Class
  isVirtual : Method → Bool
  /-- `ILMemberGetBase` -/
  getBase : Method → Option Method
  classConstructor : Class → Option Method
  fieldOwner : Field → Class
  isStatic : Field → Bool
  /-- the tree that `scil_register_method` returns for a method -/
  decl : Method → Decl
  /-- `DECL_EXTERNAL` -/
  isRuntime : Decl → Bool
  /-- `ILMethodGetCode` -/
  code : Method → Option (List (Reference Method Field))
  owner_methods : ∀ {klass method}, method ∈ methods klass → owner method = klass
  /-- A method overrides a virtual method of a proper ancestor. -/
  getBase_spec : ∀ {method base}, getBase method = some base →
    isVirtual base = true ∧ base ∈ methods (owner base) ∧
      owner base ∈ (toForest.lineage (owner method)).tail
  /-- Only `System.Object` has no parent. -/
  root_builtin : ∀ {klass}, parent klass = none → isBuiltin klass = true
  builtin_parent : ∀ {klass above}, parent klass = some above → isBuiltin klass = true →
    isBuiltin above = true
  /-- Value types and static delegates are sealed, and not built in. -/
  parent_dispatches : ∀ {klass above}, parent klass = some above →
    (isValueType above || isStaticDelegate above) = false
  builtin_dispatches : ∀ {klass}, isBuiltin klass = true →
    (isValueType klass || isStaticDelegate klass) = false

variable {Class Method Field Decl : Type}

/-- A class for which `parse_vtable` makes a table. -/
def Image.dispatches (image : Image Class Method Field Decl) (klass : Class) : Bool :=
  !(image.isValueType klass || image.isStaticDelegate klass)

/-- A vector of methods with the room reserved for it.  A new element is empty
until it is set. -/
structure Vector (Method : Type) where
  values : List (Option Method)
  alloc : Nat
  deriving DecidableEq, Repr

/-- The trees of classes and methods and the deferred methods. -/
structure State (Class Method Field Decl : Type) where
  /-- `TYPE_BINFO (type) != NULL_TREE` -/
  binfo : Class → Bool
  /-- `SCIL_TYPE_PARSED`, for classes with a vtable -/
  typeParsed : Class → Bool
  /-- `BINFO_VTABLE (TYPE_BINFO (type))` -/
  vtable : Class → Option (Vector Method)
  index : Method → Nat
  /-- `get_tree (il_method) != NULL_TREE` -/
  registered : Method → Bool
  /-- `get_tree (il_field) != NULL_TREE`, for static fields -/
  registeredField : Field → Bool
  deferred : List Method
  /-- `DECL_INITIAL (decl) != NULL_TREE` -/
  started : Decl → Bool
  /-- the calls of `parse_method` -/
  parsed : List Method
  /-- the methods whose instructions were read -/
  translated : List Method

variable [DecidableEq Class] [DecidableEq Method] [DecidableEq Field] [DecidableEq Decl]

section Definitions

variable (image : Image Class Method Field Decl)

/-- The state before `cral_parse_file`. -/
def start : State Class Method Field Decl where
  binfo := image.isBuiltin
  typeParsed := image.isBuiltin
  vtable := fun _ => none
  index := fun _ => 0
  registered := fun _ => false
  registeredField := fun _ => false
  deferred := []
  started := fun _ => false
  parsed := []
  translated := []

def registerMethod (method : Method) (state : State Class Method Field Decl) :
    State Class Method Field Decl :=
  { state with registered := Function.update state.registered method true }

def deferMethod (method : Method) (state : State Class Method Field Decl) :
    State Class Method Field Decl :=
  { state with deferred := state.deferred ++ [method] }

/-- `scil_set_base_class`, which keeps base information that is there. -/
def scilSetBaseClass (klass : Class) (state : State Class Method Field Decl) :
    State Class Method Field Decl :=
  { state with binfo := Function.update state.binfo klass true }

/-- `parse_instance_fields`.  A value type or static delegate gets no base
information. -/
def parseInstanceFields (klass : Class) (state : State Class Method Field Decl) :
    State Class Method Field Decl :=
  if state.typeParsed klass then state
  else if image.dispatches klass then
    let state := match _parent : image.parent klass with
      | some above => scilSetBaseClass klass (parseInstanceFields above state)
      | none => state
    { state with typeParsed := Function.update state.typeParsed klass true }
  else state
termination_by image.depth klass
decreasing_by exact image.depth_parent ‹_›

/-- `scil_rt_make_vtable`: a copy of the base table, with room for twice its
length and the new slots together. -/
def scilMakeVtable (klass : Class) (size : Nat) (state : State Class Method Field Decl) :
    State Class Method Field Decl :=
  let vector := match (image.parent klass).bind state.vtable with
    | none => ⟨[], size⟩
    | some base => ⟨base.values, base.values.length + (size + base.values.length)⟩
  { state with vtable := Function.update state.vtable klass (some vector) }

/-- `scil_new_vtable_slot`; `none` is a push beyond the reserved room. -/
def scilNewVtableSlot (klass : Class) (state : State Class Method Field Decl) :
    Option (Nat × State Class Method Field Decl) := do
  let vector ← state.vtable klass
  if vector.values.length < vector.alloc then
    return (vector.values.length,
      { state with
        vtable := Function.update state.vtable klass
          (some { vector with values := vector.values ++ [none] }) })
  else none

/-- `scil_set_vtable_slot`; `none` is an index outside the vector. -/
def scilSetVtableSlot (klass : Class) (index : Nat) (method : Method)
    (state : State Class Method Field Decl) : Option (State Class Method Field Decl) := do
  let vector ← state.vtable klass
  if index < vector.values.length then
    return { state with
      vtable := Function.update state.vtable klass
        (some { vector with values := vector.values.set index (some method) }) }
  else none

/-- The slot of a virtual method: that of its base, or a new one. -/
def vtableIndex (klass : Class) (method : Method) (state : State Class Method Field Decl) :
    Option (Nat × State Class Method Field Decl) :=
  match image.getBase method with
  | some base => some (state.index base, state)
  | none => scilNewVtableSlot klass state

/-- One pass of the second loop of `parse_vtable`. -/
def setVirtualMethod (klass : Class) (method : Method) (state : State Class Method Field Decl) :
    Option (State Class Method Field Decl) :=
  if image.isVirtual method then do
    let (index, state) ← vtableIndex image klass method state
    let state := { state with index := Function.update state.index method index }
    let state ← scilSetVtableSlot klass index method (registerMethod method state)
    return deferMethod method state
  else some state

def setVtableSlots (klass : Class) :
    List Method → State Class Method Field Decl → Option (State Class Method Field Decl)
  | [], state => some state
  | method :: rest, state => do
      setVtableSlots klass rest (← setVirtualMethod image klass method state)

def Image.isNew (method : Method) : Bool :=
  image.isVirtual method && (image.getBase method).isNone

def Image.newMethods (klass : Class) : List Method := (image.methods klass).filter image.isNew

/-- `parse_vtable`; `none` is `SCIL_VTABLE_PARSED` of a class without base
information, a null pointer dereference. -/
def parseVtable (klass : Class) (state : State Class Method Field Decl) :
    Option (State Class Method Field Decl) :=
  if !image.dispatches klass then some state
  else if !state.binfo klass then none
  else if (state.vtable klass).isSome then some state
  else do
    let state ← match _parent : image.parent klass with
      | some above => (parseVtable above state).map (scilSetBaseClass klass)
      | none => some state
    setVtableSlots image klass (image.methods klass)
      (scilMakeVtable image klass (image.newMethods klass).length state)
termination_by image.depth klass
decreasing_by exact image.depth_parent ‹_›

def readMethod (method : Method) (state : State Class Method Field Decl) :
    State Class Method Field Decl :=
  if !state.registered method && !image.isStaticDelegate (image.owner method) then
    deferMethod method (registerMethod method state)
  else state

def registerStaticField (field : Field) (state : State Class Method Field Decl) :
    State Class Method Field Decl :=
  let state := match image.classConstructor (image.fieldOwner field) with
    | some constructor => deferMethod constructor (registerMethod constructor state)
    | none => state
  { state with registeredField := Function.update state.registeredField field true }

/-- `read_field`.  The tree of an instance field is there once the fields of its
class are parsed, so parsing them again changes nothing. -/
def readField (field : Field) (state : State Class Method Field Decl) :
    State Class Method Field Decl :=
  if image.isStatic field then
    if state.registeredField field then state else registerStaticField image field state
  else parseInstanceFields image (image.fieldOwner field) state

def readReference (reference : Reference Method Field)
    (state : State Class Method Field Decl) : Option (State Class Method Field Decl) :=
  match reference with
  | .call method | .ldftn method => some (readMethod image method state)
  | .callvirt method =>
    let state := readMethod image method state
    if image.isDelegate (image.owner method) then some state
    else if image.isVirtual method then parseVtable image (image.owner method) state
    else some state
  | .ldvirtftn method =>
    parseVtable image (image.owner method) (readMethod image method state)
  | .newobj constructor =>
    let state := readMethod image constructor state
    let owner := image.owner constructor
    if image.isDelegate owner && image.isStaticDelegate owner then some state
    else parseVtable image owner (parseInstanceFields image owner state)
  | .field field => some (readField image field state)

def readReferences : List (Reference Method Field) → State Class Method Field Decl →
    Option (State Class Method Field Decl)
  | [], state => some state
  | reference :: rest, state => do
      readReferences rest (← readReference image reference state)

/-- The rest of an instruction function finds what it needs: a method that `call_delegate`
knows, the tree of the method or the field, and for a new object the base information of its
class.  A method of a static delegate is not registered when it is read, and the fields of a
built-in class have no trees. -/
def emits (reference : Reference Method Field) (state : State Class Method Field Decl) : Bool :=
  match reference with
  | .call method =>
    (!image.isDelegate (image.owner method) || image.isDelegateMethod method) &&
      state.registered method
  | .ldftn method => state.registered method
  | .callvirt method =>
    if image.isDelegate (image.owner method) then image.isDelegateMethod method
    else state.registered method
  | .ldvirtftn _ => true
  | .newobj constructor =>
    let owner := image.owner constructor
    image.isDelegate owner && image.isStaticDelegate owner ||
      state.registered constructor && state.binfo owner
  | .field field => image.isStatic field || !image.isBuiltin (image.fieldOwner field)

/-- An instruction function with a token; `none` is a null pointer dereference, or
`gcc_unreachable`. -/
def instruction (reference : Reference Method Field) (state : State Class Method Field Decl) :
    Option (State Class Method Field Decl) := do
  let state ← readReference image reference state
  if emits image reference state then some state else none

/-- The loop over the instructions of a method. -/
def instructions : List (Reference Method Field) → State Class Method Field Decl →
    Option (State Class Method Field Decl)
  | [], state => some state
  | reference :: rest, state => do instructions rest (← instruction image reference state)

def scilStartMethodDef (method : Method) (state : State Class Method Field Decl) :
    Bool × State Class Method Field Decl :=
  if image.isRuntime (image.decl method) || state.started (image.decl method) then
    (false, state)
  else
    (true, { state with started := Function.update state.started (image.decl method) true })

/-- The start of `parse_method`: the instructions to read, and the state
before the first of them.  A method without code is reported, not read. -/
def beginMethod (method : Method) (state : State Class Method Field Decl) :
    List (Reference Method Field) × State Class Method Field Decl :=
  let (begun, state) := scilStartMethodDef image method
    { state with parsed := state.parsed ++ [method] }
  match image.code method with
  | none => ([], state)
  | some code =>
    if begun then (code, { state with translated := state.translated ++ [method] })
    else ([], state)

def parseMethod (method : Method) (state : State Class Method Field Decl) :
    Option (State Class Method Field Decl) :=
  instructions image (beginMethod image method state).1 (beginMethod image method state).2

/-- The loop of `cral_parse_file` over the deferred methods, for at most `fuel`
methods. -/
def parseDeferredMethods : Nat → State Class Method Field Decl →
    Option (State Class Method Field Decl)
  | fuel, state =>
    match state.deferred, fuel with
    | [], _ => some state
    | _ :: _, 0 => none
    | method :: rest, fuel + 1 => do
        parseDeferredMethods fuel (← parseMethod image method { state with deferred := rest })

/-- `cral_parse_file`, for a file with this entry point. -/
def cralParseFile (fuel : Nat) (entry : Option Method) :
    Option (State Class Method Field Decl) :=
  match entry with
  | none => some (start image)
  | some entry => do
      parseDeferredMethods image fuel
        (← parseMethod image entry (registerMethod entry (start image)))

end Definitions

end GccCil.Scil.Reader
