import GccCil.Libruntime.Classes

/-!
# Indices of virtual methods

How `parse_assembly.c` numbers the virtual methods of a class and lays out its
vtable, with the metadata queries of the image library that it uses.
-/

namespace GccCil.Cil

/-- The classes, interfaces and methods of an image.  A method belongs to one
class; `accessible` stands for `ILMemberAccessible`, which looks only at the
metadata. -/
structure Image (Class Interface Method Signature : Type) extends Lib.Forest Class where
  interfaces : Class → List Interface
  methods : Class → List Method
  /-- Explicit overrides of a class: a declaration and the body for it. -/
  overrides : Class → List (Method × Method)
  interfaceMethods : Interface → List Method
  owner : Method → Class
  name : Method → String
  signature : Method → Signature
  isPublic : Method → Bool
  isVirtual : Method → Bool
  isNewSlot : Method → Bool
  /-- Supplied by the runtime, as the methods of delegates are. -/
  isRuntime : Method → Bool
  accessible : Method → Class → Bool
  owner_methods : ∀ {klass method}, method ∈ methods klass → owner method = klass
  methods_nodup : ∀ klass, (methods klass).Nodup
  interfaceMethods_nodup : ∀ interface, (interfaceMethods interface).Nodup

variable {Class Interface Method Signature : Type} [DecidableEq Class] [DecidableEq Method]
  [DecidableEq Signature]

namespace Image

variable (image : Image Class Interface Method Signature)

def matches_ (left right : Method) : Bool :=
  image.name left = image.name right && image.signature left = image.signature right

/-- `ILMemberGetBase`: the nearest virtual method in a new slot that a method
overrides. -/
def getBase (method : Method) : Option Method :=
  (image.lineage (image.owner method)).tail.findSome? fun above =>
    (image.methods above).find? fun test =>
      image.matches_ test method && image.accessible test (image.owner method) &&
        image.isVirtual test && image.isNewSlot test

/-- The last loop of `ILClassGetMethodImpl`, which looks for explicit overrides up
to the class of the method found so far. -/
def overrideImpl (method : Method) : List Class → Option Method → Option Method
  | [], result => result
  | klass :: rest, result =>
    match (image.overrides klass).find? fun override => override.1 = method with
    | some override => some override.2
    | none =>
      if result.map image.owner = some klass then result
      else overrideImpl method rest result

/-- `ILClassGetMethodImpl`: the method that implements an interface method. -/
def getMethodImpl (klass : Class) (method : Method) : Option Method :=
  let newSlot := (image.methods klass).find? fun test =>
    image.isPublic test && image.isVirtual test && image.isNewSlot test &&
      image.matches_ test method
  let inherited := (image.lineage klass).findSome? fun above =>
    (image.methods above).find? fun test =>
      image.isPublic test && image.isVirtual test && image.matches_ test method
  image.overrideImpl method (image.lineage klass) (newSlot.or inherited)

end Image

/-- The fields `index` and `count` of the methods.  `count` says that a method has
got its index in the current pass. -/
structure Indices (Method : Type) where
  index : Method → Nat
  count : Method → Bool

def Indices.assign (indices : Indices Method) (method : Method) (index : Nat) :
    Indices Method :=
  { index := Function.update indices.index method index
    count := Function.update indices.count method true }

def createIntfMethodsIndices : List Method → Nat → (Method → Nat) → Method → Nat
  | [], _, index => index
  | method :: rest, next, index =>
    createIntfMethodsIndices rest (next + 1) (Function.update index method next)

variable (image : Image Class Interface Method Signature)

/-- The inner loops of `create_virtual_methods_indices_for_interfaces`, over the
methods of all interfaces of a class; `none` is the internal error. -/
def assignImplementations (klass : Class) :
    List Method → Nat → Indices Method → Option (Indices Method × Nat)
  | [], next, indices => some (indices, next)
  | method :: rest, next, indices =>
    match image.getMethodImpl klass method with
    | none => none
    | some implementation =>
      assignImplementations klass rest (next + 1) (indices.assign implementation next)

def Image.listedMethods (klass : Class) : List Method :=
  (image.interfaces klass).flatMap image.interfaceMethods

def createVirtualMethodsIndicesForInterfaces (klass : Class) (next : Nat)
    (indices : Indices Method) : Option (Indices Method × Nat) :=
  assignImplementations image klass (image.listedMethods klass) next indices

def assignVirtuals : List Method → Nat → Indices Method → Indices Method × Nat
  | [], next, indices => (indices, next)
  | method :: rest, next, indices =>
    if image.isVirtual method && !image.isRuntime method && !indices.count method then
      match image.getBase method with
      | some base => assignVirtuals rest next (indices.assign method (indices.index base))
      | none => assignVirtuals rest (next + 1) (indices.assign method next)
    else assignVirtuals rest next indices

def setMethodIndicesToInvalid (klass : Class) (indices : Indices Method) : Indices Method :=
  { indices with
    count := fun method => if method ∈ image.methods klass then false else indices.count method }

/-- The indices of the ancestors are computed again for each class. -/
def createVirtualMethodsIndices (klass : Class) (indices : Indices Method) :
    Option (Indices Method × Nat) := do
  let (indices, next) ← match _parent : image.parent klass with
    | some above => createVirtualMethodsIndices above indices
    | none => some (indices, 0)
  let (indices, next) ← createVirtualMethodsIndicesForInterfaces image klass next indices
  let (indices, next) := assignVirtuals image (image.methods klass) next indices
  return (setMethodIndicesToInvalid image klass indices, next)
termination_by image.depth klass
decreasing_by exact image.depth_parent ‹_›

/-- The search for the place of a new entry; `none` is the internal error for an
index that exists already. -/
def insertEntry (entry : Nat × Method) : List (Nat × Method) → Option (List (Nat × Method))
  | [] => some [entry]
  | other :: rest =>
    if other.1 > entry.1 then some (entry :: other :: rest)
    else if other.1 = entry.1 then none
    else (insertEntry entry rest).map (other :: ·)

def addVTableSlot (entry : Nat × Method) :
    List (Nat × Method) → Option (List (Nat × Method))
  | [] => some [entry]
  | first :: rest => (insertEntry entry rest).map (first :: ·)

def changeVTableSlot (position : Nat) (method : Method) (entries : List (Nat × Method)) :
    Option (List (Nat × Method)) :=
  match entries[position]? with
  | some entry => some (entries.set position (entry.1, method))
  | none => none

def addMethods (index : Method → Nat) :
    List Method → List (Nat × Method) → Option (List (Nat × Method))
  | [], entries => some entries
  | method :: rest, entries =>
    if image.isVirtual method && !image.isRuntime method then do
      let entries ← match image.getBase method with
        | some _ => changeVTableSlot (index method) method entries
        | none => addVTableSlot (index method, method) entries
      addMethods index rest entries
    else addMethods index rest entries

def createVTableEntries (index : Method → Nat) (klass : Class) :
    Option (List (Nat × Method)) := do
  let entries ← match _parent : image.parent klass with
    | some above => createVTableEntries index above
    | none => some []
  addMethods image index (image.methods klass) entries
termination_by image.depth klass
decreasing_by exact image.depth_parent ‹_›

/-- What `parse_class` emits for a class: the indices at that time and the vtable. -/
structure Emitted (Method : Type) where
  index : Method → Nat
  vtable : List (Nat × Method)

structure Compilation (Class Method : Type) where
  indices : Indices Method
  made : Class → Option (Emitted Method)

def Compilation.start : Compilation Class Method where
  indices := ⟨fun _ => 0, fun _ => false⟩
  made _ := none

def parseClass (klass : Class) (compilation : Compilation Class Method) :
    Option (Compilation Class Method) :=
  match compilation.made klass with
  | some _ => some compilation
  | none => do
      let compilation ← match _parent : image.parent klass with
        | some above => parseClass above compilation
        | none => some compilation
      let (indices, _) ← createVirtualMethodsIndices image klass compilation.indices
      let vtable ← createVTableEntries image indices.index klass
      return {
        indices := indices
        made := Function.update compilation.made klass (some ⟨indices.index, vtable⟩) }
termination_by image.depth klass
decreasing_by exact image.depth_parent ‹_›

def parseClasses : List Class → Compilation Class Method → Option (Compilation Class Method)
  | [], compilation => some compilation
  | klass :: rest, compilation => do
      let compilation ← parseClass image klass compilation
      parseClasses rest compilation

/-- The tables that the runtime library finds: `vtable_size` is the length of the
vtable, and interfaces are emitted without an interface count. -/
def emit (compilation : Compilation Class Method) : Libruntime.Hierarchy Class Interface where
  toForest := image.toForest
  interfaces := image.interfaces
  interfaceId _ := 1000
  vtableSize klass :=
    match compilation.made klass with
    | some emitted => emitted.vtable.length
    | none => 0
  bases _ := []
  methodCount interface := (image.interfaceMethods interface).length
  height _ := 0
  height_base membership := by cases membership

end GccCil.Cil
