import Mathlib.Data.List.Basic
import Mathlib.Logic.Function.Basic

/-!
# The identity of types

`scil-class.c` and `register_class` of `scil-pnet.c`.  A class is registered
under one flat identifier: the assembly, the parts of the namespace and the
nesting classes, all joined with dots, and every identifier has at most one
node.  A registry is described by two lists of identifiers, those of types
and those that were asked for as namespaces; from them it follows which
requests get the type of another class, a namespace, or no node at all.
-/

namespace GccCil.Scil.TypeIdentity

abbrev Identifier := List Char

/-- The tree codes of the nodes in `SCIL_DECL`; `treeList` is a list of overloaded
methods. -/
inductive Kind where
  | namespaceDecl | functionDecl | recordType | basicType | treeList
  deriving DecidableEq, Repr

/-- `DECL_P`; `DECL_NAME` may be read of these nodes only. -/
def Kind.isDecl : Kind → Bool
  | .namespaceDecl | .functionDecl => true
  | .recordType | .basicType | .treeList => false

/-- `TYPE_P`; `TYPE_NAME` may be read of these nodes only. -/
def Kind.isType : Kind → Bool
  | .recordType | .basicType => true
  | .namespaceDecl | .functionDecl | .treeList => false

/-- A node, with its `DECL_NAME` or `TYPE_NAME`.  An identifier is given one
node, so the identifier tells nodes apart. -/
structure Node where
  kind : Kind
  id : Identifier
  deriving DecidableEq, Repr

/-- A class of a loaded image.  `object` tells apart several objects for one
class. -/
inductive ILClass where
  | outer (object : Nat) (assemblyName nameSpace name : Identifier)
  | nested (object : Nat) (nestedParent : ILClass) (name : Identifier)
  deriving DecidableEq, Repr

inductive ClassPath where
  | outer (assemblyName nameSpace name : Identifier)
  | nested (nestedParent : ClassPath) (name : Identifier)
  deriving DecidableEq, Repr

def ILClass.path : ILClass → ClassPath
  | .outer _ assemblyName nameSpace name => .outer assemblyName nameSpace name
  | .nested _ nestedParent name => .nested nestedParent.path name

/-- `SCIL_DECL` of the identifiers and the trees stored with the classes. -/
structure Registry where
  decl : Identifier → Option Kind
  tree : ILClass → Option Node

def scilGetNestedIdentifier (parent child : Identifier) : Identifier := parent ++ '.' :: child

def declare (kind : Kind) (id : Identifier) (registry : Registry) : Node × Registry :=
  match registry.decl id with
  | some found => (⟨found, id⟩, registry)
  | none =>
    (⟨kind, id⟩, { registry with decl := Function.update registry.decl id (some kind) })

def scilRegisterAssembly (name : Identifier) (registry : Registry) : Node × Registry :=
  declare .namespaceDecl name registry

/-- `get_namespace_identifier`; `none` is `DECL_NAME` of a type. -/
def getNamespaceIdentifier (container : Node) (nameSpace : Identifier) (registry : Registry) :
    Option (Node × Registry) :=
  if container.kind.isDecl then
    some (declare .namespaceDecl (scilGetNestedIdentifier container.id nameSpace) registry)
  else none

def nextPart (nameSpace : Identifier) : Identifier := (nameSpace.dropWhile (· ≠ '.')).tail

theorem nextPart_length_lt (first : Char) (rest : Identifier) :
    (nextPart (first :: rest)).length < (first :: rest).length := by
  have shorter := (List.dropWhile_suffix (l := first :: rest) (· ≠ '.')).length_le
  unfold nextPart
  rw [List.length_tail]
  simp only [List.length_cons] at shorter ⊢
  omega

/-- A container for each part of the dotted name, inside the one before. -/
def scilRegisterNamespace (container : Node) (nameSpace : Identifier) (registry : Registry) :
    Option (Node × Registry) :=
  match nameSpace with
  | [] => some (container, registry)
  | first :: rest => do
      let (inner, registry) ←
        getNamespaceIdentifier container ((first :: rest).takeWhile (· ≠ '.')) registry
      scilRegisterNamespace inner (nextPart (first :: rest)) registry
termination_by nameSpace.length
decreasing_by exact nextPart_length_lt first rest

def className (name : Identifier) : Identifier := (name.reverse.takeWhile (· ≠ '.')).reverse

def namePrefix (name : Identifier) : Identifier :=
  if name.length - (className name).length > 1 then
    name.take (name.length - (className name).length - 1)
  else []

def scilGetId (node : Node) : Option Identifier :=
  if node.kind.isDecl || node.kind.isType then some node.id else none

/-- `scil_register_class`.  The empty prefix leaves the container alone, as
`scil_register_namespace` does. -/
def scilRegisterClass (container : Node) (name : Identifier) (registry : Registry) :
    Option (Node × Registry) := do
  let (container, registry) ← scilRegisterNamespace container (namePrefix name) registry
  let id ← scilGetId container
  return declare .recordType (scilGetNestedIdentifier id (className name)) registry

def setTree (ilClass : ILClass) (registered : Node × Registry) : Node × Registry :=
  (registered.1,
    { registered.2 with
      tree := Function.update registered.2.tree ilClass (some registered.1) })

/-- `register_class`, and `get_class_tree` for the nesting class. -/
def registerClass (ilClass : ILClass) (registry : Registry) : Option (Node × Registry) :=
  match registry.tree ilClass with
  | some type => some (type, registry)
  | none =>
    match ilClass with
    | .outer object assemblyName nameSpace name => do
        let (assembly, registry) := scilRegisterAssembly assemblyName registry
        let (container, registry) ← scilRegisterNamespace assembly nameSpace registry
        let registered ← scilRegisterClass container name registry
        return setTree (.outer object assemblyName nameSpace name) registered
    | .nested object nestedParent name => do
        let (container, registry) ← registerClass nestedParent registry
        let registered ← scilRegisterClass container name registry
        return setTree (.nested object nestedParent name) registered

/-- The names that `init_type` is called with. -/
def basicNames : List Identifier :=
  ["int8", "int16", "int32", "int64", "uint8", "uint16", "uint32", "uint64", "native int",
    "native uint", "bool", "char", "float32", "float64", "void"].map String.toList

def mscorlib : Identifier := "mscorlib".toList

/-- `SCIL_ID_NEWOBJ`. -/
def newobj : Identifier := "newobj".toList

/-- The names of the built-in functions, `main` among them.  They depend on the
target; none is dotted or the name of a type, of `mscorlib` or of `newobj`. -/
structure Builtins where
  functions : List Identifier
  plain : ∀ name ∈ functions, '.' ∉ name ∧ name ∉ basicNames ∧ name ≠ mscorlib ∧ name ≠ newobj

def methodIdentifier (container : Option Node) (methodName : Identifier) : Identifier :=
  match container with
  | some container => scilGetNestedIdentifier container.id methodName
  | none => methodName

/-- `scil_register_method_impl`: the identifier of the method gets a longer list. -/
def scilRegisterMethodImpl (container : Option Node) (methodName : Identifier)
    (registry : Registry) : Option Registry :=
  let id := methodIdentifier container methodName
  match registry.decl id with
  | none => some { registry with decl := Function.update registry.decl id (some .treeList) }
  | some .treeList => some registry
  | some _ => none

def registerMethods : List (Option Node × String) → Registry → Option Registry
  | [], registry => some registry
  | (container, methodName) :: rest, registry => do
      registerMethods rest (← scilRegisterMethodImpl container methodName.toList registry)

def namespaceParts (nameSpace : Identifier) : List Identifier :=
  match nameSpace with
  | [] => []
  | first :: rest =>
    (first :: rest).takeWhile (· ≠ '.') :: namespaceParts (nextPart (first :: rest))
termination_by nameSpace.length
decreasing_by exact nextPart_length_lt first rest

/-- The identifiers of the containers from `start` inwards. -/
def containersFrom (start : Identifier) : List Identifier → List Identifier
  | [] => [start]
  | part :: rest => start :: containersFrom (scilGetNestedIdentifier start part) rest

namespace ClassPath

def parts : ClassPath → List Identifier
  | .outer _ nameSpace name => namespaceParts nameSpace ++ namespaceParts (namePrefix name)
  | .nested _ name => namespaceParts (namePrefix name)

def identifier : ClassPath → Identifier
  | .outer assemblyName nameSpace name =>
    scilGetNestedIdentifier
      ((namespaceParts nameSpace ++ namespaceParts (namePrefix name)).foldl
        scilGetNestedIdentifier assemblyName)
      (className name)
  | .nested nestedParent name =>
    scilGetNestedIdentifier
      ((namespaceParts (namePrefix name)).foldl scilGetNestedIdentifier
        nestedParent.identifier)
      (className name)

def start : ClassPath → Identifier
  | .outer assemblyName _ _ => assemblyName
  | .nested nestedParent _ => nestedParent.identifier

def containers (path : ClassPath) : List Identifier := containersFrom path.start path.parts

def innermost (path : ClassPath) : Identifier :=
  path.parts.foldl scilGetNestedIdentifier path.start

def lastName : ClassPath → Identifier
  | .outer _ _ name => className name
  | .nested _ name => className name

def lineage : ClassPath → List ClassPath
  | .outer assemblyName nameSpace name => [.outer assemblyName nameSpace name]
  | .nested nestedParent name => nestedParent.lineage ++ [.nested nestedParent name]

end ClassPath

def builtinClasses : List Identifier :=
  ["mscorlib.System.Object", "mscorlib.System.String", "mscorlib.System.Console",
    "mscorlib.System.Environment", "CliHw.Hardware.Cpu", "CliHw.Hardware.Cpu.Stack"].map
      String.toList

def methodNames : List Identifier :=
  ["mscorlib.System.Console.WriteLine", "mscorlib.System.Environment.Exit",
    "mscorlib.System.Object.Finalize", "mscorlib.System.Object.ToString",
    "mscorlib.System.Object.GetHashCode", "newobj", "CliHw.Hardware.Cpu.Sleep",
    "CliHw.Hardware.Cpu.InitStack", "CliHw.Hardware.Cpu.InvokeScheduler"].map String.toList

def typesOf (earlier : List ClassPath) : List Identifier :=
  basicNames ++ methodNames ++ builtinClasses ++ earlier.map ClassPath.identifier

def builtinSpaces : List Identifier :=
  ["mscorlib", "mscorlib.System", "CliHw", "CliHw.Hardware"].map String.toList

def spacesOf (builtins : Builtins) (earlier : List ClassPath) : List Identifier :=
  builtins.functions ++ builtinSpaces ++ earlier.flatMap ClassPath.containers

/-- Neither the class nor its container has the identifier of a built-in method. -/
def ClassPath.AvoidsMethods (path : ClassPath) : Prop :=
  path.innermost ∉ methodNames ∧ path.identifier ∉ methodNames

/-- A class can be registered after these: no namespace that has another one
inside it is a type, none is a method, and the identifier of a new class is not taken. -/
def Fits (builtins : Builtins) (earlier : List ClassPath) (path : ClassPath) : Prop :=
  (∀ container ∈ path.containers.dropLast, container ∉ typesOf earlier) ∧
    path.AvoidsMethods ∧
    (path ∉ earlier →
      path.identifier ∉ earlier.map ClassPath.identifier ∧
        (path.identifier ∈ spacesOf builtins earlier → path.identifier ∈ builtinClasses))

def FitAll (builtins : Builtins) : List ClassPath → List ClassPath → Prop
  | _, [] => True
  | earlier, path :: rest => Fits builtins earlier path ∧ FitAll builtins (path :: earlier) rest

def kindOf (id : Identifier) : Kind :=
  if id ∈ basicNames then .basicType else if id ∈ methodNames then .treeList else .recordType

/-- The identifiers `types` are those of types and methods, `spaces` were asked for as
namespaces, and no other identifier has a node.  What is in both is a type or a method. -/
structure Describes (types spaces : List Identifier) (decl : Identifier → Option Kind) :
    Prop where
  ofType : ∀ id ∈ types, decl id = some (kindOf id)
  ofSpace : ∀ id ∈ spaces, id ∉ types → ∃ kind, decl id = some kind ∧ kind.isDecl = true
  free : ∀ id, id ∉ types → id ∉ spaces → decl id = none

section Describes

variable {types spaces : List Identifier} {registry : Registry}

theorem Describes.congr {decl : Identifier → Option Kind} {types' spaces' : List Identifier}
    (describes : Describes types spaces decl) (sameTypes : ∀ id, id ∈ types' ↔ id ∈ types)
    (sameSpaces : ∀ id, id ∈ spaces' ↔ id ∈ spaces) : Describes types' spaces' decl where
  ofType := fun id membership => describes.ofType id ((sameTypes id).mp membership)
  ofSpace := fun id membership notType =>
    describes.ofSpace id ((sameSpaces id).mp membership) fun type =>
      notType ((sameTypes id).mpr type)
  free := fun id notType notSpace =>
    describes.free id (fun type => notType ((sameTypes id).mpr type))
      fun space => notSpace ((sameSpaces id).mpr space)

theorem Describes.isDecl_iff {decl : Identifier → Option Kind}
    (describes : Describes types spaces decl) {id : Identifier} {kind : Kind}
    (found : decl id = some kind) : kind.isDecl = true ↔ id ∉ types := by
  by_cases type : id ∈ types
  · have typeKind := describes.ofType id type
    rw [found] at typeKind
    cases typeKind
    unfold kindOf
    split_ifs <;> simp [Kind.isDecl, type]
  · by_cases space : id ∈ spaces
    · obtain ⟨other, known, isDecl⟩ := describes.ofSpace id space type
      rw [found] at known
      cases known
      simp [isDecl, type]
    · rw [describes.free id type space] at found
      contradiction

theorem Describes.known {decl : Identifier → Option Kind}
    (describes : Describes types spaces decl) {id : Identifier} {kind : Kind}
    (found : decl id = some kind) : Describes types (id :: spaces) decl where
  ofType := describes.ofType
  ofSpace := by
    intro other membership notType
    rcases List.mem_cons.mp membership with rfl | space
    · exact ⟨kind, found, (describes.isDecl_iff found).mpr notType⟩
    · exact describes.ofSpace other space notType
  free := fun other notType notSpace =>
    describes.free other notType fun space => notSpace (List.mem_cons_of_mem _ space)

theorem Describes.addSpace {decl : Identifier → Option Kind}
    (describes : Describes types spaces decl) {id : Identifier} (absent : decl id = none) :
    Describes types (id :: spaces) (Function.update decl id (some .namespaceDecl)) where
  ofType := by
    intro other type
    have different : other ≠ id := by
      rintro rfl
      rw [describes.ofType other type] at absent
      contradiction
    rw [Function.update_of_ne different]
    exact describes.ofType other type
  ofSpace := by
    intro other membership notType
    by_cases same : other = id
    · subst same
      exact ⟨.namespaceDecl, Function.update_self .., rfl⟩
    · rw [Function.update_of_ne same]
      exact describes.ofSpace other (List.mem_of_ne_of_mem same membership) notType
  free := by
    intro other notType notSpace
    have different : other ≠ id := fun same => notSpace (same ▸ List.mem_cons_self)
    rw [Function.update_of_ne different]
    exact describes.free other notType fun space => notSpace (List.mem_cons_of_mem _ space)

theorem Describes.addType {decl : Identifier → Option Kind}
    (describes : Describes types spaces decl) (id : Identifier) :
    Describes (id :: types) spaces (Function.update decl id (some (kindOf id))) where
  ofType := by
    intro other membership
    by_cases same : other = id
    · subst same
      rw [Function.update_self]
    · rw [Function.update_of_ne same]
      exact describes.ofType other (List.mem_of_ne_of_mem same membership)
  ofSpace := by
    intro other space notType
    have different : other ≠ id := fun same => notType (same ▸ List.mem_cons_self)
    rw [Function.update_of_ne different]
    exact describes.ofSpace other space fun type => notType (List.mem_cons_of_mem _ type)
  free := by
    intro other notType notSpace
    have different : other ≠ id := fun same => notType (same ▸ List.mem_cons_self)
    rw [Function.update_of_ne different]
    exact describes.free other (fun type => notType (List.mem_cons_of_mem _ type)) notSpace

theorem Describes.absorb {decl : Identifier → Option Kind} {inner : List Identifier}
    {id : Identifier} (describes : Describes types (inner ++ id :: spaces) decl)
    (member : id ∈ inner) : Describes types (inner ++ spaces) decl := by
  refine describes.congr (fun _ => Iff.rfl) ?_
  intro other
  simp only [List.mem_append, List.mem_cons]
  constructor
  · rintro (known | space)
    · exact .inl known
    · exact .inr (.inr space)
  · rintro (known | rfl | space)
    · exact .inl known
    · exact .inl member
    · exact .inr space

theorem declare_namespace (describes : Describes types spaces registry.decl)
    (id : Identifier) :
    ∃ kind registry', declare .namespaceDecl id registry = (⟨kind, id⟩, registry') ∧
      registry'.decl id = some kind ∧ registry'.tree = registry.tree ∧
      Describes types (id :: spaces) registry'.decl := by
  unfold declare
  cases found : registry.decl id with
  | some kind => exact ⟨kind, registry, rfl, found, rfl, describes.known found⟩
  | none =>
    exact ⟨.namespaceDecl, _, rfl, Function.update_self .., rfl, describes.addSpace found⟩

theorem Describes.again {decl : Identifier → Option Kind}
    (describes : Describes types spaces decl) {id : Identifier} (type : id ∈ types) :
    Describes (id :: types) spaces decl := by
  refine describes.congr ?_ fun _ => Iff.rfl
  intro other
  rw [List.mem_cons]
  exact ⟨fun either => either.elim (fun same => same ▸ type) (fun known => known), Or.inr⟩

theorem declare_record (describes : Describes types spaces registry.decl) {id : Identifier}
    (record : id ∉ types → kindOf id = .recordType) (untaken : id ∈ spaces → id ∈ types) :
    ∃ registry', declare .recordType id registry = (⟨kindOf id, id⟩, registry') ∧
      registry'.tree = registry.tree ∧ Describes (id :: types) spaces registry'.decl := by
  unfold declare
  by_cases type : id ∈ types
  · rw [describes.ofType id type]
    exact ⟨registry, rfl, rfl, describes.again type⟩
  · rw [describes.free id type fun space => type (untaken space), record type]
    exact ⟨_, rfl, rfl, record type ▸ describes.addType id⟩

theorem scilGetId_known (describes : Describes types spaces registry.decl) (node : Node)
    (known : registry.decl node.id = some node.kind) :
    scilGetId node = if node.id ∈ types ∧ node.id ∈ methodNames then none
      else some node.id := by
  by_cases type : node.id ∈ types
  · have found := describes.ofType node.id type
    rw [known] at found
    rw [scilGetId, Option.some.inj found, kindOf]
    by_cases basic : node.id ∈ basicNames
    · have apart : ∀ id ∈ basicNames, id ∉ methodNames := by decide
      simp [basic, apart node.id basic, Kind.isType]
    · by_cases method : node.id ∈ methodNames
      · simp [basic, method, type, Kind.isDecl, Kind.isType]
      · simp [basic, method, Kind.isType]
  · have isDecl := (describes.isDecl_iff known).mpr type
    simp [scilGetId, isDecl, type]

def enter : Node → List Identifier → Registry → Option (Node × Registry)
  | container, [], registry => some (container, registry)
  | container, part :: rest, registry =>
    (getNamespaceIdentifier container part registry).bind fun entered =>
      enter entered.1 rest entered.2

theorem scilRegisterNamespace_eq (container : Node) (nameSpace : Identifier)
    (registry : Registry) :
    scilRegisterNamespace container nameSpace registry =
      enter container (namespaceParts nameSpace) registry := by
  induction nameSpace using namespaceParts.induct generalizing container registry with
  | case1 => simp [scilRegisterNamespace, namespaceParts, enter]
  | case2 first rest ih =>
    rw [scilRegisterNamespace, namespaceParts, enter]
    simp only [ih, Option.bind_eq_bind]

theorem enter_append (container : Node) (first second : List Identifier)
    (registry : Registry) :
    enter container (first ++ second) registry =
      (enter container first registry).bind fun entered => enter entered.1 second entered.2 := by
  induction first generalizing container registry with
  | nil => rfl
  | cons part rest ih =>
    simp only [List.cons_append, enter, ih, Option.bind_assoc]

theorem containersFrom_ne_nil (start : Identifier) (parts : List Identifier) :
    containersFrom start parts ≠ [] := by
  cases parts <;> simp [containersFrom]

theorem mem_containersFrom_self (start : Identifier) (parts : List Identifier) :
    start ∈ containersFrom start parts := by
  cases parts <;> simp [containersFrom]

theorem dropLast_containersFrom (start part : Identifier) (rest : List Identifier) :
    (containersFrom start (part :: rest)).dropLast =
      start :: (containersFrom (scilGetNestedIdentifier start part) rest).dropLast := by
  rw [containersFrom, List.dropLast_cons_of_ne_nil (containersFrom_ne_nil _ _)]

theorem enter_spec (describes : Describes types spaces registry.decl) (parts : List Identifier)
    {container : Node} (known : registry.decl container.id = some container.kind)
    (namespaces : ∀ id ∈ (containersFrom container.id parts).dropLast, id ∉ types) :
    ∃ kind registry', enter container parts registry =
        some (⟨kind, parts.foldl scilGetNestedIdentifier container.id⟩, registry') ∧
      registry'.decl (parts.foldl scilGetNestedIdentifier container.id) = some kind ∧
      registry'.tree = registry.tree ∧
      Describes types (containersFrom container.id parts ++ spaces) registry'.decl := by
  induction parts generalizing container registry spaces with
  | nil =>
    exact ⟨container.kind, registry, rfl, known, rfl, describes.known known⟩
  | cons part rest ih =>
    rw [dropLast_containersFrom] at namespaces
    have isDecl : container.kind.isDecl = true :=
      (describes.isDecl_iff known).mpr (namespaces _ List.mem_cons_self)
    obtain ⟨kind, registry₁, declared, known₁, tree₁, describes₁⟩ :=
      declare_namespace (describes.known known) (scilGetNestedIdentifier container.id part)
    have opened : enter container (part :: rest) registry =
        enter ⟨kind, scilGetNestedIdentifier container.id part⟩ rest registry₁ := by
      rw [enter, getNamespaceIdentifier, if_pos isDecl, declared]
      rfl
    rw [opened, List.foldl_cons, containersFrom]
    generalize scilGetNestedIdentifier container.id part = next
      at namespaces known₁ describes₁
    obtain ⟨kind', registry', entered, known', tree', describes'⟩ :=
      ih describes₁
        (show registry₁.decl (Node.mk kind next).id = some (Node.mk kind next).kind from known₁)
        fun id membership => namespaces id (List.mem_cons_of_mem _ membership)
    refine ⟨kind', registry', entered, known', tree'.trans tree₁, ?_⟩
    refine describes'.congr (fun _ => Iff.rfl) ?_
    intro id
    have head := mem_containersFrom_self next rest
    simp only [List.cons_append, List.mem_append, List.mem_cons]
    constructor
    · rintro (start | inner | space)
      · exact .inr (.inr (.inl start))
      · exact .inl inner
      · exact .inr (.inr (.inr space))
    · rintro (inner | rfl | start | space)
      · exact .inr (.inl inner)
      · exact .inr (.inl head)
      · exact .inl start
      · exact .inr (.inr space)

theorem enter_none (describes : Describes types spaces registry.decl) (parts : List Identifier)
    {container : Node} (known : registry.decl container.id = some container.kind)
    (type : ∃ id ∈ (containersFrom container.id parts).dropLast, id ∈ types) :
    enter container parts registry = none := by
  induction parts generalizing container registry spaces with
  | nil => simp [containersFrom] at type
  | cons part rest ih =>
    rw [dropLast_containersFrom] at type
    rw [enter, getNamespaceIdentifier]
    by_cases isDecl : container.kind.isDecl = true
    · obtain ⟨kind, registry₁, declared, known₁, -, describes₁⟩ :=
        declare_namespace describes (scilGetNestedIdentifier container.id part)
      rw [if_pos isDecl, declared]
      apply ih describes₁ known₁
      obtain ⟨id, membership, isType⟩ := type
      rcases List.mem_cons.mp membership with rfl | inner
      · exact absurd isType ((describes.isDecl_iff known).mp isDecl)
      · exact ⟨id, inner, isType⟩
    · rw [if_neg isDecl]
      rfl

end Describes

namespace ClassPath

theorem identifier_eq (path : ClassPath) :
    path.identifier = scilGetNestedIdentifier path.innermost path.lastName := by
  cases path <;> rfl

theorem identifier_not_basic (path : ClassPath) : path.identifier ∉ basicNames := by
  have undotted : ∀ name ∈ basicNames, '.' ∉ name := by decide
  intro basic
  apply undotted _ basic
  rw [identifier_eq]
  simp [scilGetNestedIdentifier]

theorem kindOf_identifier {path : ClassPath} (avoids : path.identifier ∉ methodNames) :
    kindOf path.identifier = .recordType := by
  rw [kindOf, if_neg path.identifier_not_basic, if_neg avoids]

theorem length_containersFrom {start id : Identifier} {parts : List Identifier}
    (membership : id ∈ containersFrom start parts) :
    id.length ≤ (parts.foldl scilGetNestedIdentifier start).length := by
  induction parts generalizing start id with
  | nil => simp_all [containersFrom]
  | cons part rest ih =>
    rcases List.mem_cons.mp membership with rfl | inner
    · refine Nat.le_trans ?_ (ih (mem_containersFrom_self _ rest))
      simp [scilGetNestedIdentifier]
    · exact ih inner

theorem identifier_not_mem_containers (path : ClassPath) :
    path.identifier ∉ path.containers := by
  intro membership
  have short := length_containersFrom membership
  rw [identifier_eq] at short
  simp only [innermost, scilGetNestedIdentifier, List.length_append, List.length_cons] at short
  omega

end ClassPath

def place (path : ClassPath) (container : Node) (registry : Registry) :
    Option (Node × Registry) :=
  (enter container path.parts registry).bind fun entered =>
    (scilGetId entered.1).map fun id =>
      declare .recordType (scilGetNestedIdentifier id path.lastName) entered.2

theorem registerClass_known {ilClass : ILClass} {registry : Registry} {type : Node}
    (known : registry.tree ilClass = some type) :
    registerClass ilClass registry = some (type, registry) := by
  cases ilClass <;> rw [registerClass, known]

theorem registerClass_outer {object : Nat} {assemblyName nameSpace name : Identifier}
    {registry : Registry}
    (unknown : registry.tree (.outer object assemblyName nameSpace name) = none) :
    registerClass (.outer object assemblyName nameSpace name) registry =
      (place (.outer assemblyName nameSpace name) (scilRegisterAssembly assemblyName registry).1
        (scilRegisterAssembly assemblyName registry).2).map
          (setTree (.outer object assemblyName nameSpace name)) := by
  rw [registerClass, unknown]
  simp only [scilRegisterClass, scilRegisterNamespace_eq, place, ClassPath.parts, enter_append,
    ClassPath.lastName, Option.bind_eq_bind, Option.pure_def]
  cases enter (scilRegisterAssembly assemblyName registry).1 (namespaceParts nameSpace)
      (scilRegisterAssembly assemblyName registry).2 with
  | none => rfl
  | some entered =>
    simp only [Option.bind_some]
    cases enter entered.1 (namespaceParts (namePrefix name)) entered.2 with
    | none => rfl
    | some inner => simp only [Option.bind_some]; cases scilGetId inner.1 <;> rfl

theorem registerClass_nested {object : Nat} {nestedParent : ILClass} {name : Identifier}
    {registry : Registry}
    (unknown : registry.tree (.nested object nestedParent name) = none) :
    registerClass (.nested object nestedParent name) registry =
      (registerClass nestedParent registry).bind fun parent =>
        (place (.nested nestedParent.path name) parent.1 parent.2).map
          (setTree (.nested object nestedParent name)) := by
  rw [registerClass, unknown]
  simp only [scilRegisterClass, scilRegisterNamespace_eq, place, ClassPath.parts,
    ClassPath.lastName, Option.bind_eq_bind, Option.pure_def]
  cases registerClass nestedParent registry with
  | none => rfl
  | some parent =>
    simp only [Option.bind_some]
    cases enter parent.1 (namespaceParts (namePrefix name)) parent.2 with
    | none => rfl
    | some inner => simp only [Option.bind_some]; cases scilGetId inner.1 <;> rfl

section Place

variable {types spaces : List Identifier} {registry : Registry} {path : ClassPath}
  {container : Node}

theorem place_none (describes : Describes types spaces registry.decl)
    (known : registry.decl container.id = some container.kind) (start : container.id = path.start)
    (type : ∃ id ∈ path.containers.dropLast, id ∈ types) :
    place path container registry = none := by
  rw [ClassPath.containers, ← start] at type
  rw [place, enter_none describes path.parts known type]
  rfl

theorem place_eq (describes : Describes types spaces registry.decl)
    (known : registry.decl container.id = some container.kind) (start : container.id = path.start)
    (namespaces : ∀ id ∈ path.containers.dropLast, id ∉ types) :
    ∃ registry₁, registry₁.tree = registry.tree ∧
      Describes types (path.containers ++ spaces) registry₁.decl ∧
      place path container registry =
        if path.innermost ∈ types ∧ path.innermost ∈ methodNames then none
        else some (declare .recordType path.identifier registry₁) := by
  rw [ClassPath.containers, ← start] at namespaces
  obtain ⟨kind, registry₁, entered, known₁, tree₁, describes₁⟩ :=
    enter_spec describes path.parts known namespaces
  rw [start] at entered known₁ describes₁
  refine ⟨registry₁, tree₁, describes₁, ?_⟩
  have isId := scilGetId_known describes₁
    ⟨kind, path.parts.foldl scilGetNestedIdentifier path.start⟩ known₁
  rw [place, entered, Option.bind_some, isId, ClassPath.identifier_eq, ClassPath.innermost]
  split_ifs <;> rfl

theorem place_type (describes : Describes types spaces registry.decl)
    (known : registry.decl container.id = some container.kind) (start : container.id = path.start)
    (namespaces : ∀ id ∈ path.containers.dropLast, id ∉ types)
    (readable : path.innermost ∉ methodNames)
    (record : path.identifier ∉ types → path.identifier ∉ methodNames)
    (untaken : path.identifier ∈ spaces → path.identifier ∈ types) :
    ∃ registry', place path container registry =
        some (⟨kindOf path.identifier, path.identifier⟩, registry') ∧
      registry'.tree = registry.tree ∧
      Describes (path.identifier :: types) (path.containers ++ spaces) registry'.decl := by
  obtain ⟨registry₁, tree₁, describes₁, placed⟩ := place_eq describes known start namespaces
  have untaken₁ : path.identifier ∈ path.containers ++ spaces → path.identifier ∈ types := by
    intro membership
    rcases List.mem_append.mp membership with inner | space
    · exact absurd inner path.identifier_not_mem_containers
    · exact untaken space
  obtain ⟨registry', declared, tree', describes'⟩ := declare_record describes₁
    (fun new => ClassPath.kindOf_identifier (record new)) untaken₁
  refine ⟨registry', ?_, tree'.trans tree₁, describes'⟩
  rw [placed, if_neg fun method => readable method.2, declared]

theorem place_namespace (describes : Describes types spaces registry.decl)
    (known : registry.decl container.id = some container.kind) (start : container.id = path.start)
    (namespaces : ∀ id ∈ path.containers.dropLast, id ∉ types)
    (readable : path.innermost ∉ methodNames)
    (space : path.identifier ∈ spaces) (notType : path.identifier ∉ types) :
    ∃ kind registry', place path container registry =
        some (⟨kind, path.identifier⟩, registry') ∧
      registry'.tree = registry.tree ∧ kind.isDecl = true := by
  obtain ⟨registry₁, tree₁, describes₁, placed⟩ := place_eq describes known start namespaces
  obtain ⟨kind', found, isDecl⟩ :=
    describes₁.ofSpace path.identifier (List.mem_append_right _ space) notType
  refine ⟨kind', registry₁, ?_, tree₁, isDecl⟩
  rw [placed, if_neg fun method => readable method.2, declare, found]

end Place

theorem declare_tree (kind : Kind) (id : Identifier) (registry : Registry) :
    (declare kind id registry).2.tree = registry.tree := by
  unfold declare
  split <;> rfl

theorem enter_tree {container entered : Node} {parts : List Identifier}
    {registry registry' : Registry}
    (returned : enter container parts registry = some (entered, registry')) :
    registry'.tree = registry.tree := by
  induction parts generalizing container registry with
  | nil =>
    cases returned
    rfl
  | cons part rest ih =>
    obtain ⟨next, declared, rest'⟩ := Option.bind_eq_some_iff.mp returned
    unfold getNamespaceIdentifier at declared
    split at declared
    case isFalse => contradiction
    case isTrue =>
      rw [ih rest', ← Option.some.inj declared]
      exact declare_tree _ _ _

theorem place_tree {path : ClassPath} {container type : Node} {registry registry' : Registry}
    (returned : place path container registry = some (type, registry')) :
    registry'.tree = registry.tree := by
  obtain ⟨⟨entered, registry₁⟩, opened, read⟩ := Option.bind_eq_some_iff.mp returned
  obtain ⟨id, -, declared⟩ := Option.map_eq_some_iff.mp read
  have kept := declare_tree .recordType (scilGetNestedIdentifier id path.lastName) registry₁
  rw [declared] at kept
  exact kept.trans (enter_tree opened)

/-- `later` has every tree of `earlier`. -/
def Keeps (earlier later : Registry) : Prop :=
  ∀ ilClass type, earlier.tree ilClass = some type → later.tree ilClass = some type

theorem Keeps.trans {first second third : Registry} (left : Keeps first second)
    (right : Keeps second third) : Keeps first third :=
  fun ilClass type known => right ilClass type (left ilClass type known)

def ILClass.depth : ILClass → Nat
  | .outer .. => 0
  | .nested _ nestedParent _ => nestedParent.depth + 1

/-- Registering a class stores its tree, and otherwise only trees of its
nesting classes. -/
structure Stored (ilClass : ILClass) (registry : Registry) (type : Node)
    (registry' : Registry) : Prop where
  stored : registry'.tree ilClass = some type
  keeps : Keeps registry registry'
  deeper : ∀ other, ilClass.depth < other.depth → registry'.tree other = registry.tree other

theorem stored_known {ilClass : ILClass} {type : Node} {registry : Registry}
    (known : registry.tree ilClass = some type) : Stored ilClass registry type registry :=
  ⟨known, fun _ _ stored => stored, fun _ _ => rfl⟩

theorem stored_place {path : ClassPath} {container type : Node} {registry registry' : Registry}
    {ilClass : ILClass} (unknown : registry.tree ilClass = none)
    (returned : (place path container registry).map (setTree ilClass) = some (type, registry')) :
    Stored ilClass registry type registry' := by
  obtain ⟨⟨type₁, registry₁⟩, placed, set⟩ := Option.map_eq_some_iff.mp returned
  cases set
  have others : ∀ other, other ≠ ilClass →
      Function.update registry₁.tree ilClass (some type₁) other = registry.tree other := by
    intro other different
    rw [Function.update_of_ne different, place_tree placed]
  refine ⟨Function.update_self .., ?_, ?_⟩
  · intro other otherType known
    have different : other ≠ ilClass := by
      rintro rfl
      rw [unknown] at known
      contradiction
    exact (others other different).trans known
  · intro other deeper
    apply others other
    rintro rfl
    exact Nat.lt_irrefl _ deeper

theorem registerClass_stored {ilClass : ILClass} {type : Node} {registry registry' : Registry}
    (returned : registerClass ilClass registry = some (type, registry')) :
    Stored ilClass registry type registry' := by
  induction ilClass generalizing type registry registry' with
  | outer object assemblyName nameSpace name =>
    cases unknown : registry.tree (.outer object assemblyName nameSpace name) with
    | some known =>
      rw [registerClass_known unknown] at returned
      cases returned
      exact stored_known unknown
    | none =>
      rw [registerClass_outer unknown] at returned
      have assemblyTree : (scilRegisterAssembly assemblyName registry).2.tree = registry.tree :=
        declare_tree _ _ _
      rw [← assemblyTree] at unknown
      obtain ⟨stored, keeps, deeper⟩ := stored_place unknown returned
      rw [assemblyTree] at deeper
      refine ⟨stored, ?_, deeper⟩
      unfold Keeps at keeps ⊢
      rwa [assemblyTree] at keeps
  | nested object nestedParent name ih =>
    cases unknown : registry.tree (.nested object nestedParent name) with
    | some known =>
      rw [registerClass_known unknown] at returned
      cases returned
      exact stored_known unknown
    | none =>
      rw [registerClass_nested unknown] at returned
      obtain ⟨⟨parent, registry₁⟩, parentReturned, placed⟩ :=
        Option.bind_eq_some_iff.mp returned
      have parentStored := ih parentReturned
      have unknown₁ : registry₁.tree (.nested object nestedParent name) = none := by
        rw [parentStored.deeper _ (Nat.lt_succ_self _)]
        exact unknown
      obtain ⟨stored, keeps, deeper⟩ := stored_place unknown₁ placed
      refine ⟨stored, parentStored.keeps.trans keeps, ?_⟩
      intro other otherDeeper
      rw [deeper other otherDeeper, parentStored.deeper other (Nat.lt_of_succ_lt otherDeeper)]

/-- A registry in which exactly these classes are registered, each under its
own identifier. -/
structure Registered (builtins : Builtins) (earlier : List ClassPath) (registry : Registry) :
    Prop where
  describes : Describes (typesOf earlier) (spacesOf builtins earlier) registry.decl
  cached : ∀ ilClass type, registry.tree ilClass = some type →
    ilClass.path ∈ earlier ∧ type = ⟨.recordType, ilClass.path.identifier⟩
  known : ∀ path ∈ earlier, ∃ ilClass type,
    ilClass.path = path ∧ registry.tree ilClass = some type
  avoids : ∀ path ∈ earlier, path.AvoidsMethods
  closed : ∀ path ∈ earlier, ∀ outer ∈ path.lineage, outer ∈ earlier
  inner : ∀ path ∈ earlier, ∀ id ∈ path.containers.dropLast, id ∉ typesOf earlier
  injective : ∀ first ∈ earlier, ∀ second ∈ earlier,
    first.identifier = second.identifier → first = second

def Broken (registry : Registry) : Prop :=
  ∃ first second firstType secondType, registry.tree first = some firstType ∧
    registry.tree second = some secondType ∧
    ¬ ((firstType = secondType ↔ first.path = second.path) ∧ firstType.kind.isType)

theorem Broken.keep {registry registry' : Registry} (broken : Broken registry)
    (keeps : Keeps registry registry') : Broken registry' := by
  obtain ⟨first, second, firstType, secondType, firstKnown, secondKnown, wrong⟩ := broken
  exact ⟨first, second, firstType, secondType, keeps _ _ firstKnown, keeps _ _ secondKnown, wrong⟩

section Registered

variable {builtins : Builtins} {earlier : List ClassPath} {registry : Registry}

theorem mem_typesOf_cons (path : ClassPath) (earlier : List ClassPath) (id : Identifier) :
    id ∈ typesOf (path :: earlier) ↔ id ∈ path.identifier :: typesOf earlier := by
  simp only [typesOf, List.map_cons, List.mem_append, List.mem_cons]
  grind

theorem mem_spacesOf_cons (path : ClassPath) (earlier : List ClassPath) (id : Identifier) :
    id ∈ spacesOf builtins (path :: earlier) ↔
      id ∈ path.containers ++ spacesOf builtins earlier := by
  simp only [spacesOf, List.flatMap_cons, List.mem_append]
  grind

theorem methodNames_subset (earlier : List ClassPath) {id : Identifier} (method : id ∈ methodNames) :
    id ∈ typesOf earlier := by
  simp [typesOf, method]

theorem Registered.congr {same : List ClassPath} (registered : Registered builtins earlier registry)
    (members : ∀ path, path ∈ same ↔ path ∈ earlier) : Registered builtins same registry := by
  have types : ∀ id, id ∈ typesOf same ↔ id ∈ typesOf earlier := by
    intro id
    simp only [typesOf, List.mem_append, List.mem_map, members]
  have spaces : ∀ id, id ∈ spacesOf builtins same ↔ id ∈ spacesOf builtins earlier := by
    intro id
    simp only [spacesOf, List.mem_append, List.mem_flatMap, members]
  obtain ⟨describes, cached, known, avoids, closed, inner, injective⟩ := registered
  refine ⟨describes.congr types spaces, ?_, ?_, ?_, ?_, ?_, ?_⟩
  all_goals simpa only [members, types]

theorem self_mem_lineage (path : ClassPath) : path ∈ path.lineage := by
  cases path <;> simp [ClassPath.lineage]

theorem Fits.untaken {path : ClassPath} (fits : Fits builtins earlier path)
    (space : path.identifier ∈ spacesOf builtins earlier) :
    path.identifier ∈ typesOf earlier := by
  by_cases member : path ∈ earlier
  · exact List.mem_append_right _ (List.mem_map_of_mem member)
  · exact List.mem_append_left _ (List.mem_append_right _ ((fits.2.2 member).2 space))

theorem Fits.injective (registered : Registered builtins earlier registry) {path : ClassPath}
    (fits : Fits builtins earlier path) {other : ClassPath} (member : other ∈ earlier)
    (same : other.identifier = path.identifier) : other = path := by
  by_cases known : path ∈ earlier
  · exact registered.injective other member path known same
  · exact absurd (same ▸ List.mem_map_of_mem member) (fits.2.2 known).1

theorem Fits.inner (registered : Registered builtins earlier registry) {path : ClassPath}
    (fits : Fits builtins earlier path) {other : ClassPath} (member : other ∈ path :: earlier)
    {id : Identifier} (inner : id ∈ other.containers.dropLast) :
    id ∉ typesOf (path :: earlier) := by
  have container := List.dropLast_subset _ inner
  intro type
  rcases List.mem_cons.mp ((mem_typesOf_cons path earlier id).mp type) with rfl | older
  · rcases List.mem_cons.mp member with rfl | known
    · exact other.identifier_not_mem_containers container
    · apply registered.inner other known _ inner
      apply fits.untaken
      exact List.mem_append_right _ (List.mem_flatMap_of_mem known container)
  · rcases List.mem_cons.mp member with rfl | known
    · exact fits.1 id inner older
    · exact registered.inner other known id inner older

theorem Registered.add {registry' : Registry}
    (registered : Registered builtins earlier registry) (ilClass : ILClass)
    (unknown : registry.tree ilClass = none) (fits : Fits builtins earlier ilClass.path)
    (nesting : ∀ outer ∈ ilClass.path.lineage, outer ≠ ilClass.path → outer ∈ earlier)
    (describes : Describes (typesOf (ilClass.path :: earlier))
      (spacesOf builtins (ilClass.path :: earlier)) registry'.decl)
    (tree : registry'.tree = Function.update registry.tree ilClass
      (some ⟨.recordType, ilClass.path.identifier⟩)) :
    Registered builtins (ilClass.path :: earlier) registry' := by
  refine ⟨describes, ?_, ?_, ?_, ?_,
    fun path member id inner => fits.inner registered member inner, ?_⟩
  · intro other type stored
    rw [tree] at stored
    by_cases same : other = ilClass
    · subst same
      rw [Function.update_self] at stored
      exact ⟨List.mem_cons_self, (Option.some.inj stored).symm⟩
    · rw [Function.update_of_ne same] at stored
      obtain ⟨member, typeEq⟩ := registered.cached other type stored
      exact ⟨List.mem_cons_of_mem _ member, typeEq⟩
  · intro path membership
    rcases List.mem_cons.mp membership with rfl | member
    · exact ⟨ilClass, _, rfl, by rw [tree]; exact Function.update_self ..⟩
    · obtain ⟨other, type, pathEq, known⟩ := registered.known path member
      have different : other ≠ ilClass := by
        rintro rfl
        rw [known] at unknown
        contradiction
      refine ⟨other, type, pathEq, ?_⟩
      rw [tree, Function.update_of_ne different]
      exact known
  · intro path membership
    rcases List.mem_cons.mp membership with rfl | member
    · exact fits.2.1
    · exact registered.avoids path member
  · intro path membership outer inLineage
    rcases List.mem_cons.mp membership with rfl | member
    · by_cases same : outer = ilClass.path
      · exact same ▸ List.mem_cons_self
      · exact List.mem_cons_of_mem _ (nesting outer inLineage same)
    · exact List.mem_cons_of_mem _ (registered.closed path member outer inLineage)
  · intro first firstMember second secondMember same
    rcases List.mem_cons.mp firstMember with rfl | firstOlder
    · rcases List.mem_cons.mp secondMember with rfl | secondOlder
      · rfl
      · exact (fits.injective registered secondOlder same.symm).symm
    · rcases List.mem_cons.mp secondMember with rfl | secondOlder
      · exact fits.injective registered firstOlder same
      · exact registered.injective first firstOlder second secondOlder same

theorem Registered.place_fits {registry₁ : Registry} {container : Node}
    (registered : Registered builtins earlier registry) (ilClass : ILClass)
    (tree : registry₁.tree = registry.tree)
    (describes : Describes (typesOf earlier)
      (ilClass.path.start :: spacesOf builtins earlier) registry₁.decl)
    (found : registry₁.decl container.id = some container.kind)
    (start : container.id = ilClass.path.start)
    (unknown : registry₁.tree ilClass = none)
    (nesting : ∀ outer ∈ ilClass.path.lineage, outer ≠ ilClass.path → outer ∈ earlier)
    (fits : Fits builtins earlier ilClass.path) :
    ∃ registry', (place ilClass.path container registry₁).map (setTree ilClass) =
        some (⟨.recordType, ilClass.path.identifier⟩, registry') ∧
      Registered builtins (ilClass.path :: earlier) registry' := by
  have startMember : ilClass.path.start ∈ ilClass.path.containers := mem_containersFrom_self _ _
  have untaken : ilClass.path.identifier ∈ ilClass.path.start :: spacesOf builtins earlier →
      ilClass.path.identifier ∈ typesOf earlier := by
    intro membership
    rcases List.mem_cons.mp membership with same | space
    · exact absurd (same ▸ startMember) ilClass.path.identifier_not_mem_containers
    · exact fits.untaken space
  obtain ⟨registry₂, placed, tree₂, describes₂⟩ :=
    place_type describes found start fits.1 fits.2.1.1 (fun _ => fits.2.1.2) untaken
  rw [ClassPath.kindOf_identifier fits.2.1.2] at placed
  refine ⟨_, by rw [placed]; rfl, registered.add ilClass (tree ▸ unknown) fits nesting ?_ ?_⟩
  · exact (describes₂.absorb startMember).congr (mem_typesOf_cons _ _) (mem_spacesOf_cons _ _)
  · rw [← tree, ← tree₂]

theorem Registered.place_not_fits {registry₁ : Registry} {container : Node}
    (registered : Registered builtins earlier registry) (ilClass : ILClass)
    (tree : registry₁.tree = registry.tree)
    (describes : Describes (typesOf earlier)
      (ilClass.path.start :: spacesOf builtins earlier) registry₁.decl)
    (found : registry₁.decl container.id = some container.kind)
    (start : container.id = ilClass.path.start)
    (unknown : registry₁.tree ilClass = none)
    (unfit : ¬ Fits builtins earlier ilClass.path) {type : Node} {registry' : Registry}
    (returned : (place ilClass.path container registry₁).map (setTree ilClass) =
      some (type, registry')) : Broken registry' := by
  obtain ⟨stored, keeps, -⟩ := stored_place unknown returned
  obtain ⟨⟨type₁, registry₂⟩, placed, set⟩ := Option.map_eq_some_iff.mp returned
  obtain rfl : type₁ = type := congrArg Prod.fst set
  have namespaces : ∀ id ∈ ilClass.path.containers.dropLast, id ∉ typesOf earlier := by
    intro id inner isType
    rw [place_none describes found start ⟨id, inner, isType⟩] at placed
    contradiction
  have readable : ilClass.path.innermost ∉ methodNames := by
    intro method
    obtain ⟨_, -, -, again⟩ := place_eq describes found start namespaces
    rw [placed, if_pos ⟨methodNames_subset earlier method, method⟩] at again
    cases again
  by_cases isType : ilClass.path.identifier ∈ typesOf earlier
  · obtain ⟨_, again, -⟩ := place_type describes found start namespaces readable
      (fun new => absurd isType new) fun _ => isType
    rw [placed] at again
    cases again
    by_cases method : ilClass.path.identifier ∈ methodNames
    · refine ⟨ilClass, ilClass, _, _, stored, stored, fun identified => ?_⟩
      have isMethod := identified.2
      rw [kindOf, if_neg ilClass.path.identifier_not_basic, if_pos method] at isMethod
      cases isMethod
    have new : ilClass.path ∉ earlier := fun known =>
      unfit ⟨namespaces, ⟨readable, method⟩, fun absent => absurd known absent⟩
    by_cases shared : ilClass.path.identifier ∈ earlier.map ClassPath.identifier
    · obtain ⟨path, member, same⟩ := List.mem_map.mp shared
      obtain ⟨other, otherType, rfl, known⟩ := registered.known path member
      obtain ⟨-, rfl⟩ := registered.cached other otherType known
      rw [← tree] at known
      refine ⟨ilClass, other, _, _, stored, keeps other _ known, ?_⟩
      intro identified
      apply new
      rw [identified.1.mp (by rw [same, ClassPath.kindOf_identifier method])]
      exact member
    · refine absurd ⟨namespaces, ⟨readable, method⟩, fun _ => ⟨shared, fun _ => ?_⟩⟩ unfit
      simp only [typesOf, List.mem_append, ilClass.path.identifier_not_basic, method, shared,
        false_or, or_false] at isType
      exact isType
  · have method : ilClass.path.identifier ∉ methodNames := fun method =>
      isType (methodNames_subset earlier method)
    have space : ilClass.path.identifier ∈ spacesOf builtins earlier := by
      by_contra notSpace
      refine unfit ⟨namespaces, ⟨readable, method⟩,
        fun _ => ⟨?_, fun space => absurd space notSpace⟩⟩
      exact fun shared => isType (List.mem_append_right _ shared)
    obtain ⟨kind, _, again, -, isDecl⟩ := place_namespace describes found start namespaces
      readable (List.mem_cons_of_mem _ space) isType
    rw [placed] at again
    cases again
    refine ⟨ilClass, ilClass, _, _, stored, stored, fun identified => ?_⟩
    have isType' := identified.2
    cases kind <;> simp_all [Kind.isDecl, Kind.isType]

theorem fitAll_append (builtins : Builtins) (earlier first second : List ClassPath) :
    FitAll builtins earlier (first ++ second) ↔
      FitAll builtins earlier first ∧ FitAll builtins (first.reverse ++ earlier) second := by
  induction first generalizing earlier with
  | nil => simp [FitAll]
  | cons path rest ih =>
    simp only [List.cons_append, FitAll, ih, List.reverse_cons,
      List.append_assoc, List.nil_append, and_assoc]

theorem Registered.fitAll_known (registered : Registered builtins earlier registry)
    {paths : List ClassPath} (members : ∀ path ∈ paths, path ∈ earlier) :
    FitAll builtins earlier paths ∧ Registered builtins (paths.reverse ++ earlier) registry := by
  induction paths generalizing earlier with
  | nil => exact ⟨trivial, registered⟩
  | cons path rest ih =>
    have member := members path List.mem_cons_self
    have again : Registered builtins (path :: earlier) registry :=
      registered.congr fun other => by
        rw [List.mem_cons]
        exact ⟨fun either => either.elim (fun same => same ▸ member) (fun known => known), Or.inr⟩
    obtain ⟨fit, registered'⟩ := ih again fun other inRest =>
      List.mem_cons_of_mem _ (members other (List.mem_cons_of_mem _ inRest))
    refine ⟨⟨⟨registered.inner path member, registered.avoids path member,
      fun absent => absurd member absent⟩, fit⟩, ?_⟩
    rwa [List.reverse_cons, List.append_assoc]

/-- A request for this class: it is answered with a type of its own exactly
when the class and its nesting classes fit. -/
def Answers (builtins : Builtins) (earlier : List ClassPath) (path : ClassPath)
    (answer : Option (Node × Registry)) : Prop :=
  (FitAll builtins earlier path.lineage →
    ∃ registry', answer = some (⟨.recordType, path.identifier⟩, registry') ∧
      Registered builtins (path.lineage.reverse ++ earlier) registry') ∧
  (¬ FitAll builtins earlier path.lineage →
    ∀ type registry', answer = some (type, registry') → Broken registry')

theorem Registered.answers_known (registered : Registered builtins earlier registry)
    {ilClass : ILClass} {type : Node} (known : registry.tree ilClass = some type) :
    Answers builtins earlier ilClass.path (registerClass ilClass registry) := by
  obtain ⟨member, rfl⟩ := registered.cached ilClass type known
  obtain ⟨fit, again⟩ := registered.fitAll_known (registered.closed _ member)
  rw [registerClass_known known]
  exact ⟨fun _ => ⟨registry, rfl, again⟩, fun unfit => absurd fit unfit⟩

theorem Registered.answers_outer (registered : Registered builtins earlier registry)
    {object : Nat} {assemblyName nameSpace name : Identifier}
    (unknown : registry.tree (.outer object assemblyName nameSpace name) = none) :
    Answers builtins earlier (.outer assemblyName nameSpace name)
      (registerClass (.outer object assemblyName nameSpace name) registry) := by
  obtain ⟨kind, registry₁, assembly, found, tree, describes⟩ :=
    declare_namespace registered.describes assemblyName
  rw [registerClass_outer unknown, scilRegisterAssembly, assembly]
  rw [← tree] at unknown
  have nesting : ∀ outer ∈ (ClassPath.outer assemblyName nameSpace name).lineage,
      outer ≠ .outer assemblyName nameSpace name → outer ∈ earlier := by
    intro outer membership different
    exact absurd (List.mem_singleton.mp membership) different
  refine ⟨?_, ?_⟩
  · rintro ⟨fits, -⟩
    exact registered.place_fits (.outer object assemblyName nameSpace name) tree describes
      found rfl unknown nesting fits
  · intro unfit type registry' returned
    exact registered.place_not_fits (.outer object assemblyName nameSpace name) tree describes
      found rfl unknown (fun fits => unfit ⟨fits, trivial⟩) returned

theorem answers_nested {object : Nat} {nestedParent : ILClass} {name : Identifier}
    (unknown : registry.tree (.nested object nestedParent name) = none)
    (parentAnswers : Answers builtins earlier nestedParent.path
      (registerClass nestedParent registry)) :
    Answers builtins earlier (.nested nestedParent.path name)
      (registerClass (.nested object nestedParent name) registry) := by
  rw [registerClass_nested unknown]
  unfold Answers
  rw [ClassPath.lineage, fitAll_append, List.reverse_append, List.append_assoc]
  by_cases parentFits : FitAll builtins earlier nestedParent.path.lineage
  · obtain ⟨registry₁, parent, registered₁⟩ := parentAnswers.1 parentFits
    have unknown₁ : registry₁.tree (.nested object nestedParent name) = none := by
      rw [(registerClass_stored parent).deeper _ (Nat.lt_succ_self _)]
      exact unknown
    have parentMember : nestedParent.path ∈ nestedParent.path.lineage.reverse ++ earlier :=
      List.mem_append_left _ (List.mem_reverse.mpr (self_mem_lineage _))
    have found : registry₁.decl nestedParent.path.identifier = some .recordType := by
      rw [registered₁.describes.ofType _ (List.mem_append_right _ (List.mem_map_of_mem parentMember)),
        ClassPath.kindOf_identifier (registered₁.avoids _ parentMember).2]
    have describes := registered₁.describes.known found
    have nesting : ∀ outer ∈ (ClassPath.nested nestedParent.path name).lineage,
        outer ≠ .nested nestedParent.path name →
          outer ∈ nestedParent.path.lineage.reverse ++ earlier := by
      intro outer membership different
      rcases List.mem_append.mp membership with inParent | own
      · exact List.mem_append_left _ (List.mem_reverse.mpr inParent)
      · exact absurd (List.mem_singleton.mp own) different
    rw [parent, Option.bind_some]
    refine ⟨?_, ?_⟩
    · rintro ⟨-, fits, -⟩
      exact registered₁.place_fits (.nested object nestedParent name) rfl describes found rfl
        unknown₁ nesting fits
    · intro unfit type registry' returned
      exact registered₁.place_not_fits (.nested object nestedParent name) rfl describes found rfl
        unknown₁ (fun fits => unfit ⟨parentFits, fits, trivial⟩) returned
  · refine ⟨fun fits => absurd fits.1 parentFits, ?_⟩
    intro _ type registry' returned
    obtain ⟨⟨parent, registry₁⟩, parentReturned, placed⟩ := Option.bind_eq_some_iff.mp returned
    have unknown₁ : registry₁.tree (.nested object nestedParent name) = none := by
      rw [(registerClass_stored parentReturned).deeper _ (Nat.lt_succ_self _)]
      exact unknown
    exact (parentAnswers.2 parentFits parent registry₁ parentReturned).keep
      (stored_place unknown₁ placed).keeps

theorem Registered.answers (registered : Registered builtins earlier registry)
    (ilClass : ILClass) :
    Answers builtins earlier ilClass.path (registerClass ilClass registry) := by
  induction ilClass with
  | outer object assemblyName nameSpace name =>
    cases unknown : registry.tree (.outer object assemblyName nameSpace name) with
    | some type => exact registered.answers_known unknown
    | none => exact registered.answers_outer unknown
  | nested object nestedParent name ih =>
    cases unknown : registry.tree (.nested object nestedParent name) with
    | some type => exact registered.answers_known unknown
    | none => exact answers_nested unknown ih

end Registered

structure Built (functions types named : List Identifier) (registry : Registry) : Prop where
  describes : Describes types (functions ++ named) registry.decl
  noTree : ∀ ilClass, registry.tree ilClass = none

section Built

variable {functions types named : List Identifier} {registry : Registry} {kind : Kind}
  {id : Identifier}

theorem Built.nameSpace (built : Built functions types named registry) (id : Identifier) :
    ∃ kind registry', declare .namespaceDecl id registry = (⟨kind, id⟩, registry') ∧
      registry'.decl id = some kind ∧ Built functions types (id :: named) registry' := by
  obtain ⟨kind, registry', declared, found, tree, describes⟩ :=
    declare_namespace built.describes id
  refine ⟨kind, registry', declared, found, describes.congr (fun _ => Iff.rfl) ?_, ?_⟩
  · intro other
    simp only [List.mem_append, List.mem_cons]
    tauto
  · intro ilClass
    rw [tree, built.noTree]

theorem Built.inner (built : Built functions types named registry)
    (known : registry.decl id = some kind) (notType : id ∉ types) (part inside : Identifier)
    (undotted : namespaceParts part = [part])
    (isInside : scilGetNestedIdentifier id part = inside) :
    ∃ kind' registry', scilRegisterNamespace ⟨kind, id⟩ part registry =
        some (⟨kind', inside⟩, registry') ∧
      registry'.decl inside = some kind' ∧ Built functions types (inside :: named) registry' := by
  have isDecl : kind.isDecl = true := (built.describes.isDecl_iff known).mpr notType
  obtain ⟨kind', registry', declared, found, built'⟩ := built.nameSpace inside
  refine ⟨kind', registry', ?_, found, built'⟩
  rw [scilRegisterNamespace_eq, undotted, enter, getNamespaceIdentifier, if_pos isDecl, isInside,
    declared]
  rfl

theorem Built.record (built : Built functions types named registry)
    (noDots : ∀ function ∈ functions, '.' ∉ function)
    (known : registry.decl id = some kind) (name inside : Identifier)
    (undotted : namePrefix name = [] ∧ className name = name)
    (isInside : scilGetNestedIdentifier id name = inside) (readable : id ∉ methodNames)
    (isRecord : kindOf inside = .recordType) (untaken : inside ∉ named) :
    ∃ registry', scilRegisterClass ⟨kind, id⟩ name registry =
        some (⟨.recordType, inside⟩, registry') ∧
      registry'.decl id = some kind ∧ Built functions (inside :: types) named registry' := by
  have notSpace : inside ∉ functions ++ named := by
    rw [List.mem_append]
    rintro (function | space)
    · exact noDots _ function (by simp [← isInside, scilGetNestedIdentifier])
    · exact untaken space
  have different : id ≠ inside := by
    intro same
    have lengths := congrArg List.length (isInside.trans same.symm)
    simp [scilGetNestedIdentifier] at lengths
  obtain ⟨registry', declared, tree, describes⟩ := declare_record built.describes
    (fun _ => isRecord) fun space => absurd space notSpace
  have isId := scilGetId_known built.describes ⟨kind, id⟩ known
  rw [if_neg fun method => readable method.2] at isId
  refine ⟨registry', ?_, ?_, describes, fun ilClass => by rw [tree, built.noTree]⟩
  · rw [← isRecord, ← declared, ← isInside]
    simp only [scilRegisterClass, undotted, scilRegisterNamespace_eq, namespaceParts, enter, isId,
      Option.bind_eq_bind, Option.bind_some, Option.pure_def]
  · have kept : (declare .recordType inside registry).2.decl id = some kind := by
      unfold declare
      split
      · exact known
      · exact (Function.update_of_ne different ..).trans known
    rwa [declared] at kept

theorem Built.methods (built : Built functions types named registry)
    (methods : List (Option Node × String))
    (areMethods : ∀ method ∈ methods, methodIdentifier method.1 method.2.toList ∈ methodNames)
    (untaken : ∀ id ∈ methodNames, id ∉ functions ++ named) :
    ∃ registry', registerMethods methods registry = some registry' ∧
      Built functions
        ((methods.map fun method => methodIdentifier method.1 method.2.toList).reverse ++ types)
        named registry' := by
  induction methods generalizing types registry with
  | nil => exact ⟨registry, rfl, built⟩
  | cons method rest ih =>
    have isMethod := areMethods method List.mem_cons_self
    obtain ⟨container, methodName⟩ := method
    generalize isId : methodIdentifier container methodName.toList = id at isMethod ⊢
    have notBasic : ∀ id ∈ methodNames, id ∉ basicNames := by decide
    have isList : kindOf id = .treeList := by
      rw [kindOf, if_neg (notBasic id isMethod), if_pos isMethod]
    obtain ⟨registry₁, registered, built₁⟩ : ∃ registry₁,
        scilRegisterMethodImpl container methodName.toList registry = some registry₁ ∧
          Built functions (id :: types) named registry₁ := by
      rw [scilRegisterMethodImpl, isId]
      by_cases type : id ∈ types
      · have found := built.describes.ofType id type
        rw [isList] at found
        simp only [found]
        exact ⟨registry, rfl, built.describes.again type, built.noTree⟩
      · have free := built.describes.free id type (untaken id isMethod)
        simp only [free]
        exact ⟨_, rfl, isList ▸ built.describes.addType id, built.noTree⟩
    obtain ⟨registry', others, built'⟩ := ih built₁ fun method inRest =>
      areMethods method (List.mem_cons_of_mem _ inRest)
    refine ⟨registry', ?_, ?_⟩
    · rw [registerMethods, registered]
      exact others
    · simpa [isId] using built'

end Built

end GccCil.Scil.TypeIdentity
