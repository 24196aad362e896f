import Mathlib.Logic.Function.Basic
import Mathlib.Data.UInt
import GccCil.Lib.Forest

/-!
# Classes of the runtime library

The tables that the compiler emits for each class and interface, and the
functions of `libruntime.c` that complete them when an object is allocated.
-/

namespace GccCil.Libruntime

/-- The part of the `MonoClass` records that the compiler fills in.  `height` says
that base interfaces, like parents, form no cycle. -/
structure Hierarchy (Class Interface : Type) extends Lib.Forest Class where
  interfaces : Class → List Interface
  /-- The `interface_id` emitted for a class, which nothing changes. -/
  interfaceId : Class → UInt16
  vtableSize : Class → Nat
  bases : Interface → List Interface
  methodCount : Interface → Nat
  height : Interface → Nat
  height_base : ∀ {interface base}, base ∈ bases interface → height base < height interface

variable {Class Interface : Type}

namespace Hierarchy

/-- The interfaces that an interface extends, each before its own bases. -/
def collectImplementedIfaces (hierarchy : Hierarchy Class Interface)
    (interface : Interface) : List Interface :=
  (hierarchy.bases interface).flatMap fun base =>
    base :: hierarchy.collectImplementedIfaces base
termination_by hierarchy.height interface
decreasing_by exact hierarchy.height_base ‹_›

/-- The interfaces that a class lists, each before its bases; an interface that is
reached twice stands there twice. -/
def getImplementedInterfaces (hierarchy : Hierarchy Class Interface)
    (klass : Class) : List Interface :=
  (hierarchy.interfaces klass).flatMap fun interface =>
    interface :: hierarchy.collectImplementedIfaces interface

def firstSlot (hierarchy : Hierarchy Class Interface) (klass : Class) : Int :=
  match hierarchy.parent klass with
  | some above => hierarchy.vtableSize above
  | none => 0

end Hierarchy

/-- A virtual method table: the one the compiler emits, or a copy made by
`create_runtime_vtable`.  A word in front of the copy is `none` as long as nothing
was written there, and otherwise the address of a slot of the same copy. -/
inductive VTable (Class : Type) where
  | compiled (klass : Class)
  | runtime (klass : Class) (maxInterfaceId : Nat) (interfaceWords : List (Option Int))
  deriving DecidableEq

def VTable.klass : VTable Class → Class
  | .compiled klass => klass
  | .runtime klass _ _ => klass

/-- The fields that the library changes, and its counter of interface ids. -/
structure Runtime (Class Interface : Type) where
  nextId : UInt16
  interfaceInited : Interface → Bool
  interfaceId : Interface → UInt16
  inited : Class → Bool
  maxInterfaceId : Class → Nat
  interfaceOffsets : Class → List Int
  domainVTable : Class → VTable Class

/-- The state of the program before the first allocation. -/
def Runtime.start (emittedId : Interface → UInt16) : Runtime Class Interface where
  nextId := 0
  interfaceInited _ := false
  interfaceId := emittedId
  inited _ := false
  maxInterfaceId _ := 0
  interfaceOffsets _ := []
  domainVTable := .compiled

section

variable [DecidableEq Class] [DecidableEq Interface]

/-- The counter is a `short` and the field an `unsigned short`: both wrap. -/
def initInterface (runtime : Runtime Class Interface) (interface : Interface) :
    Runtime Class Interface :=
  { runtime with
    nextId := runtime.nextId + 1
    interfaceId := Function.update runtime.interfaceId interface runtime.nextId
    interfaceInited := Function.update runtime.interfaceInited interface true }

/-- The first loop of `setup_interface_offsets`, with `max_iid`. -/
def initInterfaces : List Interface → Runtime Class Interface → Nat →
    Runtime Class Interface × Nat
  | [], runtime, maxIid => (runtime, maxIid)
  | interface :: rest, runtime, maxIid =>
    let runtime := if runtime.interfaceInited interface then runtime
      else initInterface runtime interface
    initInterfaces rest runtime (max maxIid (runtime.interfaceId interface).toNat)

/-- The second loop, with `cur_slot`: the slots of the interfaces that the class
lists. -/
def writeSlots (hierarchy : Hierarchy Class Interface) (interfaceId : Interface → UInt16) :
    List Interface → Int → List Int → List Int × Int
  | [], curSlot, offsets => (offsets, curSlot)
  | interface :: rest, curSlot, offsets =>
    writeSlots hierarchy interfaceId rest (curSlot + hierarchy.methodCount interface)
      (offsets.set (interfaceId interface).toNat curSlot)

/-- The third loop: what the parent lists and the class does not. -/
def inheritSlots (interfaceId : Interface → UInt16) (parentOffsets : List Int) :
    List Interface → List Int → List Int
  | [], offsets => offsets
  | interface :: rest, offsets =>
    let index := (interfaceId interface).toNat
    inheritSlots interfaceId parentOffsets rest
      (if offsets[index]? = some (-1) then offsets.set index (parentOffsets.getD index 0)
        else offsets)

/-- `max_iid` before the first loop. -/
def parentMaxIid (hierarchy : Hierarchy Class Interface) (runtime : Runtime Class Interface)
    (klass : Class) : Nat :=
  match hierarchy.parent klass with
  | some above => runtime.maxInterfaceId above
  | none => 0

def setupInterfaceOffsets (hierarchy : Hierarchy Class Interface)
    (runtime : Runtime Class Interface) (klass : Class) (curSlot : Int) :
    Runtime Class Interface × Int :=
  let ifaces := hierarchy.getImplementedInterfaces klass
  let (runtime, maxIid) := initInterfaces ifaces runtime (parentMaxIid hierarchy runtime klass)
  let maxIid := max maxIid (hierarchy.interfaceId klass).toNat
  let (offsets, curSlot) := writeSlots hierarchy runtime.interfaceId ifaces curSlot
    (List.replicate (maxIid + 1) (-1))
  let offsets := match hierarchy.parent klass with
    | some above => inheritSlots runtime.interfaceId (runtime.interfaceOffsets above)
        (hierarchy.getImplementedInterfaces above) offsets
    | none => offsets
  ({ runtime with
      maxInterfaceId := Function.update runtime.maxInterfaceId klass maxIid
      interfaceOffsets := Function.update runtime.interfaceOffsets klass offsets }, curSlot)

def initClass (hierarchy : Hierarchy Class Interface) (runtime : Runtime Class Interface)
    (klass : Class) : Runtime Class Interface :=
  let runtime := match _parent : hierarchy.parent klass with
    | some above =>
      if runtime.inited above then runtime else initClass hierarchy runtime above
    | none => runtime
  let runtime := (setupInterfaceOffsets hierarchy runtime klass (hierarchy.firstSlot klass)).1
  { runtime with inited := Function.update runtime.inited klass true }
termination_by hierarchy.depth klass
decreasing_by exact hierarchy.depth_parent ‹_›

/-- The words in front of the copy, the one of the highest id first.  `slot > -1`
decides whether a word is written. -/
def interfaceWords (maxInterfaceId : Nat) (offsets : List Int) : List (Option Int) :=
  (List.range (maxInterfaceId + 1)).map fun position =>
    match offsets[maxInterfaceId - position]? with
    | some slot => if slot > -1 then some slot else none
    | none => none

def createRuntimeVTable (runtime : Runtime Class Interface) (klass : Class) :
    Runtime Class Interface :=
  let maxInterfaceId := runtime.maxInterfaceId klass
  { runtime with
    domainVTable := Function.update runtime.domainVTable klass
      (.runtime (runtime.domainVTable klass).klass maxInterfaceId
        (interfaceWords maxInterfaceId (runtime.interfaceOffsets klass))) }

/-- An object is its class and its vtable pointer; its fields are zero. -/
structure MonoObject (Class : Type) where
  klass : Class
  vtable : VTable Class

def newobj (hierarchy : Hierarchy Class Interface) (runtime : Runtime Class Interface)
    (klass : Class) : Runtime Class Interface × MonoObject Class :=
  let runtime := if runtime.inited klass then runtime
    else createRuntimeVTable (initClass hierarchy runtime klass) klass
  (runtime, ⟨klass, runtime.domainVTable klass⟩)

/-- A sequence of allocations and the objects they return. -/
def allocate (hierarchy : Hierarchy Class Interface) :
    List Class → Runtime Class Interface → Runtime Class Interface × List (MonoObject Class)
  | [], runtime => (runtime, [])
  | klass :: rest, runtime =>
    let (runtime, object) := newobj hierarchy runtime klass
    let (runtime, objects) := allocate hierarchy rest runtime
    (runtime, object :: objects)

end

end GccCil.Libruntime
