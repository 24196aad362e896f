import Mathlib.Data.Finset.Card
import GccCil.Libruntime.Classes

/-!
# Interface tables

What `setup_interface_offsets` leaves in the table of a class, over every sequence
of allocations.  The slots of inherited interfaces are copied from the parent only
for the interfaces that the parent lists itself.
-/

namespace GccCil.Libruntime

variable {Class Interface : Type}

section Loops

variable (hierarchy : Hierarchy Class Interface) (interfaceId : Interface → UInt16)

@[simp]
theorem writeSlots_length (interfaces : List Interface) (curSlot : Int) (offsets : List Int) :
    (writeSlots hierarchy interfaceId interfaces curSlot offsets).1.length = offsets.length := by
  induction interfaces generalizing curSlot offsets with
  | nil => rfl
  | cons interface rest ih => simp [writeSlots, ih]

theorem writeSlots_other {interfaces : List Interface} {index : Nat}
    (other : ∀ interface ∈ interfaces, (interfaceId interface).toNat ≠ index)
    (curSlot : Int) (offsets : List Int) :
    (writeSlots hierarchy interfaceId interfaces curSlot offsets).1[index]? =
      offsets[index]? := by
  induction interfaces generalizing curSlot offsets with
  | nil => rfl
  | cons interface rest ih =>
    have different := other interface List.mem_cons_self
    rw [writeSlots, ih fun later membership =>
      other later (List.mem_cons_of_mem _ membership)]
    exact List.getElem?_set_ne different

theorem writeSlots_own {interfaces : List Interface} {interface : Interface}
    (listed : interface ∈ interfaces) (curSlot : Int) {offsets : List Int}
    (bound : (interfaceId interface).toNat < offsets.length) :
    ∃ before written after, interfaces = before ++ written :: after ∧
      interfaceId written = interfaceId interface ∧
      (writeSlots hierarchy interfaceId interfaces curSlot offsets).1[
        (interfaceId interface).toNat]? =
          some (curSlot + (before.map hierarchy.methodCount).sum) := by
  induction interfaces generalizing curSlot offsets interface with
  | nil => cases listed
  | cons first rest ih =>
    by_cases later : ∃ other ∈ rest, interfaceId other = interfaceId interface
    · obtain ⟨other, membership, sameId⟩ := later
      have inBounds : (interfaceId other).toNat <
          (offsets.set (interfaceId first).toNat curSlot).length := by
        rw [List.length_set, sameId]
        exact bound
      obtain ⟨before, written, after, split, writtenId, entry⟩ :=
        ih membership (curSlot + hierarchy.methodCount first) inBounds
      refine ⟨first :: before, written, after, by rw [split]; rfl, writtenId.trans sameId, ?_⟩
      rw [sameId] at entry
      rw [writeSlots, entry]
      simp [add_assoc]
    · have isFirst : interface = first := by
        rcases List.mem_cons.mp listed with equality | membership
        · exact equality
        · exact absurd ⟨interface, membership, rfl⟩ later
      subst isFirst
      refine ⟨[], interface, rest, rfl, rfl, ?_⟩
      rw [writeSlots, writeSlots_other]
      · simp [List.getElem?_set_self bound]
      · intro other membership sameIndex
        exact later ⟨other, membership, UInt16.toNat_inj.mp sameIndex⟩

@[simp]
theorem inheritSlots_length (parentOffsets : List Int) (interfaces : List Interface)
    (offsets : List Int) :
    (inheritSlots interfaceId parentOffsets interfaces offsets).length = offsets.length := by
  induction interfaces generalizing offsets with
  | nil => rfl
  | cons interface rest ih =>
    rw [inheritSlots, ih]
    split <;> simp

theorem inheritSlots_getElem? (parentOffsets : List Int) (interfaces : List Interface)
    (offsets : List Int) (index : Nat) :
    (inheritSlots interfaceId parentOffsets interfaces offsets)[index]? =
      if offsets[index]? = some (-1) ∧ ∃ interface ∈ interfaces,
          (interfaceId interface).toNat = index then
        some (parentOffsets.getD index 0)
      else offsets[index]? := by
  induction interfaces generalizing offsets with
  | nil => simp [inheritSlots]
  | cons interface rest ih =>
    rw [inheritSlots, ih]
    by_cases here : (interfaceId interface).toNat = index
    · subst here
      by_cases free : offsets[(interfaceId interface).toNat]? = some (-1)
      · obtain ⟨bound, -⟩ := List.getElem?_eq_some_iff.mp free
        rw [if_pos free, List.getElem?_set_self bound, ite_self,
          if_pos ⟨free, interface, List.mem_cons_self, rfl⟩]
      · simp [free]
    · by_cases free : offsets[(interfaceId interface).toNat]? = some (-1)
      · simp [free, here, List.getElem?_set_ne here]
      · simp [free, here]

end Loops

/-- What initialisation never takes back: ids of initialised interfaces and the
tables of initialised classes. -/
structure Runtime.Extends (before after : Runtime Class Interface) : Prop where
  interfaceInited : ∀ interface, before.interfaceInited interface = true →
    after.interfaceInited interface = true
  interfaceId : ∀ interface, before.interfaceInited interface = true →
    after.interfaceId interface = before.interfaceId interface
  inited : ∀ klass, before.inited klass = true → after.inited klass = true
  maxInterfaceId : ∀ klass, before.inited klass = true →
    after.maxInterfaceId klass = before.maxInterfaceId klass
  interfaceOffsets : ∀ klass, before.inited klass = true →
    after.interfaceOffsets klass = before.interfaceOffsets klass

namespace Runtime.Extends

variable {first second third : Runtime Class Interface}

theorem refl (runtime : Runtime Class Interface) : runtime.Extends runtime :=
  ⟨fun _ inited => inited, fun _ _ => rfl, fun _ inited => inited, fun _ _ => rfl,
    fun _ _ => rfl⟩

theorem trans (left : first.Extends second) (right : second.Extends third) :
    first.Extends third where
  interfaceInited interface inited :=
    right.interfaceInited interface (left.interfaceInited interface inited)
  interfaceId interface inited :=
    (right.interfaceId interface (left.interfaceInited interface inited)).trans
      (left.interfaceId interface inited)
  inited klass inited := right.inited klass (left.inited klass inited)
  maxInterfaceId klass inited :=
    (right.maxInterfaceId klass (left.inited klass inited)).trans
      (left.maxInterfaceId klass inited)
  interfaceOffsets klass inited :=
    (right.interfaceOffsets klass (left.inited klass inited)).trans
      (left.interfaceOffsets klass inited)

end Runtime.Extends

/-- The initialised interfaces in the order in which they got their ids. -/
structure Numbered (runtime : Runtime Class Interface) (order : List Interface) : Prop where
  nodup : order.Nodup
  inited_iff : ∀ interface, runtime.interfaceInited interface = true ↔ interface ∈ order
  nextId : runtime.nextId = UInt16.ofNat order.length
  interfaceId : ∀ {index interface}, order[index]? = some interface →
    runtime.interfaceId interface = UInt16.ofNat index

theorem Numbered.injective {runtime : Runtime Class Interface} {order : List Interface}
    (numbered : Numbered runtime order) (capacity : order.length ≤ 65536)
    {left right : Interface} (leftInited : runtime.interfaceInited left = true)
    (rightInited : runtime.interfaceInited right = true)
    (sameId : runtime.interfaceId left = runtime.interfaceId right) : left = right := by
  obtain ⟨leftIndex, leftBound, leftEntry⟩ :=
    List.mem_iff_getElem.mp ((numbered.inited_iff left).mp leftInited)
  obtain ⟨rightIndex, rightBound, rightEntry⟩ :=
    List.mem_iff_getElem.mp ((numbered.inited_iff right).mp rightInited)
  rw [numbered.interfaceId (List.getElem?_eq_some_iff.mpr ⟨leftBound, leftEntry⟩),
    numbered.interfaceId (List.getElem?_eq_some_iff.mpr ⟨rightBound, rightEntry⟩)] at sameId
  have sameIndex : leftIndex = rightIndex := by
    have residues := congrArg UInt16.toNat sameId
    simp only [UInt16.toNat_ofNat'] at residues
    omega
  subst sameIndex
  exact leftEntry.symm.trans rightEntry

section Initialisation

variable [DecidableEq Interface]

theorem initInterface_numbered {runtime : Runtime Class Interface} {order : List Interface}
    (numbered : Numbered runtime order) {interface : Interface}
    (fresh : runtime.interfaceInited interface = false) :
    Numbered (initInterface runtime interface) (order ++ [interface]) := by
  have notMember : interface ∉ order := by
    rw [← numbered.inited_iff, fresh]
    exact Bool.false_ne_true
  refine ⟨?_, ?_, ?_, ?_⟩
  · refine List.nodup_append.mpr ⟨numbered.nodup, List.nodup_singleton _, ?_⟩
    rintro other membership last isLast rfl
    exact notMember (List.mem_singleton.mp isLast ▸ membership)
  · intro other
    by_cases same : other = interface
    · simp [initInterface, same]
    · simp [initInterface, same, numbered.inited_iff]
  · simp [initInterface, numbered.nextId]
  · intro index other entry
    rw [List.getElem?_append] at entry
    split at entry
    case isTrue bound =>
      have different : other ≠ interface := by
        rintro rfl
        exact notMember (List.mem_of_getElem? entry)
      simpa [initInterface, different] using numbered.interfaceId entry
    case isFalse beyond =>
      obtain ⟨isZero, isLast⟩ : index - order.length = 0 ∧ interface = other := by
        cases position : index - order.length with
        | zero => simpa [position] using entry
        | succ more => simp [position] at entry
      have atEnd : index = order.length := by omega
      subst isLast atEnd
      simp [initInterface, numbered.nextId]

theorem initInterface_extends (runtime : Runtime Class Interface) {interface : Interface}
    (fresh : runtime.interfaceInited interface = false) :
    runtime.Extends (initInterface runtime interface) := by
  have different : ∀ other, runtime.interfaceInited other = true → other ≠ interface := by
    rintro other inited rfl
    exact Bool.false_ne_true (fresh.symm.trans inited)
  refine ⟨fun other inited => ?_, fun other inited => ?_, fun _ inited => inited,
    fun _ _ => rfl, fun _ _ => rfl⟩
  · simp [initInterface, different other inited, inited]
  · simp [initInterface, different other inited]

theorem initInterfaces_classes (interfaces : List Interface)
    (runtime : Runtime Class Interface) (maxIid : Nat) :
    let after := (initInterfaces interfaces runtime maxIid).1
    after.inited = runtime.inited ∧ after.maxInterfaceId = runtime.maxInterfaceId ∧
      after.interfaceOffsets = runtime.interfaceOffsets ∧
      after.domainVTable = runtime.domainVTable := by
  induction interfaces generalizing runtime maxIid with
  | nil => exact ⟨rfl, rfl, rfl, rfl⟩
  | cons interface rest ih =>
    have step := ih (if runtime.interfaceInited interface then runtime
      else initInterface runtime interface)
    split at step <;> rename_i isInited
    · simpa [initInterfaces, isInited] using step _
    · simpa [initInterfaces, isInited, initInterface] using step _

/-- The first loop initialises its interfaces and bounds their ids. -/
structure InterfacesInited (interfaces : List Interface) (maxIid : Nat)
    (order : List Interface) (before : Runtime Class Interface)
    (after : Runtime Class Interface × Nat) (new : List Interface) : Prop where
  numbered : Numbered after.1 (order ++ new)
  new_subset : ∀ interface ∈ new, interface ∈ interfaces
  extends_ : before.Extends after.1
  inited : ∀ interface ∈ interfaces, after.1.interfaceInited interface = true
  maxIid_le : maxIid ≤ after.2
  bound : ∀ interface ∈ interfaces, (after.1.interfaceId interface).toNat ≤ after.2

theorem initInterfaces_spec (interfaces : List Interface) {runtime : Runtime Class Interface}
    {order : List Interface} (numbered : Numbered runtime order) (maxIid : Nat) :
    ∃ new, InterfacesInited interfaces maxIid order runtime
      (initInterfaces interfaces runtime maxIid) new := by
  induction interfaces generalizing runtime order maxIid with
  | nil =>
    refine ⟨[], by simpa [initInterfaces] using numbered, by simp, .refl _, by simp,
      Nat.le_refl _, by simp⟩
  | cons interface rest ih =>
    obtain ⟨here, next, nextNumbered, hereSubset, nextExtends, nextInited, nextEq⟩ :
        ∃ here next, Numbered next (order ++ here) ∧ (∀ other ∈ here, other = interface) ∧
          runtime.Extends next ∧ next.interfaceInited interface = true ∧
          next = if runtime.interfaceInited interface then runtime
            else initInterface runtime interface := by
      by_cases isInited : runtime.interfaceInited interface = true
      · exact ⟨[], runtime, by simpa using numbered, by simp, .refl _, isInited,
          by simp [isInited]⟩
      · have fresh := Bool.eq_false_iff.mpr isInited
        exact ⟨[interface], initInterface runtime interface,
          initInterface_numbered numbered fresh, by simp,
          initInterface_extends runtime fresh, by simp [initInterface], by simp [fresh]⟩
    obtain ⟨new, spec⟩ := ih nextNumbered
      (max maxIid (next.interfaceId interface).toNat)
    rw [initInterfaces, ← nextEq]
    refine ⟨here ++ new, by simpa using spec.numbered, ?_, nextExtends.trans spec.extends_,
      ?_, (Nat.le_max_left _ _).trans spec.maxIid_le, ?_⟩
    · intro other membership
      rcases List.mem_append.mp membership with inHere | inNew
      · exact hereSubset other inHere ▸ List.mem_cons_self
      · exact List.mem_cons_of_mem _ (spec.new_subset other inNew)
    · intro other membership
      rcases List.mem_cons.mp membership with rfl | inRest
      · exact spec.extends_.interfaceInited _ nextInited
      · exact spec.inited other inRest
    · intro other membership
      rcases List.mem_cons.mp membership with rfl | inRest
      · rw [spec.extends_.interfaceId _ nextInited]
        exact (Nat.le_max_right _ _).trans spec.maxIid_le
      · exact spec.bound other inRest

end Initialisation

/-- A slot at which the methods of an interface start among those of the class. -/
def Hierarchy.StartsAt (hierarchy : Hierarchy Class Interface) (klass : Class)
    (interface : Interface) (slot : Int) : Prop :=
  ∃ before after, hierarchy.getImplementedInterfaces klass = before ++ interface :: after ∧
    slot = hierarchy.firstSlot klass + (before.map hierarchy.methodCount).sum

theorem Hierarchy.firstSlot_nonneg (hierarchy : Hierarchy Class Interface) (klass : Class) :
    0 ≤ hierarchy.firstSlot klass := by
  unfold firstSlot
  split <;> omega

theorem Hierarchy.StartsAt.nonneg {hierarchy : Hierarchy Class Interface} {klass : Class}
    {interface : Interface} {slot : Int} (starts : hierarchy.StartsAt klass interface slot) :
    0 ≤ slot := by
  obtain ⟨before, after, -, rfl⟩ := starts
  have first := hierarchy.firstSlot_nonneg klass
  omega

/-- The table of a class, without assuming that ids are distinct: interfaces that
share an id share an entry. -/
structure TableOf (hierarchy : Hierarchy Class Interface) (runtime : Runtime Class Interface)
    (klass : Class) : Prop where
  parentInited : ∀ above, hierarchy.parent klass = some above → runtime.inited above = true
  interfacesInited : ∀ interface ∈ hierarchy.getImplementedInterfaces klass,
    runtime.interfaceInited interface = true
  length : (runtime.interfaceOffsets klass).length = runtime.maxInterfaceId klass + 1
  bound : ∀ interface ∈ hierarchy.getImplementedInterfaces klass,
    (runtime.interfaceId interface).toNat ≤ runtime.maxInterfaceId klass
  own : ∀ interface ∈ hierarchy.getImplementedInterfaces klass, ∃ written slot,
    written ∈ hierarchy.getImplementedInterfaces klass ∧
      runtime.interfaceId written = runtime.interfaceId interface ∧
      hierarchy.StartsAt klass written slot ∧
      (runtime.interfaceOffsets klass)[(runtime.interfaceId interface).toNat]? = some slot
  inherited : ∀ above, hierarchy.parent klass = some above →
    ∀ interface ∈ hierarchy.getImplementedInterfaces above,
      (∀ other ∈ hierarchy.getImplementedInterfaces klass,
        runtime.interfaceId other ≠ runtime.interfaceId interface) →
      (runtime.interfaceOffsets klass)[(runtime.interfaceId interface).toNat]? =
        (runtime.interfaceOffsets above)[(runtime.interfaceId interface).toNat]?
  free : ∀ index,
    (∀ interface ∈ hierarchy.getImplementedInterfaces klass,
      (runtime.interfaceId interface).toNat ≠ index) →
    (∀ above, hierarchy.parent klass = some above →
      ∀ interface ∈ hierarchy.getImplementedInterfaces above,
        (runtime.interfaceId interface).toNat ≠ index) →
    ∀ entry, (runtime.interfaceOffsets klass)[index]? = some entry → entry = -1

/-- The interfaces have ids and the initialised classes their tables. -/
structure Invariant (hierarchy : Hierarchy Class Interface) (runtime : Runtime Class Interface)
    (order : List Interface) : Prop where
  numbered : Numbered runtime order
  tables : ∀ klass, runtime.inited klass = true → TableOf hierarchy runtime klass

theorem start_invariant (hierarchy : Hierarchy Class Interface)
    (emittedId : Interface → UInt16) :
    Invariant hierarchy (Runtime.start emittedId) [] :=
  ⟨⟨List.nodup_nil, by simp [Runtime.start], rfl, by simp⟩, by simp [Runtime.start]⟩

theorem Invariant.withVTables {hierarchy : Hierarchy Class Interface}
    {runtime : Runtime Class Interface} {order : List Interface}
    (invariant : Invariant hierarchy runtime order) (domainVTable : Class → VTable Class) :
    Invariant hierarchy { runtime with domainVTable := domainVTable } order := by
  obtain ⟨⟨nodup, inited, nextId, ids⟩, tables⟩ := invariant
  refine ⟨⟨nodup, inited, nextId, ids⟩, fun klass inited => ?_⟩
  obtain ⟨parentInited, interfacesInited, length, bound, own, inherited, free⟩ :=
    tables klass inited
  exact ⟨parentInited, interfacesInited, length, bound, own, inherited, free⟩

theorem TableOf.extend {hierarchy : Hierarchy Class Interface}
    {before after : Runtime Class Interface} (extends_ : before.Extends after)
    (tables : ∀ klass, before.inited klass = true → TableOf hierarchy before klass)
    {klass : Class} (inited : before.inited klass = true) : TableOf hierarchy after klass := by
  have table := tables klass inited
  have sameId : ∀ interface ∈ hierarchy.getImplementedInterfaces klass,
      after.interfaceId interface = before.interfaceId interface := fun interface listed =>
    extends_.interfaceId interface (table.interfacesInited interface listed)
  have sameParentId : ∀ above, hierarchy.parent klass = some above →
      ∀ interface ∈ hierarchy.getImplementedInterfaces above,
        after.interfaceId interface = before.interfaceId interface :=
    fun above parent interface listed => extends_.interfaceId interface
      ((tables above (table.parentInited above parent)).interfacesInited interface listed)
  have sameOffsets := extends_.interfaceOffsets klass inited
  have sameMax := extends_.maxInterfaceId klass inited
  refine ⟨fun above parent => extends_.inited above (table.parentInited above parent),
    fun interface listed => extends_.interfaceInited interface
      (table.interfacesInited interface listed), ?_, ?_, ?_, ?_, ?_⟩
  · rw [sameOffsets, sameMax]
    exact table.length
  · intro interface listed
    rw [sameId interface listed, sameMax]
    exact table.bound interface listed
  · intro interface listed
    obtain ⟨written, slot, writtenListed, writtenId, starts, entry⟩ :=
      table.own interface listed
    refine ⟨written, slot, writtenListed, ?_, starts, ?_⟩
    · rw [sameId written writtenListed, sameId interface listed, writtenId]
    · rw [sameOffsets, sameId interface listed, entry]
  · intro above parent interface listed notOwn
    have idAbove := sameParentId above parent interface listed
    rw [sameOffsets, extends_.interfaceOffsets above (table.parentInited above parent), idAbove]
    refine table.inherited above parent interface listed fun other otherListed => ?_
    rw [← sameId other otherListed, ← idAbove]
    exact notOwn other otherListed
  · intro index notOwn notAbove
    rw [sameOffsets]
    refine table.free index (fun interface listed => ?_) fun above parent interface listed => ?_
    · rw [← sameId interface listed]
      exact notOwn interface listed
    · rw [← sameParentId above parent interface listed]
      exact notAbove above parent interface listed

theorem Invariant.lineage_inited {hierarchy : Hierarchy Class Interface}
    {runtime : Runtime Class Interface} {order : List Interface}
    (invariant : Invariant hierarchy runtime order) {klass ancestor : Class}
    (inited : runtime.inited klass = true) (membership : ancestor ∈ hierarchy.lineage klass) :
    runtime.inited ancestor = true :=
  hierarchy.forall_lineage (motive := fun klass => runtime.inited klass = true)
    (fun klass above parent inited => (invariant.tables klass inited).parentInited above parent)
    inited membership

theorem Invariant.listed_inited {hierarchy : Hierarchy Class Interface}
    {runtime : Runtime Class Interface} {order : List Interface}
    (invariant : Invariant hierarchy runtime order) {klass ancestor : Class}
    (inited : runtime.inited klass = true)
    (membership : ancestor ∈ hierarchy.lineage klass) {interface : Interface}
    (listed : interface ∈ hierarchy.getImplementedInterfaces ancestor) :
    runtime.interfaceInited interface = true :=
  (invariant.tables ancestor (invariant.lineage_inited inited membership)).interfacesInited
    interface listed

section

variable {hierarchy : Hierarchy Class Interface} {klass : Class}

/-- The table that the second and the third loop leave. -/
def offsetsAfterLoops (hierarchy : Hierarchy Class Interface)
    (interfaceId : Interface → UInt16) (interfaceOffsets : Class → List Int) (klass : Class)
    (maxIid : Nat) : List Int :=
  let own := (writeSlots hierarchy interfaceId (hierarchy.getImplementedInterfaces klass)
    (hierarchy.firstSlot klass) (List.replicate (maxIid + 1) (-1))).1
  match hierarchy.parent klass with
  | some above => inheritSlots interfaceId (interfaceOffsets above)
      (hierarchy.getImplementedInterfaces above) own
  | none => own

@[simp]
theorem offsetsAfterLoops_length (interfaceId : Interface → UInt16)
    (interfaceOffsets : Class → List Int) (maxIid : Nat) :
    (offsetsAfterLoops hierarchy interfaceId interfaceOffsets klass maxIid).length =
      maxIid + 1 := by
  unfold offsetsAfterLoops
  split <;> simp

theorem offsetsAfterLoops_own (interfaceId : Interface → UInt16)
    (interfaceOffsets : Class → List Int) {maxIid : Nat} {interface : Interface}
    (listed : interface ∈ hierarchy.getImplementedInterfaces klass)
    (bound : (interfaceId interface).toNat ≤ maxIid) :
    ∃ written slot, written ∈ hierarchy.getImplementedInterfaces klass ∧
      interfaceId written = interfaceId interface ∧ hierarchy.StartsAt klass written slot ∧
      (offsetsAfterLoops hierarchy interfaceId interfaceOffsets klass maxIid)[
        (interfaceId interface).toNat]? = some slot := by
  have inBounds : (interfaceId interface).toNat <
      (List.replicate (maxIid + 1) (-1 : Int)).length := by
    simpa using Nat.lt_succ_of_le bound
  obtain ⟨before, written, after, split, sameId, entry⟩ :=
    writeSlots_own hierarchy interfaceId listed (hierarchy.firstSlot klass) inBounds
  have starts : hierarchy.StartsAt klass written
      (hierarchy.firstSlot klass + (before.map hierarchy.methodCount).sum) :=
    ⟨before, after, split, rfl⟩
  refine ⟨written, _, split ▸ List.mem_append_right _ List.mem_cons_self, sameId, starts, ?_⟩
  unfold offsetsAfterLoops
  split
  · have taken : ¬ some (hierarchy.firstSlot klass +
        ((before.map hierarchy.methodCount).sum : Int)) = some (-1) := by
      have := starts.nonneg
      rw [Option.some.injEq]
      omega
    rw [inheritSlots_getElem?, entry, if_neg fun both => taken both.1]
  · exact entry

theorem offsetsAfterLoops_inherited {interfaceId : Interface → UInt16}
    {interfaceOffsets : Class → List Int} {maxIid : Nat} {above : Class}
    (parent : hierarchy.parent klass = some above) {interface : Interface}
    (listed : interface ∈ hierarchy.getImplementedInterfaces above)
    (notOwn : ∀ other ∈ hierarchy.getImplementedInterfaces klass,
      interfaceId other ≠ interfaceId interface)
    (bound : (interfaceId interface).toNat ≤ maxIid)
    (parentBound : (interfaceId interface).toNat < (interfaceOffsets above).length) :
    (offsetsAfterLoops hierarchy interfaceId interfaceOffsets klass maxIid)[
      (interfaceId interface).toNat]? =
        (interfaceOffsets above)[(interfaceId interface).toNat]? := by
  have untouched : (writeSlots hierarchy interfaceId
      (hierarchy.getImplementedInterfaces klass) (hierarchy.firstSlot klass)
      (List.replicate (maxIid + 1) (-1))).1[(interfaceId interface).toNat]? = some (-1) := by
    rw [writeSlots_other]
    · simpa [List.getElem?_replicate] using Nat.lt_succ_of_le bound
    · intro other otherListed sameIndex
      exact notOwn other otherListed (UInt16.toNat_inj.mp sameIndex)
  simp only [offsetsAfterLoops, parent]
  rw [inheritSlots_getElem?, if_pos ⟨untouched, interface, listed, rfl⟩]
  simp [parentBound]

theorem offsetsAfterLoops_free {interfaceId : Interface → UInt16}
    {interfaceOffsets : Class → List Int} {maxIid index : Nat}
    (notOwn : ∀ interface ∈ hierarchy.getImplementedInterfaces klass,
      (interfaceId interface).toNat ≠ index)
    (notAbove : ∀ above, hierarchy.parent klass = some above →
      ∀ interface ∈ hierarchy.getImplementedInterfaces above,
        (interfaceId interface).toNat ≠ index)
    {entry : Int} (found : (offsetsAfterLoops hierarchy interfaceId interfaceOffsets klass
      maxIid)[index]? = some entry) : entry = -1 := by
  have base : (offsetsAfterLoops hierarchy interfaceId interfaceOffsets klass maxIid)[index]? =
      (List.replicate (maxIid + 1) (-1 : Int))[index]? := by
    unfold offsetsAfterLoops
    split
    case h_1 above parent =>
      rw [inheritSlots_getElem?, if_neg, writeSlots_other _ _ notOwn]
      rintro ⟨-, interface, listed, sameIndex⟩
      exact notAbove above parent interface listed sameIndex
    case h_2 => exact writeSlots_other _ _ notOwn _ _
  rw [base, List.getElem?_replicate] at found
  split at found
  · exact (Option.some.inj found).symm
  · cases found

end

section Setup

variable [DecidableEq Class] [DecidableEq Interface]

variable {hierarchy : Hierarchy Class Interface} {runtime : Runtime Class Interface}
  {order : List Interface} {klass : Class}

/-- `init_class` after the ancestors. -/
def setupClass (hierarchy : Hierarchy Class Interface) (runtime : Runtime Class Interface)
    (klass : Class) : Runtime Class Interface :=
  let after := (setupInterfaceOffsets hierarchy runtime klass (hierarchy.firstSlot klass)).1
  { after with inited := Function.update after.inited klass true }

theorem setupClass_eq (hierarchy : Hierarchy Class Interface)
    (runtime : Runtime Class Interface) (klass : Class) :
    let loop := initInterfaces (hierarchy.getImplementedInterfaces klass) runtime
      (parentMaxIid hierarchy runtime klass)
    let maxIid := max loop.2 (hierarchy.interfaceId klass).toNat
    setupClass hierarchy runtime klass =
      { loop.1 with
        maxInterfaceId := Function.update runtime.maxInterfaceId klass maxIid
        interfaceOffsets := Function.update runtime.interfaceOffsets klass
          (offsetsAfterLoops hierarchy loop.1.interfaceId runtime.interfaceOffsets klass maxIid)
        inited := Function.update runtime.inited klass true } := by
  obtain ⟨sameInited, sameMax, sameOffsets, -⟩ := initInterfaces_classes
    (hierarchy.getImplementedInterfaces klass) runtime (parentMaxIid hierarchy runtime klass)
  rw [← sameInited, ← sameMax, ← sameOffsets]
  rfl

theorem setupClass_spec (invariant : Invariant hierarchy runtime order)
    (fresh : runtime.inited klass = false)
    (parentInited : ∀ above, hierarchy.parent klass = some above →
      runtime.inited above = true) :
    ∃ new, (∀ interface ∈ new, interface ∈ hierarchy.getImplementedInterfaces klass) ∧
      Invariant hierarchy (setupClass hierarchy runtime klass) (order ++ new) ∧
      runtime.Extends (setupClass hierarchy runtime klass) ∧
      (setupClass hierarchy runtime klass).inited =
        Function.update runtime.inited klass true ∧
      (setupClass hierarchy runtime klass).domainVTable = runtime.domainVTable := by
  have equation := setupClass_eq hierarchy runtime klass
  obtain ⟨new, spec⟩ := initInterfaces_spec (hierarchy.getImplementedInterfaces klass)
    invariant.numbered (parentMaxIid hierarchy runtime klass)
  obtain ⟨-, -, -, sameVTable⟩ := initInterfaces_classes
    (hierarchy.getImplementedInterfaces klass) runtime (parentMaxIid hierarchy runtime klass)
  generalize initInterfaces (hierarchy.getImplementedInterfaces klass) runtime
    (parentMaxIid hierarchy runtime klass) = loop at spec sameVTable equation
  have loopBound := Nat.le_max_left loop.2 (hierarchy.interfaceId klass).toNat
  dsimp only at equation
  generalize max loop.2 (hierarchy.interfaceId klass).toNat = maxIid at equation loopBound
  generalize setupClass hierarchy runtime klass = after at equation
  subst equation
  have other : ∀ ancestor, runtime.inited ancestor = true → ancestor ≠ klass := by
    rintro ancestor inited rfl
    exact Bool.false_ne_true (fresh.symm.trans inited)
  have extended : runtime.Extends { loop.1 with
      maxInterfaceId := Function.update runtime.maxInterfaceId klass maxIid
      interfaceOffsets := Function.update runtime.interfaceOffsets klass
        (offsetsAfterLoops hierarchy loop.1.interfaceId runtime.interfaceOffsets klass maxIid)
      inited := Function.update runtime.inited klass true } := by
    refine ⟨spec.extends_.interfaceInited, spec.extends_.interfaceId, fun ancestor inited => ?_,
      fun ancestor inited => ?_, fun ancestor inited => ?_⟩
    · simp [other ancestor inited, inited]
    · simp [other ancestor inited]
    · simp [other ancestor inited]
  refine ⟨new, spec.new_subset, ⟨⟨spec.numbered.nodup, spec.numbered.inited_iff,
    spec.numbered.nextId, spec.numbered.interfaceId⟩, fun ancestor inited => ?_⟩, extended, rfl,
    sameVTable⟩
  by_cases isKlass : ancestor = klass
  · subst isKlass
    refine ⟨fun above parent => ?_, spec.inited, by simp, fun interface listed => ?_,
      fun interface listed => ?_, fun above parent interface listed notOwn => ?_,
      fun index notOwn notAbove entry found => ?_⟩
    · simp [other above (parentInited above parent), parentInited above parent]
    · simpa using (spec.bound interface listed).trans loopBound
    · simpa using offsetsAfterLoops_own loop.1.interfaceId runtime.interfaceOffsets listed
        ((spec.bound interface listed).trans loopBound)
    · have aboveInited := parentInited above parent
      have aboveTable := invariant.tables above aboveInited
      have sameId := spec.extends_.interfaceId interface
        (aboveTable.interfacesInited interface listed)
      have bound := sameId ▸ aboveTable.bound interface listed
      have parentMax : parentMaxIid hierarchy runtime ancestor = runtime.maxInterfaceId above := by
        simp [parentMaxIid, parent]
      have maxIid_le := spec.maxIid_le
      have parentLength := aboveTable.length
      simp only [Function.update_self, Function.update_of_ne (other above aboveInited)]
      exact offsetsAfterLoops_inherited parent listed notOwn (by omega) (by omega)
    · simp only [Function.update_self] at found
      exact offsetsAfterLoops_free notOwn notAbove found
  · exact TableOf.extend extended invariant.tables (by simpa [isKlass] using inited)

theorem initClass_eq (hierarchy : Hierarchy Class Interface)
    (runtime : Runtime Class Interface) (klass : Class) :
    initClass hierarchy runtime klass = setupClass hierarchy
      (match hierarchy.parent klass with
        | some above =>
          if runtime.inited above then runtime else initClass hierarchy runtime above
        | none => runtime) klass := by
  rw [initClass]
  cases hierarchy.parent klass <;> simp [setupClass]

/-- What `init_class` does to a class and its ancestors. -/
structure ClassInited (hierarchy : Hierarchy Class Interface)
    (before after : Runtime Class Interface) (order : List Interface) (klass : Class)
    (new : List Interface) : Prop where
  invariant : Invariant hierarchy after (order ++ new)
  new_subset : ∀ interface ∈ new, ∃ ancestor ∈ hierarchy.lineage klass,
    interface ∈ hierarchy.getImplementedInterfaces ancestor
  extends_ : before.Extends after
  inited_iff : ∀ other, after.inited other = true ↔
    before.inited other = true ∨ other ∈ hierarchy.lineage klass

theorem initClass_spec (invariant : Invariant hierarchy runtime order)
    (fresh : runtime.inited klass = false) :
    (∃ new, ClassInited hierarchy runtime (initClass hierarchy runtime klass) order klass new) ∧
      (initClass hierarchy runtime klass).domainVTable = runtime.domainVTable := by
  induction klass using hierarchy.parent_induction with
  | step klass ih =>
  rw [initClass_eq]
  cases parent : hierarchy.parent klass with
  | none =>
    obtain ⟨new, newSubset, setUp, extended, inited, vtable⟩ :=
      setupClass_spec invariant fresh (by simp [parent])
    refine ⟨⟨new, setUp, fun interface membership => ?_, extended, fun other => ?_⟩, vtable⟩
    · exact ⟨klass, hierarchy.self_mem_lineage klass, newSubset interface membership⟩
    · rw [inited, hierarchy.lineage_of_none parent]
      by_cases same : other = klass <;> simp [same]
  | some above =>
    by_cases aboveInited : runtime.inited above = true
    · obtain ⟨new, newSubset, setUp, extended, inited, vtable⟩ :=
        setupClass_spec invariant fresh (by simp [parent, aboveInited])
      simp only [aboveInited, if_true]
      refine ⟨⟨new, setUp, fun interface membership => ?_, extended, fun other => ?_⟩, vtable⟩
      · exact ⟨klass, hierarchy.self_mem_lineage klass, newSubset interface membership⟩
      · rw [inited, hierarchy.lineage_of_parent parent]
        by_cases same : other = klass
        · simp [same]
        · simp only [Function.update_of_ne same, List.mem_cons, same, false_or, iff_self_or]
          exact invariant.lineage_inited aboveInited
    · obtain ⟨⟨first, aboveSpec⟩, aboveVTable⟩ := ih above parent
        (Bool.eq_false_iff.mpr aboveInited)
      have stillFresh : (initClass hierarchy runtime above).inited klass = false := by
        rw [Bool.eq_false_iff, Ne, aboveSpec.inited_iff, fresh, or_iff_right Bool.false_ne_true]
        exact hierarchy.not_mem_lineage_parent parent
      obtain ⟨new, newSubset, setUp, extended, inited, vtable⟩ :=
        setupClass_spec aboveSpec.invariant stillFresh (by
          rintro _ parent'
          cases parent.symm.trans parent'
          exact (aboveSpec.inited_iff above).mpr (.inr (hierarchy.self_mem_lineage above)))
      simp only [aboveInited, if_false, Bool.false_eq_true]
      refine ⟨⟨first ++ new, by rwa [← List.append_assoc], fun interface membership => ?_,
        aboveSpec.extends_.trans extended, fun other => ?_⟩, vtable.trans aboveVTable⟩
      · rw [hierarchy.lineage_of_parent parent]
        rcases List.mem_append.mp membership with inFirst | inNew
        · obtain ⟨ancestor, inLineage, listed⟩ := aboveSpec.new_subset interface inFirst
          exact ⟨ancestor, List.mem_cons_of_mem _ inLineage, listed⟩
        · exact ⟨klass, List.mem_cons_self, newSubset interface inNew⟩
      · rw [inited, hierarchy.lineage_of_parent parent]
        by_cases same : other = klass
        · simp [same]
        · simp [same, aboveSpec.inited_iff]

theorem newobj_spec (invariant : Invariant hierarchy runtime order) (klass : Class) :
    ∃ new, ClassInited hierarchy runtime (newobj hierarchy runtime klass).1 order klass new := by
  by_cases inited : runtime.inited klass = true
  · refine ⟨[], ?_⟩
    simp only [newobj, inited, if_true]
    refine ⟨by rwa [List.append_nil], by simp, .refl _, fun other => ?_⟩
    rw [iff_self_or]
    exact invariant.lineage_inited inited
  · obtain ⟨⟨new, spec⟩, -⟩ := initClass_spec invariant (Bool.eq_false_iff.mpr inited)
    simp only [newobj, inited, Bool.false_eq_true, if_false]
    exact ⟨new, spec.invariant.withVTables _, spec.new_subset,
      ⟨spec.extends_.interfaceInited, spec.extends_.interfaceId, spec.extends_.inited,
        spec.extends_.maxInterfaceId, spec.extends_.interfaceOffsets⟩, spec.inited_iff⟩

structure AllAllocated (hierarchy : Hierarchy Class Interface)
    (before after : Runtime Class Interface) (order : List Interface) (calls : List Class)
    (new : List Interface) : Prop where
  invariant : Invariant hierarchy after (order ++ new)
  new_subset : ∀ interface ∈ new, ∃ klass ∈ calls, ∃ ancestor ∈ hierarchy.lineage klass,
    interface ∈ hierarchy.getImplementedInterfaces ancestor
  extends_ : before.Extends after
  inited_iff : ∀ other, after.inited other = true ↔
    before.inited other = true ∨ ∃ klass ∈ calls, other ∈ hierarchy.lineage klass

theorem allocate_spec (invariant : Invariant hierarchy runtime order) (calls : List Class) :
    ∃ new, AllAllocated hierarchy runtime (allocate hierarchy calls runtime).1 order calls
      new := by
  induction calls generalizing runtime order with
  | nil =>
    refine ⟨[], ?_⟩
    simp only [allocate]
    exact ⟨by rwa [List.append_nil], by simp, .refl _, by simp⟩
  | cons klass rest ih =>
    obtain ⟨first, step⟩ := newobj_spec invariant klass
    obtain ⟨later, run⟩ := ih step.invariant
    simp only [allocate]
    refine ⟨first ++ later, by simpa using run.invariant, fun interface membership => ?_,
      step.extends_.trans run.extends_, fun other => ?_⟩
    · rcases List.mem_append.mp membership with inFirst | inLater
      · exact ⟨klass, List.mem_cons_self, step.new_subset interface inFirst⟩
      · obtain ⟨other, called, above⟩ := run.new_subset interface inLater
        exact ⟨other, List.mem_cons_of_mem _ called, above⟩
    · rw [run.inited_iff, step.inited_iff]
      simp [or_assoc]

end Setup

section Distinct

variable {hierarchy : Hierarchy Class Interface} {runtime : Runtime Class Interface}
  {order : List Interface} {klass : Class}
  (invariant : Invariant hierarchy runtime order) (capacity : order.length ≤ 65536)
  (inited : runtime.inited klass = true)

include invariant capacity inited

theorem entry_own {interface : Interface}
    (listed : interface ∈ hierarchy.getImplementedInterfaces klass) :
    ∃ slot, hierarchy.StartsAt klass interface slot ∧
      (runtime.interfaceOffsets klass)[(runtime.interfaceId interface).toNat]? = some slot := by
  have table := invariant.tables klass inited
  obtain ⟨written, slot, writtenListed, sameId, starts, entry⟩ := table.own interface listed
  have same : written = interface := invariant.numbered.injective capacity
    (table.interfacesInited written writtenListed) (table.interfacesInited interface listed)
    sameId
  exact ⟨slot, same ▸ starts, entry⟩

theorem entry_inherited {above : Class} (parent : hierarchy.parent klass = some above)
    {interface : Interface} (listed : interface ∈ hierarchy.getImplementedInterfaces above)
    (notOwn : interface ∉ hierarchy.getImplementedInterfaces klass) :
    ∃ slot, hierarchy.StartsAt above interface slot ∧
      (runtime.interfaceOffsets klass)[(runtime.interfaceId interface).toNat]? = some slot := by
  have table := invariant.tables klass inited
  have aboveInited := table.parentInited above parent
  rw [table.inherited above parent interface listed fun other otherListed sameId => notOwn ?_]
  · exact entry_own invariant capacity aboveInited listed
  · have same := invariant.numbered.injective capacity
      (table.interfacesInited other otherListed)
      ((invariant.tables above aboveInited).interfacesInited interface listed) sameId
    exact same ▸ otherListed

theorem entry_free {interface : Interface}
    (interfaceInited : runtime.interfaceInited interface = true)
    (notOwn : interface ∉ hierarchy.getImplementedInterfaces klass)
    (notAbove : ∀ above, hierarchy.parent klass = some above →
      interface ∉ hierarchy.getImplementedInterfaces above) {entry : Int}
    (found : (runtime.interfaceOffsets klass)[(runtime.interfaceId interface).toNat]? =
      some entry) : entry = -1 := by
  have table := invariant.tables klass inited
  refine table.free _ (fun other listed sameIndex => notOwn ?_)
    (fun above parent other listed sameIndex => notAbove above parent ?_) entry found
  · have same := invariant.numbered.injective capacity (table.interfacesInited other listed)
      interfaceInited (UInt16.toNat_inj.mp sameIndex)
    exact same ▸ listed
  · have aboveTable := invariant.tables above (table.parentInited above parent)
    have same := invariant.numbered.injective capacity
      (aboveTable.interfacesInited other listed) interfaceInited
      (UInt16.toNat_inj.mp sameIndex)
    exact same ▸ listed

end Distinct

section Tables

variable [DecidableEq Interface]

/-- The interfaces that a sequence of allocations initialises. -/
def Hierarchy.usedInterfaces (hierarchy : Hierarchy Class Interface) (calls : List Class) :
    Finset Interface :=
  (calls.flatMap fun klass => (hierarchy.lineage klass).flatMap
    hierarchy.getImplementedInterfaces).toFinset

/-- The table says for each interface of the class or of an ancestor where its
methods start in the nearest class that lists it, and has no slot at the id of
another interface. -/
structure RightTable (hierarchy : Hierarchy Class Interface)
    (runtime : Runtime Class Interface) (klass : Class) : Prop where
  slot : ∀ interface nearest,
    (hierarchy.lineage klass).find?
      (fun ancestor => interface ∈ hierarchy.getImplementedInterfaces ancestor) =
        some nearest →
    ∃ slot, hierarchy.StartsAt nearest interface slot ∧ slot ≠ -1 ∧
      (runtime.interfaceOffsets klass)[(runtime.interfaceId interface).toNat]? = some slot
  noSlot : ∀ interface, runtime.interfaceInited interface = true →
    (∀ ancestor ∈ hierarchy.lineage klass,
      interface ∉ hierarchy.getImplementedInterfaces ancestor) →
    ∀ entry, (runtime.interfaceOffsets klass)[(runtime.interfaceId interface).toNat]? =
      some entry → entry = -1

/-- What an ancestor lists, the class or its parent lists too. -/
def Hierarchy.ListsInherited (hierarchy : Hierarchy Class Interface) (klass : Class) : Prop :=
  ∀ ancestor ∈ hierarchy.lineage klass,
    ∀ interface ∈ hierarchy.getImplementedInterfaces ancestor,
      interface ∈ hierarchy.getImplementedInterfaces klass ∨
        ∃ above, hierarchy.parent klass = some above ∧
          interface ∈ hierarchy.getImplementedInterfaces above

/-- With distinct ids, the table of an initialised class is right exactly when no
interface comes from beyond the parent. -/
theorem rightTable_iff {hierarchy : Hierarchy Class Interface}
    {runtime : Runtime Class Interface} {order : List Interface} {klass : Class}
    (invariant : Invariant hierarchy runtime order) (capacity : order.length ≤ 65536)
    (inited : runtime.inited klass = true) :
    RightTable hierarchy runtime klass ↔ hierarchy.ListsInherited klass := by
  constructor
  · intro right ancestor membership interface listed
    by_contra beyond
    obtain ⟨notOwn, notParent⟩ := not_or.mp beyond
    obtain ⟨nearest, found⟩ : ∃ nearest, (hierarchy.lineage klass).find?
        (fun ancestor => interface ∈ hierarchy.getImplementedInterfaces ancestor) =
          some nearest :=
      Option.isSome_iff_exists.mp
        (List.find?_isSome.mpr ⟨ancestor, membership, decide_eq_true listed⟩)
    obtain ⟨slot, -, isSlot, entry⟩ := right.slot interface nearest found
    exact isSlot (entry_free invariant capacity inited
      (invariant.listed_inited inited membership listed) notOwn
      (fun above parent parentLists => notParent ⟨above, parent, parentLists⟩) entry)
  · intro listsInherited
    refine ⟨fun interface nearest found => ?_, fun interface interfaceInited notListed entry => ?_⟩
    · have listed : interface ∈ hierarchy.getImplementedInterfaces nearest := by
        simpa using List.find?_some found
      suffices ∃ slot, hierarchy.StartsAt nearest interface slot ∧
          (runtime.interfaceOffsets klass)[(runtime.interfaceId interface).toNat]? =
            some slot by
        obtain ⟨slot, starts, entry⟩ := this
        have nonneg := starts.nonneg
        exact ⟨slot, starts, by omega, entry⟩
      by_cases own : interface ∈ hierarchy.getImplementedInterfaces klass
      · obtain rfl : klass = nearest := by
          rw [Lib.Forest.lineage] at found
          simpa [own] using found
        exact entry_own invariant capacity inited own
      · obtain ⟨above, parent, parentLists⟩ := (listsInherited nearest
          (List.mem_of_find?_eq_some found) interface listed).resolve_left own
        obtain rfl : above = nearest := by
          rw [hierarchy.lineage_of_parent parent, Lib.Forest.lineage] at found
          simpa [own, parentLists] using found
        exact entry_inherited invariant capacity inited parent parentLists own
    · exact entry_free invariant capacity inited interfaceInited
        (notListed klass (hierarchy.self_mem_lineage klass))
        (fun above parent => notListed above (hierarchy.parent_mem_lineage parent))

theorem allocate_invariant [DecidableEq Class] (hierarchy : Hierarchy Class Interface)
    (emittedId : Interface → UInt16) {calls : List Class}
    (capacity : (hierarchy.usedInterfaces calls).card ≤ 65536) :
    ∃ order, Invariant hierarchy (allocate hierarchy calls (Runtime.start emittedId)).1 order ∧
      order.length ≤ 65536 ∧ ∀ klass ∈ calls,
        (allocate hierarchy calls (Runtime.start emittedId)).1.inited klass = true := by
  obtain ⟨new, run⟩ := allocate_spec (start_invariant hierarchy emittedId) calls
  have used : new.toFinset ⊆ hierarchy.usedInterfaces calls := by
    intro interface membership
    obtain ⟨other, called, ancestor, inLineage, listed⟩ :=
      run.new_subset interface (List.mem_toFinset.mp membership)
    simp only [Hierarchy.usedInterfaces, List.mem_toFinset, List.mem_flatMap]
    exact ⟨other, called, ancestor, inLineage, listed⟩
  refine ⟨new, run.invariant, ?_, fun klass called =>
    (run.inited_iff klass).mpr (.inr ⟨klass, called, hierarchy.self_mem_lineage klass⟩)⟩
  rw [← List.toFinset_card_of_nodup (l := new) run.invariant.numbered.nodup]
  exact (Finset.card_le_card used).trans capacity

/-- After any sequence of allocations with at most 65536 interfaces, the table of
an allocated class is right exactly when no interface comes from beyond its parent. -/
theorem allocate_rightTable_iff [DecidableEq Class] (hierarchy : Hierarchy Class Interface)
    (emittedId : Interface → UInt16) (calls : List Class) (klass : Class)
    (allocated : klass ∈ calls) (capacity : (hierarchy.usedInterfaces calls).card ≤ 65536) :
    RightTable hierarchy (allocate hierarchy calls (Runtime.start emittedId)).1 klass ↔
      hierarchy.ListsInherited klass := by
  obtain ⟨order, invariant, length, inited⟩ := allocate_invariant hierarchy emittedId capacity
  exact rightTable_iff invariant length (inited klass allocated)

end Tables

/-- A class that lists an interface of one method, its child and its grandchild. -/
def threeLevels : Hierarchy (Fin 3) Unit where
  parent
    | 0 => none
    | 1 => some 0
    | 2 => some 1
  interfaces klass := if klass = 0 then [()] else []
  interfaceId _ := 1000
  vtableSize _ := 1
  bases _ := []
  methodCount _ := 1
  depth klass := klass
  depth_parent {child above} := by
    revert child above
    decide
  height _ := 0
  height_base membership := by cases membership

/-- The child has the slot of the interface, also after the grandchild was allocated. -/
theorem threeLevels_child :
    RightTable threeLevels (allocate threeLevels [2, 1] (Runtime.start fun _ => 1000)).1 1 := by
  refine (allocate_rightTable_iff threeLevels _ [2, 1] 1 (by decide) (by decide +kernel)).mpr ?_
  unfold Hierarchy.ListsInherited
  decide +kernel

/-- The grandchild has no slot for the interface. -/
theorem threeLevels_grandchild :
    ((allocate threeLevels [2] (Runtime.start fun _ => 1000)).1.interfaceOffsets 2)[
      ((allocate threeLevels [2] (Runtime.start fun _ => 1000)).1.interfaceId ()).toNat]? =
        some (-1) ∧
      ¬ RightTable threeLevels (allocate threeLevels [2] (Runtime.start fun _ => 1000)).1 2 := by
  have entry : ((allocate threeLevels [2] (Runtime.start fun _ => 1000)).1.interfaceOffsets 2)[
      ((allocate threeLevels [2] (Runtime.start fun _ => 1000)).1.interfaceId ()).toNat]? =
        some (-1) := by decide +kernel
  refine ⟨entry, fun right => ?_⟩
  obtain ⟨slot, -, isSlot, found⟩ := right.slot () 0 (by decide +kernel)
  exact isSlot (Option.some.inj (found.symm.trans entry))

end GccCil.Libruntime
