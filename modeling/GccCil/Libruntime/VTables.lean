import GccCil.Libruntime.InterfaceTables

/-!
# Runtime vtables

`init_class` marks all ancestors of a class as initialised, but `newobj` builds a
runtime vtable only for the class itself and only when it is not yet marked.  So
which vtable an object gets depends on the order of the allocations.
-/

namespace GccCil.Libruntime

variable {Class Interface : Type}

/-- The vtable that `create_runtime_vtable` builds from the table of a class. -/
def Runtime.builtVTable (runtime : Runtime Class Interface) (klass : Class) : VTable Class :=
  .runtime klass (runtime.maxInterfaceId klass)
    (interfaceWords (runtime.maxInterfaceId klass) (runtime.interfaceOffsets klass))

/-- The word at position `-(1 + id)` in front of a vtable. -/
def VTable.wordBefore : VTable Class → Nat → Option Int
  | .compiled _, _ => none
  | .runtime _ maxInterfaceId words, id =>
    if id ≤ maxInterfaceId then (words[maxInterfaceId - id]?).join else none

theorem builtVTable_wordBefore_iff {runtime : Runtime Class Interface} {klass : Class} {id : Nat}
    (length : (runtime.interfaceOffsets klass).length = runtime.maxInterfaceId klass + 1)
    {slot : Int} (entry : (runtime.interfaceOffsets klass)[id]? = some slot) :
    (runtime.builtVTable klass).wordBefore id = some slot ↔ 0 ≤ slot := by
  obtain ⟨inside, -⟩ := List.getElem?_eq_some_iff.mp entry
  have bound : id ≤ runtime.maxInterfaceId klass := by omega
  have position : runtime.maxInterfaceId klass - (runtime.maxInterfaceId klass - id) = id := by
    omega
  have written : runtime.maxInterfaceId klass - id < runtime.maxInterfaceId klass + 1 := by omega
  simp only [Runtime.builtVTable, VTable.wordBefore, bound, if_true, interfaceWords,
    List.getElem?_map, List.getElem?_range written, Option.map_some, position, entry,
    Option.join_some]
  by_cases isSlot : slot > -1
  · simp only [isSlot, if_true, true_iff]
    omega
  · simp only [isSlot, if_false, reduceCtorEq, false_iff]
    omega

/-- An object with a runtime vtable of its own class, whose words point to the slots
that the table of the class gives. -/
structure RightObject (hierarchy : Hierarchy Class Interface)
    (runtime : Runtime Class Interface) (object : MonoObject Class) : Prop where
  built : ∃ maxInterfaceId words, object.vtable = .runtime object.klass maxInterfaceId words
  word : ∀ ancestor ∈ hierarchy.lineage object.klass,
    ∀ interface ∈ hierarchy.getImplementedInterfaces ancestor, ∃ slot,
      (runtime.interfaceOffsets object.klass)[(runtime.interfaceId interface).toNat]? =
        some slot ∧
      object.vtable.wordBefore (runtime.interfaceId interface).toNat = some slot

/-- The entries of all interfaces of a class, inherited ones too, are slots. -/
def Runtime.HasSlots (hierarchy : Hierarchy Class Interface) (runtime : Runtime Class Interface)
    (klass : Class) : Prop :=
  ∀ ancestor ∈ hierarchy.lineage klass,
    ∀ interface ∈ hierarchy.getImplementedInterfaces ancestor, ∃ slot, 0 ≤ slot ∧
      (runtime.interfaceOffsets klass)[(runtime.interfaceId interface).toNat]? = some slot

theorem Invariant.hasSlots {hierarchy : Hierarchy Class Interface}
    {runtime : Runtime Class Interface} {order : List Interface} {klass : Class}
    (invariant : Invariant hierarchy runtime order) (inited : runtime.inited klass = true)
    (listsInherited : hierarchy.ListsInherited klass) : runtime.HasSlots hierarchy klass := by
  have table := invariant.tables klass inited
  intro ancestor membership interface listed
  rcases listsInherited ancestor membership interface listed with own | ⟨above, parent, inherited⟩
  · obtain ⟨_, slot, -, -, starts, entry⟩ := table.own interface own
    exact ⟨slot, starts.nonneg, entry⟩
  · by_cases taken : ∃ other ∈ hierarchy.getImplementedInterfaces klass,
        runtime.interfaceId other = runtime.interfaceId interface
    · obtain ⟨other, own, sameId⟩ := taken
      obtain ⟨_, slot, -, -, starts, entry⟩ := table.own other own
      exact ⟨slot, starts.nonneg, sameId ▸ entry⟩
    · obtain ⟨_, slot, -, -, starts, entry⟩ :=
        (invariant.tables above (table.parentInited above parent)).own interface inherited
      refine ⟨slot, starts.nonneg, ?_⟩
      rw [table.inherited above parent interface inherited
        fun other own sameId => taken ⟨other, own, sameId⟩, entry]

theorem hasSlots_iff {hierarchy : Hierarchy Class Interface}
    {runtime : Runtime Class Interface} {order : List Interface} {klass : Class}
    (invariant : Invariant hierarchy runtime order) (capacity : order.length ≤ 65536)
    (inited : runtime.inited klass = true) :
    runtime.HasSlots hierarchy klass ↔ hierarchy.ListsInherited klass := by
  refine ⟨fun slots ancestor membership interface listed => ?_, invariant.hasSlots inited⟩
  by_contra beyond
  obtain ⟨notOwn, notParent⟩ := not_or.mp beyond
  obtain ⟨slot, isSlot, entry⟩ := slots ancestor membership interface listed
  have free := entry_free invariant capacity inited
    (invariant.listed_inited inited membership listed) notOwn
    (fun above parent parentLists => notParent ⟨above, parent, parentLists⟩) entry
  omega

variable [DecidableEq Class]

/-- The first allocation that initialises a class: its own or one of a descendant. -/
def Hierarchy.firstInit (hierarchy : Hierarchy Class Interface) (calls : List Class)
    (klass : Class) : Option Class :=
  calls.find? fun other => klass ∈ hierarchy.lineage other

/-- The state after the given allocations: which classes are initialised and which
of them have a runtime vtable. -/
structure After (hierarchy : Hierarchy Class Interface) (calls : List Class)
    (runtime : Runtime Class Interface) : Prop where
  invariant : ∃ order, Invariant hierarchy runtime order
  inited : ∀ klass, runtime.inited klass = (hierarchy.firstInit calls klass).isSome
  vtable : ∀ klass, runtime.domainVTable klass =
    if hierarchy.firstInit calls klass = some klass then runtime.builtVTable klass
    else .compiled klass

variable {hierarchy : Hierarchy Class Interface} {runtime : Runtime Class Interface}
  {calls : List Class}

theorem firstInit_append (first second : List Class) (klass : Class) :
    hierarchy.firstInit (first ++ second) klass =
      (hierarchy.firstInit first klass).or (hierarchy.firstInit second klass) :=
  List.find?_append

theorem firstInit_self (klass : Class) : hierarchy.firstInit [klass] klass = some klass := by
  simp [Hierarchy.firstInit, hierarchy.self_mem_lineage]

theorem firstInit_singleton (other klass : Class) :
    hierarchy.firstInit [other] klass =
      if klass ∈ hierarchy.lineage other then some other else none := by
  by_cases inLineage : klass ∈ hierarchy.lineage other <;>
    simp [Hierarchy.firstInit, inLineage]

theorem start_after (hierarchy : Hierarchy Class Interface) (emittedId : Interface → UInt16) :
    After hierarchy [] (Runtime.start emittedId) :=
  ⟨⟨[], start_invariant hierarchy emittedId⟩, fun _ => rfl, fun _ => rfl⟩

theorem After.rightObject_iff (after : After hierarchy calls runtime) {klass : Class}
    (inited : runtime.inited klass = true) :
    RightObject hierarchy runtime ⟨klass, runtime.builtVTable klass⟩ ↔
      runtime.HasSlots hierarchy klass := by
  obtain ⟨order, invariant⟩ := after.invariant
  have length := (invariant.tables klass inited).length
  constructor
  · rintro ⟨-, word⟩ ancestor membership interface listed
    obtain ⟨slot, entry, isWord⟩ := word ancestor membership interface listed
    exact ⟨slot, (builtVTable_wordBefore_iff length entry).mp isWord, entry⟩
  · intro slots
    refine ⟨⟨_, _, rfl⟩, fun ancestor membership interface listed => ?_⟩
    obtain ⟨slot, isSlot, entry⟩ := slots ancestor membership interface listed
    exact ⟨slot, entry, (builtVTable_wordBefore_iff length entry).mpr isSlot⟩

variable [DecidableEq Interface]

theorem newobj_domainVTable (after : After hierarchy calls runtime) (klass other : Class) :
    (newobj hierarchy runtime klass).1.domainVTable other =
      if other = klass ∧ runtime.inited klass = false then
        (newobj hierarchy runtime klass).1.builtVTable klass
      else runtime.domainVTable other := by
  obtain ⟨order, invariant⟩ := after.invariant
  by_cases inited : runtime.inited klass = true
  · simp [newobj, inited]
  · have fresh := Bool.eq_false_iff.mpr inited
    obtain ⟨-, sameVTable⟩ := initClass_spec invariant fresh
    have compiled : (runtime.domainVTable klass).klass = klass := by
      rw [after.vtable klass]
      split <;> rfl
    by_cases same : other = klass
    · subst same
      simp [newobj, fresh, createRuntimeVTable, Runtime.builtVTable, sameVTable, compiled]
    · simp [newobj, fresh, createRuntimeVTable, sameVTable, same]

theorem newobj_after (after : After hierarchy calls runtime) (klass : Class) :
    After hierarchy (calls ++ [klass]) (newobj hierarchy runtime klass).1 := by
  obtain ⟨order, invariant⟩ := after.invariant
  obtain ⟨new, step⟩ := newobj_spec invariant klass
  refine ⟨⟨_, step.invariant⟩, fun other => ?_, fun other => ?_⟩
  · rw [firstInit_append, firstInit_singleton, Bool.eq_iff_iff, step.inited_iff,
      after.inited other]
    by_cases inLineage : other ∈ hierarchy.lineage klass <;>
      cases hierarchy.firstInit calls other <;> simp [inLineage]
  · rw [newobj_domainVTable after, firstInit_append, firstInit_singleton]
    cases first : hierarchy.firstInit calls other with
    | some initialiser =>
      have inited : runtime.inited other = true := by simp [after.inited, first]
      have kept : ¬ (other = klass ∧ runtime.inited klass = false) := by
        rintro ⟨rfl, fresh⟩
        exact Bool.false_ne_true (fresh.symm.trans inited)
      have sameBuilt : (newobj hierarchy runtime klass).1.builtVTable other =
          runtime.builtVTable other := by
        simp [Runtime.builtVTable, step.extends_.maxInterfaceId other inited,
          step.extends_.interfaceOffsets other inited]
      simp [kept, after.vtable, first, sameBuilt]
    | none =>
      have fresh : runtime.inited other = false := by simp [after.inited, first]
      by_cases same : other = klass
      · subst same
        simp [fresh, hierarchy.self_mem_lineage]
      · have different : ¬ klass = other := fun equality => same equality.symm
        simp [same, different, after.vtable, first]

theorem allocate_after (after : After hierarchy calls runtime) (more : List Class) :
    After hierarchy (calls ++ more) (allocate hierarchy more runtime).1 := by
  induction more generalizing calls runtime with
  | nil => simpa [allocate] using after
  | cons klass rest ih =>
    have run := ih (newobj_after after klass)
    simpa [allocate] using run

theorem newobj_rightObject_iff {before : List Class} (after : After hierarchy before runtime)
    (klass : Class) (rest : List Class) :
    RightObject hierarchy (allocate hierarchy rest (newobj hierarchy runtime klass).1).1
        (newobj hierarchy runtime klass).2 ↔
      hierarchy.firstInit (before ++ klass :: rest) klass = some klass ∧
        (allocate hierarchy rest (newobj hierarchy runtime klass).1).1.HasSlots hierarchy
          klass := by
  set step := newobj hierarchy runtime klass
  have stepAfter : After hierarchy (before ++ [klass]) step.1 := newobj_after after klass
  have finalAfter := allocate_after stepAfter rest
  obtain ⟨order, invariant⟩ := stepAfter.invariant
  obtain ⟨new, run⟩ := allocate_spec invariant rest
  have firstSome : (hierarchy.firstInit (before ++ [klass]) klass).isSome = true := by
    rw [firstInit_append, firstInit_self]
    cases hierarchy.firstInit before klass <;> rfl
  have inited : step.1.inited klass = true := (stepAfter.inited klass).trans firstSome
  have sameBuilt : (allocate hierarchy rest step.1).1.builtVTable klass =
      step.1.builtVTable klass := by
    simp [Runtime.builtVTable, run.extends_.maxInterfaceId klass inited,
      run.extends_.interfaceOffsets klass inited]
  have firstEq : hierarchy.firstInit (before ++ klass :: rest) klass =
      hierarchy.firstInit (before ++ [klass]) klass := by
    rw [List.append_cons, firstInit_append]
    exact Option.or_of_isSome firstSome
  have object : step.2 = ⟨klass, step.1.domainVTable klass⟩ := rfl
  rw [object, stepAfter.vtable klass, firstEq]
  by_cases isFirst : hierarchy.firstInit (before ++ [klass]) klass = some klass
  · rw [if_pos isFirst, ← sameBuilt, and_iff_right isFirst]
    exact finalAfter.rightObject_iff (run.extends_.inited klass inited)
  · rw [if_neg isFirst]
    refine iff_of_false ?_ fun both => isFirst both.1
    rintro ⟨⟨_, _, isRuntime⟩, -⟩
    cases isRuntime

theorem allocate_rightObjects_slots {before : List Class}
    (after : After hierarchy before runtime) (rest : List Class) :
    (∀ object ∈ (allocate hierarchy rest runtime).2,
      RightObject hierarchy (allocate hierarchy rest runtime).1 object) ↔
      ∀ klass ∈ rest, hierarchy.firstInit (before ++ rest) klass = some klass ∧
        (allocate hierarchy rest runtime).1.HasSlots hierarchy klass := by
  induction rest generalizing before runtime with
  | nil => simp [allocate]
  | cons klass rest ih =>
    have here := newobj_rightObject_iff after klass rest
    have later := ih (newobj_after after klass)
    simp only [allocate, List.mem_cons, forall_eq_or_imp]
    rw [here, later]
    simp

/-- Objects are right, with any number of interfaces, if no class is allocated for
the first time after a descendant and what an ancestor lists the class or its parent
lists too. -/
theorem allocate_rightObjects (emittedId : Interface → UInt16)
    (right : ∀ klass ∈ calls, hierarchy.firstInit calls klass = some klass ∧
      hierarchy.ListsInherited klass) :
    ∀ object ∈ (allocate hierarchy calls (Runtime.start emittedId)).2,
      RightObject hierarchy (allocate hierarchy calls (Runtime.start emittedId)).1 object := by
  obtain ⟨new, run⟩ := allocate_spec (start_invariant hierarchy emittedId) calls
  refine (allocate_rightObjects_slots (start_after hierarchy emittedId) calls).mpr
    fun klass called => ⟨(right klass called).1, ?_⟩
  exact run.invariant.hasSlots
    ((run.inited_iff klass).mpr (.inr ⟨klass, called, hierarchy.self_mem_lineage klass⟩))
    (right klass called).2

/-- The objects of a sequence of allocations all have the right vtable exactly when
no class is allocated for the first time after a descendant, and none of them has an
interface from beyond its parent. -/
theorem allocate_rightObjects_iff (hierarchy : Hierarchy Class Interface)
    (emittedId : Interface → UInt16) (calls : List Class)
    (capacity : (hierarchy.usedInterfaces calls).card ≤ 65536) :
    (∀ object ∈ (allocate hierarchy calls (Runtime.start emittedId)).2,
      RightObject hierarchy (allocate hierarchy calls (Runtime.start emittedId)).1 object) ↔
      ∀ klass ∈ calls, hierarchy.firstInit calls klass = some klass ∧
        hierarchy.ListsInherited klass := by
  refine ⟨fun right klass called => ?_, allocate_rightObjects emittedId⟩
  obtain ⟨order, invariant, length, inited⟩ := allocate_invariant hierarchy emittedId capacity
  obtain ⟨first, slots⟩ :=
    (allocate_rightObjects_slots (start_after hierarchy emittedId) calls).mp right klass called
  exact ⟨first, (hasSlots_iff invariant length (inited klass called)).mp slots⟩

/-- A parent is allocated, then its child, which inherits the interface. -/
theorem allocate_rightObjects_parentFirst :
    (allocate threeLevels [0, 1] (Runtime.start fun _ => 1000)).2.length = 2 ∧
      ∀ object ∈ (allocate threeLevels [0, 1] (Runtime.start fun _ => 1000)).2,
        RightObject threeLevels (allocate threeLevels [0, 1] (Runtime.start fun _ => 1000)).1
          object := by
  refine ⟨by decide +kernel, ?_⟩
  refine (allocate_rightObjects_iff threeLevels _ [0, 1] (by decide +kernel)).mpr ?_
  unfold Hierarchy.ListsInherited
  decide +kernel

def childFirst : Runtime (Fin 3) Unit × List (MonoObject (Fin 3)) :=
  allocate threeLevels [⟨1, by decide⟩, ⟨0, by decide⟩] (Runtime.start fun _ => 1000)

/-- The parent's object keeps the emitted vtable. -/
theorem childFirst_parent :
    (childFirst.2.map MonoObject.vtable)[1]? = some (.compiled 0) ∧
      ¬ ∀ object ∈ childFirst.2, RightObject threeLevels childFirst.1 object := by
  have second : (childFirst.2.map MonoObject.vtable)[1]? = some (.compiled 0) := by
    decide +kernel
  refine ⟨second, fun right => ?_⟩
  obtain ⟨object, membership, vtable⟩ := List.mem_map.mp (List.mem_of_getElem? second)
  obtain ⟨_, _, isRuntime⟩ := (right object membership).built
  rw [vtable] at isRuntime
  cases isRuntime

end GccCil.Libruntime
