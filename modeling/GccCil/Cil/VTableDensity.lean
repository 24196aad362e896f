import GccCil.Cil.InterfaceSlots
import GccCil.Lib.PartialSimulation

/-!
# Density of the vtable

`create_virtual_methods_indices` hands out the numbers 0, 1, … one after the
other, and a method keeps the last number that it got.  `create_vtable_entries`
makes one entry for each method with a slot.  The entries carry all numbers
exactly when no number went to a method that got another one later, or to one
without a slot, and the first entry is the one with the number 0.
-/

namespace GccCil.Cil

open scoped List

variable {Class Interface Method Signature : Type} [DecidableEq Class] [DecidableEq Method]
  [DecidableEq Signature]

section Definitions

variable (image : Image Class Interface Method Signature) (index : Method → Nat)

/-- Every call of `change_vtable_slot` finds an entry with the index of the
method at the position that it goes to. -/
def ChangesRight : List Method → List (Nat × Method) → Prop
  | [], _ => True
  | method :: rest, entries =>
    if image.isVirtual method && !image.isRuntime method then
      match image.getBase method with
      | some _ =>
        (entries[index method]?).map Prod.fst = some (index method) ∧
          ∀ changed, changeVTableSlot (index method) method entries = some changed →
            ChangesRight rest changed
      | none =>
        ∀ added, addVTableSlot (index method, method) entries = some added →
          ChangesRight rest added
    else ChangesRight rest entries

def inheritedEntries (klass : Class) : Option (List (Nat × Method)) :=
  match image.parent klass with
  | some above => createVTableEntries image index above
  | none => some []

/-- The vtable is made without an internal error, its entries carry the indices
0, 1, … in this order, and overriding methods take the entries with their
indices. -/
structure DenseVTable (klass : Class) : Prop where
  entries : ∃ entries, createVTableEntries image index klass = some entries ∧
    entries.map Prod.fst = List.range entries.length
  changes : ∀ node ∈ image.lineage klass, ∀ inherited,
    inheritedEntries image index node = some inherited →
      ChangesRight image index (image.methods node) inherited

/-- The class implements the methods of its interfaces by distinct methods of
its own that override nothing.  If it is the first class with slots, the first
interface method has the first of them. -/
structure OwnSlotMethods (klass : Class) : Prop where
  distinct : (image.implementations klass).Nodup
  own : ∀ method ∈ image.implementations klass,
    method ∈ image.methods klass ∧ image.hasSlot method = true
  first : (∀ ancestor ∈ image.lineage klass, ancestor ≠ klass →
      ∀ method ∈ image.methods ancestor, image.hasSlot method = false) →
    ∀ method, (image.implementations klass).head? = some method →
      ((image.methods klass).filter image.hasSlot).head? = some method

/-- What the metadata of every image obeys: the body of an explicit override is
a virtual method of the class or of an ancestor, and methods supplied by the
runtime (those of delegates, which are sealed) implement no interface method
and are not overridden. -/
structure WellFormed : Prop where
  bodies : ∀ klass, ∀ override ∈ image.overrides klass,
    image.isVirtual override.2 = true ∧
      ∃ ancestor ∈ image.lineage klass, override.2 ∈ image.methods ancestor
  implements_ : ∀ klass method implementation,
    image.getMethodImpl klass method = some implementation →
      image.isRuntime implementation = false
  bases : ∀ method base, image.getBase method = some base → image.isRuntime base = false

end Definitions

variable {image : Image Class Interface Method Signature}

omit [DecidableEq Signature] in
theorem overrideImpl_eq_some {method implementation : Method} {classes : List Class}
    {result : Option Method} (found : image.overrideImpl method classes result = some implementation) :
    result = some implementation ∨
      ∃ klass ∈ classes, ∃ override ∈ image.overrides klass, override.2 = implementation := by
  induction classes with
  | nil => exact .inl found
  | cons klass rest ih =>
    rw [Image.overrideImpl] at found
    split at found
    · rename_i override listed
      cases found
      exact .inr ⟨klass, List.mem_cons_self, override, List.mem_of_find?_eq_some listed, rfl⟩
    · split at found
      · exact .inl found
      · rcases ih found with direct | ⟨node, listed, override⟩
        · exact .inl direct
        · exact .inr ⟨node, List.mem_cons_of_mem _ listed, override⟩

theorem getMethodImpl_spec (wellFormed : WellFormed image) {klass : Class}
    {method implementation : Method}
    (found : image.getMethodImpl klass method = some implementation) :
    image.isVirtual implementation = true ∧ image.isRuntime implementation = false ∧
      ∃ ancestor ∈ image.lineage klass, implementation ∈ image.methods ancestor := by
  have notRuntime := wellFormed.implements_ klass method implementation found
  unfold Image.getMethodImpl at found
  rcases overrideImpl_eq_some found with direct | ⟨node, inLineage, override, listed, rfl⟩
  · rcases Option.or_eq_some_iff.mp direct with newSlot | ⟨_, inherited⟩
    · have properties := List.find?_some newSlot
      simp only [Bool.and_eq_true] at properties
      exact ⟨properties.1.1.2, notRuntime, klass, image.self_mem_lineage klass,
        List.mem_of_find?_eq_some newSlot⟩
    · obtain ⟨ancestor, inLineage, search⟩ := List.exists_of_findSome?_eq_some inherited
      have properties := List.find?_some search
      simp only [Bool.and_eq_true] at properties
      exact ⟨properties.1.2, notRuntime, ancestor, inLineage, List.mem_of_find?_eq_some search⟩
  · obtain ⟨virtual, ancestor, above, declared⟩ := wellFormed.bodies node override listed
    exact ⟨virtual, notRuntime, ancestor, image.mem_lineage_trans above inLineage, declared⟩

theorem mem_implementations (wellFormed : WellFormed image) {klass : Class} {method : Method}
    (listed : method ∈ image.implementations klass) :
    image.isVirtual method = true ∧ image.isRuntime method = false ∧
      ∃ ancestor ∈ image.lineage klass, method ∈ image.methods ancestor := by
  obtain ⟨_, _, found⟩ := List.mem_filterMap.mp listed
  exact getMethodImpl_spec wellFormed found

/-- The list has the method that got each number; the index of a method is the
last of its numbers. -/
def Latest (numbered : List Method) (index : Method → Nat) : Prop :=
  ∀ position method, numbered[position]? = some method →
    position ≤ index method ∧ numbered[index method]? = some method

theorem Latest.append {numbered : List Method} {index : Method → Nat}
    (latest : Latest numbered index) (method : Method) :
    Latest (numbered ++ [method]) (Function.update index method numbered.length) := by
  intro position other entry
  by_cases same : other = method
  · subst same
    rw [Function.update_self]
    obtain ⟨bound, _⟩ := List.getElem?_eq_some_iff.mp entry
    rw [List.length_append, List.length_singleton] at bound
    exact ⟨by omega, by rw [List.getElem?_concat_length]⟩
  · rw [Function.update_of_ne same]
    obtain ⟨bound, value⟩ := List.getElem?_eq_some_iff.mp entry
    rw [List.length_append, List.length_singleton] at bound
    have before : position < numbered.length := by
      by_contra last
      have equal : position = numbered.length := by omega
      rw [equal, List.getElem?_concat_length] at entry
      exact same (Option.some.inj entry).symm
    rw [List.getElem?_append_left before] at entry
    obtain ⟨less, there⟩ := latest position other entry
    obtain ⟨inside, _⟩ := List.getElem?_eq_some_iff.mp there
    exact ⟨less, by rw [List.getElem?_append_left inside, there]⟩

theorem Latest.update {numbered : List Method} {index : Method → Nat}
    (latest : Latest numbered index) {method : Method} (unnumbered : method ∉ numbered)
    (value : Nat) : Latest numbered (Function.update index method value) := by
  intro position other entry
  have different : other ≠ method := by
    rintro rfl
    exact unnumbered (List.mem_of_getElem? entry)
  rw [Function.update_of_ne different]
  exact latest position other entry

omit [DecidableEq Class] [DecidableEq Signature] in
theorem Indices.assign_count_of_ne (indices : Indices Method) {method other : Method}
    (different : other ≠ method) (index : Nat) :
    (indices.assign method index).count other = indices.count other :=
  Function.update_of_ne different _ _

theorem assignImplementations_latest {klass : Class} {methods : List Method}
    (implemented : ∀ method ∈ methods, (image.getMethodImpl klass method).isSome = true)
    {numbered : List Method} {indices : Indices Method} (latest : Latest numbered indices.index) :
    ∃ result, assignImplementations image klass methods numbered.length indices =
        some (result, (numbered ++ methods.filterMap (image.getMethodImpl klass)).length) ∧
      Latest (numbered ++ methods.filterMap (image.getMethodImpl klass)) result.index ∧
      ∀ method, result.count method =
        (indices.count method || decide (method ∈ methods.filterMap (image.getMethodImpl klass))) := by
  induction methods generalizing numbered indices with
  | nil => exact ⟨indices, by simp [assignImplementations], by simpa using latest, by simp⟩
  | cons method rest ih =>
    obtain ⟨implementation, found⟩ :=
      Option.isSome_iff_exists.mp (implemented method List.mem_cons_self)
    have assigned : Latest (numbered ++ [implementation])
        (indices.assign implementation numbered.length).index := latest.append implementation
    obtain ⟨result, equation, resultLatest, counts⟩ := ih
      (fun other membership => implemented other (List.mem_cons_of_mem _ membership)) assigned
    rw [List.append_assoc, List.singleton_append] at equation resultLatest
    rw [List.filterMap_cons_some found]
    refine ⟨result, ?_, resultLatest, fun other => ?_⟩
    · rw [assignImplementations, found]
      simpa using equation
    · rw [counts]
      by_cases same : other = implementation
      · subst same
        simp [Indices.assign]
      · simp [Indices.assign, same]

omit [DecidableEq Class] in
theorem assignVirtuals_latest (image : Image Class Interface Method Signature)
    {methods : List Method} (nodup : methods.Nodup)
    {numbered : List Method} {indices : Indices Method} (latest : Latest numbered indices.index)
    (counted : ∀ method ∈ methods, method ∈ numbered → indices.count method = true) :
    ∃ result, assignVirtuals image methods numbered.length indices =
        (result, (numbered ++ methods.filter (unassigned image indices)).length) ∧
      Latest (numbered ++ methods.filter (unassigned image indices)) result.index ∧
      ∀ method ∉ methods, result.count method = indices.count method := by
  induction methods generalizing numbered indices with
  | nil => exact ⟨indices, by simp [assignVirtuals], by simpa using latest, fun _ _ => rfl⟩
  | cons method rest ih =>
    obtain ⟨fresh, restNodup⟩ := List.nodup_cons.mp nodup
    by_cases needs : (image.isVirtual method && !image.isRuntime method &&
        !indices.count method) = true
    · simp only [Bool.and_eq_true, Bool.not_eq_true'] at needs
      obtain ⟨⟨virtual, notRuntime⟩, notCounted⟩ := needs
      have unnumbered : method ∉ numbered := by
        intro listed
        rw [counted method List.mem_cons_self listed] at notCounted
        cases notCounted
      cases base : image.getBase method with
      | some found =>
        have assigned : Latest numbered (indices.assign method (indices.index found)).index :=
          latest.update unnumbered _
        obtain ⟨result, equation, resultLatest, counts⟩ :=
          ih restNodup assigned fun other listed inNumbered => by
            have different : other ≠ method := fun same => fresh (same ▸ listed)
            rw [indices.assign_count_of_ne different]
            exact counted other (List.mem_cons_of_mem _ listed) inNumbered
        rw [filter_unassigned_assign fresh] at equation resultLatest
        rw [filter_unassigned_cons virtual notRuntime notCounted, base]
        refine ⟨result, ?_, resultLatest, fun other absent => ?_⟩
        · simpa [assignVirtuals, virtual, notRuntime, notCounted, base] using equation
        · obtain ⟨different, notListed⟩ := not_or.mp fun either => absent (List.mem_cons.mpr either)
          rw [counts other notListed, indices.assign_count_of_ne different]
      | none =>
        have assigned : Latest (numbered ++ [method])
            (indices.assign method numbered.length).index := latest.append method
        obtain ⟨result, equation, resultLatest, counts⟩ :=
          ih restNodup assigned fun other listed inNumbered => by
            have different : other ≠ method := fun same => fresh (same ▸ listed)
            rw [indices.assign_count_of_ne different]
            rcases List.mem_append.mp inNumbered with before | last
            · exact counted other (List.mem_cons_of_mem _ listed) before
            · exact absurd (List.mem_singleton.mp last) different
        rw [filter_unassigned_assign fresh, List.append_assoc] at equation resultLatest
        rw [filter_unassigned_cons virtual notRuntime notCounted, base]
        refine ⟨result, ?_, resultLatest, fun other absent => ?_⟩
        · simpa [assignVirtuals, virtual, notRuntime, notCounted, base] using equation
        · obtain ⟨different, notListed⟩ := not_or.mp fun either => absent (List.mem_cons.mpr either)
          rw [counts other notListed, indices.assign_count_of_ne different]
    · obtain ⟨result, equation, resultLatest, counts⟩ := ih restNodup latest
        fun other listed => counted other (List.mem_cons_of_mem _ listed)
      rw [filter_unassigned_skip needs]
      refine ⟨result, ?_, resultLatest, fun other absent =>
        counts other fun listed => absent (List.mem_cons_of_mem _ listed)⟩
      simpa [assignVirtuals, needs] using equation

theorem slots_declared (wellFormed : WellFormed image) {klass : Class} {method : Method}
    (listed : method ∈ image.slots klass) :
    image.isVirtual method = true ∧ image.isRuntime method = false ∧
      ∃ ancestor ∈ image.lineage klass, method ∈ image.methods ancestor := by
  induction klass using image.parent_induction with
  | step klass ih =>
    rw [Image.slots_eq] at listed
    rcases List.mem_append.mp listed with inherited | isOwn
    · cases parent : image.parent klass with
      | none => simp [Image.inheritedSlots, parent] at inherited
      | some above =>
        rw [Image.inheritedSlots_of_parent parent] at inherited
        obtain ⟨virtual, notRuntime, ancestor, inLineage, declared⟩ :=
          ih above parent inherited
        refine ⟨virtual, notRuntime, ancestor, ?_, declared⟩
        rw [image.lineage_of_parent parent]
        exact List.mem_cons_of_mem _ inLineage
    · rcases List.mem_append.mp isOwn with implements_ | new
      · exact mem_implementations wellFormed implements_
      · obtain ⟨declared, slot⟩ := List.mem_filter.mp new
        simp only [Image.hasSlot, Bool.and_eq_true, Bool.not_eq_true'] at slot
        exact ⟨slot.1.1.1, slot.1.1.2, klass, image.self_mem_lineage klass, declared⟩

theorem inheritedSlots_not_declared (wellFormed : WellFormed image) {klass : Class}
    {method : Method} (listed : method ∈ image.inheritedSlots klass) :
    method ∉ image.methods klass := by
  cases parent : image.parent klass with
  | none => simp [Image.inheritedSlots, parent] at listed
  | some above =>
    rw [Image.inheritedSlots_of_parent parent] at listed
    obtain ⟨_, _, ancestor, inLineage, declared⟩ := slots_declared wellFormed listed
    exact Image.not_mem_methods_of_ancestor parent inLineage declared

theorem assign_latest (wellFormed : WellFormed image) {klass : Class}
    (implemented : ∀ method ∈ image.listedMethods klass,
      (image.getMethodImpl klass method).isSome = true)
    {indices : Indices Method} (latest : Latest (image.inheritedSlots klass) indices.index)
    (uncounted : ∀ method ∈ image.methods klass, indices.count method = false) :
    ∃ middle result next,
      createVirtualMethodsIndicesForInterfaces image klass (image.inheritedSlots klass).length
        indices = some (middle, next) ∧
      assignVirtuals image (image.methods klass) next middle =
        (result, (image.slots klass).length) ∧
      Latest (image.slots klass) result.index ∧
      ∀ method, method ∉ image.methods klass → result.count method = true →
        indices.count method = true ∨ method ∈ image.implementations klass := by
  obtain ⟨middle, first, middleLatest, counts⟩ := assignImplementations_latest implemented latest
  change Latest (image.inheritedSlots klass ++ image.implementations klass) middle.index
    at middleLatest
  have counted : ∀ method ∈ image.methods klass,
      method ∈ image.inheritedSlots klass ++ image.implementations klass →
        middle.count method = true := by
    intro method declared listed
    rcases List.mem_append.mp listed with inherited | implements_
    · exact absurd declared (inheritedSlots_not_declared wellFormed inherited)
    · simp only [counts, Bool.or_eq_true, decide_eq_true_eq]
      exact .inr implements_
  obtain ⟨result, second, resultLatest, kept⟩ :=
    assignVirtuals_latest image (image.methods_nodup klass) middleLatest counted
  have same : (image.methods klass).filter (unassigned image middle) =
      (image.methods klass).filter fun method =>
        image.hasSlot method && !decide (method ∈ image.implementations klass) := by
    apply List.filter_congr
    intro method declared
    rw [unassigned, counts, uncounted method declared, Bool.false_or]
    rfl
  rw [same, List.append_assoc] at second resultLatest
  rw [show image.implementations klass ++ _ = image.ownSlots klass from rfl,
    ← Image.slots_eq] at second resultLatest
  refine ⟨middle, result, _, first, second, resultLatest, fun method outside isCounted => ?_⟩
  rw [kept method outside, counts, Bool.or_eq_true_iff, decide_eq_true_iff] at isCounted
  exact isCounted

theorem createVirtualMethodsIndices_eq (klass : Class) (indices : Indices Method) :
    createVirtualMethodsIndices image klass indices =
      (match image.parent klass with
        | some above => createVirtualMethodsIndices image above indices
        | none => some (indices, 0)).bind fun start =>
          (createVirtualMethodsIndicesForInterfaces image klass start.2 start.1).map
            fun (middle : Indices Method × Nat) =>
            (setMethodIndicesToInvalid image klass
                (assignVirtuals image (image.methods klass) middle.2 middle.1).1,
              (assignVirtuals image (image.methods klass) middle.2 middle.1).2) := by
  rw [createVirtualMethodsIndices]
  cases image.parent klass with
  | none =>
    simp only [Option.bind_eq_bind, Option.bind_some]
    cases createVirtualMethodsIndicesForInterfaces image klass 0 indices <;> rfl
  | some above =>
    dsimp only
    cases createVirtualMethodsIndices image above indices with
    | none => rfl
    | some start =>
      simp only [Option.bind_eq_bind, Option.bind_some]
      cases createVirtualMethodsIndicesForInterfaces image klass start.2 start.1 <;> rfl

theorem createVirtualMethodsIndices_latest (wellFormed : WellFormed image) (klass : Class)
    (implemented : ∀ node ∈ image.lineage klass, ∀ method ∈ image.listedMethods node,
      (image.getMethodImpl node method).isSome = true)
    {indices : Indices Method} (clean : ∀ method, indices.count method = false) :
    ∃ result, createVirtualMethodsIndices image klass indices =
        some (result, (image.slots klass).length) ∧
      Latest (image.slots klass) result.index ∧
      ∀ method, result.count method = true →
        ∃ ancestor ∈ image.lineage klass, method ∈ image.methods ancestor := by
  induction klass using image.parent_induction with
  | step klass ih =>
    have start : ∃ before, (match image.parent klass with
          | some above => createVirtualMethodsIndices image above indices
          | none => some (indices, 0)) = some (before, (image.inheritedSlots klass).length) ∧
        Latest (image.inheritedSlots klass) before.index ∧
        ∀ method, before.count method = true →
          method ∉ image.methods klass ∧
            ∃ ancestor ∈ image.lineage klass, method ∈ image.methods ancestor := by
      cases parent : image.parent klass with
      | none =>
        refine ⟨indices, by simp [Image.inheritedSlots, parent], ?_, fun method counted => ?_⟩
        · intro position method entry
          simp [Image.inheritedSlots, parent] at entry
        · rw [clean method] at counted
          cases counted
      | some above =>
        have aboveLineage : ∀ node ∈ image.lineage above, node ∈ image.lineage klass := by
          intro node membership
          rw [image.lineage_of_parent parent]
          exact List.mem_cons_of_mem _ membership
        obtain ⟨before, equation, latest, counts⟩ := ih above parent
          fun node membership => implemented node (aboveLineage node membership)
        rw [Image.inheritedSlots_of_parent parent]
        refine ⟨before, equation, latest, fun method counted => ?_⟩
        obtain ⟨ancestor, inLineage, declared⟩ := counts method counted
        exact ⟨Image.not_mem_methods_of_ancestor parent inLineage declared, ancestor,
          aboveLineage ancestor inLineage, declared⟩
    obtain ⟨before, equation, latest, counts⟩ := start
    obtain ⟨middle, result, next, first, second, resultLatest, kept⟩ := assign_latest wellFormed
      (implemented klass (image.self_mem_lineage klass)) latest fun method declared => by
        by_contra isCounted
        exact (counts method (Bool.not_eq_false _ ▸ isCounted)).1 declared
    refine ⟨setMethodIndicesToInvalid image klass result, ?_, resultLatest, fun method counted => ?_⟩
    · rw [createVirtualMethodsIndices_eq, equation, Option.bind_some, first, Option.map_some,
        second]
    · by_cases declared : method ∈ image.methods klass
      · exact ⟨klass, image.self_mem_lineage klass, declared⟩
      · rw [setMethodIndicesToInvalid] at counted
        dsimp only at counted
        rw [if_neg declared] at counted
        rcases kept method declared counted with inherited | implements_
        · exact (counts method inherited).2
        · exact (mem_implementations wellFormed implements_).2.2

section Keys

variable {index : Method → Nat}

omit [DecidableEq Method] in
theorem insertEntry_perm {entry : Nat × Method} {entries result : List (Nat × Method)}
    (inserted : insertEntry entry entries = some result) : result ~ entry :: entries := by
  induction entries generalizing result with
  | nil =>
    cases inserted
    exact List.Perm.refl _
  | cons other rest ih =>
    rw [insertEntry] at inserted
    split at inserted
    · cases inserted
      exact List.Perm.refl _
    · split at inserted
      · cases inserted
      · obtain ⟨tail, found, rfl⟩ := Option.map_eq_some_iff.mp inserted
        exact ((ih found).cons other).trans (List.Perm.swap _ _ _)

omit [DecidableEq Method] in
theorem addVTableSlot_keys {entry : Nat × Method} {entries result : List (Nat × Method)}
    (added : addVTableSlot entry entries = some result) :
    result ~ entries ++ [entry] ∧ result.head? = (entries ++ [entry]).head? := by
  cases entries with
  | nil =>
    cases added
    exact ⟨List.Perm.refl _, rfl⟩
  | cons first rest =>
    obtain ⟨tail, inserted, rfl⟩ := Option.map_eq_some_iff.mp added
    refine ⟨?_, rfl⟩
    exact ((insertEntry_perm inserted).trans (List.perm_append_singleton _ _).symm).cons first

omit [DecidableEq Method] in
theorem changeVTableSlot_keys {position : Nat} {method : Method}
    {entries result : List (Nat × Method)}
    (changed : changeVTableSlot position method entries = some result) :
    position < entries.length ∧ result.map Prod.fst = entries.map Prod.fst := by
  have bound : position < entries.length := by
    by_contra outside
    rw [changeVTableSlot, List.getElem?_eq_none (by omega)] at changed
    cases changed
  obtain ⟨result', equation, keys⟩ := changeVTableSlot_spec bound method []
  rw [List.append_nil, changed, List.append_nil] at equation
  cases equation
  exact ⟨bound, keys⟩

/-- The keys after the loop over the methods of a class: one more for each
method with a slot, and the first key is the oldest one. -/
structure KeysAdded (image : Image Class Interface Method Signature) (index : Method → Nat)
    (methods : List Method) (entries result : List (Nat × Method)) : Prop where
  perm : result.map Prod.fst ~ entries.map Prod.fst ++ (methods.filter image.hasSlot).map index
  head : (result.map Prod.fst).head? =
    (entries.map Prod.fst ++ (methods.filter image.hasSlot).map index).head?
  overriding : ∀ method ∈ methods, image.isVirtual method = true →
    image.isRuntime method = false → image.hasSlot method = false →
      index method < result.length

omit [DecidableEq Class] [DecidableEq Method] in
theorem addMethods_keys {methods : List Method} {entries result : List (Nat × Method)}
    (run : addMethods image index methods entries = some result) :
    KeysAdded image index methods entries result := by
  induction methods generalizing entries with
  | nil =>
    cases run
    exact ⟨by simp, by simp, by simp⟩
  | cons method rest ih =>
    rw [addMethods] at run
    split at run
    · rename_i entered
      simp only [Bool.and_eq_true, Bool.not_eq_true'] at entered
      cases base : image.getBase method with
      | some found =>
        rw [base] at run
        obtain ⟨middle, made, run⟩ := Option.bind_eq_some_iff.mp run
        obtain ⟨perm, head, overriding⟩ := ih run
        obtain ⟨bound, keys⟩ := changeVTableSlot_keys made
        have noSlot : image.hasSlot method = false := by simp [Image.hasSlot, base]
        have length : entries.length ≤ result.length := by
          have total := perm.length_eq
          have same := congrArg List.length keys
          simp only [List.length_map, List.length_append] at total same
          omega
        rw [keys] at perm head
        refine ⟨?_, ?_, ?_⟩
        · rwa [List.filter_cons_of_neg (by simp [noSlot])]
        · rwa [List.filter_cons_of_neg (by simp [noSlot])]
        · intro other listed virtual notRuntime slotless
          rcases List.mem_cons.mp listed with rfl | inRest
          · omega
          · exact overriding other inRest virtual notRuntime slotless
      | none =>
        rw [base] at run
        obtain ⟨middle, made, run⟩ := Option.bind_eq_some_iff.mp run
        obtain ⟨perm, head, overriding⟩ := ih run
        obtain ⟨addedPerm, addedHead⟩ := addVTableSlot_keys made
        have slot : image.hasSlot method = true := by
          simp [Image.hasSlot, base, entered.1, entered.2]
        have keysPerm : middle.map Prod.fst ~ entries.map Prod.fst ++ [index method] := by
          simpa using addedPerm.map Prod.fst
        have keysHead : (middle.map Prod.fst).head? =
            (entries.map Prod.fst ++ [index method]).head? := by
          rw [List.head?_map, addedHead, ← List.head?_map, List.map_append]
          rfl
        refine ⟨?_, ?_, ?_⟩
        · rw [List.filter_cons_of_pos slot, List.map_cons]
          refine perm.trans ((keysPerm.append_right _).trans ?_)
          rw [List.append_assoc, List.singleton_append]
        · rw [head, List.head?_append, keysHead, ← List.head?_append, List.append_assoc,
            List.filter_cons_of_pos slot, List.map_cons, List.singleton_append]
        · intro other listed virtual notRuntime slotless
          rcases List.mem_cons.mp listed with rfl | inRest
          · rw [slot] at slotless
            cases slotless
          · exact overriding other inRest virtual notRuntime slotless
    · rename_i skipped
      have noSlot : image.hasSlot method = false := by
        rw [Image.hasSlot, Bool.eq_false_iff.mpr skipped, Bool.false_and]
      obtain ⟨perm, head, overriding⟩ := ih run
      refine ⟨?_, ?_, ?_⟩
      · rwa [List.filter_cons_of_neg (by simp [noSlot])]
      · rwa [List.filter_cons_of_neg (by simp [noSlot])]
      · intro other listed virtual notRuntime slotless
        rcases List.mem_cons.mp listed with rfl | inRest
        · exact absurd (by simp [virtual, notRuntime]) skipped
        · exact overriding other inRest virtual notRuntime slotless

/-- The methods with slots of a class and its ancestors, in the order in which
`create_vtable_entries` comes to them. -/
def declaredSlots (image : Image Class Interface Method Signature) (klass : Class) : List Method :=
  (image.lineage klass).reverse.flatMap fun node => (image.methods node).filter image.hasSlot

omit [DecidableEq Class] [DecidableEq Method] in
theorem mem_declaredSlots {klass : Class} {method : Method} :
    method ∈ declaredSlots image klass ↔ ∃ node ∈ image.lineage klass,
      method ∈ image.methods node ∧ image.hasSlot method = true := by
  simp [declaredSlots]

omit [DecidableEq Class] [DecidableEq Method] in
theorem declaredSlots_of_none {klass : Class} (parent : image.parent klass = none) :
    declaredSlots image klass = (image.methods klass).filter image.hasSlot := by
  simp [declaredSlots, image.lineage_of_none parent]

omit [DecidableEq Class] [DecidableEq Method] in
theorem declaredSlots_of_parent {klass above : Class} (parent : image.parent klass = some above) :
    declaredSlots image klass =
      declaredSlots image above ++ (image.methods klass).filter image.hasSlot := by
  simp [declaredSlots, image.lineage_of_parent parent]

omit [DecidableEq Class] [DecidableEq Method] in
theorem declaredSlots_prefix (image : Image Class Interface Method Signature)
    {klass ancestor : Class} (membership : ancestor ∈ image.lineage klass) :
    ∃ more, declaredSlots image klass = declaredSlots image ancestor ++ more := by
  refine image.forall_lineage (motive := fun ancestor =>
    ∃ more, declaredSlots image klass = declaredSlots image ancestor ++ more) ?_ ⟨[], by simp⟩
    membership
  rintro node above parent ⟨more, split⟩
  refine ⟨(image.methods node).filter image.hasSlot ++ more, ?_⟩
  rw [split, declaredSlots_of_parent parent, List.append_assoc]

omit [DecidableEq Class] [DecidableEq Method] in
theorem createVTableEntries_keys {klass : Class} {entries : List (Nat × Method)}
    (made : createVTableEntries image index klass = some entries) :
    entries.map Prod.fst ~ (declaredSlots image klass).map index ∧
      (entries.map Prod.fst).head? = ((declaredSlots image klass).map index).head? ∧
      ∀ node ∈ image.lineage klass, ∀ method ∈ image.methods node,
        image.isVirtual method = true → image.isRuntime method = false →
          image.hasSlot method = false → index method < entries.length := by
  induction klass using image.parent_induction generalizing entries with
  | step klass ih =>
    rw [createVTableEntries_eq] at made
    obtain ⟨inherited, above, run⟩ := Option.bind_eq_some_iff.mp made
    obtain ⟨perm, head, overriding⟩ := addMethods_keys run
    have length : inherited.length ≤ entries.length := by
      have total := perm.length_eq
      simp only [List.length_map, List.length_append] at total
      omega
    cases parent : image.parent klass with
    | none =>
      rw [parent] at above
      cases above
      rw [declaredSlots_of_none parent]
      refine ⟨perm, head, ?_⟩
      intro node membership
      rw [image.lineage_of_none parent, List.mem_singleton] at membership
      subst membership
      exact overriding
    | some parentClass =>
      rw [parent] at above
      obtain ⟨abovePerm, aboveHead, aboveOverriding⟩ :=
        ih parentClass parent above
      rw [declaredSlots_of_parent parent, List.map_append]
      refine ⟨perm.trans (abovePerm.append_right _), ?_, ?_⟩
      · rw [head, List.head?_append, aboveHead, ← List.head?_append]
      · intro node membership method listed virtual notRuntime slotless
        rw [image.lineage_of_parent parent] at membership
        rcases List.mem_cons.mp membership with rfl | inLineage
        · exact overriding method listed virtual notRuntime slotless
        · exact (aboveOverriding node inLineage method listed virtual notRuntime
            slotless).trans_le length

end Keys

theorem mem_ownSlots_of_hasSlot {klass : Class} {method : Method}
    (declared : method ∈ image.methods klass) (slot : image.hasSlot method = true) :
    method ∈ image.ownSlots klass := by
  by_cases implements_ : method ∈ image.implementations klass
  · exact List.mem_append_left _ implements_
  · apply List.mem_append_right
    exact List.mem_filter.mpr ⟨declared, by simp [slot, implements_]⟩

theorem mem_slots_of_hasSlot {klass node : Class} {method : Method}
    (membership : node ∈ image.lineage klass) (declared : method ∈ image.methods node)
    (slot : image.hasSlot method = true) : method ∈ image.slots klass := by
  obtain ⟨more, split⟩ := Image.slots_prefix membership
  rw [split, Image.slots_eq]
  apply List.mem_append_left
  exact List.mem_append_right _ (mem_ownSlots_of_hasSlot declared slot)

omit [DecidableEq Class] [DecidableEq Method] in
theorem noSlot_of_ancestor {node above ancestor : Class} {method : Method}
    (noneAbove : ∀ ancestor ∈ image.lineage node, ancestor ≠ node →
      ∀ method ∈ image.methods ancestor, image.hasSlot method = false)
    (parent : image.parent node = some above) (membership : ancestor ∈ image.lineage above)
    (declared : method ∈ image.methods ancestor) : image.hasSlot method = false := by
  refine noneAbove ancestor ?_ ?_ method declared
  · rw [image.lineage_of_parent parent]
    exact List.mem_cons_of_mem _ membership
  · rintro rfl
    exact image.not_mem_lineage_parent parent membership

omit [DecidableEq Class] [DecidableEq Method] in
theorem declaredSlots_of_noneAbove {node : Class}
    (noneAbove : ∀ ancestor ∈ image.lineage node, ancestor ≠ node →
      ∀ method ∈ image.methods ancestor, image.hasSlot method = false) :
    declaredSlots image node = (image.methods node).filter image.hasSlot := by
  cases parent : image.parent node with
  | none => exact declaredSlots_of_none parent
  | some above =>
    have empty : declaredSlots image above = [] := by
      apply List.eq_nil_iff_forall_not_mem.mpr
      intro other listed
      obtain ⟨ancestor, inAncestors, inMethods, slot⟩ := mem_declaredSlots.mp listed
      rw [noSlot_of_ancestor noneAbove parent inAncestors inMethods] at slot
      cases slot
    rw [declaredSlots_of_parent parent, empty, List.nil_append]

section Necessity

variable (wellFormed : WellFormed image) {klass : Class} {index : Method → Nat}
  {entries : List (Nat × Method)} (latest : Latest (image.slots klass) index)
  (made : createVTableEntries image index klass = some entries)
  (keys : entries.map Prod.fst = List.range entries.length)

include wellFormed latest made keys

omit wellFormed in
theorem exists_slot_of_lt {number : Nat} (less : number < entries.length) :
    ∃ method ∈ declaredSlots image klass, index method = number ∧
      (image.slots klass)[number]? = some method := by
  have isKey : number ∈ (declaredSlots image klass).map index := by
    rw [← (createVTableEntries_keys made).1.mem_iff, keys]
    exact List.mem_range.mpr less
  obtain ⟨method, declared, rfl⟩ := List.mem_map.mp isKey
  obtain ⟨node, inLineage, inMethods, slot⟩ := mem_declaredSlots.mp declared
  obtain ⟨position, entry⟩ :=
    List.getElem?_of_mem (mem_slots_of_hasSlot inLineage inMethods slot)
  exact ⟨method, declared, rfl, (latest position method entry).2⟩

theorem mem_declaredSlots_of_mem_slots {method : Method} (listed : method ∈ image.slots klass) :
    method ∈ declaredSlots image klass := by
  obtain ⟨virtual, notRuntime, node, inLineage, declared⟩ := slots_declared wellFormed listed
  apply mem_declaredSlots.mpr
  refine ⟨node, inLineage, declared, ?_⟩
  by_contra noSlot
  have bound := (createVTableEntries_keys made).2.2 node inLineage method declared virtual
    notRuntime (Bool.not_eq_true _ ▸ noSlot)
  obtain ⟨position, entry⟩ := List.getElem?_of_mem listed
  obtain ⟨other, otherDeclared, _, otherEntry⟩ :=
    exists_slot_of_lt latest made keys bound
  rw [(latest position method entry).2] at otherEntry
  cases otherEntry
  obtain ⟨_, _, _, slot⟩ := mem_declaredSlots.mp otherDeclared
  exact noSlot slot

theorem index_of_getElem? {position : Nat} {method : Method}
    (entry : (image.slots klass)[position]? = some method) : index method = position := by
  have declared := mem_declaredSlots_of_mem_slots wellFormed latest made keys
    (List.mem_of_getElem? entry)
  have bound : index method < entries.length := by
    have isKey : index method ∈ entries.map Prod.fst := by
      rw [(createVTableEntries_keys made).1.mem_iff]
      exact List.mem_map_of_mem declared
    rw [keys] at isKey
    exact List.mem_range.mp isKey
  have notAfter := (latest position method entry).1
  obtain ⟨other, _, otherIndex, otherEntry⟩ :=
    exists_slot_of_lt latest made keys (notAfter.trans_lt bound)
  rw [entry] at otherEntry
  cases otherEntry
  exact otherIndex

theorem nodup_slots_of_dense : (image.slots klass).Nodup := by
  rw [List.nodup_iff_getElem?_ne_getElem?]
  intro first second less bound same
  obtain ⟨method, entry⟩ : ∃ method, (image.slots klass)[second]? = some method :=
    ⟨_, List.getElem?_eq_getElem bound⟩
  have firstIndex := index_of_getElem? wellFormed latest made keys (same.trans entry)
  have secondIndex := index_of_getElem? wellFormed latest made keys entry
  omega

theorem inheritedSlots_eq_nil {node : Class} (inLineage : node ∈ image.lineage klass)
    (noneAbove : ∀ ancestor ∈ image.lineage node, ancestor ≠ node →
      ∀ method ∈ image.methods ancestor, image.hasSlot method = false) :
    image.inheritedSlots node = [] := by
  obtain ⟨more, split⟩ := Image.slots_prefix inLineage
  apply List.eq_nil_iff_forall_not_mem.mpr
  intro other inInherited
  have declared := mem_declaredSlots_of_mem_slots wellFormed latest made keys
    (show other ∈ image.slots klass by
      rw [split, Image.slots_eq]
      exact List.mem_append_left _ (List.mem_append_left _ inInherited))
  obtain ⟨_, _, _, slot⟩ := mem_declaredSlots.mp declared
  cases parent : image.parent node with
  | none => simp [Image.inheritedSlots, parent] at inInherited
  | some above =>
    rw [Image.inheritedSlots_of_parent parent] at inInherited
    obtain ⟨_, _, ancestor, inAncestors, inMethods⟩ := slots_declared wellFormed inInherited
    rw [noSlot_of_ancestor noneAbove parent inAncestors inMethods] at slot
    cases slot

/-- In a class with a dense vtable and in its ancestors, interfaces are
implemented by distinct methods of the class with slots of their own. -/
theorem ownSlotMethods_of_dense {node : Class} (inLineage : node ∈ image.lineage klass) :
    OwnSlotMethods image node := by
  obtain ⟨more, split⟩ := Image.slots_prefix inLineage
  have nodup := nodup_slots_of_dense wellFormed latest made keys
  rw [split, Image.slots_eq] at nodup
  have nodeNodup := (List.nodup_append.mp nodup).1
  have implementation : ∀ method ∈ image.implementations node, method ∈ image.slots klass := by
    intro method listed
    rw [split, Image.slots_eq]
    exact List.mem_append_left _ (List.mem_append_right _ (List.mem_append_left _ listed))
  have own : ∀ method ∈ image.implementations node,
      method ∈ image.methods node ∧ image.hasSlot method = true := by
    intro method listed
    have declared := mem_declaredSlots_of_mem_slots wellFormed latest made keys
      (implementation method listed)
    obtain ⟨_, _, _, slot⟩ := mem_declaredSlots.mp declared
    obtain ⟨_, _, ancestor, above, inMethods⟩ := mem_implementations wellFormed listed
    refine ⟨?_, slot⟩
    cases parent : image.parent node with
    | none =>
      rw [image.lineage_of_none parent, List.mem_singleton] at above
      rwa [← above]
    | some parentClass =>
      rw [image.lineage_of_parent parent] at above
      rcases List.mem_cons.mp above with rfl | inAncestors
      · exact inMethods
      · exfalso
        have inherited : method ∈ image.inheritedSlots node := by
          rw [Image.inheritedSlots_of_parent parent]
          exact mem_slots_of_hasSlot inAncestors inMethods slot
        exact (List.nodup_append.mp nodeNodup).2.2 method inherited method
          (List.mem_append_left _ listed) rfl
  refine ⟨(List.nodup_append.mp (List.nodup_append.mp nodeNodup).2.1).1, own, ?_⟩
  intro noneAbove method head
  have listed : method ∈ image.implementations node := List.mem_of_mem_head? (by simp [head])
  have inherited := inheritedSlots_eq_nil wellFormed latest made keys inLineage noneAbove
  have firstSlot : (image.slots klass)[0]? = some method := by
    rw [split, Image.slots_eq, inherited, List.nil_append, ← List.head?_eq_getElem?,
      Image.ownSlots, List.append_assoc, List.head?_append, head]
    rfl
  obtain ⟨later, declaredSplit⟩ := declaredSlots_prefix image inLineage
  rw [declaredSlots_of_noneAbove noneAbove] at declaredSplit
  obtain ⟨declared, slot⟩ := own method listed
  cases slotMethods : (image.methods node).filter image.hasSlot with
  | nil =>
    have listedSlot := List.mem_filter.mpr ⟨declared, slot⟩
    rw [slotMethods] at listedSlot
    cases listedSlot
  | cons first rest =>
    rw [slotMethods] at declaredSplit
    have firstIndex : index first = 0 := by
      have firstKey := (createVTableEntries_keys made).2.1
      rw [declaredSplit, keys, List.head?_range] at firstKey
      split at firstKey
      · cases firstKey
      · exact (Option.some.inj firstKey).symm
    have firstDeclared : first ∈ declaredSlots image klass := by
      rw [declaredSplit]
      exact List.mem_cons_self
    obtain ⟨ancestor, inAncestors, inMethods, firstHasSlot⟩ := mem_declaredSlots.mp firstDeclared
    obtain ⟨position, entry⟩ :=
      List.getElem?_of_mem (mem_slots_of_hasSlot inAncestors inMethods firstHasSlot)
    have atZero := (latest position first entry).2
    rw [firstIndex, firstSlot] at atZero
    cases atZero
    rfl

end Necessity

omit [DecidableEq Method] in
theorem getElem?_key {front : List (Nat × Method)} (keys : front.map Prod.fst = List.range front.length)
    {position : Nat} (bound : position < front.length) (back : List (Nat × Method)) :
    ((front ++ back)[position]?).map Prod.fst = some position := by
  rw [List.getElem?_append_left bound, ← List.getElem?_map, keys, List.getElem?_range bound]

omit [DecidableEq Method] in
theorem addVTableSlot_append {entry : Nat × Method} {front back added : List (Nat × Method)}
    (below : ∀ other ∈ front, other.1 < entry.1)
    (run : addVTableSlot entry (front ++ back) = some added) :
    ∃ newBack, added = front ++ newBack := by
  cases front with
  | nil => exact ⟨added, rfl⟩
  | cons first front =>
    rw [List.cons_append, addVTableSlot, insertEntry_append fun other listed =>
      below other (List.mem_cons_of_mem _ listed), Option.map_map] at run
    obtain ⟨newBack, _, rfl⟩ := Option.map_eq_some_iff.mp run
    exact ⟨newBack, rfl⟩

omit [DecidableEq Class] [DecidableEq Method] in
/-- The loop over the methods of a class finds the entries of the overriding
methods among those of the ancestors. -/
theorem changesRight_of_inherited {index : Method → Nat} {methods : List Method}
    {front back : List (Nat × Method)} (keys : front.map Prod.fst = List.range front.length)
    (overriding : ∀ method ∈ methods, image.isVirtual method = true →
      image.isRuntime method = false → ∀ base, image.getBase method = some base →
        index method < front.length)
    (new : ∀ method ∈ methods, image.hasSlot method = true → front.length ≤ index method) :
    ChangesRight image index methods (front ++ back) := by
  induction methods generalizing front back with
  | nil => trivial
  | cons method rest ih =>
    have restOverriding : ∀ other ∈ rest, image.isVirtual other = true →
        image.isRuntime other = false → ∀ base, image.getBase other = some base →
          index other < front.length :=
      fun other membership => overriding other (List.mem_cons_of_mem _ membership)
    have restNew : ∀ other ∈ rest, image.hasSlot other = true → front.length ≤ index other :=
      fun other membership => new other (List.mem_cons_of_mem _ membership)
    rw [ChangesRight]
    split
    · rename_i entered
      simp only [Bool.and_eq_true, Bool.not_eq_true'] at entered
      cases base : image.getBase method with
      | some found =>
        have bound := overriding method List.mem_cons_self entered.1 entered.2 found base
        refine ⟨getElem?_key keys bound back, fun changed run => ?_⟩
        obtain ⟨newFront, equation, sameKeys⟩ := changeVTableSlot_spec bound method back
        rw [run] at equation
        cases equation
        have sameLength : newFront.length = front.length := by
          simpa using congrArg List.length sameKeys
        apply ih
        · rw [sameKeys, keys, sameLength]
        · rwa [sameLength]
        · rwa [sameLength]
      | none =>
        intro added run
        have slot : image.hasSlot method = true := by
          simp [Image.hasSlot, base, entered.1, entered.2]
        have below : ∀ other ∈ front, other.1 < index method := by
          intro other listed
          have isKey : other.1 ∈ front.map Prod.fst := List.mem_map_of_mem listed
          rw [keys, List.mem_range] at isKey
          exact isKey.trans_le (new method List.mem_cons_self slot)
        obtain ⟨newBack, rfl⟩ := addVTableSlot_append below run
        exact ih keys restOverriding restNew
    · exact ih keys restOverriding restNew

theorem createVTableEntries_range {klass : Class} {indices : Indices Method}
    (own : image.LineageOwn klass) (numbered : Numbered image klass indices) :
    ∃ entries, createVTableEntries image indices.index klass = some entries ∧
      entries.map Prod.fst = List.range (image.slots klass).length := by
  obtain ⟨front, equation, keys⟩ := createVTableEntries_spec own numbered
  refine ⟨_, equation, ?_⟩
  have indexed := numbered.ownSlots_index
  rw [Image.slots_eq, List.map_append, keys, List.map_map, List.length_append,
    List.range_eq_range', List.range_eq_range', ← List.range'_append_1, Nat.zero_add, ← indexed]
  rfl

theorem Numbered.ancestor {klass node : Class} {indices : Indices Method}
    (own : image.LineageOwn klass) (numbered : Numbered image klass indices)
    (membership : node ∈ image.lineage klass) :
    image.LineageOwn node ∧ Numbered image node indices := by
  refine image.forall_lineage (motive := fun node =>
    image.LineageOwn node ∧ Numbered image node indices) ?_ ⟨own, numbered⟩ membership
  rintro node above parent ⟨nodeOwn, nodeNumbered⟩
  exact ⟨nodeOwn.parent parent, nodeNumbered.parent parent⟩

theorem Numbered.le_index {klass : Class} {indices : Indices Method}
    (numbered : Numbered image klass indices) {method : Method}
    (declared : method ∈ image.methods klass) (slot : image.hasSlot method = true) :
    (image.inheritedSlots klass).length ≤ indices.index method := by
  obtain ⟨position, entry⟩ := List.getElem?_of_mem (mem_ownSlots_of_hasSlot declared slot)
  have found : (image.slots klass)[(image.inheritedSlots klass).length + position]? =
      some method := by
    rw [Image.slots_eq, List.getElem?_append_right (by omega), Nat.add_sub_cancel_left, entry]
  rw [numbered.index _ method found]
  omega

theorem changesRight_of_numbered {klass : Class} {indices : Indices Method}
    (own : image.LineageOwn klass) (numbered : Numbered image klass indices)
    {inherited : List (Nat × Method)}
    (above : inheritedEntries image indices.index klass = some inherited) :
    ChangesRight image indices.index (image.methods klass) inherited := by
  have keys : inherited.map Prod.fst = List.range (image.inheritedSlots klass).length := by
    unfold inheritedEntries at above
    cases parent : image.parent klass with
    | none =>
      rw [parent] at above
      cases above
      simp [Image.inheritedSlots, parent]
    | some parentClass =>
      rw [parent] at above
      obtain ⟨entries, made, keys⟩ :=
        createVTableEntries_range (own.parent parent) (numbered.parent parent)
      dsimp only at above
      rw [above] at made
      cases made
      rw [keys, Image.inheritedSlots_of_parent parent]
  have length : inherited.length = (image.inheritedSlots klass).length := by
    simpa using congrArg List.length keys
  have right : ChangesRight image indices.index (image.methods klass) (inherited ++ []) := by
    apply changesRight_of_inherited
    · rw [keys, length]
    · intro method declared virtual notRuntime base found
      rw [length]
      exact numbered.overriding klass (image.self_mem_lineage klass) method declared virtual
        notRuntime base found
    · intro method declared slot
      rw [length]
      exact numbered.le_index declared slot
  rwa [List.append_nil] at right

/-- What a class compiled before has left of the flags `count` does not keep a
method of the class or of an ancestor from its number: a method that has the flag
implements an interface of its own class. -/
def Unflagged (image : Image Class Interface Method Signature) (indices : Indices Method)
    (klass : Class) : Prop :=
  ∀ node ∈ image.lineage klass, ∀ method ∈ image.methods node,
    indices.count method = true → method ∈ image.implementations node

structure SameNumbers (left right : Indices Method × Nat) : Prop where
  index : left.1.index = right.1.index
  next : left.2 = right.2

theorem assignImplementations_congr (image : Image Class Interface Method Signature)
    (klass : Class) (methods : List Method) {left right : Indices Method} (index : left.index = right.index) (next : Nat) :
    Option.Rel (fun left' right' => SameNumbers left' right' ∧
        ∀ method, left.count method = right.count method ∨
            method ∈ methods.filterMap (image.getMethodImpl klass) →
          left'.1.count method = right'.1.count method)
      (assignImplementations image klass methods next left)
      (assignImplementations image klass methods next right) := by
  induction methods generalizing left right next with
  | nil => exact .some ⟨⟨index, rfl⟩, fun method counted => counted.resolve_right (by simp)⟩
  | cons method rest ih =>
    simp only [assignImplementations]
    cases found : image.getMethodImpl klass method with
    | none => exact .none
    | some implementation =>
      have assigned : (left.assign implementation next).index =
          (right.assign implementation next).index := by
        simp only [Indices.assign, index]
      refine Lib.rel_mono (ih assigned (next + 1)) ?_
      rintro left' right' ⟨same, counts⟩
      refine ⟨same, fun other counted => counts other ?_⟩
      rw [List.filterMap_cons_some found, List.mem_cons] at counted
      by_cases isThis : other = implementation
      · subst isThis
        simp [Indices.assign]
      · rw [Indices.assign_count_of_ne _ isThis, Indices.assign_count_of_ne _ isThis]
        exact counted.imp_right (Or.resolve_left · isThis)

omit [DecidableEq Class] in
theorem assignVirtuals_congr (image : Image Class Interface Method Signature)
    {methods : List Method} (nodup : methods.Nodup) {left right : Indices Method} (index : left.index = right.index)
    (counts : ∀ method ∈ methods, left.count method = right.count method) (next : Nat) :
    SameNumbers (assignVirtuals image methods next left)
        (assignVirtuals image methods next right) ∧
      ∀ method, left.count method = right.count method →
        (assignVirtuals image methods next left).1.count method =
          (assignVirtuals image methods next right).1.count method := by
  induction methods generalizing left right next with
  | nil => exact ⟨⟨index, rfl⟩, fun _ counted => counted⟩
  | cons method rest ih =>
    obtain ⟨fresh, restNodup⟩ := List.nodup_cons.mp nodup
    have here := counts method List.mem_cons_self
    have later : ∀ other ∈ rest, left.count other = right.count other :=
      fun other listed => counts other (List.mem_cons_of_mem _ listed)
    have assign : ∀ number following,
        SameNumbers (assignVirtuals image rest following (left.assign method number))
            (assignVirtuals image rest following (right.assign method number)) ∧
          ∀ other, left.count other = right.count other →
            (assignVirtuals image rest following (left.assign method number)).1.count other =
              (assignVirtuals image rest following (right.assign method number)).1.count other := by
      intro number following
      have assigned : ∀ other, left.count other = right.count other →
          (left.assign method number).count other = (right.assign method number).count other := by
        intro other same
        by_cases isThis : other = method
        · simp [Indices.assign, isThis]
        · rw [Indices.assign_count_of_ne _ isThis, Indices.assign_count_of_ne _ isThis, same]
      obtain ⟨same, kept⟩ := ih restNodup
        (by simp only [Indices.assign, index])
        (fun other listed => assigned other (later other listed)) following
      exact ⟨same, fun other counted => kept other (assigned other counted)⟩
    simp only [assignVirtuals, here]
    split
    · cases base : image.getBase method with
      | none => exact assign next (next + 1)
      | some found =>
        dsimp only
        rw [index]
        exact assign _ next
    · exact ih restNodup index later next

/-- The flags that a class compiled before has left do not change the numbers
that a class gets, if its methods are unflagged. -/
theorem createVirtualMethodsIndices_congr (image : Image Class Interface Method Signature)
    (klass : Class) {left right : Indices Method} (index : left.index = right.index)
    (counts : ∀ node ∈ image.lineage klass, ∀ method ∈ image.methods node,
      left.count method = right.count method ∨ method ∈ image.implementations node) :
    Option.Rel (fun left' right' => SameNumbers left' right' ∧
        ∀ method, left.count method = right.count method →
          left'.1.count method = right'.1.count method)
      (createVirtualMethodsIndices image klass left)
      (createVirtualMethodsIndices image klass right) := by
  induction klass using image.parent_induction with
  | step klass ih =>
    have start : Option.Rel (fun left' right' => SameNumbers left' right' ∧
          ∀ method, left.count method = right.count method →
            left'.1.count method = right'.1.count method)
        (match image.parent klass with
          | some above => createVirtualMethodsIndices image above left
          | none => some (left, 0))
        (match image.parent klass with
          | some above => createVirtualMethodsIndices image above right
          | none => some (right, 0)) := by
      cases parent : image.parent klass with
      | none => exact .some ⟨⟨index, rfl⟩, fun _ same => same⟩
      | some above =>
        refine ih above parent fun node inLineage => counts node ?_
        rw [image.lineage_of_parent parent]
        exact List.mem_cons_of_mem _ inLineage
    rw [createVirtualMethodsIndices_eq, createVirtualMethodsIndices_eq]
    revert start
    generalize (match image.parent klass with
      | some above => createVirtualMethodsIndices image above left
      | none => some (left, 0)) = startLeft
    generalize (match image.parent klass with
      | some above => createVirtualMethodsIndices image above right
      | none => some (right, 0)) = startRight
    rintro (⟨⟨started, keptAbove⟩⟩ | _)
    swap
    · exact .none
    rename_i startedLeft startedRight
    simp only [Option.bind_some]
    have interfaces := assignImplementations_congr image klass (image.listedMethods klass)
      started.index startedLeft.2
    rw [createVirtualMethodsIndicesForInterfaces, createVirtualMethodsIndicesForInterfaces,
      ← started.next]
    revert interfaces
    generalize assignImplementations image klass (image.listedMethods klass) startedLeft.2
      startedLeft.1 = middleLeft
    generalize assignImplementations image klass (image.listedMethods klass) startedLeft.2
      startedRight.1 = middleRight
    rintro (⟨⟨numbered, counted⟩⟩ | _)
    swap
    · exact .none
    rename_i pairLeft pairRight
    have agree : ∀ method ∈ image.methods klass,
        pairLeft.1.count method = pairRight.1.count method := fun method declared =>
      counted method ((counts klass (image.self_mem_lineage klass) method declared).imp_left
        (keptAbove method))
    obtain ⟨same, kept⟩ := assignVirtuals_congr image (image.methods_nodup klass) numbered.index agree
      pairLeft.2
    simp only [Option.map_some, ← numbered.next]
    refine .some ⟨⟨same.index, same.next⟩, fun method before => ?_⟩
    simp only [setMethodIndicesToInvalid]
    split
    · rfl
    · exact kept method (counted method (.inl (keptAbove method before)))

/-- The vtable of a class is dense if and only if the class and each of its
ancestors implements the methods of its interfaces by distinct methods of its
own that override nothing, in the first class with slots the first slot being
that of the first interface method.  No class compiled before has left a method
flagged. -/
theorem vtable_dense_iff (wellFormed : WellFormed image) (klass : Class)
    (implemented : ∀ node ∈ image.lineage klass, ∀ method ∈ image.listedMethods node,
      (image.getMethodImpl node method).isSome = true)
    {indices : Indices Method} (unflagged : Unflagged image indices klass) :
    (∃ result next, createVirtualMethodsIndices image klass indices = some (result, next) ∧
        DenseVTable image result.index klass) ↔
      ∀ node ∈ image.lineage klass, OwnSlotMethods image node := by
  let cleared : Indices Method := ⟨indices.index, fun _ => false⟩
  have clean : ∀ method, cleared.count method = false := fun _ => rfl
  obtain ⟨cleanResult, equation, latest, -⟩ :=
    createVirtualMethodsIndices_latest wellFormed klass implemented clean
  have counts : ∀ node ∈ image.lineage klass, ∀ method ∈ image.methods node,
      indices.count method = cleared.count method ∨ method ∈ image.implementations node := by
    intro node inLineage method declared
    cases flagged : indices.count method with
    | false => exact .inl rfl
    | true => exact .inr (unflagged node inLineage method declared flagged)
  have sameIndex : indices.index = cleared.index := rfl
  have same := createVirtualMethodsIndices_congr image klass sameIndex counts
  rw [equation] at same
  obtain ⟨⟨result, next⟩, numberedBy, ⟨sameIndex, -⟩, -⟩ := Lib.rel_some_right same
  simp only [numberedBy, Option.some.injEq, Prod.mk.injEq, exists_and_left, exists_eq_left',
    and_assoc]
  change DenseVTable image result.index klass ↔ _
  dsimp only at sameIndex
  rw [sameIndex]
  constructor
  · rintro ⟨⟨entries, made, keys⟩, _⟩ node membership
    exact ownSlotMethods_of_dense wellFormed latest made keys membership
  · intro condition
    have own : image.LineageOwn klass := fun node membership =>
      { implemented := implemented node membership
        distinct := (condition node membership).distinct
        own := (condition node membership).own
        base := fun method _ _ _ base found => wellFormed.bases method base found
        first := (condition node membership).first }
    obtain ⟨other, equation', numbered⟩ := createVirtualMethodsIndices_spec klass own clean
    obtain rfl : cleanResult = other := by
      rw [equation] at equation'
      exact (Prod.mk.inj (Option.some.inj equation')).1
    obtain ⟨entries, made, keys⟩ := createVTableEntries_range own numbered
    refine ⟨⟨entries, made, ?_⟩, fun node membership inherited above => ?_⟩
    swap
    · obtain ⟨nodeOwn, nodeNumbered⟩ := numbered.ancestor own membership
      exact changesRight_of_numbered nodeOwn nodeNumbered above
    have length := congrArg List.length keys
    rw [List.length_map, List.length_range] at length
    rw [keys, length]

theorem assignImplementations_count {klass : Class} {methods : List Method} {next next' : Nat}
    {indices result : Indices Method}
    (assigned : assignImplementations image klass methods next indices = some (result, next'))
    {method : Method} (flagged : result.count method = true) :
    indices.count method = true ∨ method ∈ methods.filterMap (image.getMethodImpl klass) := by
  induction methods generalizing next indices with
  | nil =>
    cases assigned
    exact .inl flagged
  | cons declared rest ih =>
    rw [assignImplementations] at assigned
    cases found : image.getMethodImpl klass declared with
    | none => simp [found] at assigned
    | some implementation =>
      rw [found] at assigned
      rw [List.filterMap_cons_some found, List.mem_cons]
      by_cases isThis : method = implementation
      · exact .inr (.inl isThis)
      · refine (ih assigned).imp (fun before => ?_) .inr
        rwa [Indices.assign_count_of_ne _ isThis] at before

omit [DecidableEq Class] in
theorem assignVirtuals_count {methods : List Method} {method : Method} (other : method ∉ methods)
    (next : Nat) (indices : Indices Method) :
    (assignVirtuals image methods next indices).1.count method = indices.count method := by
  induction methods generalizing next indices with
  | nil => rfl
  | cons declared rest ih =>
    obtain ⟨isOther, notLater⟩ := not_or.mp fun either => other (List.mem_cons.mpr either)
    rw [assignVirtuals]
    split
    · split <;>
        rw [ih notLater, Indices.assign_count_of_ne _ isOther]
    · exact ih notLater next indices

/-- A flag that a class leaves belongs to an inherited method that implements an
interface method for it or for an ancestor. -/
theorem createVirtualMethodsIndices_count {klass : Class} {indices result : Indices Method}
    {next : Nat}
    (numbered : createVirtualMethodsIndices image klass indices = some (result, next))
    {method : Method} (flagged : result.count method = true) :
    indices.count method = true ∨ ∃ node ∈ image.lineage klass,
      method ∈ image.implementations node ∧ method ∉ image.methods node := by
  induction klass using image.parent_induction generalizing result next with
  | step klass ih =>
    rw [createVirtualMethodsIndices_eq] at numbered
    obtain ⟨⟨before, first⟩, started, numbered⟩ := Option.bind_eq_some_iff.mp numbered
    obtain ⟨⟨middle, second⟩, interfaces, ends⟩ := Option.map_eq_some_iff.mp numbered
    cases ends
    simp only [setMethodIndicesToInvalid] at flagged
    split at flagged
    · cases flagged
    · rename_i other
      rw [assignVirtuals_count other] at flagged
      rcases assignImplementations_count interfaces flagged with earlier | implements_
      · cases parent : image.parent klass with
        | none =>
          rw [parent] at started
          cases started
          exact .inl earlier
        | some above =>
          rw [parent] at started
          rw [image.lineage_of_parent parent]
          refine (ih above parent started earlier).imp_right ?_
          rintro ⟨node, inLineage, inherited⟩
          exact ⟨node, List.mem_cons_of_mem _ inLineage, inherited⟩
      · exact .inr ⟨klass, image.self_mem_lineage klass, implements_, other⟩

theorem parseClass_count {klass : Class} {compilation result : Compilation Class Method}
    (parsed : parseClass image klass compilation = some result) {method : Method}
    (flagged : result.indices.count method = true) :
    compilation.indices.count method = true ∨ ∃ node ∈ image.lineage klass,
      method ∈ image.implementations node ∧ method ∉ image.methods node := by
  induction klass using image.parent_induction generalizing result with
  | step klass ih =>
    rw [parseClass] at parsed
    split at parsed
    · cases parsed
      exact .inl flagged
    · have emits : ∀ {middle : Compilation Class Method} {vtable indices next},
          createVirtualMethodsIndices image klass middle.indices = some (indices, next) →
            result = ⟨indices, Function.update middle.made klass (some ⟨indices.index, vtable⟩)⟩ →
              middle.indices.count method = true ∨ ∃ node ∈ image.lineage klass,
                method ∈ image.implementations node ∧ method ∉ image.methods node := by
        rintro middle vtable indices next numbered rfl
        exact createVirtualMethodsIndices_count numbered flagged
      simp only [Option.bind_eq_bind] at parsed
      split at parsed
      · rename_i above parent
        obtain ⟨middle, parsedAbove, rest⟩ := Option.bind_eq_some_iff.mp parsed
        obtain ⟨⟨indices, next⟩, numbered, rest⟩ := Option.bind_eq_some_iff.mp rest
        obtain ⟨vtable, -, ends⟩ := Option.bind_eq_some_iff.mp rest
        rcases emits numbered (Option.some.inj ends).symm with earlier | inherited
        · rw [image.lineage_of_parent parent]
          refine (ih above parent parsedAbove earlier).imp_right ?_
          rintro ⟨node, inLineage, implements_⟩
          exact ⟨node, List.mem_cons_of_mem _ inLineage, implements_⟩
        · exact .inr inherited
      · rw [Option.bind_some] at parsed
        obtain ⟨⟨indices, next⟩, numbered, rest⟩ := Option.bind_eq_some_iff.mp parsed
        obtain ⟨vtable, -, ends⟩ := Option.bind_eq_some_iff.mp rest
        exact emits numbered (Option.some.inj ends).symm

/-- In a run of `parse_class` the flags that are left come from the compiled
classes that implement an interface method by an inherited method. -/
theorem parseClasses_unflagged {classes : List Class} {compilation : Compilation Class Method}
    (parsed : parseClasses image classes Compilation.start = some compilation)
    (own : ∀ klass ∈ classes, ∀ node ∈ image.lineage klass,
      ∀ method ∈ image.implementations node, method ∈ image.methods node) (klass : Class) :
    Unflagged image compilation.indices klass := by
  suffices unflagged : ∀ start : Compilation Class Method,
      (∀ method, start.indices.count method = false) →
        parseClasses image classes start = some compilation →
          ∀ method, compilation.indices.count method = false by
    intro node _ method _ flagged
    rw [unflagged _ (fun _ => rfl) parsed method] at flagged
    cases flagged
  clear parsed
  induction classes with
  | nil =>
    rintro start clean ⟨⟩
    exact clean
  | cons first rest ih =>
    intro start clean parsed
    obtain ⟨middle, step, run⟩ := Option.bind_eq_some_iff.mp parsed
    refine ih (fun klass listed => own klass (List.mem_cons_of_mem _ listed))
      middle (fun method => ?_) run
    by_contra flagged
    rcases parseClass_count step (Bool.not_eq_false _ ▸ flagged) with earlier | inherited
    · rw [clean method] at earlier
      cases earlier
    · obtain ⟨node, inLineage, implements_, other⟩ := inherited
      exact other (own first List.mem_cons_self node inLineage method implements_)

theorem runnable_wellFormed (interfaces : List (Fin 2)) : WellFormed (runnable interfaces) := by
  refine ⟨?_, ?_, ?_⟩
  · intro klass override listed
    cases listed
  · intro klass method implementation _
    rfl
  · intro method base _
    rfl

/-- `Run` implements the methods of both interfaces and keeps the number of the
second, so that the number 1 is missing. -/
theorem runnable_not_dense :
    (∀ klass, ∀ method ∈ (runnable [0, 1]).listedMethods klass,
      ((runnable [0, 1]).getMethodImpl klass method).isSome = true) ∧
    ¬ ∃ result next,
      createVirtualMethodsIndices (runnable [0, 1]) 1 ⟨fun _ => 0, fun _ => false⟩ =
        some (result, next) ∧ DenseVTable (runnable [0, 1]) result.index 1 := by
  refine ⟨by decide +kernel, ?_⟩
  rintro ⟨result, next, numbered, ⟨entries, made, keys⟩, _⟩
  have facts : (createVirtualMethodsIndices (runnable [0, 1]) 1 ⟨fun _ => 0, fun _ => false⟩).bind
      (fun pair => (createVTableEntries (runnable [0, 1]) pair.1.index 1).map
        (List.map Prod.fst)) = some [0, 2] := by
    decide +kernel
  rw [numbered, Option.bind_some, made, Option.map_some, keys] at facts
  have length := congrArg List.length (Option.some.inj facts)
  rw [List.length_range] at length
  rw [length] at facts
  exact absurd facts (by decide)

/-- With one interface the vtable is dense. -/
theorem runnable_dense :
    ∃ result next, createVirtualMethodsIndices (runnable [0]) 1 ⟨fun _ => 0, fun _ => false⟩ =
        some (result, next) ∧ DenseVTable (runnable [0]) result.index 1 := by
  apply (vtable_dense_iff (runnable_wellFormed [0]) 1 (by decide +kernel)
    (fun _ _ _ _ flagged => absurd flagged Bool.false_ne_true)).mpr
  have own : ∀ klass, OwnSlotMethods (runnable [0]) klass := fun klass => by
    refine ⟨?_, ?_, ?_⟩ <;> revert klass <;> decide +kernel
  exact fun node _ => own node

end GccCil.Cil
