import Mathlib.Data.List.Perm.Basic
import GccCil.Cil.VirtualMethods
import GccCil.Libruntime.InterfaceTables

/-!
# Slots of interface methods

The compiler numbers the methods that implement an interface and the runtime
library numbers the slots of the interface.  The two agree as long as each class
implements the methods of its interfaces by distinct methods of its own that
override nothing.
-/

namespace GccCil.Cil

open scoped List

variable {Class Interface Method Signature : Type}

section Entries

def Ascending (entries : List (Nat × Method)) : Prop :=
  entries.Pairwise fun left right => left.1 < right.1

theorem insertEntry_spec {entry : Nat × Method} {entries : List (Nat × Method)}
    (ascending : Ascending entries) (fresh : entry.1 ∉ entries.map Prod.fst) :
    ∃ result, insertEntry entry entries = some result ∧ result.Perm (entry :: entries) ∧
      Ascending result := by
  induction entries with
  | nil => exact ⟨[entry], rfl, List.Perm.refl _, List.pairwise_singleton _ _⟩
  | cons other rest ih =>
    obtain ⟨otherLess, restAscending⟩ := List.pairwise_cons.mp ascending
    obtain ⟨different, restFresh⟩ : entry.1 ≠ other.1 ∧ entry.1 ∉ rest.map Prod.fst := by
      simpa only [List.map_cons, List.mem_cons, not_or] using fresh
    by_cases above : other.1 > entry.1
    · refine ⟨entry :: other :: rest, by simp [insertEntry, above], List.Perm.refl _, ?_⟩
      refine List.pairwise_cons.mpr ⟨fun later membership => ?_, ascending⟩
      rcases List.mem_cons.mp membership with rfl | inRest
      · exact above
      · exact above.trans (otherLess later inRest)
    · obtain ⟨result, inserted, permutation, resultAscending⟩ :=
        ih restAscending restFresh
      refine ⟨other :: result, ?_, ?_, ?_⟩
      · simp [insertEntry, above, Ne.symm different, inserted]
      · exact (permutation.cons other).trans (List.Perm.swap _ _ _)
      · refine List.pairwise_cons.mpr ⟨fun later membership => ?_, resultAscending⟩
        rcases List.mem_cons.mp (permutation.mem_iff.mp membership) with rfl | inRest
        · omega
        · exact otherLess later inRest

theorem insertEntry_append {entry : Nat × Method} {front : List (Nat × Method)}
    (below : ∀ other ∈ front, other.1 < entry.1) (back : List (Nat × Method)) :
    insertEntry entry (front ++ back) = (insertEntry entry back).map (front ++ ·) := by
  induction front with
  | nil => simp
  | cons other rest ih =>
    have less := below other List.mem_cons_self
    have notAbove : ¬ other.1 > entry.1 := by omega
    have different : other.1 ≠ entry.1 := by omega
    rw [List.cons_append, insertEntry, if_neg notAbove, if_neg different,
      ih fun later membership => below later (List.mem_cons_of_mem _ membership),
      Option.map_map]
    rfl

/-- The new entry comes to its place among the entries of its class, unless it
belongs in front of all entries. -/
theorem addVTableSlot_spec (entry : Nat × Method) {front back : List (Nat × Method)}
    (below : ∀ other ∈ front, other.1 < entry.1) (ascending : Ascending back)
    (fresh : entry.1 ∉ back.map Prod.fst)
    (notFirst : front ≠ [] ∨ ∀ first, back.head? = some first → first.1 < entry.1) :
    ∃ result, addVTableSlot entry (front ++ back) = some (front ++ result) ∧
      result.Perm (entry :: back) ∧ Ascending result ∧
      (front ≠ [] ∨ result.head? = (back ++ [entry]).head?) := by
  cases front with
  | cons first front =>
    obtain ⟨result, inserted, permutation, resultAscending⟩ := insertEntry_spec ascending fresh
    refine ⟨result, ?_, permutation, resultAscending, .inl (List.cons_ne_nil _ _)⟩
    rw [List.cons_append, addVTableSlot, insertEntry_append
      (fun other membership => below other (List.mem_cons_of_mem _ membership)), inserted]
    rfl
  | nil =>
    cases back with
    | nil => exact ⟨[entry], rfl, List.Perm.refl _, List.pairwise_singleton _ _, .inr rfl⟩
    | cons first back =>
      obtain ⟨firstLess, backAscending⟩ := List.pairwise_cons.mp ascending
      have backFresh : entry.1 ∉ back.map Prod.fst := fun membership =>
        fresh (List.mem_cons_of_mem _ membership)
      obtain ⟨result, inserted, permutation, resultAscending⟩ :=
        insertEntry_spec backAscending backFresh
      have less := notFirst.resolve_left (fun nonempty => nonempty rfl) first rfl
      refine ⟨first :: result, ?_, ?_, ?_, .inr rfl⟩
      · rw [List.nil_append, addVTableSlot, inserted]
        rfl
      · exact (permutation.cons first).trans (List.Perm.swap _ _ _)
      · refine List.pairwise_cons.mpr ⟨fun later membership => ?_, resultAscending⟩
        rcases List.mem_cons.mp (permutation.mem_iff.mp membership) with rfl | inBack
        · exact less
        · exact firstLess later inBack

theorem changeVTableSlot_spec {position : Nat} {front : List (Nat × Method)}
    (bound : position < front.length) (method : Method) (back : List (Nat × Method)) :
    ∃ result, changeVTableSlot position method (front ++ back) = some (result ++ back) ∧
      result.map Prod.fst = front.map Prod.fst := by
  refine ⟨front.set position ((front.get ⟨position, bound⟩).1, method), ?_, ?_⟩
  · have inFront : (front ++ back)[position]? = some (front.get ⟨position, bound⟩) := by
      rw [List.getElem?_append_left bound]
      exact List.getElem?_eq_getElem bound
    simp only [changeVTableSlot, inFront]
    rw [List.set_append_left _ _ bound]
  · rw [List.map_set]
    apply List.ext_getElem?
    intro other
    by_cases same : position = other
    · subst same
      simp [bound]
    · simp [same]

end Entries

variable [DecidableEq Class] [DecidableEq Method] [DecidableEq Signature]

namespace Image

variable (image : Image Class Interface Method Signature)

/-- The virtual methods for which `create_vtable_entries` adds a slot. -/
def hasSlot (method : Method) : Bool :=
  image.isVirtual method && !image.isRuntime method && (image.getBase method).isNone

def implementations (klass : Class) : List Method :=
  (image.listedMethods klass).filterMap (image.getMethodImpl klass)

/-- The methods with slots of their own, in the order of `create_virtual_methods_indices`. -/
def ownSlots (klass : Class) : List Method :=
  image.implementations klass ++ (image.methods klass).filter fun method =>
    image.hasSlot method && !decide (method ∈ image.implementations klass)

def slots (klass : Class) : List Method :=
  (match _parent : image.parent klass with
    | some above => slots above
    | none => []) ++ image.ownSlots klass
termination_by image.depth klass
decreasing_by exact image.depth_parent ‹_›

def inheritedSlots (klass : Class) : List Method :=
  match image.parent klass with
  | some above => image.slots above
  | none => []

/-- A class whose interfaces and whose runtime agree about the slots.  The last
field is about `add_vtable_slot`, which leaves the first entry where it is. -/
structure OwnImplementations (klass : Class) : Prop where
  implemented : ∀ method ∈ image.listedMethods klass,
    (image.getMethodImpl klass method).isSome = true
  distinct : (image.implementations klass).Nodup
  own : ∀ method ∈ image.implementations klass,
    method ∈ image.methods klass ∧ image.hasSlot method = true
  base : ∀ method ∈ image.methods klass, image.isVirtual method = true →
    image.isRuntime method = false → ∀ base, image.getBase method = some base →
    image.isRuntime base = false
  first : (∀ ancestor ∈ image.lineage klass, ancestor ≠ klass →
      ∀ method ∈ image.methods ancestor, image.hasSlot method = false) →
    ∀ method, (image.implementations klass).head? = some method →
      ((image.methods klass).filter image.hasSlot).head? = some method

variable {image}

theorem slots_eq (klass : Class) :
    image.slots klass = image.inheritedSlots klass ++ image.ownSlots klass := by
  rw [slots, inheritedSlots]
  split <;> simp_all

theorem ownSlots_perm {klass : Class} (own : image.OwnImplementations klass) :
    (image.ownSlots klass).Perm ((image.methods klass).filter image.hasSlot) := by
  refine (List.perm_ext_iff_of_nodup ?_ ((image.methods_nodup klass).filter _)).mpr ?_
  · refine List.nodup_append.mpr ⟨own.distinct, (image.methods_nodup klass).filter _, ?_⟩
    rintro method implements_ _ inRest rfl
    simp [implements_] at inRest
  · intro method
    simp only [ownSlots, List.mem_append, List.mem_filter, Bool.and_eq_true,
      Bool.not_eq_true', decide_eq_false_iff_not]
    have ownMethod := own.own method
    tauto

theorem mem_ownSlots {klass : Class} (own : image.OwnImplementations klass) {method : Method} :
    method ∈ image.ownSlots klass ↔
      method ∈ image.methods klass ∧ image.hasSlot method = true := by
  rw [(ownSlots_perm own).mem_iff, List.mem_filter]

omit [DecidableEq Class] [DecidableEq Method] [DecidableEq Signature] in
theorem not_mem_methods_of_ancestor {klass above ancestor : Class} {method : Method}
    (parent : image.parent klass = some above) (membership : ancestor ∈ image.lineage above)
    (declared : method ∈ image.methods ancestor) : method ∉ image.methods klass := by
  intro declaredHere
  have same : ancestor = klass :=
    (image.owner_methods declared).symm.trans (image.owner_methods declaredHere)
  exact image.not_mem_lineage_parent parent (same ▸ membership)

omit [DecidableEq Class] [DecidableEq Method] in
theorem getBase_spec {klass : Class} {method base : Method}
    (declared : method ∈ image.methods klass) (found : image.getBase method = some base) :
    ∃ above ancestor, image.parent klass = some above ∧ ancestor ∈ image.lineage above ∧
      base ∈ image.methods ancestor ∧ image.isVirtual base = true := by
  rw [getBase, image.owner_methods declared] at found
  cases parent : image.parent klass with
  | none => simp [image.lineage_of_none parent] at found
  | some above =>
    rw [image.lineage_of_parent parent, List.tail_cons] at found
    obtain ⟨ancestor, membership, inAncestor⟩ := List.exists_of_findSome?_eq_some found
    have virtual := List.find?_some inAncestor
    simp only [Bool.and_eq_true] at virtual
    exact ⟨above, ancestor, rfl, membership, List.mem_of_find?_eq_some inAncestor,
      virtual.1.2⟩

theorem inheritedSlots_of_parent {klass above : Class}
    (parent : image.parent klass = some above) :
    image.inheritedSlots klass = image.slots above := by
  simp [inheritedSlots, parent]

theorem slots_prefix {klass ancestor : Class} (membership : ancestor ∈ image.lineage klass) :
    ∃ more, image.slots klass = image.slots ancestor ++ more := by
  refine image.forall_lineage (motive := fun ancestor =>
    ∃ more, image.slots klass = image.slots ancestor ++ more) ?_ ⟨[], by simp⟩ membership
  rintro node above parent ⟨more, split⟩
  refine ⟨image.ownSlots node ++ more, ?_⟩
  rw [split, slots_eq node, inheritedSlots_of_parent parent, List.append_assoc]

/-- The classes above and the class itself implement their interfaces so. -/
def LineageOwn (image : Image Class Interface Method Signature) (klass : Class) : Prop :=
  ∀ node ∈ image.lineage klass, image.OwnImplementations node

theorem LineageOwn.self {klass : Class} (own : image.LineageOwn klass) :
    image.OwnImplementations klass :=
  own klass (image.self_mem_lineage klass)

theorem LineageOwn.parent {klass above : Class} (own : image.LineageOwn klass)
    (parent : image.parent klass = some above) : image.LineageOwn above := by
  intro node membership
  apply own node
  rw [image.lineage_of_parent parent]
  exact List.mem_cons_of_mem _ membership

theorem mem_slots {klass : Class} (own : image.LineageOwn klass)
    {method : Method} (membership : method ∈ image.slots klass) :
    ∃ ancestor ∈ image.lineage klass, method ∈ image.methods ancestor := by
  induction klass using image.parent_induction with
  | step klass ih =>
    rw [slots_eq] at membership
    rcases List.mem_append.mp membership with inherited | isOwn
    · cases parent : image.parent klass with
      | none => simp [inheritedSlots, parent] at inherited
      | some above =>
        rw [inheritedSlots_of_parent parent] at inherited
        obtain ⟨ancestor, inLineage, declared⟩ :=
          ih above parent (own.parent parent) inherited
        refine ⟨ancestor, ?_, declared⟩
        rw [image.lineage_of_parent parent]
        exact List.mem_cons_of_mem _ inLineage
    · exact ⟨klass, image.self_mem_lineage klass, ((mem_ownSlots own.self).mp isOwn).1⟩

end Image

variable {image : Image Class Interface Method Signature}

theorem assignImplementations_spec {klass : Class} {methods : List Method}
    (implemented : ∀ method ∈ methods, (image.getMethodImpl klass method).isSome = true)
    (distinct : (methods.filterMap (image.getMethodImpl klass)).Nodup) (next : Nat)
    (indices : Indices Method) :
    ∃ result, assignImplementations image klass methods next indices =
        some (result, next + (methods.filterMap (image.getMethodImpl klass)).length) ∧
      (∀ (position : Nat) method,
        (methods.filterMap (image.getMethodImpl klass))[position]? = some method →
          result.index method = next + position ∧ result.count method = true) ∧
      ∀ method ∉ methods.filterMap (image.getMethodImpl klass),
        result.index method = indices.index method ∧
          result.count method = indices.count method := by
  induction methods generalizing next indices with
  | nil => exact ⟨indices, rfl, by simp, by simp⟩
  | cons method rest ih =>
    obtain ⟨implementation, found⟩ :=
      Option.isSome_iff_exists.mp (implemented method List.mem_cons_self)
    rw [List.filterMap_cons_some found] at distinct ⊢
    obtain ⟨fresh, restDistinct⟩ := List.nodup_cons.mp distinct
    obtain ⟨result, equation, assigned, kept⟩ := ih
      (fun other membership => implemented other (List.mem_cons_of_mem _ membership))
      restDistinct (next + 1) (indices.assign implementation next)
    refine ⟨result, ?_, fun position other entry => ?_, fun other absent => ?_⟩
    · simp only [assignImplementations, found, equation, List.length_cons, Option.some.injEq,
        Prod.mk.injEq, true_and]
      omega
    · cases position with
      | zero =>
        obtain rfl : implementation = other := by simpa using entry
        simpa [Indices.assign] using kept implementation fresh
      | succ position =>
        obtain ⟨index, count⟩ := assigned position other (by simpa using entry)
        exact ⟨by omega, count⟩
    · obtain ⟨different, notInRest⟩ := not_or.mp fun either => absent (List.mem_cons.mpr either)
      simpa [Indices.assign, different] using kept other notInRest

def unassigned (image : Image Class Interface Method Signature) (indices : Indices Method)
    (method : Method) : Bool :=
  image.hasSlot method && !indices.count method

structure VirtualsAssigned (image : Image Class Interface Method Signature)
    (methods : List Method) (next : Nat) (indices result : Indices Method) : Prop where
  index : ∀ (position : Nat) method,
    (methods.filter (unassigned image indices))[position]? = some method →
      result.index method = next + position
  overriding : ∀ method ∈ methods, image.isVirtual method = true →
    image.isRuntime method = false → indices.count method = false →
    ∀ base, image.getBase method = some base → result.index method = indices.index base
  kept : ∀ method, method ∉ methods ∨ indices.count method = true →
    result.index method = indices.index method
  count : ∀ method ∉ methods, result.count method = indices.count method

def nextIndex (image : Image Class Interface Method Signature) (next : Nat)
    (indices : Indices Method) (method : Method) : Nat × Nat :=
  match image.getBase method with
  | some base => (indices.index base, next)
  | none => (next, next + 1)

section

variable {method : Method} {rest : List Method} {next : Nat} {indices result : Indices Method}

omit [DecidableEq Class] in
theorem filter_unassigned_assign (fresh : method ∉ rest) (index : Nat) :
    rest.filter (unassigned image (indices.assign method index)) =
      rest.filter (unassigned image indices) := by
  refine List.filter_congr fun other membership => ?_
  have different : other ≠ method := fun same => fresh (same ▸ membership)
  simp [unassigned, Indices.assign, different]

omit [DecidableEq Class] [DecidableEq Method] in
theorem filter_unassigned_cons (virtual : image.isVirtual method = true)
    (notRuntime : image.isRuntime method = false) (notCounted : indices.count method = false) :
    (method :: rest).filter (unassigned image indices) =
      if (image.getBase method).isNone then method :: rest.filter (unassigned image indices)
      else rest.filter (unassigned image indices) := by
  cases base : image.getBase method <;>
    simp [unassigned, Image.hasSlot, base, virtual, notRuntime, notCounted]

omit [DecidableEq Class] in
theorem VirtualsAssigned.cons_of_assign (virtual : image.isVirtual method = true)
    (notRuntime : image.isRuntime method = false) (notCounted : indices.count method = false)
    (fresh : method ∉ rest) (notBase : ∀ other ∈ rest, image.getBase other ≠ some method)
    (assigned : VirtualsAssigned image rest (nextIndex image next indices method).2
      (indices.assign method (nextIndex image next indices method).1) result) :
    VirtualsAssigned image (method :: rest) next indices result := by
  have different : ∀ other ∈ rest, other ≠ method := fun other membership same =>
    fresh (same ▸ membership)
  have own : result.index method = (nextIndex image next indices method).1 := by
    rw [assigned.kept method (.inl fresh)]
    simp [Indices.assign]
  have restIndex := assigned.index
  rw [filter_unassigned_assign fresh] at restIndex
  refine ⟨?_, ?_, ?_, ?_⟩
  · rw [filter_unassigned_cons virtual notRuntime notCounted]
    cases isBase : image.getBase method with
    | some base => simpa [nextIndex, isBase] using restIndex
    | none =>
      simp only [nextIndex, isBase] at own restIndex
      intro position other entry
      cases position with
      | zero =>
        obtain rfl : method = other := by simpa using entry
        exact own
      | succ position =>
        rw [restIndex position other (by simpa using entry)]
        omega
  · intro other membership otherVirtual otherNotRuntime otherNotCounted base found
    rcases List.mem_cons.mp membership with rfl | inRest
    · simpa [nextIndex, found] using own
    · have baseDifferent : base ≠ method := fun same => notBase other inRest (same ▸ found)
      rw [assigned.overriding other inRest otherVirtual otherNotRuntime
        (by simpa [Indices.assign, different other inRest] using otherNotCounted) base found]
      simp [Indices.assign, baseDifferent]
  · intro other untouched
    have otherDifferent : other ≠ method := by
      rintro rfl
      rcases untouched with absent | counted
      · exact absent List.mem_cons_self
      · exact Bool.false_ne_true (notCounted.symm.trans counted)
    rw [assigned.kept other]
    · simp [Indices.assign, otherDifferent]
    · refine untouched.imp (fun absent inRest => absent (List.mem_cons_of_mem _ inRest)) ?_
      simp [Indices.assign, otherDifferent]
  · intro other absent
    obtain ⟨otherDifferent, notInRest⟩ := not_or.mp fun either => absent (List.mem_cons.mpr either)
    rw [assigned.count other notInRest]
    simp [Indices.assign, otherDifferent]

omit [DecidableEq Class] [DecidableEq Method] in
theorem filter_unassigned_skip
    (skipped : ¬ (image.isVirtual method && !image.isRuntime method &&
      !indices.count method) = true) :
    (method :: rest).filter (unassigned image indices) =
      rest.filter (unassigned image indices) := by
  refine List.filter_cons_of_neg fun isUnassigned => skipped ?_
  simp only [unassigned, Image.hasSlot, Bool.and_eq_true] at isUnassigned ⊢
  tauto

omit [DecidableEq Class] [DecidableEq Method] in
theorem VirtualsAssigned.cons_of_skip
    (skipped : ¬ (image.isVirtual method && !image.isRuntime method &&
      !indices.count method) = true)
    (assigned : VirtualsAssigned image rest next indices result) :
    VirtualsAssigned image (method :: rest) next indices result := by
  refine ⟨by rw [filter_unassigned_skip skipped]; exact assigned.index, ?_, ?_, ?_⟩
  · intro other membership otherVirtual otherNotRuntime otherNotCounted
    rcases List.mem_cons.mp membership with rfl | inRest
    · exact absurd (by simp [otherVirtual, otherNotRuntime, otherNotCounted]) skipped
    · exact assigned.overriding other inRest otherVirtual otherNotRuntime otherNotCounted
  · exact fun other untouched => assigned.kept other
      (untouched.imp_left fun absent inRest => absent (List.mem_cons_of_mem _ inRest))
  · exact fun other absent => assigned.count other fun inRest =>
      absent (List.mem_cons_of_mem _ inRest)

end

omit [DecidableEq Class] in
theorem assignVirtuals_spec {methods : List Method} (nodup : methods.Nodup)
    (basesOutside : ∀ method ∈ methods, ∀ base, image.getBase method = some base →
      base ∉ methods) (next : Nat) (indices : Indices Method) :
    ∃ result, assignVirtuals image methods next indices =
        (result, next + (methods.filter (unassigned image indices)).length) ∧
      VirtualsAssigned image methods next indices result := by
  induction methods generalizing next indices with
  | nil => exact ⟨indices, rfl, by simp, by simp, by simp, by simp⟩
  | cons method rest ih =>
    obtain ⟨fresh, restNodup⟩ := List.nodup_cons.mp nodup
    have restOutside : ∀ other ∈ rest, ∀ base, image.getBase other = some base →
        base ∉ rest := fun other membership base found inRest =>
      basesOutside other (List.mem_cons_of_mem _ membership) base found
        (List.mem_cons_of_mem _ inRest)
    by_cases needs : (image.isVirtual method && !image.isRuntime method &&
        !indices.count method) = true
    · obtain ⟨result, equation, assigned⟩ := ih restNodup restOutside
        (nextIndex image next indices method).2
        (indices.assign method (nextIndex image next indices method).1)
      simp only [Bool.and_eq_true, Bool.not_eq_true'] at needs
      obtain ⟨⟨virtual, notRuntime⟩, notCounted⟩ := needs
      refine ⟨result, ?_, assigned.cons_of_assign virtual notRuntime notCounted fresh
        fun other membership isBase => basesOutside other (List.mem_cons_of_mem _ membership)
          method isBase List.mem_cons_self⟩
      rw [filter_unassigned_assign fresh] at equation
      rw [filter_unassigned_cons virtual notRuntime notCounted]
      cases base : image.getBase method with
      | some found =>
        simp only [nextIndex, base] at equation
        simp [assignVirtuals, virtual, notRuntime, notCounted, base, equation]
      | none =>
        simp only [nextIndex, base] at equation
        simp only [assignVirtuals, virtual, notRuntime, notCounted, base, equation,
          Bool.not_false, Bool.and_self, if_true, Option.isNone_none, List.length_cons,
          Prod.mk.injEq, true_and]
        omega
    · obtain ⟨result, equation, assigned⟩ :=
        ih restNodup restOutside next indices
      refine ⟨result, ?_, assigned.cons_of_skip needs⟩
      rw [filter_unassigned_skip needs]
      simpa [assignVirtuals, needs] using equation

/-- The indices after the pass over a class: the methods of the vtable have their
slots, and overriding methods have inherited ones. -/
structure Numbered (image : Image Class Interface Method Signature) (klass : Class)
    (indices : Indices Method) : Prop where
  clean : ∀ method, indices.count method = false
  index : ∀ (position : Nat) method, (image.slots klass)[position]? = some method →
    indices.index method = position
  overriding : ∀ ancestor ∈ image.lineage klass, ∀ method ∈ image.methods ancestor,
    image.isVirtual method = true → image.isRuntime method = false →
    ∀ base, image.getBase method = some base →
      indices.index method < (image.inheritedSlots ancestor).length

theorem Numbered.index_lt {klass ancestor : Class} {indices : Indices Method}
    (own : image.LineageOwn klass)
    (numbered : Numbered image klass indices) (membership : ancestor ∈ image.lineage klass)
    {method : Method} (declared : method ∈ image.methods ancestor)
    (virtual : image.isVirtual method = true) (notRuntime : image.isRuntime method = false) :
    indices.index method < (image.slots klass).length := by
  obtain ⟨more, split⟩ := Image.slots_prefix membership
  rw [split, Image.slots_eq, List.length_append, List.length_append]
  cases base : image.getBase method with
  | some found =>
    have bound := numbered.overriding ancestor membership method declared virtual notRuntime
      found base
    omega
  | none =>
    have inSlots : method ∈ image.ownSlots ancestor := (Image.mem_ownSlots (own ancestor membership)).mpr
      ⟨declared, by simp [Image.hasSlot, virtual, notRuntime, base]⟩
    obtain ⟨position, bound, entry⟩ := List.mem_iff_getElem.mp inSlots
    have found : (image.slots klass)[(image.inheritedSlots ancestor).length + position]? =
        some method := by
      rw [split, Image.slots_eq, List.append_assoc, List.getElem?_append_right (by omega),
        Nat.add_sub_cancel_left, List.getElem?_append_left bound]
      exact List.getElem?_eq_some_iff.mpr ⟨bound, entry⟩
    rw [numbered.index _ method found]
    omega

theorem Numbered.step (klass : Class) (own : image.LineageOwn klass)
    {indices : Indices Method} (next : Nat)
    (nextEq : next = (image.inheritedSlots klass).length)
    (clean : ∀ method, indices.count method = false)
    (inherited : ∀ above, image.parent klass = some above → Numbered image above indices) :
    ∃ middle result,
      createVirtualMethodsIndicesForInterfaces image klass next indices =
        some (middle, next + (image.implementations klass).length) ∧
      assignVirtuals image (image.methods klass) (next + (image.implementations klass).length)
        middle = (result, (image.slots klass).length) ∧
      Numbered image klass (setMethodIndicesToInvalid image klass result) := by
  obtain ⟨middle, equation, assigned, kept⟩ := assignImplementations_spec
    own.self.implemented own.self.distinct next indices
  have basesOutside : ∀ method ∈ image.methods klass, ∀ base,
      image.getBase method = some base → base ∉ image.methods klass := by
    intro method declared base found
    obtain ⟨above, ancestor, parent, inLineage, baseDeclared, -⟩ :=
      Image.getBase_spec declared found
    exact Image.not_mem_methods_of_ancestor parent inLineage baseDeclared
  obtain ⟨result, loop, virtuals⟩ := assignVirtuals_spec (image.methods_nodup klass)
    basesOutside (next + (image.implementations klass).length) middle
  have counted : ∀ method, middle.count method =
      decide (method ∈ image.implementations klass) := by
    intro method
    by_cases implements_ : method ∈ image.implementations klass
    · obtain ⟨position, bound, entry⟩ := List.mem_iff_getElem.mp implements_
      rw [(assigned position method (List.getElem?_eq_some_iff.mpr ⟨bound, entry⟩)).2]
      simp [implements_]
    · rw [(kept method implements_).2, clean method]
      simp [implements_]
  have ownEq : image.ownSlots klass = image.implementations klass ++
      (image.methods klass).filter (unassigned image middle) := by
    rw [Image.ownSlots]
    congr 1
    exact List.filter_congr fun method _ => by rw [unassigned, counted]
  have outside : ∀ method ∉ image.methods klass,
      result.index method = indices.index method ∧ result.count method = false := by
    intro method notDeclared
    have notImplementation : method ∉ image.implementations klass := fun implements_ =>
      notDeclared (own.self.own method implements_).1
    rw [virtuals.kept method (.inl notDeclared), virtuals.count method notDeclared]
    exact ⟨(kept method notImplementation).1, by simp [counted, notImplementation]⟩
  refine ⟨middle, result, equation, ?_, ?_, ?_, ?_⟩
  · rw [loop, Image.slots_eq, ownEq, List.length_append, List.length_append, nextEq]
    simp [Nat.add_assoc]
  · intro method
    by_cases declared : method ∈ image.methods klass
    · simp [setMethodIndicesToInvalid, declared]
    · simpa [setMethodIndicesToInvalid, declared] using (outside method declared).2
  · intro position method entry
    rw [Image.slots_eq, ownEq, List.getElem?_append, List.getElem?_append] at entry
    simp only [setMethodIndicesToInvalid]
    split at entry
    case isTrue isInherited =>
      cases parent : image.parent klass with
      | none => simp [Image.inheritedSlots, parent] at isInherited
      | some above =>
        rw [Image.inheritedSlots_of_parent parent] at entry
        obtain ⟨ancestor, inLineage, declared⟩ :=
          Image.mem_slots (own.parent parent) (List.mem_of_getElem? entry)
        rw [(outside method
          (Image.not_mem_methods_of_ancestor parent inLineage declared)).1]
        exact (inherited above parent).index position method entry
    case isFalse isOwn =>
      split at entry
      case isTrue implements_ =>
        obtain ⟨index, count⟩ := assigned _ method entry
        rw [virtuals.kept method (.inr count), index]
        omega
      case isFalse isRest =>
        rw [virtuals.index _ method entry]
        omega
  · intro ancestor membership method declared virtual notRuntime base found
    simp only [setMethodIndicesToInvalid]
    cases parent : image.parent klass with
    | none =>
      rw [image.lineage_of_none parent, List.mem_singleton] at membership
      subst membership
      obtain ⟨above, -, parent', -⟩ := Image.getBase_spec declared found
      cases parent.symm.trans parent'
    | some above =>
      rw [image.lineage_of_parent parent] at membership
      rcases List.mem_cons.mp membership with rfl | inLineage
      · have notImplementation : method ∉ image.implementations ancestor := by
          intro implements_
          have slot := (own.self.own method implements_).2
          simp [Image.hasSlot, found] at slot
        obtain ⟨above', baseAncestor, parent', baseLineage, baseDeclared, baseVirtual⟩ :=
          Image.getBase_spec declared found
        cases parent.symm.trans parent'
        have baseOutside : base ∉ image.implementations ancestor := fun implements_ =>
          basesOutside method declared base found (own.self.own base implements_).1
        rw [virtuals.overriding method declared virtual notRuntime
          (by simp [counted, notImplementation]) base found, (kept base baseOutside).1,
          Image.inheritedSlots_of_parent parent]
        exact (inherited above parent).index_lt (own.parent parent) baseLineage baseDeclared baseVirtual
          (own.self.base method declared virtual notRuntime base found)
      · rw [(outside method
          (Image.not_mem_methods_of_ancestor parent inLineage declared)).1]
        exact (inherited above parent).overriding ancestor inLineage method declared virtual
          notRuntime base found

theorem createVirtualMethodsIndices_spec (klass : Class) (own : image.LineageOwn klass)
    {indices : Indices Method}
    (clean : ∀ method, indices.count method = false) :
    ∃ result, createVirtualMethodsIndices image klass indices =
        some (result, (image.slots klass).length) ∧ Numbered image klass result := by
  induction klass using image.parent_induction with
  | step klass ih =>
    rw [createVirtualMethodsIndices]
    cases parent : image.parent klass with
    | none =>
      obtain ⟨middle, result, first, second, numbered⟩ := Numbered.step klass own 0
        (by simp [Image.inheritedSlots, parent]) clean (by simp [parent])
      rw [Nat.zero_add] at first second
      exact ⟨_, by simp [first, second], numbered⟩
    | some above =>
      obtain ⟨aboveResult, equation, aboveNumbered⟩ :=
        ih above parent (own.parent parent)
      obtain ⟨middle, result, first, second, numbered⟩ := Numbered.step klass own
        (image.slots above).length (by rw [Image.inheritedSlots_of_parent parent])
        aboveNumbered.clean fun other isParent => by
          cases parent.symm.trans isParent
          exact aboveNumbered
      exact ⟨_, by simp [equation, first, second], numbered⟩

section

variable {index : Method → Nat}

def pendingIndices (image : Image Class Interface Method Signature) (index : Method → Nat)
    (methods : List Method) (back : List (Nat × Method)) : List Nat :=
  back.map Prod.fst ++ (methods.filter image.hasSlot).map index

omit [DecidableEq Class] [DecidableEq Method] in
/-- The loop over the methods of a class changes only methods of the inherited
entries (`front`) and sorts the new ones behind them (`back`). -/
theorem addMethods_spec {methods : List Method} {front back : List (Nat × Method)}
    (overriding : ∀ method ∈ methods, image.isVirtual method = true →
      image.isRuntime method = false → ∀ base, image.getBase method = some base →
        index method < front.length)
    (above : ∀ method ∈ methods, image.hasSlot method = true →
      ∀ key ∈ front.map Prod.fst, key < index method)
    (ascending : Ascending back) (fresh : (pendingIndices image index methods back).Nodup)
    (notFirst : front ≠ [] ∨ ∀ first, (pendingIndices image index methods back).head? =
      some first → ∀ other ∈ pendingIndices image index methods back, first ≤ other) :
    ∃ newFront newBack, addMethods image index methods (front ++ back) =
        some (newFront ++ newBack) ∧
      newFront.map Prod.fst = front.map Prod.fst ∧ Ascending newBack ∧
      newBack.Perm (back ++ (methods.filter image.hasSlot).map fun method =>
        (index method, method)) := by
  induction methods generalizing front back with
  | nil => exact ⟨front, back, rfl, rfl, ascending, by simp⟩
  | cons method rest ih =>
    have restOverriding : ∀ other ∈ rest, image.isVirtual other = true →
        image.isRuntime other = false → ∀ base, image.getBase other = some base →
          index other < front.length :=
      fun other membership => overriding other (List.mem_cons_of_mem _ membership)
    have restAbove : ∀ other ∈ rest, image.hasSlot other = true →
        ∀ key ∈ front.map Prod.fst, key < index other :=
      fun other membership => above other (List.mem_cons_of_mem _ membership)
    by_cases entered : (image.isVirtual method && !image.isRuntime method) = true
    · simp only [addMethods, entered, if_true]
      simp only [Bool.and_eq_true, Bool.not_eq_true'] at entered
      cases base : image.getBase method with
      | some found =>
        have noSlot : image.hasSlot method = false := by simp [Image.hasSlot, base]
        obtain ⟨changed, equation, sameKeys⟩ := changeVTableSlot_spec
          (overriding method List.mem_cons_self entered.1 entered.2 found base) method back
        have sameLength : changed.length = front.length := by
          simpa using congrArg List.length sameKeys
        have sameEmpty : changed ≠ [] ↔ front ≠ [] := by
          rw [← List.length_pos_iff, ← List.length_pos_iff, sameLength]
        have samePending : pendingIndices image index (method :: rest) back =
            pendingIndices image index rest back := by
          simp [pendingIndices, noSlot]
        rw [samePending] at fresh notFirst
        obtain ⟨newFront, newBack, run, keys, newAscending, permutation⟩ :=
          ih
            (by rwa [sameLength]) (by rwa [sameKeys]) ascending fresh
            (by rwa [sameEmpty])
        refine ⟨newFront, newBack, by simpa [equation] using run, keys.trans sameKeys,
          newAscending, ?_⟩
        simpa [noSlot] using permutation
      | none =>
        have slot : image.hasSlot method = true := by
          simp [Image.hasSlot, base, entered.1, entered.2]
        have pendingEq : pendingIndices image index (method :: rest) back =
            back.map Prod.fst ++ index method :: (rest.filter image.hasSlot).map index := by
          simp [pendingIndices, slot]
        rw [pendingEq] at fresh notFirst
        have notThere : index method ∉ back.map Prod.fst := fun there =>
          (List.nodup_append.mp fresh).2.2 _ there _ List.mem_cons_self rfl
        obtain ⟨added, equation, addedPerm, addedAscending, sameHead⟩ := addVTableSlot_spec
          (index method, method)
          (fun other membership => above method List.mem_cons_self slot other.1
            (List.mem_map_of_mem membership)) ascending notThere
          (notFirst.imp_right fun least first isHead => by
            have inBack : first.1 ∈ back.map Prod.fst :=
              List.mem_map_of_mem (List.mem_of_mem_head? isHead)
            have notAbove := least first.1 (by simp [isHead]) (index method) (by simp)
            have different : first.1 ≠ index method := fun same => notThere (same ▸ inBack)
            omega)
        have pendingPerm : (pendingIndices image index rest added).Perm
            (back.map Prod.fst ++ index method :: (rest.filter image.hasSlot).map index) :=
          ((addedPerm.map Prod.fst).append_right _).trans List.perm_middle.symm
        have stillNotFirst : front ≠ [] ∨ ∀ first,
            (pendingIndices image index rest added).head? = some first →
              ∀ other ∈ pendingIndices image index rest added, first ≤ other := by
          rcases sameHead with nonempty | sameHead
          · exact .inl nonempty
          · refine notFirst.imp_right fun least first isHead other membership =>
              least first ?_ other (pendingPerm.mem_iff.mp membership)
            rw [← isHead, pendingIndices, List.head?_append, List.head?_append, List.head?_map,
              List.head?_map, sameHead, List.head?_append]
            cases back.head? <;> rfl
        obtain ⟨newFront, newBack, run, keys, newAscending, permutation⟩ :=
          ih restOverriding restAbove
            addedAscending (pendingPerm.nodup_iff.mpr fresh) stillNotFirst
        refine ⟨newFront, newBack, by simpa [equation] using run, keys, newAscending, ?_⟩
        refine permutation.trans ((addedPerm.append_right _).trans ?_)
        simpa [slot] using List.perm_middle.symm
    · have noSlot : image.hasSlot method = false := by
        rw [Image.hasSlot, Bool.eq_false_iff.mpr entered, Bool.false_and]
      have samePending : pendingIndices image index (method :: rest) back =
          pendingIndices image index rest back := by
        simp [pendingIndices, noSlot]
      rw [samePending] at fresh notFirst
      simpa [addMethods, entered, noSlot] using
        ih restOverriding restAbove ascending fresh notFirst

end

section

variable {klass : Class} {indices : Indices Method}

theorem Numbered.parent (numbered : Numbered image klass indices) {above : Class}
    (parent : image.parent klass = some above) : Numbered image above indices := by
  refine ⟨numbered.clean, fun position method entry => numbered.index position method ?_,
    fun ancestor membership => numbered.overriding ancestor ?_⟩
  · obtain ⟨bound, -⟩ := List.getElem?_eq_some_iff.mp entry
    rw [Image.slots_eq, Image.inheritedSlots_of_parent parent, List.getElem?_append_left bound]
    exact entry
  · rw [image.lineage_of_parent parent]
    exact List.mem_cons_of_mem _ membership

theorem Numbered.ownSlots_index (numbered : Numbered image klass indices) :
    (image.ownSlots klass).map indices.index =
      List.range' (image.inheritedSlots klass).length (image.ownSlots klass).length := by
  apply List.ext_getElem
  · simp
  · intro position bound _
    have inOwn : position < (image.ownSlots klass).length := by simpa using bound
    have entry : (image.slots klass)[(image.inheritedSlots klass).length + position]? =
        some ((image.ownSlots klass).get ⟨position, inOwn⟩) := by
      rw [Image.slots_eq, List.getElem?_append_right (by omega), Nat.add_sub_cancel_left]
      exact List.getElem?_eq_getElem inOwn
    simpa using numbered.index _ _ entry

variable (own : image.LineageOwn klass)

include own

theorem head_hasSlot (noInherited : image.inheritedSlots klass = []) :
    ((image.methods klass).filter image.hasSlot).head? = (image.ownSlots klass).head? := by
  cases implements_ : image.implementations klass with
  | nil => simp [Image.ownSlots, implements_]
  | cons first rest =>
    have ancestorsEmpty : ∀ ancestor ∈ image.lineage klass, ancestor ≠ klass →
        ∀ method ∈ image.methods ancestor, image.hasSlot method = false := by
      intro ancestor membership different method declared
      by_contra slot
      cases parent : image.parent klass with
      | none =>
        rw [image.lineage_of_none parent, List.mem_singleton] at membership
        exact different membership
      | some above =>
        rw [Image.inheritedSlots_of_parent parent] at noInherited
        have inOwn := (Image.mem_ownSlots (own ancestor membership)).mpr
          ⟨declared, Bool.not_eq_false _ ▸ slot⟩
        rw [image.lineage_of_parent parent] at membership
        obtain ⟨more, split⟩ :=
          Image.slots_prefix ((List.mem_cons.mp membership).resolve_left different)
        rw [noInherited, Image.slots_eq, eq_comm] at split
        simp only [List.append_eq_nil_iff] at split
        rw [split.1.2] at inOwn
        cases inOwn
    rw [own.self.first ancestorsEmpty first (by rw [implements_]; rfl)]
    simp [Image.ownSlots, implements_]

theorem Numbered.first_pending (numbered : Numbered image klass indices)
    (noInherited : image.inheritedSlots klass = []) {first : Nat}
    (isHead : (pendingIndices image indices.index (image.methods klass) []).head? =
      some first) : first = 0 := by
  have ownIndices : (image.ownSlots klass).map indices.index =
      List.range' 0 (image.ownSlots klass).length := by
    simpa [noInherited] using numbered.ownSlots_index
  rw [pendingIndices, List.map_nil, List.nil_append, List.head?_map,
    head_hasSlot own noInherited, ← List.head?_map, ownIndices, List.head?_range'] at isHead
  split at isHead
  · cases isHead
  · exact (Option.some.inj isHead).symm

omit own [DecidableEq Class] [DecidableEq Method] in
theorem createVTableEntries_eq (index : Method → Nat) (klass : Class) :
    createVTableEntries image index klass =
      (match image.parent klass with
        | some above => createVTableEntries image index above
        | none => some []).bind (addMethods image index (image.methods klass)) := by
  rw [createVTableEntries]
  cases image.parent klass <;> rfl

theorem createVTableEntries_spec (numbered : Numbered image klass indices) :
    ∃ front, createVTableEntries image indices.index klass =
        some (front ++ (image.ownSlots klass).map fun method =>
          (indices.index method, method)) ∧
      front.map Prod.fst = List.range (image.inheritedSlots klass).length := by
  induction klass using image.parent_induction with
  | step klass ih =>
    obtain ⟨inherited, inheritedEq, inheritedKeys⟩ : ∃ inherited,
        (match image.parent klass with
          | some above => createVTableEntries image indices.index above
          | none => some []) = some inherited ∧
        inherited.map Prod.fst = List.range (image.inheritedSlots klass).length := by
      cases parent : image.parent klass with
      | none => exact ⟨[], rfl, by simp [Image.inheritedSlots, parent]⟩
      | some above =>
        obtain ⟨front, equation, keys⟩ :=
          ih above parent (own.parent parent) (numbered.parent parent)
        refine ⟨_, equation, ?_⟩
        rw [Image.inheritedSlots_of_parent parent, Image.slots_eq, List.map_append, keys,
          List.map_map, List.length_append, List.range_eq_range', List.range_eq_range',
          ← List.range'_append_1, Nat.zero_add, ← (numbered.parent parent).ownSlots_index]
        rfl
    have sameLength : inherited.length = (image.inheritedSlots klass).length := by
      simpa using congrArg List.length inheritedKeys
    have slotsPerm := Image.ownSlots_perm own.self
    have indexPerm : ((image.methods klass).filter image.hasSlot).map indices.index ~
        List.range' (image.inheritedSlots klass).length (image.ownSlots klass).length := by
      rw [← numbered.ownSlots_index]
      exact (slotsPerm.map _).symm
    obtain ⟨front, back, equation, keys, ascending, permutation⟩ := addMethods_spec
      (fun method declared virtual notRuntime base found => by
        rw [sameLength]
        exact numbered.overriding klass (image.self_mem_lineage klass) method declared virtual
          notRuntime base found)
      (fun method declared slot key inFront => by
        rw [inheritedKeys, List.mem_range] at inFront
        have inRange := indexPerm.mem_iff.mp (List.mem_map_of_mem
          (List.mem_filter.mpr ⟨declared, slot⟩))
        rw [List.mem_range'_1] at inRange
        omega)
      List.Pairwise.nil
      (by simpa [pendingIndices] using indexPerm.nodup_iff.mpr List.nodup_range')
      (by
        by_cases empty : inherited = []
        · refine .inr fun first isHead other _ => ?_
          have noInherited : image.inheritedSlots klass = [] := by
            rw [← List.length_eq_zero_iff, ← sameLength, empty]
            rfl
          exact numbered.first_pending own noInherited isHead ▸ Nat.zero_le other
        · exact .inl empty)
    have ownAscending : Ascending ((image.ownSlots klass).map fun method =>
        (indices.index method, method)) := by
      have increasing := List.pairwise_lt_range' (s := (image.inheritedSlots klass).length)
        (n := (image.ownSlots klass).length) 1 Nat.one_pos
      rw [← numbered.ownSlots_index, List.pairwise_map] at increasing
      exact List.pairwise_map.mpr increasing
    have sorted : back = (image.ownSlots klass).map fun method =>
        (indices.index method, method) := by
      refine List.Perm.eq_of_pairwise ?_ ascending ownAscending
        (permutation.trans (slotsPerm.map _).symm)
      intro left right _ _ less greater
      omega
    refine ⟨front, ?_, keys.trans inheritedKeys⟩
    rw [createVTableEntries_eq, inheritedEq, ← sorted, ← equation, List.append_nil]
    rfl

end

/-- A class whose interface methods have the slots behind the inherited ones. -/
structure EmittedRight (image : Image Class Interface Method Signature) (klass : Class)
    (emitted : Emitted Method) : Prop where
  length : emitted.vtable.length = (image.slots klass).length
  implementation : ∀ (position : Nat) method,
    (image.implementations klass)[position]? = some method →
      emitted.index method = (image.inheritedSlots klass).length + position ∧
      emitted.vtable[(image.inheritedSlots klass).length + position]? =
        some ((image.inheritedSlots klass).length + position, method)

structure CompilationRight (image : Image Class Interface Method Signature)
    (compilation : Compilation Class Method) : Prop where
  clean : ∀ method, compilation.indices.count method = false
  emitted : ∀ klass emitted, compilation.made klass = some emitted →
    EmittedRight image klass emitted
  parent : ∀ klass above, (compilation.made klass).isSome = true →
    image.parent klass = some above → (compilation.made above).isSome = true

theorem compilationRight_start : CompilationRight image (Compilation.start) :=
  ⟨fun _ => rfl, fun _ _ made => by simp [Compilation.start] at made,
    fun _ _ made => by simp [Compilation.start] at made⟩

section

variable (own : ∀ klass, image.OwnImplementations klass)

include own

theorem emittedRight {klass : Class} {indices : Indices Method}
    (numbered : Numbered image klass indices) :
    ∃ vtable, createVTableEntries image indices.index klass = some vtable ∧
      EmittedRight image klass ⟨indices.index, vtable⟩ := by
  obtain ⟨front, equation, keys⟩ := createVTableEntries_spec (fun node _ => own node) numbered
  have frontLength : front.length = (image.inheritedSlots klass).length := by
    simpa using congrArg List.length keys
  refine ⟨_, equation, ?_, fun position method entry => ?_⟩
  · simp [Image.slots_eq, frontLength]
  · obtain ⟨bound, -⟩ := List.getElem?_eq_some_iff.mp entry
    have inOwn : (image.ownSlots klass)[position]? = some method := by
      rw [Image.ownSlots, List.getElem?_append_left bound, entry]
    have inSlots : (image.slots klass)[(image.inheritedSlots klass).length + position]? =
        some method := by
      rw [Image.slots_eq, List.getElem?_append_right (by omega), Nat.add_sub_cancel_left, inOwn]
    refine ⟨numbered.index _ method inSlots, ?_⟩
    rw [List.getElem?_append_right (by omega), frontLength, Nat.add_sub_cancel_left,
      List.getElem?_map, inOwn, Option.map_some, numbered.index _ method inSlots]

theorem parseClass_spec {compilation : Compilation Class Method}
    (right : CompilationRight image compilation) (klass : Class) :
    ∃ result, parseClass image klass compilation = some result ∧
      CompilationRight image result ∧ (result.made klass).isSome = true ∧
      ∀ other, (compilation.made other).isSome = true →
        (result.made other).isSome = true := by
  induction klass using image.parent_induction with
  | step klass ih =>
    rw [parseClass]
    cases made : compilation.made klass with
    | some emitted => exact ⟨compilation, rfl, right, by simp [made], fun _ made => made⟩
    | none =>
      obtain ⟨middle, middleEq, middleRight, parentMade, kept⟩ : ∃ middle,
          (match image.parent klass with
            | some above => parseClass image above compilation
            | none => some compilation) = some middle ∧
          CompilationRight image middle ∧
          (∀ above, image.parent klass = some above →
            (middle.made above).isSome = true) ∧
          ∀ other, (compilation.made other).isSome = true →
            (middle.made other).isSome = true := by
        cases parent : image.parent klass with
        | none => exact ⟨compilation, rfl, right, by simp, fun _ made => made⟩
        | some above =>
          obtain ⟨middle, equation, middleRight, aboveMade, kept⟩ :=
            ih above parent
          exact ⟨middle, equation, middleRight, by simpa using aboveMade, kept⟩
      obtain ⟨indices, indicesEq, numbered⟩ :=
        createVirtualMethodsIndices_spec klass (fun node _ => own node) middleRight.clean
      obtain ⟨vtable, vtableEq, emitted⟩ := emittedRight own numbered
      refine ⟨⟨indices, Function.update middle.made klass (some ⟨indices.index, vtable⟩)⟩, ?_,
        ⟨numbered.clean, ?_, ?_⟩, by simp, ?_⟩
      · cases parent : image.parent klass <;> rw [parent] at middleEq <;>
          simp_all
      · intro other otherEmitted otherMade
        by_cases same : other = klass
        · subst same
          obtain rfl : ⟨indices.index, vtable⟩ = otherEmitted := by simpa using otherMade
          exact emitted
        · exact middleRight.emitted other otherEmitted (by simpa [same] using otherMade)
      · intro other above otherMade parent
        by_cases aboveSame : above = klass
        · simp [aboveSame]
        · by_cases same : other = klass
          · subst same
            simpa [aboveSame] using parentMade above parent
          · simpa [aboveSame] using
              middleRight.parent other above (by simpa [same] using otherMade) parent
      · intro other otherMade
        by_cases same : other = klass
        · simp [same]
        · simpa [same] using kept other otherMade

theorem parseClasses_spec (classes : List Class) {compilation : Compilation Class Method}
    (right : CompilationRight image compilation) :
    ∃ result, parseClasses image classes compilation = some result ∧
      CompilationRight image result ∧
      (∀ klass ∈ classes, (result.made klass).isSome = true) ∧
      ∀ other, (compilation.made other).isSome = true →
        (result.made other).isSome = true := by
  induction classes generalizing compilation with
  | nil => exact ⟨compilation, rfl, right, by simp, fun _ made => made⟩
  | cons klass rest ih =>
    obtain ⟨middle, first, middleRight, klassMade, kept⟩ := parseClass_spec own right klass
    obtain ⟨result, run, resultRight, restMade, restKept⟩ := ih middleRight
    refine ⟨result, by simp [parseClasses, first, run], resultRight, ?_,
      fun other made => restKept other (kept other made)⟩
    intro other membership
    rcases List.mem_cons.mp membership with rfl | inRest
    · exact restKept other klassMade
    · exact restMade other inRest

end

omit [DecidableEq Class] [DecidableEq Signature] in
theorem createIntfMethodsIndices_of_not_mem {methods : List Method} {method : Method}
    (absent : method ∉ methods) (next : Nat) (index : Method → Nat) :
    createIntfMethodsIndices methods next index method = index method := by
  induction methods generalizing next index with
  | nil => rfl
  | cons other rest ih =>
    obtain ⟨different, notInRest⟩ := not_or.mp fun either => absent (List.mem_cons.mpr either)
    rw [createIntfMethodsIndices, ih notInRest,
      Function.update_of_ne different]

omit [DecidableEq Class] [DecidableEq Signature] in
theorem createIntfMethodsIndices_getElem? {methods : List Method} (nodup : methods.Nodup)
    {position : Nat} {method : Method} (entry : methods[position]? = some method) (next : Nat)
    (index : Method → Nat) :
    createIntfMethodsIndices methods next index method = next + position := by
  induction methods generalizing next index position with
  | nil => simp at entry
  | cons other rest ih =>
    obtain ⟨fresh, restNodup⟩ := List.nodup_cons.mp nodup
    cases position with
    | zero =>
      obtain rfl : other = method := by simpa using entry
      rw [createIntfMethodsIndices, createIntfMethodsIndices_of_not_mem fresh,
        Function.update_self, Nat.add_zero]
    | succ position =>
      rw [createIntfMethodsIndices,
        ih restNodup (by simpa using entry)]
      omega

theorem getElem?_implementations {klass : Class} (own : image.OwnImplementations klass)
    (position : Nat) : (image.implementations klass)[position]? =
      (image.listedMethods klass)[position]?.bind (image.getMethodImpl klass) := by
  have implemented := own.implemented
  unfold Image.implementations
  generalize image.listedMethods klass = methods at implemented
  induction methods generalizing position with
  | nil => simp
  | cons method rest ih =>
    obtain ⟨implementation, found⟩ :=
      Option.isSome_iff_exists.mp (implemented method List.mem_cons_self)
    rw [List.filterMap_cons_some found]
    cases position with
    | zero => simp [found]
    | succ position =>
      simpa using ih position
        fun other membership => implemented other (List.mem_cons_of_mem _ membership)

omit [DecidableEq Method] [DecidableEq Signature] [DecidableEq Class] in
@[simp]
theorem emit_getImplementedInterfaces (compilation : Compilation Class Method) (klass : Class) :
    (emit image compilation).getImplementedInterfaces klass = image.interfaces klass := by
  have noBases : ∀ interface,
      (emit image compilation).collectImplementedIfaces interface = [] := fun interface => by
    rw [Libruntime.Hierarchy.collectImplementedIfaces]
    rfl
  simp only [Libruntime.Hierarchy.getImplementedInterfaces, noBases]
  exact List.flatMap_singleton' _

theorem emit_firstSlot {compilation : Compilation Class Method}
    (right : CompilationRight image compilation) {klass : Class}
    (made : (compilation.made klass).isSome = true) :
    (emit image compilation).firstSlot klass = (image.inheritedSlots klass).length := by
  have sameParent : (emit image compilation).parent klass = image.parent klass := rfl
  rw [Libruntime.Hierarchy.firstSlot, sameParent]
  cases parent : image.parent klass with
  | none => simp [Image.inheritedSlots, parent]
  | some above =>
    obtain ⟨emitted, aboveMade⟩ :=
      Option.isSome_iff_exists.mp (right.parent klass above made parent)
    simp [emit, aboveMade, (right.emitted above emitted aboveMade).length,
      Image.inheritedSlots_of_parent parent]

/-- The index of the method that implements an interface method is the slot at
which an interface call looks, and the method stands there in the vtable. -/
def SlotAgrees (image : Image Class Interface Method Signature) (emitted : Emitted Method)
    (runtime : Libruntime.Runtime Class Interface) (klass : Class) (interface : Interface)
    (method : Method) : Prop :=
  ∃ implementation slot, image.getMethodImpl klass method = some implementation ∧
    (runtime.interfaceOffsets klass)[(runtime.interfaceId interface).toNat]? = some slot ∧
    (emitted.index implementation : Int) = slot +
      createIntfMethodsIndices (image.interfaceMethods interface) 0 (fun _ => 0) method ∧
    emitted.vtable[emitted.index implementation]?.map Prod.snd = some implementation

theorem slotAgrees {klass : Class} (own : image.OwnImplementations klass)
    {compilation : Compilation Class Method} (right : CompilationRight image compilation)
    {emitted : Emitted Method} (made : compilation.made klass = some emitted)
    {runtime : Libruntime.Runtime Class Interface} {order : List Interface}
    (invariant : Libruntime.Invariant (emit image compilation) runtime order)
    (capacity : order.length ≤ 65536) (inited : runtime.inited klass = true)
    {interface : Interface} (listed : interface ∈ image.interfaces klass) {method : Method}
    (declared : method ∈ image.interfaceMethods interface) :
    SlotAgrees image emitted runtime klass interface method := by
  obtain ⟨slot, ⟨before, after, split, slotEq⟩, entry⟩ :=
    Libruntime.entry_own invariant capacity inited (by rwa [emit_getImplementedInterfaces])
  rw [emit_getImplementedInterfaces] at split
  rw [emit_firstSlot right (by simp [made])] at slotEq
  obtain ⟨position, bound, found⟩ := List.mem_iff_getElem.mp declared
  have inInterface : (image.interfaceMethods interface)[position]? = some method :=
    List.getElem?_eq_some_iff.mpr ⟨bound, found⟩
  have inListed : (image.listedMethods klass)[
      (before.flatMap image.interfaceMethods).length + position]? = some method := by
    rw [Image.listedMethods, split, List.flatMap_append, List.flatMap_cons,
      List.getElem?_append_right (by omega), Nat.add_sub_cancel_left,
      List.getElem?_append_left bound, inInterface]
  obtain ⟨implementation, implements_⟩ := Option.isSome_iff_exists.mp
    (own.implemented method (List.mem_of_getElem? inListed))
  obtain ⟨index, vtable⟩ := (right.emitted klass emitted made).implementation
    ((before.flatMap image.interfaceMethods).length + position) implementation
    (by rw [getElem?_implementations own, inListed, Option.bind_some, implements_])
  refine ⟨implementation, slot, implements_, entry, ?_, by rw [index, vtable]; rfl⟩
  have counts : (before.map (emit image compilation).methodCount).sum =
      (before.flatMap image.interfaceMethods).length := by
    rw [List.length_flatMap]
    rfl
  rw [index, slotEq, counts, createIntfMethodsIndices_getElem?
    (image.interfaceMethods_nodup interface) inInterface]
  omega

/-- In an image whose classes implement their interfaces by distinct methods of
their own without bases, compiled in any order and run with any sequence of
allocations, all slots agree. -/
theorem parseClasses_slotAgrees [DecidableEq Interface]
    (image : Image Class Interface Method Signature)
    (own : ∀ klass, image.OwnImplementations klass) (classes : List Class) :
    ∃ compilation, parseClasses image classes Compilation.start = some compilation ∧
      ∀ klass ∈ classes, ∃ emitted, compilation.made klass = some emitted ∧
        ∀ (calls : List Class) (emittedId : Interface → UInt16), klass ∈ calls →
          ((emit image compilation).usedInterfaces calls).card ≤ 65536 →
          ∀ interface ∈ image.interfaces klass,
            ∀ method ∈ image.interfaceMethods interface,
              SlotAgrees image emitted (Libruntime.allocate (emit image compilation) calls
                (Libruntime.Runtime.start emittedId)).1 klass interface method := by
  obtain ⟨compilation, compiled, right, allMade, -⟩ :=
    parseClasses_spec own classes compilationRight_start
  refine ⟨compilation, compiled, fun klass membership => ?_⟩
  obtain ⟨emitted, made⟩ := Option.isSome_iff_exists.mp (allMade klass membership)
  refine ⟨emitted, made, fun calls emittedId called capacity interface listed method declared => ?_⟩
  obtain ⟨order, invariant, length, inited⟩ :=
    Libruntime.allocate_invariant (emit image compilation) emittedId capacity
  exact slotAgrees (own klass) right made invariant length (inited klass called) listed declared

/-- A root class with the method `ToString` (0) and a class that implements the
method `Run` of each listed interface (2 and 3) by its own `Run` (1). -/
def runnable (interfaces : List (Fin 2)) : Image (Fin 2) (Fin 2) (Fin 4) Unit where
  parent klass := if klass = 1 then some 0 else none
  depth klass := klass
  depth_parent {child above} := by
    revert child above
    decide
  interfaces klass := if klass = 1 then interfaces else []
  methods klass := if klass = 0 then [0] else [1]
  overrides _ := []
  interfaceMethods interface := if interface = 0 then [2] else [3]
  owner method := if method = 0 then 0 else 1
  name method := if method = 0 then "ToString" else "Run"
  signature _ := ()
  isPublic _ := true
  isVirtual _ := true
  isNewSlot _ := true
  isRuntime _ := false
  accessible _ _ := true
  owner_methods {klass method} := by
    revert klass method
    decide
  methods_nodup := by decide
  interfaceMethods_nodup := by decide

/-- With one interface all slots agree. -/
theorem runnable_slotAgrees :
    ∃ compilation, parseClasses (runnable [0]) [1] Compilation.start = some compilation ∧
      ∃ emitted, compilation.made 1 = some emitted ∧
        SlotAgrees (runnable [0]) emitted (Libruntime.allocate (emit (runnable [0]) compilation)
          [1] (Libruntime.Runtime.start fun _ => 0)).1 1 0 2 := by
  have own : ∀ klass, (runnable [0]).OwnImplementations klass := fun klass => by
    refine ⟨?_, ?_, ?_, ?_, ?_⟩ <;> revert klass <;> decide +kernel
  obtain ⟨compilation, compiled, agrees⟩ := parseClasses_slotAgrees (runnable [0]) own [1]
  obtain ⟨emitted, made, classAgrees⟩ := agrees 1 (by decide)
  refine ⟨compilation, compiled, emitted, made, classAgrees [1] _ (by decide) ?_ 0 (by decide) 2
    (by decide)⟩
  exact (Finset.card_le_univ _).trans (by decide)

/-- With two interfaces the method has the slot of the second one only, and does
not stand there in the vtable. -/
theorem runnable_twice :
    (∀ klass, ∀ method ∈ (runnable [0, 1]).listedMethods klass,
      ((runnable [0, 1]).getMethodImpl klass method).isSome = true) ∧
      ∃ compilation, parseClasses (runnable [0, 1]) [1] Compilation.start = some compilation ∧
        ∃ emitted, compilation.made 1 = some emitted ∧ emitted.index 1 = 2 ∧
          emitted.vtable = [(0, 0), (2, 1)] ∧
          ¬ SlotAgrees (runnable [0, 1]) emitted
            (Libruntime.allocate (emit (runnable [0, 1]) compilation) [1]
              (Libruntime.Runtime.start fun _ => 0)).1 1 0 2 := by
  refine ⟨by decide +kernel, ?_⟩
  have facts : ((parseClasses (runnable [0, 1]) [1] Compilation.start).bind
      fun compilation => compilation.made 1).map
        (fun emitted => (emitted.index 1, emitted.vtable)) = some (2, [(0, 0), (2, 1)]) := by
    decide +kernel
  obtain ⟨emitted, isEmitted, pair⟩ := Option.map_eq_some_iff.mp facts
  obtain ⟨compilation, compiled, made⟩ := Option.bind_eq_some_iff.mp isEmitted
  obtain ⟨index, vtable⟩ := Prod.mk.inj pair
  refine ⟨compilation, compiled, emitted, made, index, vtable, ?_⟩
  rintro ⟨implementation, slot, implements_, -, -, entry⟩
  have isRun : (runnable [0, 1]).getMethodImpl 1 2 = some 1 := by decide +kernel
  cases isRun.symm.trans implements_
  rw [index, vtable] at entry
  cases entry

end GccCil.Cil
