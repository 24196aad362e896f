import Mathlib.Logic.Relation
import Mathlib.Data.Fintype.Card
import GccCil.Lib.Ring

/-!
# Partitions

`partition_new` and `partition_union` of `partition.c`.  Each element has the canonical
element of its class, and a pointer to the next element of the class; only the count of the
canonical element is kept up to date.
-/

namespace GccCil.Libiberty.Partition

open GccCil.Lib

/-- `struct partition_elem`. -/
structure PartitionElem (n : Nat) where
  classElement : Fin n
  next : Fin n
  classCount : Nat

/-- The array `elements`. -/
abbrev PartitionDef (n : Nat) : Type := Fin n → PartitionElem n

variable {n : Nat}

/-- An `unsigned int`. -/
def unsignedInt (count : Nat) : Nat := count % 2 ^ 32

def setClassElement (part : PartitionDef n) (e classElement : Fin n) : PartitionDef n :=
  Function.update part e { part e with classElement := classElement }

def setNext (part : PartitionDef n) (e next : Fin n) : PartitionDef n :=
  Function.update part e { part e with next := next }

def setClassCount (part : PartitionDef n) (e : Fin n) (classCount : Nat) : PartitionDef n :=
  Function.update part e { part e with classCount := classCount }

def partitionNew (n : Nat) : PartitionDef n := fun e =>
  { classElement := e
    next := e
    classCount := 1 }

/-- The loop that updates the class fields of the list behind `e2`, for at most `rounds`
elements.  There is no result where the loop has not met `e2`. -/
def relabel (classElement e2 : Fin n) : Nat → Fin n → PartitionDef n → Option (PartitionDef n)
  | 0, _, _ => none
  | rounds + 1, p, part =>
    if p = e2 then some part
    else
      let part := setClassElement part p classElement
      relabel classElement e2 rounds (part p).next part

/-- `partition_union` from where `elem1` is in the class that is taken for the larger one. -/
def unite (part : PartitionDef n) (elem1 elem2 : Fin n) : Option (PartitionDef n × Fin n) :=
  let classElement := (part elem1).classElement
  let part := setClassCount part classElement
    (unsignedInt ((part classElement).classCount +
      (part (part elem2).classElement).classCount))
  let part := setClassElement part elem2 classElement
  (relabel classElement elem2 n (part elem2).next part).map fun part =>
    let oldNext := (part elem1).next
    let part := setNext part elem1 (part elem2).next
    let part := setNext part elem2 oldNext
    (part, classElement)

/-- `partition_union`: the partition afterwards and the result. -/
def partitionUnion (part : PartitionDef n) (elem1 elem2 : Fin n) :
    Option (PartitionDef n × Fin n) :=
  let classElement := (part elem1).classElement
  if classElement = (part elem2).classElement then some (part, classElement)
  else if (part elem1).classCount < (part elem2).classCount then unite part elem2 elem1
  else unite part elem1 elem2

/-- A run of `partition_union` calls. -/
def partitionUnions (part : PartitionDef n) : List (Fin n × Fin n) → Option (PartitionDef n)
  | [] => some part
  | (elem1, elem2) :: unions =>
    (partitionUnion part elem1 elem2).bind fun result => partitionUnions result.1 unions

def Same (part : PartitionDef n) (a b : Fin n) : Prop :=
  (part a).classElement = (part b).classElement

instance (part : PartitionDef n) (a b : Fin n) : Decidable (Same part a b) :=
  inferInstanceAs (Decidable ((part a).classElement = (part b).classElement))

/-- `next` leads around the class of each element, which its canonical element counts. -/
structure WellFormed (part : PartitionDef n) : Prop where
  canonical : ∀ e, Same part (part e).classElement e
  ring : ∀ e, ∃ others, Ring (fun x => (part x).next) e others ∧
    (∀ x, x ∈ e :: others ↔ Same part x e) ∧
    (part (part e).classElement).classCount = others.length + 1

section Updates

variable {β : Type} (part : PartitionDef n) (e x : Fin n)

theorem field_update (field : PartitionElem n → β) (elem : PartitionElem n) :
    field (Function.update part e elem x) = if x = e then field elem else field (part x) := by
  rw [Function.update_apply, apply_ite field]

theorem field_update_self {field : PartitionElem n → β} {elem : PartitionElem n}
    (kept : field elem = field (part e)) :
    field (Function.update part e elem x) = field (part x) := by
  rw [field_update part e x field]
  split_ifs with same
  · rw [kept, same]
  · rfl

@[simp] theorem next_setClassElement (classElement : Fin n) :
    (setClassElement part e classElement x).next = (part x).next :=
  field_update_self part e x rfl

@[simp] theorem classCount_setClassElement (classElement : Fin n) :
    (setClassElement part e classElement x).classCount = (part x).classCount :=
  field_update_self part e x rfl

theorem classElement_setClassElement (classElement : Fin n) :
    (setClassElement part e classElement x).classElement =
      if x = e then classElement else (part x).classElement :=
  field_update part e x PartitionElem.classElement _

@[simp] theorem classElement_setNext (next : Fin n) :
    (setNext part e next x).classElement = (part x).classElement :=
  field_update_self part e x rfl

@[simp] theorem classCount_setNext (next : Fin n) :
    (setNext part e next x).classCount = (part x).classCount :=
  field_update_self part e x rfl

theorem next_setNext (next : Fin n) :
    (setNext part e next x).next = if x = e then next else (part x).next :=
  field_update part e x PartitionElem.next _

@[simp] theorem classElement_setClassCount (count : Nat) :
    (setClassCount part e count x).classElement = (part x).classElement :=
  field_update_self part e x rfl

@[simp] theorem next_setClassCount (count : Nat) :
    (setClassCount part e count x).next = (part x).next :=
  field_update_self part e x rfl

theorem classCount_setClassCount (count : Nat) :
    (setClassCount part e count x).classCount = if x = e then count else (part x).classCount :=
  field_update part e x PartitionElem.classCount _

end Updates

theorem relabel_spec (classElement e2 : Fin n) {rounds : Nat} {p : Fin n} {list : List (Fin n)}
    {part : PartitionDef n} (path : Path (fun x => (part x).next) p list e2) (outside : e2 ∉ list)
    (enough : list.length < rounds) :
    ∃ result, relabel classElement e2 rounds p part = some result ∧
      (∀ x, (result x).next = (part x).next) ∧
      (∀ x, (result x).classCount = (part x).classCount) ∧
      ∀ x, (result x).classElement = if x ∈ list then classElement else (part x).classElement := by
  induction list generalizing rounds p part with
  | nil =>
    obtain ⟨rounds, rfl⟩ := Nat.exists_eq_succ_of_ne_zero (Nat.ne_of_gt enough)
    refine ⟨part, ?_, fun _ => rfl, fun _ => rfl, by simp⟩
    rw [relabel]
    exact if_pos path
  | cons y list ih =>
    obtain ⟨rounds, rfl⟩ := Nat.exists_eq_succ_of_ne_zero (Nat.ne_of_gt (Nat.zero_lt_of_lt enough))
    obtain ⟨rfl, path⟩ := path
    simp only [List.mem_cons, not_or] at outside
    have next : Path (fun x => (setClassElement part p classElement x).next) (part p).next list e2 :=
      path.congr (by simp)
    obtain ⟨result, run, nexts, counts, classes⟩ :=
      ih next outside.2 (Nat.lt_of_succ_lt_succ enough)
    refine ⟨result, ?_, ?_, ?_, ?_⟩
    · rw [relabel, if_neg (Ne.symm outside.1)]
      simpa using run
    · simpa using nexts
    · simpa using counts
    · intro x
      rw [classes, classElement_setClassElement]
      simp only [List.mem_cons]
      split_ifs <;> simp_all

/-- What `unite` changes: the class of `elem2` gets the canonical element of `elem1`, this
one counts both classes, and the two elements exchange their successors. -/
theorem unite_fields {part : PartitionDef n} (wf : WellFormed part) {elem1 elem2 : Fin n}
    (differ : ¬ Same part elem1 elem2) :
    ∃ result, unite part elem1 elem2 = some (result, (part elem1).classElement) ∧
      (∀ x, (result x).classElement =
        if Same part x elem2 then (part elem1).classElement else (part x).classElement) ∧
      (result elem1).next = (part elem2).next ∧ (result elem2).next = (part elem1).next ∧
      (∀ x, x ≠ elem1 → x ≠ elem2 → (result x).next = (part x).next) ∧
      (∀ x, (result x).classCount = if x = (part elem1).classElement then
          unsignedInt ((part (part elem1).classElement).classCount +
            (part (part elem2).classElement).classCount)
        else (part x).classCount) := by
  obtain ⟨others, ⟨path, nodup⟩, members, _⟩ := wf.ring elem2
  have apart : elem1 ≠ elem2 := by
    rintro rfl
    exact differ rfl
  have enough : others.length < n := by
    have bound := nodup.length_le_card
    rw [List.length_cons, Fintype.card_fin] at bound
    omega
  let counted := setClassCount part (part elem1).classElement
    (unsignedInt ((part (part elem1).classElement).classCount +
      (part (part elem2).classElement).classCount))
  let labelled := setClassElement counted elem2 (part elem1).classElement
  have labelledPath : Path (fun x => (labelled x).next) (part elem2).next others elem2 :=
    path.congr (by simp [labelled, counted])
  obtain ⟨relabelled, run, nexts, counts, classes⟩ := relabel_spec (part elem1).classElement elem2
    labelledPath (List.nodup_cons.mp nodup).1 enough
  refine ⟨setNext (setNext relabelled elem1 (relabelled elem2).next) elem2 (relabelled elem1).next,
    ?_, ?_, ?_, ?_, ?_, ?_⟩
  · simp only [unite, next_setClassElement, next_setClassCount]
    rw [show relabel (part elem1).classElement elem2 n (part elem2).next _ = some relabelled
      from run]
    rfl
  · intro x
    simp only [classElement_setNext, classes, labelled, counted, classElement_setClassElement,
      classElement_setClassCount, ← members, List.mem_cons]
    split_ifs <;> simp_all
  · simp [next_setNext, apart, nexts, labelled, counted]
  · simp [next_setNext, nexts, labelled, counted]
  · intro x notFirst notSecond
    simp [next_setNext, notFirst, notSecond, nexts, labelled, counted]
  · intro x
    simp [counts, labelled, counted, classCount_setClassCount]

theorem unite_wellFormed {part : PartitionDef n} (small : n < 2 ^ 32) (wf : WellFormed part)
    {elem1 elem2 : Fin n} (differ : ¬ Same part elem1 elem2) :
    ∃ result, unite part elem1 elem2 = some (result, (part elem1).classElement) ∧
      WellFormed result ∧ ∀ x, (result x).classElement =
        if Same part x elem2 then (part elem1).classElement else (part x).classElement := by
  obtain ⟨result, run, classes, atFirst, atSecond, nexts, counts⟩ := unite_fields wf differ
  obtain ⟨first, ring1, members1, count1⟩ := wf.ring elem1
  obtain ⟨second, ring2, members2, count2⟩ := wf.ring elem2
  have disjoint : List.Disjoint (elem1 :: first) (elem2 :: second) := by
    intro x inFirst inSecond
    exact differ (((members1 x).mp inFirst).symm.trans ((members2 x).mp inSecond))
  have ring := ring1.splice ring2 disjoint atFirst atSecond nexts
  have members : ∀ x, x ∈ elem1 :: (second ++ elem2 :: first) ↔
      Same part x elem1 ∨ Same part x elem2 := by
    intro x
    rw [← members1, ← members2]
    simp only [List.mem_cons, List.mem_append]
    tauto
  have merged : ∀ x, (result x).classElement = (part elem1).classElement ↔
      Same part x elem1 ∨ Same part x elem2 := by
    intro x
    rw [classes]
    split_ifs with inSecond
    · simp [inSecond]
    · simp only [inSecond, or_false]
      rfl
  have canonical1 : Same part (part elem1).classElement elem1 := wf.canonical elem1
  refine ⟨result, run, ⟨?_, ?_⟩, classes⟩
  · intro e
    by_cases inMerged : Same part e elem1 ∨ Same part e elem2
    · rw [Same, (merged e).mpr inMerged, merged]
      exact Or.inl canonical1
    · have canonical : Same part (part e).classElement e := wf.canonical e
      have notSecond : ¬ Same part e elem2 := fun same => inMerged (Or.inr same)
      have kept : (result e).classElement = (part e).classElement := by
        rw [classes, if_neg notSecond]
      have outside : ¬ Same part (part e).classElement elem2 :=
        fun same => notSecond (canonical.symm.trans same)
      rw [Same, kept, classes, if_neg outside]
      exact canonical
  · intro e
    by_cases inMerged : Same part e elem1 ∨ Same part e elem2
    · obtain ⟨others, ringE, perm⟩ := ring.exists_at ((members e).mpr inMerged)
      refine ⟨others, ringE, ?_, ?_⟩
      · intro x
        have same : Same result x e ↔ Same part x elem1 ∨ Same part x elem2 := by
          rw [Same, (merged e).mpr inMerged, merged]
        rw [perm.mem_iff, members, same]
      · have length := perm.length_eq
        have bound := ring.2.length_le_card
        simp only [List.length_cons, List.length_append, Fintype.card_fin] at length bound
        rw [(merged e).mpr inMerged, counts, if_pos rfl, count1, count2, unsignedInt]
        omega
    · obtain ⟨others, ringE, membersE, countE⟩ := wf.ring e
      have notSecond : ¬ Same part e elem2 := fun same => inMerged (Or.inr same)
      have kept : (result e).classElement = (part e).classElement := by
        rw [classes, if_neg notSecond]
      refine ⟨others, ringE.congr ?_, ?_, ?_⟩
      · intro x member
        have same := (membersE x).mp member
        refine nexts x ?_ ?_
        · rintro rfl
          exact inMerged (Or.inl same.symm)
        · rintro rfl
          exact notSecond same.symm
      · intro x
        rw [membersE]
        unfold Same
        rw [kept, classes]
        split_ifs with inSecond
        · constructor
          · intro same
            exact absurd (Eq.trans same.symm inSecond) notSecond
          · intro same
            exact absurd (Or.inl same.symm) inMerged
        · rfl
      · rw [kept, counts, if_neg, countE]
        intro same
        exact inMerged (Or.inl same)

def join (r : Fin n → Fin n → Prop) (a b : Fin n) (x y : Fin n) : Prop :=
  r x y ∨ (r x a ∧ r b y) ∨ (r x b ∧ r a y)

theorem same_iff_join {part result : PartitionDef n} {first second : Fin n}
    (differ : ¬ Same part first second)
    (classes : ∀ x, (result x).classElement =
      if Same part x second then (part first).classElement else (part x).classElement)
    (x y : Fin n) : Same result x y ↔ join (Same part) first second x y := by
  unfold Same at differ
  unfold join Same
  rw [classes, classes]
  unfold Same
  split_ifs <;> grind

theorem join_comm (r : Fin n → Fin n → Prop) (a b x y : Fin n) : join r a b x y ↔ join r b a x y := by
  unfold join
  tauto

theorem partitionUnion_spec {part : PartitionDef n} (small : n < 2 ^ 32) (wf : WellFormed part)
    (elem1 elem2 : Fin n) :
    ∃ result, partitionUnion part elem1 elem2 = some (result, (result elem1).classElement) ∧
      WellFormed result ∧ ∀ x y, Same result x y ↔ join (Same part) elem1 elem2 x y := by
  by_cases same : Same part elem1 elem2
  · refine ⟨part, ?_, wf, ?_⟩
    · rw [partitionUnion]
      exact if_pos same
    · intro x y
      unfold Same at same
      unfold join Same
      grind
  · have classes : ¬ (part elem1).classElement = (part elem2).classElement := same
    by_cases smaller : (part elem1).classCount < (part elem2).classCount
    · have differ : ¬ Same part elem2 elem1 := fun h => same (Eq.symm h)
      obtain ⟨result, run, wfResult, classes'⟩ := unite_wellFormed small wf differ
      have atFirst : (result elem1).classElement = (part elem2).classElement := by
        rw [classes']
        exact if_pos rfl
      refine ⟨result, ?_, wfResult, ?_⟩
      · simp only [partitionUnion, if_neg classes, if_pos smaller, run, atFirst]
      · intro x y
        rw [same_iff_join differ classes', join_comm]
    · obtain ⟨result, run, wfResult, classes'⟩ := unite_wellFormed small wf same
      have atFirst : (result elem1).classElement = (part elem1).classElement := by
        rw [classes', if_neg same]
      refine ⟨result, ?_, wfResult, same_iff_join same classes'⟩
      simp only [partitionUnion, if_neg classes, if_neg smaller, run, atFirst]

theorem partitionNew_wellFormed (n : Nat) : WellFormed (partitionNew n) := by
  refine ⟨fun _ => rfl, ?_⟩
  intro e
  refine ⟨[], ring_singleton rfl, ?_, rfl⟩
  intro x
  rw [List.mem_singleton]
  rfl

def Connected (unions : List (Fin n × Fin n)) : Fin n → Fin n → Prop :=
  Relation.EqvGen fun a b => (a, b) ∈ unions

theorem connected_nil (x y : Fin n) : Connected [] x y ↔ x = y := by
  constructor
  · intro connected
    induction connected with
    | rel _ _ member => exact absurd member List.not_mem_nil
    | refl => rfl
    | symm _ _ _ ih => exact ih.symm
    | trans _ _ _ _ _ ih1 ih2 => exact ih1.trans ih2
  · rintro rfl
    exact Relation.EqvGen.refl x

theorem connected_concat (unions : List (Fin n × Fin n)) (a b x y : Fin n) :
    Connected (unions ++ [(a, b)]) x y ↔ join (Connected unions) a b x y := by
  have extend : ∀ {x y}, Connected unions x y → Connected (unions ++ [(a, b)]) x y :=
    fun h => Relation.EqvGen.mono (fun _ _ member => List.mem_append_left _ member) _ _ h
  have last : Connected (unions ++ [(a, b)]) a b :=
    Relation.EqvGen.rel a b (List.mem_append_right _ List.mem_cons_self)
  constructor
  · intro connected
    have symm : ∀ {x y}, Connected unions x y → Connected unions y x :=
      fun h => Relation.EqvGen.symm _ _ h
    have trans : ∀ {x y z}, Connected unions x y → Connected unions y z → Connected unions x z :=
      fun h k => Relation.EqvGen.trans _ _ _ h k
    unfold join
    induction connected with
    | rel x y member =>
      rcases List.mem_append.mp member with old | new
      · exact Or.inl (Relation.EqvGen.rel x y old)
      · obtain ⟨rfl, rfl⟩ : x = a ∧ y = b := by simpa using new
        exact Or.inr (Or.inl ⟨Relation.EqvGen.refl x, Relation.EqvGen.refl y⟩)
    | refl x => exact Or.inl (Relation.EqvGen.refl x)
    | symm x y _ ih =>
      rcases ih with h | ⟨h, k⟩ | ⟨h, k⟩
      · exact Or.inl (symm h)
      · exact Or.inr (Or.inr ⟨symm k, symm h⟩)
      · exact Or.inr (Or.inl ⟨symm k, symm h⟩)
    | trans x y z _ _ ih1 ih2 =>
      rcases ih1 with h | ⟨h, k⟩ | ⟨h, k⟩
      · rcases ih2 with h' | ⟨h', k'⟩ | ⟨h', k'⟩
        · exact Or.inl (trans h h')
        · exact Or.inr (Or.inl ⟨trans h h', k'⟩)
        · exact Or.inr (Or.inr ⟨trans h h', k'⟩)
      · rcases ih2 with h' | ⟨h', k'⟩ | ⟨h', k'⟩
        · exact Or.inr (Or.inl ⟨h, trans k h'⟩)
        · exact Or.inr (Or.inl ⟨h, k'⟩)
        · exact Or.inl (trans h k')
      · rcases ih2 with h' | ⟨h', k'⟩ | ⟨h', k'⟩
        · exact Or.inr (Or.inr ⟨h, trans k h'⟩)
        · exact Or.inl (trans h k')
        · exact Or.inr (Or.inr ⟨h, k'⟩)
  · rintro (h | ⟨h, k⟩ | ⟨h, k⟩)
    · exact extend h
    · exact (extend h).trans _ _ _ (last.trans _ _ _ (extend k))
    · exact (extend h).trans _ _ _ ((last.symm _ _).trans _ _ _ (extend k))

theorem partitionUnions_concat (part : PartitionDef n) (unions : List (Fin n × Fin n))
    (elem1 elem2 : Fin n) :
    partitionUnions part (unions ++ [(elem1, elem2)]) =
      (partitionUnions part unions).bind fun part =>
        (partitionUnion part elem1 elem2).map fun result => result.1 := by
  induction unions generalizing part with
  | nil =>
    simp only [List.nil_append, partitionUnions, Option.bind_some]
    cases partitionUnion part elem1 elem2 <;> rfl
  | cons union unions ih =>
    obtain ⟨a, b⟩ := union
    simp only [List.cons_append, partitionUnions, ih, Option.bind_assoc]

theorem partitionUnions_spec (small : n < 2 ^ 32) (unions : List (Fin n × Fin n)) :
    ∃ part, partitionUnions (partitionNew n) unions = some part ∧ WellFormed part ∧
      ∀ x y, Same part x y ↔ Connected unions x y := by
  induction unions using List.reverseRecOn with
  | nil =>
    refine ⟨partitionNew n, rfl, partitionNew_wellFormed n, ?_⟩
    intro x y
    rw [connected_nil]
    rfl
  | append_singleton unions union ih =>
    obtain ⟨elem1, elem2⟩ := union
    obtain ⟨part, run, wf, classes⟩ := ih
    obtain ⟨result, step, wfResult, joined⟩ := partitionUnion_spec small wf elem1 elem2
    refine ⟨result, ?_, wfResult, ?_⟩
    · rw [partitionUnions_concat, run, Option.bind_some, step]
      rfl
    · intro x y
      rw [joined, connected_concat, join, join]
      simp only [classes]

/-- Following `next` from `e` visits each member of its class once, in `count` steps, and
returns. -/
structure Visits (part : PartitionDef n) (e : Fin n) (count : Nat) : Prop where
  once : (List.iterate (fun x => (part x).next) e count).Nodup
  members : ∀ x, x ∈ List.iterate (fun x => (part x).next) e count ↔ Same part x e
  returns : (fun x => (part x).next)^[count] e = e

theorem WellFormed.visits {part : PartitionDef n} (wf : WellFormed part) (e : Fin n) :
    Visits part e (part (part e).classElement).classCount := by
  obtain ⟨others, ring, members, count⟩ := wf.ring e
  obtain ⟨passed, back⟩ := ring.iterate
  rw [count]
  exact ⟨passed ▸ ring.2, passed ▸ members, back⟩

theorem WellFormed.classCount {part : PartitionDef n} (wf : WellFormed part) (e : Fin n) :
    (part (part e).classElement).classCount =
      (Finset.univ.filter fun x => Same part x e).card := by
  obtain ⟨once, members, _⟩ := wf.visits e
  have same : (Finset.univ.filter fun x => Same part x e) =
      (List.iterate (fun x => (part x).next) e
        (part (part e).classElement).classCount).toFinset := by
    ext x
    rw [Finset.mem_filter, List.mem_toFinset, members]
    simp
  rw [same, List.toFinset_card_of_nodup once, List.length_iterate]

/-- After any unions the classes are the connected elements, `next` leads around each
class, its canonical element counts it, and one more `partition_union` returns the canonical
element of the class it makes. -/
theorem partition_classes (n : Nat) (int : n < 2 ^ 31) (unions : List (Fin n × Fin n)) :
    ∃ part, partitionUnions (partitionNew n) unions = some part ∧
      (∀ x y, Same part x y ↔ Connected unions x y) ∧
      (∀ e, Visits part e (part (part e).classElement).classCount) ∧
      (∀ e, Same part (part e).classElement e ∧ (part (part e).classElement).classCount =
        (Finset.univ.filter fun x => Same part x e).card) ∧
      ∀ elem1 elem2, ∃ result,
        partitionUnion part elem1 elem2 = some (result, (result elem1).classElement) ∧
        ∀ x, Same result x (result elem1).classElement ↔
          Connected (unions ++ [(elem1, elem2)]) x elem1 := by
  have small : n < 2 ^ 32 := by omega
  obtain ⟨part, run, wf, classes⟩ := partitionUnions_spec small unions
  refine ⟨part, run, classes, wf.visits, fun e => ⟨wf.canonical e, wf.classCount e⟩, ?_⟩
  intro elem1 elem2
  obtain ⟨result, step, wfResult, joined⟩ := partitionUnion_spec small wf elem1 elem2
  refine ⟨result, step, ?_⟩
  intro x
  have canonical : Same result x (result elem1).classElement ↔ Same result x elem1 := by
    have self : Same result (result elem1).classElement elem1 := wfResult.canonical elem1
    exact ⟨fun h => Eq.trans h self, fun h => Eq.trans h (Eq.symm self)⟩
  rw [canonical, joined, connected_concat, join, join]
  simp only [classes]

/-- Three elements, the first two united. -/
theorem partition_classes_three :
    ∃ part, partitionUnions (partitionNew 3) [(0, 1)] = some part ∧ Same part 0 1 := by
  obtain ⟨part, run, classes, _⟩ := partition_classes 3 (by decide) [(0, 1)]
  exact ⟨part, run, (classes 0 1).mpr (Relation.EqvGen.rel 0 1 List.mem_cons_self)⟩

end GccCil.Libiberty.Partition
