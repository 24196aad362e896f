import Mathlib.Data.List.Infix
import Mathlib.Data.Set.Finite.Basic
import Mathlib.Order.WellFoundedSet

/-!
# Expansion of lists

An element of a list may stand for a list of other elements, which are expanded in turn.
The expansion is unique, and it exists where no element stands for itself through others.
Where a second meaning cuts the lists off in front of an element that stands for nothing
else, its expansion is shorter as soon as something was cut off.
-/

namespace GccCil.Lib

variable {α : Type*}

/-- The expansion of a list, where `stands` gives the lists that elements stand for. -/
inductive Expands (stands : α → Option (List α)) : List α → List α → Prop
  | nil : Expands stands [] []
  | keep {a : α} {rest out : List α} (kept : stands a = none) (tail : Expands stands rest out) :
      Expands stands (a :: rest) (a :: out)
  | replace {a : α} {inner rest innerOut out : List α} (replaced : stands a = some inner)
      (head : Expands stands inner innerOut) (tail : Expands stands rest out) :
      Expands stands (a :: rest) (innerOut ++ out)

/-- The elements that an expansion meets, at any depth. -/
inductive Meets (stands : α → Option (List α)) (b : α) : List α → Prop
  | here {l : List α} (inList : b ∈ l) : Meets stands b l
  | inside {l inner : List α} {a : α} (inList : a ∈ l) (replaced : stands a = some inner)
      (meets : Meets stands b inner) : Meets stands b l

section Unique

variable {stands : α → Option (List α)} {l out : List α}

theorem Expands.unique (first : Expands stands l out) {other : List α}
    (second : Expands stands l other) : out = other := by
  induction first generalizing other with
  | nil =>
    cases second
    rfl
  | keep kept _ ih =>
    cases second with
    | keep _ tail => rw [ih tail]
    | replace replaced => cases kept.symm.trans replaced
  | replace replaced _ _ innerHypothesis ih =>
    cases second with
    | keep kept => cases kept.symm.trans replaced
    | replace replaced' head tail =>
      rw [replaced, Option.some.injEq] at replaced'
      subst replaced'
      rw [innerHypothesis head, ih tail]

theorem Expands.append (first : Expands stands l out) {rest restOut : List α}
    (second : Expands stands rest restOut) : Expands stands (l ++ rest) (out ++ restOut) := by
  induction first with
  | nil => exact second
  | keep kept _ ih => exact .keep kept ih
  | replace replaced head _ _ ih =>
    rw [List.cons_append, List.append_assoc]
    exact .replace replaced head ih

theorem Expands.split {rest : List α} (expands : Expands stands (l ++ rest) out) :
    ∃ first second, out = first ++ second ∧ Expands stands l first ∧ Expands stands rest second := by
  induction l generalizing out with
  | nil => exact ⟨[], out, rfl, .nil, expands⟩
  | cons a l ih =>
    cases expands with
    | keep kept tail =>
      obtain ⟨first, second, rfl, before, behind⟩ := ih tail
      exact ⟨a :: first, second, rfl, .keep kept before, behind⟩
    | replace replaced head tail =>
      obtain ⟨first, second, rfl, before, behind⟩ := ih tail
      exact ⟨_ ++ first, second, (List.append_assoc ..).symm, .replace replaced head before,
        behind⟩

/-- One element occurs in the list that another stands for, which stands for a list. -/
def Inside (stands : α → Option (List α)) (b a : α) : Prop :=
  stands b ≠ none ∧ ∃ inner, stands a = some inner ∧ b ∈ inner

theorem exists_expands (wellFounded : WellFounded (Inside stands)) (l : List α) :
    ∃ out, Expands stands l out := by
  have lists (l : List α) (each : ∀ a ∈ l, ∃ out, Expands stands [a] out) :
      ∃ out, Expands stands l out := by
    induction l with
    | nil => exact ⟨[], .nil⟩
    | cons a l ih =>
      obtain ⟨first, head⟩ := each a List.mem_cons_self
      obtain ⟨second, tail⟩ :=
        ih fun b inList => each b (List.mem_cons_of_mem a inList)
      exact ⟨first ++ second, head.append tail⟩
  have single (a : α) : ∃ out, Expands stands [a] out := by
    induction a using wellFounded.induction with
    | _ a ih =>
      cases replaced : stands a with
      | none => exact ⟨[a], .keep replaced .nil⟩
      | some inner =>
        obtain ⟨out, expands⟩ := lists inner fun b inInner => by
          by_cases kept : stands b = none
          · exact ⟨[b], .keep kept .nil⟩
          · exact ih b ⟨kept, inner, replaced, inInner⟩
        exact ⟨out ++ [], .replace replaced expands .nil⟩
  exact lists l fun a _ => single a

theorem wellFounded_inside (finite : {a | stands a ≠ none}.Finite)
    (acyclic : ∀ a, ¬Relation.TransGen (Inside stands) a a) : WellFounded (Inside stands) := by
  have strict : IsStrictOrder α (Relation.TransGen (Inside stands)) :=
    { irrefl := acyclic, trans := fun _ _ _ => Relation.TransGen.trans }
  have onElements := Set.wellFoundedOn_iff.mp
    (finite.wellFoundedOn (r := Relation.TransGen (Inside stands)))
  refine Subrelation.wf (fun {b a} inside => ?_) onElements
  obtain ⟨standing, inner, replaced, _⟩ := id inside
  have standing' : stands a ≠ none := by
    rw [replaced]
    exact Option.some_ne_none _
  exact ⟨.single inside, standing, standing'⟩

end Unique

theorem meets_cons_iff {stands : α → Option (List α)} {a b : α} {l : List α} :
    Meets stands b (a :: l) ↔
      b = a ∨ (∃ inner, stands a = some inner ∧ Meets stands b inner) ∨ Meets stands b l := by
  constructor
  · intro meets
    cases meets with
    | here inList =>
      obtain rfl | inRest := List.mem_cons.mp inList
      · exact .inl rfl
      · exact .inr (.inr (.here inRest))
    | inside inList replaced meets =>
      obtain rfl | inRest := List.mem_cons.mp inList
      · exact .inr (.inl ⟨_, replaced, meets⟩)
      · exact .inr (.inr (.inside inRest replaced meets))
  · rintro (rfl | ⟨inner, replaced, meets⟩ | meets)
    · exact .here List.mem_cons_self
    · exact .inside List.mem_cons_self replaced meets
    · cases meets with
      | here inList => exact .here (List.mem_cons_of_mem a inList)
      | inside inList replaced meets =>
        exact .inside (List.mem_cons_of_mem a inList) replaced meets

/-- `cut` keeps what an element stands for in `stands`, up to an element that stands for
nothing else. -/
def Cuts (cut stands : α → Option (List α)) : Prop :=
  ∀ a, cut a = stands a ∨ ∃ before b behind, stands a = some (before ++ b :: behind) ∧
    stands b = none ∧ cut a = some before

section Cut

variable {cut stands : α → Option (List α)} {l out : List α}

theorem Cuts.none_iff (cuts : Cuts cut stands) (a : α) : cut a = none ↔ stands a = none := by
  obtain same | ⟨before, b, behind, isStands, _, isCut⟩ := cuts a
  · rw [same]
  · rw [isStands, isCut]
    exact iff_of_false (Option.some_ne_none _) (Option.some_ne_none _)

/-- The cut expansion exists with the other, it is not longer, and it is as long only where
nothing that is met is cut. -/
theorem Cuts.expands (cuts : Cuts cut stands) (expands : Expands stands l out) :
    ∃ cutOut, Expands cut l cutOut ∧ cutOut.length ≤ out.length ∧
      (cutOut.length = out.length → ∀ a, Meets stands a l → cut a = stands a) := by
  induction expands with
  | nil =>
    refine ⟨[], .nil, le_rfl, fun _ a meets => ?_⟩
    cases meets with
    | here inList => cases inList
    | inside inList => cases inList
  | @keep a rest out kept _ ih =>
    obtain ⟨cutOut, cutExpands, shorter, same⟩ := ih
    have cutKept := (cuts.none_iff a).mpr kept
    refine ⟨a :: cutOut, .keep cutKept cutExpands, Nat.succ_le_succ shorter, fun equal b meets => ?_⟩
    obtain rfl | ⟨inner, replaced, _⟩ | meets := meets_cons_iff.mp meets
    · rw [cutKept, kept]
    · cases kept.symm.trans replaced
    · exact same (Nat.succ_injective equal) b meets
  | @replace a inner rest innerOut out replaced _ _ innerHypothesis ih =>
    obtain ⟨cutInner, innerExpands, innerShorter, innerSame⟩ := innerHypothesis
    obtain ⟨cutOut, cutExpands, shorter, same⟩ := ih
    obtain isSame | ⟨before, b, behind, isStands, kept, isCut⟩ := cuts a
    · refine ⟨cutInner ++ cutOut, .replace (isSame.trans replaced) innerExpands cutExpands, ?_, ?_⟩
      · rw [List.length_append, List.length_append]
        exact Nat.add_le_add innerShorter shorter
      · intro equal b meets
        rw [List.length_append, List.length_append] at equal
        obtain rfl | ⟨inner', replaced', meets⟩ | meets := meets_cons_iff.mp meets
        · exact isSame
        · rw [replaced, Option.some.injEq] at replaced'
          subst replaced'
          exact innerSame (by omega) b meets
        · exact same (by omega) b meets
    · rw [replaced, Option.some.injEq] at isStands
      subst isStands
      obtain ⟨first, second, rfl, beforeExpands, behindExpands⟩ := innerExpands.split
      have positive : 0 < second.length := by
        cases behindExpands with
        | keep _ _ => exact Nat.zero_lt_succ _
        | replace replaced' => cases ((cuts.none_iff b).mpr kept).symm.trans replaced'
      rw [List.length_append] at innerShorter
      refine ⟨first ++ cutOut, .replace isCut beforeExpands cutExpands, ?_, fun equal => ?_⟩
      · rw [List.length_append, List.length_append]
        omega
      · rw [List.length_append, List.length_append] at equal
        omega

theorem Expands.congr (expands : Expands stands l out)
    (same : ∀ a, Meets stands a l → cut a = stands a) : Expands cut l out := by
  induction expands with
  | nil => exact .nil
  | keep kept _ ih =>
    refine .keep ((same _ (.here List.mem_cons_self)).trans kept) (ih fun a meets => ?_)
    exact same a (meets_cons_iff.mpr (.inr (.inr meets)))
  | replace replaced _ _ innerHypothesis ih =>
    refine .replace ((same _ (.here List.mem_cons_self)).trans replaced)
      (innerHypothesis fun a meets => ?_) (ih fun a meets => ?_)
    · exact same a (meets_cons_iff.mpr (.inr (.inl ⟨_, replaced, meets⟩)))
    · exact same a (meets_cons_iff.mpr (.inr (.inr meets)))

end Cut

end GccCil.Lib
