import Mathlib.Data.List.Iterate
import Mathlib.Data.List.Nodup

/-!
# Circular lists

Lists that a map `next` closes to a ring.  Each member of a ring can be taken as its first
one.  The exchange of the successors of members of two rings makes one ring of both.
-/

namespace GccCil.Lib

variable {α : Type*} {next next' : α → α}

/-- From `a` the map leads through the list to `b`. -/
def Path (next : α → α) : α → List α → α → Prop
  | a, [], b => a = b
  | a, x :: list, b => a = x ∧ Path next (next x) list b

/-- The map leads from `e` through the list back to `e`, without repetition. -/
def Ring (next : α → α) (e : α) (list : List α) : Prop :=
  Path next (next e) list e ∧ (e :: list).Nodup

theorem Path.append {a b c : α} {list rest : List α} (first : Path next a list b)
    (second : Path next b rest c) : Path next a (list ++ rest) c := by
  induction list generalizing a with
  | nil => exact (show a = b from first) ▸ second
  | cons x list ih => exact ⟨first.1, ih first.2⟩

theorem Path.split {a b x : α} {list rest : List α} (path : Path next a (list ++ x :: rest) b) :
    Path next a list x ∧ Path next (next x) rest b := by
  induction list generalizing a with
  | nil => exact path
  | cons y list ih => exact ⟨⟨path.1, (ih path.2).1⟩, (ih path.2).2⟩

theorem Path.congr {a b : α} {list : List α} (same : ∀ x ∈ list, next' x = next x)
    (path : Path next a list b) : Path next' a list b := by
  induction list generalizing a with
  | nil => exact path
  | cons x list ih =>
    refine ⟨path.1, ?_⟩
    rw [same x List.mem_cons_self]
    exact ih (fun y member => same y (List.mem_cons_of_mem x member)) path.2

theorem Path.iterate {a b : α} {list : List α} (path : Path next a list b) :
    List.iterate next a list.length = list ∧ next^[list.length] a = b := by
  induction list generalizing a with
  | nil => exact ⟨rfl, path⟩
  | cons x list ih =>
    obtain ⟨rfl, path⟩ := path
    obtain ⟨members, last⟩ := ih path
    exact ⟨congrArg (List.cons a) members, last⟩

theorem ring_singleton {e : α} (self : next e = e) : Ring next e [] :=
  ⟨self, List.nodup_singleton e⟩

theorem Ring.iterate {e : α} {list : List α} (ring : Ring next e list) :
    List.iterate next e (list.length + 1) = e :: list ∧ next^[list.length + 1] e = e := by
  obtain ⟨members, last⟩ := ring.1.iterate
  exact ⟨congrArg (List.cons e) members, last⟩

theorem Ring.congr {e : α} {list : List α} (same : ∀ x ∈ e :: list, next' x = next x)
    (ring : Ring next e list) : Ring next' e list := by
  refine ⟨?_, ring.2⟩
  rw [same e List.mem_cons_self]
  exact ring.1.congr fun x member => same x (List.mem_cons_of_mem e member)

theorem Ring.rotate {e x : α} {list rest : List α} (ring : Ring next e (list ++ x :: rest)) :
    Ring next x (rest ++ e :: list) := by
  obtain ⟨path, nodup⟩ := ring
  obtain ⟨toX, fromX⟩ := path.split
  have rotation : (x :: (rest ++ e :: list)).Perm (e :: (list ++ x :: rest)) :=
    @List.perm_append_comm _ (x :: rest) (e :: list)
  exact ⟨fromX.append ⟨rfl, toX⟩, rotation.nodup_iff.mpr nodup⟩

theorem Ring.exists_at {e x : α} {list : List α} (ring : Ring next e list)
    (member : x ∈ e :: list) : ∃ others, Ring next x others ∧ (x :: others).Perm (e :: list) := by
  rcases List.mem_cons.mp member with rfl | inside
  · exact ⟨list, ring, List.Perm.refl _⟩
  · obtain ⟨front, back, rfl⟩ := List.append_of_mem inside
    exact ⟨back ++ e :: front, ring.rotate,
      @List.perm_append_comm _ (x :: back) (e :: front)⟩

theorem Ring.splice {a b : α} {first second : List α} (ringA : Ring next a first)
    (ringB : Ring next b second) (disjoint : List.Disjoint (a :: first) (b :: second))
    (atA : next' a = next b) (atB : next' b = next a)
    (others : ∀ x, x ≠ a → x ≠ b → next' x = next x) :
    Ring next' a (second ++ b :: first) := by
  obtain ⟨pathA, nodupA⟩ := ringA
  obtain ⟨pathB, nodupB⟩ := ringB
  have sameFirst : ∀ x ∈ first, next' x = next x := by
    intro x member
    refine others x ?_ ?_
    · rintro rfl
      exact (List.nodup_cons.mp nodupA).1 member
    · rintro rfl
      exact disjoint (List.mem_cons_of_mem a member) List.mem_cons_self
  have sameSecond : ∀ x ∈ second, next' x = next x := by
    intro x member
    refine others x ?_ ?_
    · rintro rfl
      exact disjoint List.mem_cons_self (List.mem_cons_of_mem b member)
    · rintro rfl
      exact (List.nodup_cons.mp nodupB).1 member
  refine ⟨?_, ?_⟩
  · rw [atA]
    refine (pathB.congr sameSecond).append ⟨rfl, ?_⟩
    rw [atB]
    exact pathA.congr sameFirst
  · have rotation : (a :: (second ++ b :: first)).Perm ((a :: first) ++ (b :: second)) := by
      refine List.Perm.cons a ?_
      exact (@List.perm_append_comm _ second (b :: first)).trans
        List.perm_middle.symm
    exact rotation.nodup_iff.mpr (nodupA.append nodupB disjoint)

end GccCil.Lib
