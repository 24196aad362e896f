import Mathlib.Data.Finset.Card
import Mathlib.Data.Finset.Image
import Mathlib.Data.Nat.Find
import Mathlib.Logic.Function.Basic

/-!
# Linear probing

A table of keys in which a key is searched from its home slot on, wrapping
around at the end, up to an empty slot.  The table represents a set when no
empty slot lies between the home of a key and the slot that holds it.
-/

namespace GccCil.Lib.LinearProbing

variable {κ : Type*} [DecidableEq κ] (empty : κ)

def next (size n : Nat) : Nat := if n + 1 = size then 0 else n + 1

/-- The slot where a search ends, with `none` for one that goes on. -/
def probe (size : Nat) (slots : Nat → κ) (key : κ) : Nat → Nat → Option Nat
  | 0, _ => none
  | fuel + 1, n =>
    if slots n = key ∨ slots n = empty then some n
    else probe size slots key fuel (next size n)

def occupied (size : Nat) (slots : Nat → κ) : Finset Nat :=
  (Finset.range size).filter fun n => slots n ≠ empty

/-- A search from the home of a key passes only slots with other keys before `n`. -/
def Leads (size : Nat) (slots : Nat → κ) (home : κ → Nat) (key : κ) (n : Nat) : Prop :=
  ∃ d, d < size ∧ (home key + d) % size = n ∧
    ∀ e, e < d → slots ((home key + e) % size) ≠ key ∧ slots ((home key + e) % size) ≠ empty

/-- The table holds the keys of a set, each where a search finds it. -/
structure Represents (size : Nat) (slots : Nat → κ) (home : κ → Nat) (keys : Finset κ) :
    Prop where
  leads : ∀ n, n < size → slots n ≠ empty → Leads empty size slots home (slots n) n
  mem_iff : ∀ key, key ∈ keys ↔ key ≠ empty ∧ ∃ n, n < size ∧ slots n = key
  card : (occupied empty size slots).card = keys.card

theorem represents_empty (size : Nat) (home : κ → Nat) :
    Represents empty size (fun _ => empty) home ∅ where
  leads n _ filled := absurd rfl filled
  mem_iff key := by
    constructor
    · exact fun member => absurd member (Finset.notMem_empty key)
    · rintro ⟨filled, n, -, rfl⟩
      exact absurd rfl filled
  card := by
    rw [occupied, Finset.filter_false_of_mem fun n _ => not_not.mpr rfl]
    rfl

section Search

variable {empty} {size : Nat} {slots : Nat → κ} {home : κ → Nat} {keys : Finset κ}

theorem next_mod {n : Nat} (inside : n < size) : next size n = (n + 1) % size := by
  rw [next]
  split
  · next last => rw [last, Nat.mod_self]
  · rw [Nat.mod_eq_of_lt (by omega)]

theorem probe_eq {key : κ} {n d fuel : Nat} (inside : n < size) (enough : d < fuel)
    (passes : ∀ e, e < d → slots ((n + e) % size) ≠ key ∧ slots ((n + e) % size) ≠ empty)
    (stops : slots ((n + d) % size) = key ∨ slots ((n + d) % size) = empty) :
    probe empty size slots key fuel n = some ((n + d) % size) := by
  induction fuel generalizing n d with
  | zero => exact absurd enough (Nat.not_lt_zero d)
  | succ fuel ih =>
    cases d with
    | zero =>
      rw [Nat.add_zero, Nat.mod_eq_of_lt inside] at stops
      rw [probe, if_pos stops, Nat.add_zero, Nat.mod_eq_of_lt inside]
    | succ d =>
      have here := passes 0 (Nat.succ_pos d)
      rw [Nat.add_zero, Nat.mod_eq_of_lt inside] at here
      have shifted : ∀ e, ((n + 1) % size + e) % size = (n + (e + 1)) % size := by
        intro e
        rw [Nat.mod_add_mod, Nat.add_right_comm, Nat.add_assoc]
      rw [probe, if_neg (not_or.mpr here), next_mod inside, ← shifted d]
      apply ih (Nat.mod_lt _ (by omega)) (by omega)
      · intro e before
        rw [shifted]
        exact passes (e + 1) (by omega)
      · rwa [shifted]

theorem Represents.empty_slot (represents : Represents empty size slots home keys)
    (room : keys.card < size) : ∃ n, n < size ∧ slots n = empty := by
  by_contra full
  have all : occupied empty size slots = Finset.range size := by
    apply Finset.filter_true_of_mem
    intro n member filled
    exact full ⟨n, Finset.mem_range.mp member, filled⟩
  have count := represents.card
  rw [all, Finset.card_range] at count
  omega

/-- A search finds the key, or an empty slot when the set does not have the key. -/
theorem Represents.probe (represents : Represents empty size slots home keys)
    (room : keys.card < size) {key : κ} (filled : key ≠ empty) (inside : home key < size) :
    ∃ n, LinearProbing.probe empty size slots key size (home key) = some n ∧ n < size ∧
      Leads empty size slots home key n ∧
      (slots n = key ∧ key ∈ keys ∨ slots n = empty ∧ key ∉ keys) := by
  have positive : 0 < size := by omega
  let stops : Nat → Prop := fun d =>
    slots ((home key + d) % size) = key ∨ slots ((home key + d) % size) = empty
  obtain ⟨hole, holeInside, isEmpty⟩ := represents.empty_slot room
  have reachable : ∃ d, d < size ∧ stops d := by
    refine ⟨(hole + size - home key) % size, Nat.mod_lt _ positive, Or.inr ?_⟩
    rw [Nat.add_mod_mod, show home key + (hole + size - home key) = hole + size by omega,
      Nat.add_mod_right, Nat.mod_eq_of_lt holeInside, isEmpty]
  have decidable : DecidablePred fun d => d < size ∧ stops d := fun _ => inferInstance
  obtain ⟨below, stopped⟩ := Nat.find_spec reachable
  have passes : ∀ e, e < Nat.find reachable →
      slots ((home key + e) % size) ≠ key ∧ slots ((home key + e) % size) ≠ empty := by
    intro e before
    have goesOn := Nat.find_min reachable before
    exact not_or.mp fun stop => goesOn ⟨by omega, stop⟩
  refine ⟨_, probe_eq inside below passes stopped, Nat.mod_lt _ positive,
    ⟨_, below, rfl, passes⟩, ?_⟩
  rcases stopped with found | missing
  · exact Or.inl ⟨found, (represents.mem_iff key).mpr ⟨filled, _, Nat.mod_lt _ positive, found⟩⟩
  · refine Or.inr ⟨missing, fun member => ?_⟩
    obtain ⟨-, n, slot, holds⟩ := (represents.mem_iff key).mp member
    obtain ⟨d, -, place, clear⟩ := represents.leads n slot (by rwa [holds])
    rw [holds] at place clear
    rcases lt_trichotomy d (Nat.find reachable) with earlier | same | later
    · exact (passes d earlier).1 (by rw [place, holds])
    · rw [← same, place, holds] at missing
      exact filled missing
    · exact (clear _ later).2 missing

omit [DecidableEq κ] in
theorem Leads.update {key stored : κ} {n m : Nat} (missing : slots n = empty)
    (leads : Leads empty size slots home key m) :
    Leads empty size (Function.update slots n stored) home key m := by
  obtain ⟨d, below, place, passes⟩ := leads
  refine ⟨d, below, place, fun e before => ?_⟩
  obtain ⟨other, occupied⟩ := passes e before
  have elsewhere : (home key + e) % size ≠ n := fun same => occupied (same ▸ missing)
  rw [Function.update_of_ne elsewhere]
  exact ⟨other, occupied⟩

theorem Represents.insert (represents : Represents empty size slots home keys) {key : κ}
    (filled : key ≠ empty) {n : Nat} (inside : n < size)
    (leads : Leads empty size slots home key n) (missing : slots n = empty) (fresh : key ∉ keys) :
    Represents empty size (Function.update slots n key) home (Insert.insert key keys) where
  leads := by
    intro m slot occupied
    by_cases same : m = n
    · subst same
      rw [Function.update_self]
      exact leads.update missing
    · rw [Function.update_of_ne same] at occupied ⊢
      exact (represents.leads m slot occupied).update missing
  mem_iff := by
    intro other
    rw [Finset.mem_insert, represents.mem_iff]
    constructor
    · rintro (rfl | ⟨otherFilled, m, slot, holds⟩)
      · exact ⟨filled, n, inside, Function.update_self ..⟩
      · refine ⟨otherFilled, m, slot, ?_⟩
        rw [Function.update_of_ne]
        · exact holds
        · rintro rfl
          exact otherFilled (holds.symm.trans missing)
    · rintro ⟨otherFilled, m, slot, holds⟩
      by_cases same : m = n
      · subst same
        rw [Function.update_self] at holds
        exact Or.inl holds.symm
      · rw [Function.update_of_ne same] at holds
        exact Or.inr ⟨otherFilled, m, slot, holds⟩
  card := by
    have added : occupied empty size (Function.update slots n key) =
        Insert.insert n (occupied empty size slots) := by
      ext m
      rw [occupied, occupied, Finset.mem_insert, Finset.mem_filter, Finset.mem_filter,
        Finset.mem_range]
      by_cases same : m = n
      · subst same
        simp [filled, inside]
      · simp [same]
    have outside : n ∉ occupied empty size slots := by
      rw [occupied, Finset.mem_filter]
      exact fun member => member.2 missing
    rw [added, Finset.card_insert_of_notMem outside, Finset.card_insert_of_notMem fresh,
      represents.card]

end Search

end GccCil.Lib.LinearProbing
