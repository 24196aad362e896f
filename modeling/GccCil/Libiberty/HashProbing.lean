import GccCil.Libiberty.HashTable

/-!
# Probing a hash table

A search looks at slots inside the array, one `htab_mod_m2` after the other.  It passes
deleted entries and other elements, and it ends at an element that is equal to the one
it looks for or at an empty entry.
-/

namespace GccCil.Libiberty.Hashtab

theorem primeTab_prime_ge : ∀ row ∈ primeTab, 7 ≤ row.prime.toNat := by decide

section Slots

variable {α : Type} {h : Htab α}

/-- The array has as many entries as the prime of the table says. -/
structure Htab.Shaped (h : Htab α) : Prop where
  length : h.entries.length = h.size
  size : h.size = (primeTab.get h.sizePrimeIndex).prime.toNat

theorem Htab.Shaped.seven_le (shaped : h.Shaped) : 7 ≤ h.size := by
  rw [shaped.size]
  exact primeTab_prime_ge _ (List.get_mem _ _)

theorem Htab.Shaped.size_lt (shaped : h.Shaped) : h.size < 2 ^ 32 := by
  rw [shaped.size]
  exact BitVec.isLt _

theorem Htab.htabMod_eq (shaped : h.Shaped) (hash : BitVec 32) :
    h.htabMod hash = hash.toNat % h.size := by
  rw [htabMod, htabMod1_toNat (divides_prime _ (List.get_mem _ _)), shaped.size]

theorem Htab.htabMod_lt (shaped : h.Shaped) (hash : BitVec 32) : h.htabMod hash < h.size := by
  have := shaped.seven_le
  rw [htabMod_eq shaped]
  exact Nat.mod_lt _ (by omega)

theorem Htab.htabModM2_eq (shaped : h.Shaped) (hash : BitVec 32) :
    h.htabModM2 hash = 1 + hash.toNat % (h.size - 2) := by
  have large := shaped.seven_le
  have small := shaped.size_lt
  rw [shaped.size] at large small
  have less : (2 : BitVec 32).toNat = 2 := rfl
  have difference : ((primeTab.get h.sizePrimeIndex).prime - 2).toNat = h.size - 2 := by
    rw [BitVec.toNat_sub_of_le (BitVec.le_def.mpr (by omega)), shaped.size, less]
  have remainder : hash.toNat % (h.size - 2) < h.size - 2 := Nat.mod_lt _ (by rw [shaped.size]; omega)
  rw [shaped.size] at remainder
  rw [htabModM2, BitVec.toNat_add, htabMod1_toNat (divides_prime_m2 _ (List.get_mem _ _)), difference,
    shaped.size]
  exact Nat.mod_eq_of_lt (show 1 + _ < _ by omega)

theorem Htab.htabModM2_bounds (shaped : h.Shaped) (hash : BitVec 32) :
    1 ≤ h.htabModM2 hash ∧ h.htabModM2 hash + 2 ≤ h.size := by
  have large := shaped.seven_le
  have remainder : hash.toNat % (h.size - 2) < h.size - 2 := Nat.mod_lt _ (by omega)
  rw [htabModM2_eq shaped]
  omega

theorem nextIndex_lt {size hash2 index : Nat} (small : size < 2 ^ 32) (step : hash2 < size)
    (inside : index < size) : nextIndex size hash2 index < size := by
  rw [nextIndex]
  by_cases wraps : index + hash2 < 2 ^ 32
  · rw [Nat.mod_eq_of_lt wraps]
    split <;> omega
  · rw [Nat.mod_eq_sub_mod (not_lt.mp wraps), Nat.mod_eq_of_lt (by omega)]
    split <;> omega

theorem Htab.Shaped.nextIndex_lt (shaped : h.Shaped) (hash : BitVec 32) {index : Nat}
    (inside : index < h.size) : nextIndex h.size (h.htabModM2 hash) index < h.size := by
  have := Htab.htabModM2_bounds shaped hash
  exact Hashtab.nextIndex_lt shaped.size_lt (by omega) inside

theorem Htab.entry_put_self {slot : Nat} (inside : slot < h.entries.length) (entry : Entry α) :
    (h.put slot entry).entry slot = entry := by
  rw [Htab.entry, put, List.getD_eq_getElem?_getD, List.getElem?_set_self inside, Option.getD_some]

theorem Htab.Shaped.put (shaped : h.Shaped) (slot : Nat) (entry : Entry α) :
    (h.put slot entry).Shaped :=
  ⟨(List.length_set ..).trans shaped.length, shaped.size⟩

theorem Htab.lt_of_entry_ne {slot : Nat} (used : h.entry slot ≠ .empty) :
    slot < h.entries.length := by
  by_contra outside
  rw [Htab.entry, List.getD_eq_getElem?_getD, List.getElem?_eq_none (not_lt.mp outside)] at used
  exact used rfl

end Slots

theorem Entry.live_ne_empty {α : Type} (x : α) : Entry.live x ≠ .empty := fun equal => by cases equal

section Searches

variable {α : Type} {eqF : α → α → Bool} {h : Htab α} {element : α}

def Passed (eqF : α → α → Bool) (element : α) : Entry α → Prop
  | .empty => False
  | .deleted => True
  | .live x => eqF x element = false

/-- The slot that a search from `index` looks at after `k` others. -/
def probe (h : Htab α) (hash2 index k : Nat) : Nat := (nextIndex h.size hash2)^[k] index

theorem probe_succ (h : Htab α) (hash2 index k : Nat) :
    probe h hash2 (nextIndex h.size hash2 index) k = probe h hash2 index (k + 1) := rfl

theorem probe_lt (shaped : h.Shaped) (hash : BitVec 32) {index : Nat} (inside : index < h.size)
    (k : Nat) : probe h (h.htabModM2 hash) index k < h.size := by
  induction k generalizing index with
  | zero => exact inside
  | succ k ih =>
    rw [← probe_succ]
    exact ih (shaped.nextIndex_lt hash inside)

theorem forall_lt_succ_of {passes : Nat → Prop} {n : Nat} (first : passes 0)
    (others : ∀ j < n, passes (j + 1)) : ∀ j < n + 1, passes j := by
  intro j less
  cases j with
  | zero => exact first
  | succ j => exact others j (Nat.lt_of_succ_lt_succ less)

theorem slotLoop_spec {hash2 rounds index : Nat} {firstDeletedSlot : Option Nat} {search : Search}
    (ends : slotLoop eqF h element hash2 rounds index firstDeletedSlot = .ok search) :
    ∃ n, (∀ j < n, Passed eqF element (h.entry (probe h hash2 index j))) ∧
      ((∃ x, h.entry (probe h hash2 index n) = .live x ∧ eqF x element = true ∧
          search = .found (probe h hash2 index n)) ∨
        h.entry (probe h hash2 index n) = .empty ∧
          ∃ deleted, search = .emptyEntry (probe h hash2 index n) deleted ∧
            (deleted = firstDeletedSlot ∨ ∃ j < n, deleted = some (probe h hash2 index j) ∧
              h.entry (probe h hash2 index j) = .deleted)) := by
  induction rounds generalizing index firstDeletedSlot with
  | zero => cases ends
  | succ rounds ih =>
    cases isEntry : h.entry index with
    | empty =>
      simp only [slotLoop, isEntry, Except.ok.injEq] at ends
      exact ⟨0, fun j less => absurd less (Nat.not_lt_zero j),
        .inr ⟨isEntry, firstDeletedSlot, ends.symm, .inl rfl⟩⟩
    | deleted =>
      simp only [slotLoop, isEntry] at ends
      obtain ⟨n, passed, ending⟩ := ih ends
      refine ⟨n + 1, forall_lt_succ_of (isEntry ▸ trivial) passed, ending.imp_right ?_⟩
      rintro ⟨isEmpty, deleted, isSearch, isFirst | ⟨j, less, isJ, isDeleted⟩⟩
      · refine ⟨isEmpty, deleted, isSearch, ?_⟩
        cases firstDeletedSlot with
        | none => exact .inr ⟨0, Nat.zero_lt_succ n, isFirst, isEntry⟩
        | some slot => exact .inl isFirst
      · exact ⟨isEmpty, deleted, isSearch, .inr ⟨j + 1, Nat.succ_lt_succ less, isJ, isDeleted⟩⟩
    | live x =>
      simp only [slotLoop, isEntry] at ends
      by_cases equal : eqF x element = true
      · rw [if_pos equal, Except.ok.injEq] at ends
        exact ⟨0, fun j less => absurd less (Nat.not_lt_zero j),
          .inl ⟨x, isEntry, equal, ends.symm⟩⟩
      · rw [if_neg equal] at ends
        obtain ⟨n, passed, ending⟩ := ih ends
        have first : Passed eqF element (h.entry (probe h hash2 index 0)) := by
          rw [probe, Function.iterate_zero_apply, isEntry]
          exact Bool.eq_false_iff.mpr equal
        refine ⟨n + 1, forall_lt_succ_of first passed, ending.imp_right ?_⟩
        rintro ⟨isEmpty, deleted, isSearch, isFirst | ⟨j, less, isJ, isDeleted⟩⟩
        · exact ⟨isEmpty, deleted, isSearch, .inl isFirst⟩
        · exact ⟨isEmpty, deleted, isSearch,
            .inr ⟨j + 1, Nat.succ_lt_succ less, isJ, isDeleted⟩⟩

theorem slotLoop_error {hash2 rounds index : Nat} {firstDeletedSlot : Option Nat} {fault : Fault}
    (fails : slotLoop eqF h element hash2 rounds index firstDeletedSlot = .error fault) :
    fault = .runsOn := by
  induction rounds generalizing index firstDeletedSlot with
  | zero =>
    cases fails
    rfl
  | succ rounds ih =>
    rw [slotLoop] at fails
    split at fails
    · cases fails
    · exact ih fails
    · split at fails
      · cases fails
      · exact ih fails

def Search.hit (h : Htab α) : Search → Option α
  | .found slot =>
    match h.entry slot with
    | .live x => some x
    | .empty | .deleted => none
  | .emptyEntry _ _ => none

theorem findLoop_eq {hash2 rounds index : Nat} (firstDeletedSlot : Option Nat) :
    findLoop eqF h element hash2 rounds index =
      (slotLoop eqF h element hash2 rounds index firstDeletedSlot).map (Search.hit h) := by
  induction rounds generalizing index firstDeletedSlot with
  | zero => rfl
  | succ rounds ih =>
    cases isEntry : h.entry index with
    | empty => simp only [findLoop, slotLoop, isEntry, Except.map, Search.hit]
    | deleted =>
      simp only [findLoop, slotLoop, isEntry]
      exact ih _
    | live x =>
      simp only [findLoop, slotLoop, isEntry]
      by_cases equal : eqF x element = true
      · simp only [if_pos equal, Except.map, Search.hit, isEntry]
      · rw [if_neg equal, if_neg equal]
        exact ih _

theorem emptySlotLoop_spec {hash2 rounds index slot : Nat}
    (ends : emptySlotLoop h hash2 rounds index = .ok slot) (used : h.entry index ≠ .empty) :
    ∃ n, slot = probe h hash2 index n ∧ h.entry slot = .empty ∧
      ∀ j < n, h.entry (probe h hash2 index j) ≠ .empty := by
  induction rounds generalizing index with
  | zero => cases ends
  | succ rounds ih =>
    rw [emptySlotLoop] at ends
    cases isEntry : h.entry (nextIndex h.size hash2 index) with
    | empty =>
      simp only [isEntry, Except.ok.injEq] at ends
      subst ends
      exact ⟨1, rfl, isEntry, forall_lt_succ_of used fun j less => absurd less (Nat.not_lt_zero j)⟩
    | deleted =>
      simp only [isEntry] at ends
      cases ends
    | live x =>
      simp only [isEntry] at ends
      obtain ⟨n, isSlot, isEmpty, passed⟩ := ih ends
        (isEntry ▸ Entry.live_ne_empty x)
      exact ⟨n + 1, isSlot, isEmpty, forall_lt_succ_of used passed⟩

theorem findEmptySlotForExpand_spec {hash : BitVec 32} {rounds slot : Nat}
    (ends : findEmptySlotForExpand h hash rounds = .ok slot) :
    ∃ n, slot = probe h (h.htabModM2 hash) (h.htabMod hash) n ∧ h.entry slot = .empty ∧
      ∀ j < n, h.entry (probe h (h.htabModM2 hash) (h.htabMod hash) j) ≠ .empty := by
  rw [findEmptySlotForExpand] at ends
  cases isEntry : h.entry (h.htabMod hash) with
  | empty =>
    simp only [isEntry, Except.ok.injEq] at ends
    subst ends
    exact ⟨0, rfl, isEntry, fun j less => absurd less (Nat.not_lt_zero j)⟩
  | deleted =>
    simp only [isEntry] at ends
    cases ends
  | live x =>
    simp only [isEntry] at ends
    exact emptySlotLoop_spec ends (isEntry ▸ Entry.live_ne_empty x)

end Searches

end GccCil.Libiberty.Hashtab
