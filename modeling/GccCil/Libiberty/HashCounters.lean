import GccCil.Libiberty.HashProbing

/-!
# The counters of a hash table

`n_elements` counts the slots that are not empty and `n_deleted` the deleted ones.  Each
operation moves them with the entries, except that emptying a table leaves them as they
are.  Removing an element that is not in the table reads through a null slot.
-/

namespace GccCil.Libiberty.Hashtab

variable {α : Type}

namespace Entry

def isUsed : Entry α → Bool
  | .empty => false
  | .deleted | .live _ => true

def isDeleted : Entry α → Bool
  | .deleted => true
  | .empty | .live _ => false

def isLive : Entry α → Bool
  | .live _ => true
  | .empty | .deleted => false

end Entry

namespace Htab

def slots (h : Htab α) (kind : Entry α → Bool) : Nat := h.entries.countP kind

structure Counted (h : Htab α) : Prop extends h.Shaped where
  nElements : h.nElements = h.slots Entry.isUsed
  nDeleted : h.nDeleted = h.slots Entry.isDeleted

theorem countP_used (entries : List (Entry α)) :
    entries.countP Entry.isUsed =
      entries.countP Entry.isDeleted + entries.countP Entry.isLive := by
  induction entries with
  | nil => rfl
  | cons entry rest ih =>
    rw [List.countP_cons, List.countP_cons, List.countP_cons, ih]
    cases entry <;> simp [Entry.isUsed, Entry.isDeleted, Entry.isLive] <;> omega

theorem Counted.elements_eq {h : Htab α} (counted : h.Counted) :
    h.elements = h.slots Entry.isLive := by
  rw [elements, counted.nElements, counted.nDeleted, slots, slots, slots, countP_used,
    Nat.add_sub_cancel_left]

theorem slots_put {h : Htab α} {slot : Nat} (inside : slot < h.entries.length) (entry : Entry α)
    (kind : Entry α → Bool) :
    (h.put slot entry).slots kind + (kind (h.entry slot)).toNat =
      h.slots kind + (kind entry).toNat := by
  have isEntry : h.entry slot = h.entries[slot] := by
    rw [Htab.entry, List.getD_eq_getElem?_getD, List.getElem?_eq_getElem inside, Option.getD_some]
  have counts := List.boole_getElem_le_countP (p := kind) inside
  rw [slots, put, List.countP_set inside, isEntry, slots]
  cases old : kind h.entries[slot] <;> cases kind entry <;>
    simp only [old, ↓reduceIte, Bool.toNat_true, Bool.toNat_false, Bool.false_eq_true] at counts ⊢ <;>
    omega

end Htab

section Steps

variable {hashF : α → BitVec 32} {eqF : α → α → Bool} {h h' : Htab α}

theorem Htab.slots_put_live {slot : Nat} (isEmpty : h.entry slot = .empty)
    (inside : slot < h.entries.length) (x : α) :
    (h.put slot (.live x)).slots Entry.isUsed = h.slots Entry.isUsed + 1 ∧
      (h.put slot (.live x)).slots Entry.isDeleted = h.slots Entry.isDeleted := by
  have used := Htab.slots_put inside (.live x) Entry.isUsed
  have deleted := Htab.slots_put inside (.live x) Entry.isDeleted
  rw [isEmpty] at used deleted
  exact ⟨used, deleted⟩

theorem rehash_counts {rounds : Nat} {entries : List (Entry α)}
    (ends : rehash hashF rounds entries h = .ok h') (shaped : h.Shaped) :
    h'.Shaped ∧ h'.nElements = h.nElements ∧ h'.nDeleted = h.nDeleted ∧
      h'.slots Entry.isUsed = h.slots Entry.isUsed + entries.countP Entry.isLive ∧
      h'.slots Entry.isDeleted = h.slots Entry.isDeleted := by
  induction entries generalizing h with
  | nil =>
    cases ends
    exact ⟨shaped, rfl, rfl, rfl, rfl⟩
  | cons entry rest ih =>
    cases entry with
    | empty => exact ih ends shaped
    | deleted => exact ih ends shaped
    | live x =>
      rw [rehash] at ends
      cases finds : findEmptySlotForExpand h (hashF x) rounds with
      | error fault =>
        rw [finds] at ends
        cases ends
      | ok slot =>
        rw [finds] at ends
        obtain ⟨n, isSlot, isEmpty, _⟩ := findEmptySlotForExpand_spec finds
        have inside : slot < h.entries.length := by
          rw [shaped.length, isSlot]
          exact probe_lt shaped _ (Htab.htabMod_lt shaped _) n
        obtain ⟨used, deleted⟩ := Htab.slots_put_live isEmpty inside x
        obtain ⟨shaped', elements', deleted', used', marked'⟩ :=
          ih ends (shaped.put slot (.live x))
        refine ⟨shaped', elements', deleted', ?_, marked'.trans deleted⟩
        rw [used', used, List.countP_cons, Entry.isLive, if_pos rfl]
        omega

theorem expand_counts {allocates : Bool} {rounds : Nat} (counted : h.Counted)
    (ends : htabExpand hashF h allocates rounds = .ok (some h')) :
    h'.Counted ∧ h'.nDeleted = 0 ∧ h'.nElements = h.elements := by
  rw [htabExpand] at ends
  dsimp only at ends
  split at ends
  · cases ends
  · rename_i nindex _
    cases allocates with
    | false => cases ends
    | true =>
      rw [if_pos rfl] at ends
      set fresh : Htab α := ⟨_, _, _, 0, nindex⟩
      cases finds : rehash hashF rounds h.entries fresh with
      | error fault =>
        rw [finds] at ends
        cases ends
      | ok h'' =>
        rw [finds] at ends
        cases ends
        obtain ⟨shaped, elements, deleted, used, marked⟩ :=
          rehash_counts finds ⟨List.length_replicate, rfl⟩
        have noneUsed : fresh.slots Entry.isUsed = 0 := List.countP_replicate
        have noneDeleted : fresh.slots Entry.isDeleted = 0 := List.countP_replicate
        refine ⟨⟨shaped, ?_, ?_⟩, deleted, elements⟩
        · rw [elements, used, noneUsed, Nat.zero_add]
          exact counted.elements_eq
        · rw [deleted, marked, noneDeleted]

theorem Htab.Counted.delete (counted : h.Counted) {slot : Nat} {x : α}
    (isLive : h.entry slot = .live x) : (h.delete slot).Counted := by
  have inside := Htab.lt_of_entry_ne (isLive ▸ Entry.live_ne_empty x)
  have used := Htab.slots_put inside .deleted Entry.isUsed
  have deleted := Htab.slots_put inside .deleted Entry.isDeleted
  rw [isLive] at used deleted
  refine ⟨⟨List.length_set.trans counted.length, counted.size⟩, ?_, ?_⟩
  · exact counted.nElements.trans (Nat.add_right_cancel used).symm
  · exact (congrArg (· + 1) counted.nDeleted).trans deleted.symm

theorem findSlot_insert_counts (counted : h.Counted) {element : α} {hash : BitVec 32}
    {rounds : Nat} {slot : Option Nat}
    (ends : findSlot eqF h element hash .insert rounds = .ok (h', slot)) :
    ∃ place, slot = some place ∧ ∀ x, (h'.put place (.live x)).Counted := by
  rw [findSlot] at ends
  cases searches : slotLoop eqF h element (h.htabModM2 hash) rounds (h.htabMod hash) none with
  | error fault =>
    rw [searches] at ends
    cases ends
  | ok search =>
    rw [searches] at ends
    obtain ⟨n, passed, ⟨y, isLive, equal, rfl⟩ | ⟨isEmpty, deleted, rfl, isFirst⟩⟩ :=
      slotLoop_spec searches
    · cases ends
      refine ⟨_, rfl, fun x => ⟨counted.toShaped.put _ _, ?_, ?_⟩⟩
      all_goals
        have inside := Htab.lt_of_entry_ne (isLive ▸ Entry.live_ne_empty y)
      · have used := Htab.slots_put inside (.live x) Entry.isUsed
        rw [isLive] at used
        exact counted.nElements.trans (Nat.add_right_cancel used).symm
      · have deleted := Htab.slots_put inside (.live x) Entry.isDeleted
        rw [isLive] at deleted
        exact counted.nDeleted.trans deleted.symm
    · obtain rfl | ⟨j, less, rfl, isDeleted⟩ := isFirst
      · cases ends
        have inside : probe h (h.htabModM2 hash) (h.htabMod hash) n < h.entries.length := by
          rw [counted.length]
          exact probe_lt counted.toShaped _ (Htab.htabMod_lt counted.toShaped _) n
        refine ⟨_, rfl, fun x => ?_⟩
        obtain ⟨used, deleted⟩ := Htab.slots_put_live isEmpty inside x
        refine ⟨⟨List.length_set.trans counted.length, counted.size⟩, ?_, ?_⟩
        · exact (congrArg (· + 1) counted.nElements).trans used.symm
        · exact counted.nDeleted.trans deleted.symm
      · cases ends
        set place := probe h (h.htabModM2 hash) (h.htabMod hash) j
        have inside : place < h.entries.length :=
          Htab.lt_of_entry_ne (by rw [isDeleted]; exact fun equal => by cases equal)
        have inside' : place < (h.put place .empty).entries.length :=
          inside.trans_eq (List.length_set ..).symm
        refine ⟨_, rfl, fun x => ?_⟩
        have used := Htab.slots_put inside .empty Entry.isUsed
        have deleted := Htab.slots_put inside .empty Entry.isDeleted
        obtain ⟨used', deleted'⟩ :=
          Htab.slots_put_live (Htab.entry_put_self inside .empty) inside' x
        rw [isDeleted] at used deleted
        refine ⟨⟨?_, counted.size⟩, ?_, ?_⟩
        · exact List.length_set.trans (List.length_set.trans counted.length)
        · exact counted.nElements.trans (used.symm.trans used'.symm)
        · refine Eq.trans ?_ deleted'.symm
          refine (congrArg (· - 1) counted.nDeleted).trans ?_
          exact Nat.sub_eq_of_eq_add deleted.symm

theorem findSlot_noInsert {element : α} {hash : BitVec 32} {rounds : Nat} {slot : Option Nat}
    (ends : findSlot eqF h element hash .noInsert rounds = .ok (h', slot)) : h' = h := by
  rw [findSlot] at ends
  split at ends
  · cases ends
  · cases ends
    rfl
  · cases ends
    rfl

theorem clearSlot_counts (counted : h.Counted) {slot : Nat}
    (ends : htabClearSlot h slot = .ok h') : h'.Counted := by
  rw [htabClearSlot] at ends
  split at ends
  · cases ends
  · cases isEntry : h.entry slot with
    | live x =>
      rw [isEntry] at ends
      cases ends
      exact counted.delete isEntry
    | _ =>
      rw [isEntry] at ends
      cases ends

theorem traverseLoop_counts {callback : α → Visit} {count slot : Nat} (counted : h.Counted)
    (ends : traverseLoop callback count slot h = .ok h') : h'.Counted := by
  induction count generalizing slot h with
  | zero =>
    cases ends
    exact counted
  | succ count ih =>
    rw [traverseLoop] at ends
    cases isEntry : h.entry slot with
    | live x =>
      rw [isEntry] at ends
      dsimp only at ends
      cases visits : if (callback x).clears = true then htabClearSlot h slot else .ok h with
      | error fault =>
        rw [visits] at ends
        cases ends
      | ok visited =>
        rw [visits] at ends
        have counted' : visited.Counted := by
          by_cases clears : (callback x).clears = true
          · rw [if_pos clears] at visits
            exact clearSlot_counts counted visits
          · rw [if_neg clears, Except.ok.injEq] at visits
            exact visits ▸ counted
        dsimp only at ends
        split at ends
        · exact ih counted' ends
        · cases ends
          exact counted'
    | _ =>
      rw [isEntry] at ends
      exact ih counted ends

theorem traverse_counts {callback : α → Visit} {allocates : Bool} {rounds : Nat}
    (counted : h.Counted) (ends : htabTraverse hashF h callback allocates rounds = .ok h') :
    h'.Counted := by
  rw [htabTraverse] at ends
  split at ends
  · cases expands : htabExpand hashF h allocates rounds with
    | error fault =>
      rw [expands] at ends
      cases ends
    | ok expanded =>
      rw [expands] at ends
      cases expanded with
      | none => exact traverseLoop_counts counted ends
      | some h'' => exact traverseLoop_counts (expand_counts counted expands).1 ends
  · exact traverseLoop_counts counted ends

theorem insert_counts {element : α} {hash : BitVec 32} {allocates : Bool} {rounds place : Nat}
    (counted : h.Counted)
    (ends : htabFindSlotWithHash hashF eqF h element hash .insert allocates rounds =
      .ok (h', some place)) (x : α) : (h'.put place (.live x)).Counted := by
  have stores {h : Htab α} (counted : h.Counted)
      (ends : findSlot eqF h element hash .insert rounds = .ok (h', some place)) :
      (h'.put place (.live x)).Counted := by
    obtain ⟨slot, isSlot, stored⟩ := findSlot_insert_counts counted ends
    cases isSlot
    exact stored x
  rw [htabFindSlotWithHash] at ends
  split at ends
  · cases expands : htabExpand hashF h allocates rounds with
    | error fault =>
      rw [expands] at ends
      cases ends
    | ok expanded =>
      rw [expands] at ends
      cases expanded with
      | none => cases ends
      | some h'' => exact stores (expand_counts counted expands).1 ends
  · exact stores counted ends

theorem insert_null {element : α} {hash : BitVec 32} {allocates : Bool} {rounds : Nat}
    (counted : h.Counted)
    (ends : htabFindSlotWithHash hashF eqF h element hash .insert allocates rounds =
      .ok (h', none)) : h' = h := by
  have stores {h : Htab α} (counted : h.Counted)
      (ends : findSlot eqF h element hash .insert rounds = .ok (h', none)) : False := by
    obtain ⟨slot, isSlot, _⟩ := findSlot_insert_counts counted ends
    cases isSlot
  rw [htabFindSlotWithHash] at ends
  split at ends
  · cases expands : htabExpand hashF h allocates rounds with
    | error fault =>
      rw [expands] at ends
      cases ends
    | ok expanded =>
      rw [expands] at ends
      cases expanded with
      | none =>
        cases ends
        rfl
      | some h'' => exact (stores (expand_counts counted expands).1 ends).elim
  · exact (stores counted ends).elim

theorem htabFindSlot_noInsert (element : α) (hash : BitVec 32) (allocates : Bool) (rounds : Nat) :
    htabFindSlotWithHash hashF eqF h element hash .noInsert allocates rounds =
      findSlot eqF h element hash .noInsert rounds :=
  if_neg fun inserts => by cases inserts.1

theorem remove_cases (element : α) (hash : BitVec 32) (rounds : Nat) :
    htabRemoveEltWithHash hashF eqF h element hash rounds = .error .runsOn ∧
        htabFindWithHash eqF h element hash rounds = .error .runsOn ∨
      htabRemoveEltWithHash hashF eqF h element hash rounds = .error .nullSlot ∧
        htabFindWithHash eqF h element hash rounds = .ok none ∨
      ∃ slot x, h.entry slot = .live x ∧ eqF x element = true ∧
        htabRemoveEltWithHash hashF eqF h element hash rounds = .ok (h.delete slot) ∧
        htabFindWithHash eqF h element hash rounds = .ok (some x) := by
  rw [htabRemoveEltWithHash, htabFindSlot_noInsert, findSlot, htabFindWithHash, findLoop_eq none]
  cases searches : slotLoop eqF h element (h.htabModM2 hash) rounds (h.htabMod hash) none with
  | error fault =>
    cases slotLoop_error searches
    exact .inl ⟨rfl, rfl⟩
  | ok search =>
    obtain ⟨n, _, ⟨x, isLive, equal, rfl⟩ | ⟨_, deleted, rfl, _⟩⟩ := slotLoop_spec searches
    · refine .inr (.inr ⟨_, x, isLive, equal, ?_, ?_⟩)
      · simp only [isLive]
      · simp only [Except.map, Search.hit, isLive]
    · exact .inr (.inl ⟨rfl, rfl⟩)

theorem remove_counts {element : α} {hash : BitVec 32} {rounds : Nat} (counted : h.Counted)
    (ends : htabRemoveEltWithHash hashF eqF h element hash rounds = .ok h') : h'.Counted := by
  obtain ⟨fails, _⟩ | ⟨fails, _⟩ | ⟨slot, x, isLive, _, deletes, _⟩ :=
    @remove_cases α hashF eqF h element hash rounds
  · cases fails.symm.trans ends
  · cases fails.symm.trans ends
  · cases deletes.symm.trans ends
    exact counted.delete isLive

end Steps

/-- The operations on a table; an insertion stores an element in the slot that it gets. -/
inductive Op (α : Type) where
  | find (element : α) (hash : BitVec 32)
  | findSlot (element : α) (hash : BitVec 32)
  | insert (element : α) (hash : BitVec 32) (allocates : Bool) (stored : α)
  | removeElt (element : α) (hash : BitVec 32)
  | clearSlot (slot : Nat)
  | traverse (callback : α → Visit) (allocates : Bool)
  | traverseNoresize (callback : α → Visit)
  | empty

section Runs

variable (hashF : α → BitVec 32) (eqF : α → α → Bool)

def step (h : Htab α) (rounds : Nat) : Op α → Except Fault (Htab α)
  | .find element hash => (htabFindWithHash eqF h element hash rounds).map fun _ => h
  | .findSlot element hash =>
    (htabFindSlotWithHash hashF eqF h element hash .noInsert true rounds).map Prod.fst
  | .insert element hash allocates stored =>
    match htabFindSlotWithHash hashF eqF h element hash .insert allocates rounds with
    | .error fault => .error fault
    | .ok (h, none) => .ok h
    | .ok (h, some slot) => .ok (h.put slot (.live stored))
  | .removeElt element hash => htabRemoveEltWithHash hashF eqF h element hash rounds
  | .clearSlot slot => htabClearSlot h slot
  | .traverse callback allocates => htabTraverse hashF h callback allocates rounds
  | .traverseNoresize callback => htabTraverseNoresize h callback
  | .empty => .ok (htabEmpty h)

/-- The operations that keep the counters: a table is emptied only where none of its slots is
used, and an element is removed only where it can be found. -/
def Allowed (h : Htab α) (rounds : Nat) : Op α → Prop
  | .removeElt element hash => ∃ x, htabFindWithHash eqF h element hash rounds = .ok (some x)
  | .empty => ∀ entry ∈ h.entries, entry = .empty
  | _ => True

/-- Operations one after the other, which are `allowed` and return. -/
inductive Run (allowed : Htab α → Nat → Op α → Prop) : Htab α → Htab α → Prop
  | none {h : Htab α} : Run allowed h h
  | op {h mid h' : Htab α} {rounds : Nat} {op : Op α} (run : Run allowed h mid)
      (isAllowed : allowed mid rounds op) (ends : step hashF eqF mid rounds op = .ok h') :
      Run allowed h h'

end Runs

section Runs

variable {hashF : α → BitVec 32} {eqF : α → α → Bool} {h h' : Htab α}

theorem create_counted {size : Nat} (creates : htabCreate size = some h) : h.Counted := by
  rw [htabCreate, Option.map_eq_some_iff] at creates
  obtain ⟨i, _, rfl⟩ := creates
  have none (size : Nat) (kind : Entry α → Bool) (notEmpty : kind .empty = false) :
      (List.replicate size .empty).countP kind = 0 := by
    rw [List.countP_replicate, notEmpty, if_neg Bool.false_ne_true]
  exact ⟨⟨List.length_replicate, rfl⟩, (none _ _ rfl).symm, (none _ _ rfl).symm⟩

theorem unused_iff (counted : h.Counted) :
    h.nElements = 0 ↔ ∀ entry ∈ h.entries, entry = .empty := by
  rw [counted.nElements, Htab.slots, List.countP_eq_zero]
  refine forall₂_congr fun entry _ => ?_
  cases entry <;> simp [Entry.isUsed]

theorem empty_counted (counted : h.Counted) (unused : ∀ entry ∈ h.entries, entry = .empty) :
    (htabEmpty h).Counted := by
  have none := (unused_iff counted).mpr unused
  have noneDeleted : h.nDeleted = 0 := by
    have sum := Htab.countP_used h.entries
    rw [counted.nElements, Htab.slots] at none
    rw [counted.nDeleted, Htab.slots]
    omega
  have slots (kind : Entry α → Bool) (notEmpty : kind .empty = false) :
      (htabEmpty h).slots kind = 0 := by
    rw [Htab.slots, htabEmpty, List.countP_replicate, notEmpty, if_neg Bool.false_ne_true]
  refine ⟨⟨List.length_replicate, counted.size⟩, ?_, ?_⟩
  · exact none.trans (slots _ rfl).symm
  · exact noneDeleted.trans (slots _ rfl).symm

theorem step_counted {rounds : Nat} {op : Op α} (counted : h.Counted)
    (isAllowed : Allowed eqF h rounds op) (ends : step hashF eqF h rounds op = .ok h') :
    h'.Counted := by
  cases op with
  | find element hash =>
    rw [step] at ends
    cases finds : htabFindWithHash eqF h element hash rounds with
    | error fault =>
      rw [finds] at ends
      cases ends
    | ok found =>
      rw [finds] at ends
      cases ends
      exact counted
  | findSlot element hash =>
    rw [step, htabFindSlot_noInsert] at ends
    cases finds : findSlot eqF h element hash .noInsert rounds with
    | error fault =>
      rw [finds] at ends
      cases ends
    | ok found =>
      rw [finds] at ends
      cases ends
      exact findSlot_noInsert finds ▸ counted
  | insert element hash allocates stored =>
    rw [step] at ends
    split at ends
    · cases ends
    · rename_i finds
      cases ends
      exact insert_null counted finds ▸ counted
    · rename_i finds
      cases ends
      exact insert_counts counted finds stored
  | removeElt element hash => exact remove_counts counted ends
  | clearSlot slot => exact clearSlot_counts counted ends
  | traverse callback allocates => exact traverse_counts counted ends
  | traverseNoresize callback => exact traverseLoop_counts counted ends
  | empty =>
    cases ends
    exact empty_counted counted isAllowed

theorem Run.counted (run : Run hashF eqF (Allowed eqF) h h') (counted : h.Counted) :
    h'.Counted := by
  induction run with
  | none => exact counted
  | op _ isAllowed ends ih => exact step_counted ih isAllowed ends

theorem map_error {β γ : Type} {f : β → γ} {result : Except Fault β} {fault : Fault}
    (fails : result.map f = .error fault) : result = .error fault := by
  cases result with
  | error _ => exact congrArg Except.error (Except.error.inj fails)
  | ok _ => cases fails

theorem emptySlotLoop_fault {hash2 rounds index : Nat} {fault : Fault}
    (fails : emptySlotLoop h hash2 rounds index = .error fault) : fault ≠ .nullSlot := by
  induction rounds generalizing index with
  | zero =>
    cases fails
    decide
  | succ rounds ih =>
    rw [emptySlotLoop] at fails
    split at fails
    · cases fails
    · cases fails
      decide
    · exact ih fails

theorem findEmptySlotForExpand_fault {hash : BitVec 32} {rounds : Nat} {fault : Fault}
    (fails : findEmptySlotForExpand h hash rounds = .error fault) : fault ≠ .nullSlot := by
  rw [findEmptySlotForExpand] at fails
  split at fails
  · cases fails
  · cases fails
    decide
  · exact emptySlotLoop_fault fails

theorem rehash_fault {rounds : Nat} {entries : List (Entry α)} {fault : Fault}
    (fails : rehash hashF rounds entries h = .error fault) : fault ≠ .nullSlot := by
  induction entries generalizing h with
  | nil => cases fails
  | cons entry rest ih =>
    cases entry with
    | live x =>
      rw [rehash] at fails
      split at fails
      · rename_i finds
        cases fails
        exact findEmptySlotForExpand_fault finds
      · exact ih fails
    | _ => exact ih fails

theorem htabExpand_fault {allocates : Bool} {rounds : Nat} {fault : Fault}
    (fails : htabExpand hashF h allocates rounds = .error fault) : fault ≠ .nullSlot := by
  rw [htabExpand] at fails
  dsimp only at fails
  split at fails
  · cases fails
    decide
  · split at fails
    · exact rehash_fault (map_error fails)
    · cases fails

theorem findSlot_fault {element : α} {hash : BitVec 32} {option : InsertOption} {rounds : Nat}
    {fault : Fault} (fails : findSlot eqF h element hash option rounds = .error fault) :
    fault ≠ .nullSlot := by
  rw [findSlot] at fails
  split at fails
  · rename_i searches
    cases fails
    rw [slotLoop_error searches]
    decide
  · cases fails
  · split at fails <;> cases fails

theorem htabFindSlotWithHash_fault {element : α} {hash : BitVec 32} {option : InsertOption}
    {allocates : Bool} {rounds : Nat} {fault : Fault}
    (fails : htabFindSlotWithHash hashF eqF h element hash option allocates rounds =
      .error fault) : fault ≠ .nullSlot := by
  rw [htabFindSlotWithHash] at fails
  split at fails
  · split at fails
    · rename_i expands
      cases fails
      exact htabExpand_fault expands
    · cases fails
    · exact findSlot_fault fails
  · exact findSlot_fault fails

theorem htabClearSlot_fault {slot : Nat} {fault : Fault}
    (fails : htabClearSlot h slot = .error fault) : fault ≠ .nullSlot := by
  rw [htabClearSlot] at fails
  split at fails
  · cases fails
    decide
  · split at fails <;> cases fails <;> decide

theorem traverseLoop_fault {callback : α → Visit} {count slot : Nat} {fault : Fault}
    (fails : traverseLoop callback count slot h = .error fault) : fault ≠ .nullSlot := by
  induction count generalizing slot h with
  | zero => cases fails
  | succ count ih =>
    rw [traverseLoop] at fails
    split at fails
    · exact ih fails
    · exact ih fails
    · split at fails
      · rename_i visits
        cases fails
        split at visits
        · exact htabClearSlot_fault visits
        · cases visits
      · split at fails
        · exact ih fails
        · cases fails

theorem htabTraverse_fault {callback : α → Visit} {allocates : Bool} {rounds : Nat}
    {fault : Fault} (fails : htabTraverse hashF h callback allocates rounds = .error fault) :
    fault ≠ .nullSlot := by
  rw [htabTraverse] at fails
  split at fails
  · split at fails
    · rename_i expands
      cases fails
      exact htabExpand_fault expands
    · exact traverseLoop_fault fails
    · exact traverseLoop_fault fails
  · exact traverseLoop_fault fails

theorem remove_nullSlot_iff {rounds : Nat} {element : α} {hash : BitVec 32} :
    htabRemoveEltWithHash hashF eqF h element hash rounds = .error .nullSlot ↔
      htabFindWithHash eqF h element hash rounds = .ok none := by
  obtain ⟨fails, finds⟩ | ⟨fails, finds⟩ | ⟨slot, x, _, _, deletes, finds⟩ :=
    @remove_cases α hashF eqF h element hash rounds
  · rw [fails, finds]
    exact iff_of_false (fun null => by cases null) (fun found => by cases found)
  · exact iff_of_true fails finds
  · rw [deletes, finds]
    exact iff_of_false (fun null => by cases null) (fun found => by cases found)

theorem step_fault {rounds : Nat} {op : Op α} {fault : Fault} (isAllowed : Allowed eqF h rounds op)
    (fails : step hashF eqF h rounds op = .error fault) : fault ≠ .nullSlot := by
  cases op with
  | find element hash =>
    rw [step, htabFindWithHash, findLoop_eq none] at fails
    rw [slotLoop_error (map_error (map_error fails))]
    decide
  | findSlot element hash => exact htabFindSlotWithHash_fault (map_error fails)
  | insert element hash allocates stored =>
    rw [step] at fails
    split at fails
    · rename_i finds
      cases fails
      exact htabFindSlotWithHash_fault finds
    · cases fails
    · cases fails
  | removeElt element hash =>
    obtain ⟨x, found⟩ := isAllowed
    rintro rfl
    cases found.symm.trans (remove_nullSlot_iff.mp fails)
  | clearSlot slot => exact htabClearSlot_fault fails
  | traverse callback allocates => exact htabTraverse_fault fails
  | traverseNoresize callback => exact traverseLoop_fault fails
  | empty => cases fails

/-- In every run whose operations are allowed the counters are those of the entries, and no
allowed operation reads through a null slot.  An operation that is not allowed does, or
leaves the counters wrong. -/
theorem htab_counts (hashF : α → BitVec 32) (eqF : α → α → Bool) (size : Nat) (created h : Htab α)
    (creates : htabCreate size = some created) (run : Run hashF eqF (Allowed eqF) created h) :
    h.nElements = h.entries.countP Entry.isUsed ∧
    h.nDeleted = h.entries.countP Entry.isDeleted ∧
    h.elements = h.entries.countP Entry.isLive ∧
    (∀ rounds op, Allowed eqF h rounds op → step hashF eqF h rounds op ≠ .error .nullSlot) ∧
    (∀ rounds element hash,
      htabRemoveEltWithHash hashF eqF h element hash rounds = .error .nullSlot ↔
        htabFindWithHash eqF h element hash rounds = .ok none) ∧
    ((htabEmpty h).nElements = (htabEmpty h).entries.countP Entry.isUsed ↔
      ∀ entry ∈ h.entries, entry = .empty) := by
  have counted := run.counted (create_counted creates)
  have noneUsed : (htabEmpty h).entries.countP Entry.isUsed = 0 := List.countP_replicate
  refine ⟨counted.nElements, counted.nDeleted, counted.elements_eq, ?_, ?_, ?_⟩
  · intro rounds op isAllowed
    exact fun null => step_fault isAllowed null rfl
  · exact fun rounds element hash => remove_nullSlot_iff
  · rw [← unused_iff counted]
    exact iff_of_eq (congrArg (h.nElements = ·) noneUsed)

end Runs

section Numbers

theorem primeTab_length_pos : 0 < primeTab.length := by decide

def oneNumber : Htab Nat where
  entries := [.empty, .empty, .empty, .live 3, .empty, .empty, .empty]
  size := 7
  nElements := 1
  nDeleted := 0
  sizePrimeIndex := ⟨0, primeTab_length_pos⟩

theorem insert_oneNumber :
    ∃ created : Htab Nat, htabCreate 7 = some created ∧
      step (BitVec.ofNat 32) (· == ·) created 1 (.insert 3 3 true 3) = .ok oneNumber :=
  ⟨_, rfl, by decide⟩

def removedNumber : Htab Nat :=
  { oneNumber with
    entries := [.empty, .empty, .empty, .deleted, .empty, .empty, .empty], nDeleted := 1 }

/-- The unused table is emptied, a number is inserted and removed. -/
theorem htab_counts_removedNumber :
    removedNumber.elements = removedNumber.entries.countP Entry.isLive := by
  obtain ⟨created, creates, inserts⟩ := insert_oneNumber
  obtain rfl : ⟨List.replicate 7 .empty, 7, 0, 0, ⟨0, primeTab_length_pos⟩⟩ = created :=
    Option.some.inj creates
  have unused : Allowed (· == ·) (⟨List.replicate 7 .empty, 7, 0, 0, ⟨0, primeTab_length_pos⟩⟩ :
      Htab Nat) 1 .empty := fun _ => List.eq_of_mem_replicate
  have free (h : Htab Nat) : Allowed (· == ·) h 1 (.insert 3 3 true 3) := trivial
  have present : Allowed (· == ·) oneNumber 1 (.removeElt 3 3) := ⟨3, by decide⟩
  exact (htab_counts (BitVec.ofNat 32) (· == ·) 7 _ removedNumber creates
    (.op (.op (.op .none unused rfl) (free _) inserts) present (by decide))).2.2.1

/-- Removing a number that is not in the table reads through a null slot, and emptying the
table leaves a count of one element. -/
theorem htab_counts_fail :
    (∃ created, htabCreate 7 = some created ∧
      Run (BitVec.ofNat 32) (· == ·) (fun _ _ _ => True) created oneNumber) ∧
    step (BitVec.ofNat 32) (· == ·) oneNumber 1 (.removeElt 4 4) = .error .nullSlot ∧
    ∃ h, step (BitVec.ofNat 32) (· == ·) oneNumber 1 .empty = .ok h ∧
      h.nElements = 1 ∧ h.entries.countP Entry.isUsed = 0 := by
  obtain ⟨created, creates, inserts⟩ := insert_oneNumber
  exact ⟨⟨created, creates, .op .none trivial inserts⟩, by decide,
    _, rfl, by decide, by decide⟩

end Numbers

end GccCil.Libiberty.Hashtab
