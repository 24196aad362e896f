import Mathlib
import GccCil.Lib.CountedLoops
import GccCil.Lib.LinearProbing

/-!
# Pointer sets

The sets of pointers of `pointer-set.c`: a table with linear probing that is
doubled when a quarter of its slots are used.
-/

namespace GccCil.Gcc.PointerSets

open GccCil.Lib LinearProbing

/-- The words of a pointer and of an `unsigned long`; zero is the null pointer. -/
abbrev Pointer (w : Nat) := BitVec w

variable {w : Nat}

/-- The multiplier of `hash1` on hosts with 64 bits. -/
def multiplier64 : BitVec 64 := 0x9e3779b97f4a7c16#64

/-- `hash1`; `A` is the multiplier of the host. -/
def hash1 (A : BitVec w) (p : Pointer w) (max logmax : Nat) : Nat :=
  let shift := w - logmax
  ((A * p) >>> shift).toNat &&& (max - 1)

/-- `struct pointer_set_t` -/
structure PointerSet (w : Nat) where
  logSlots : Nat
  nSlots : Nat
  nElements : Nat
  slots : Nat → Pointer w

def pointerSetCreate (w : Nat) : PointerSet w where
  logSlots := 8
  nSlots := 2 ^ 8
  nElements := 0
  slots := fun _ => 0#w

variable (A : BitVec w)

/-- The loop of `pointer_set_contains` and `insert_aux`, which ends at the slot that has the
pointer or is empty.  One that has been at all slots never ends. -/
def search (p : Pointer w) (slots : Nat → Pointer w) (nSlots logSlots : Nat) : Option Nat :=
  probe 0#w nSlots slots p nSlots (hash1 A p nSlots logSlots)

def pointerSetContains (pset : PointerSet w) (p : Pointer w) : Option Bool := do
  let n ← search A p pset.slots pset.nSlots pset.logSlots
  return pset.slots n == p

def insertAux (p : Pointer w) (slots : Nat → Pointer w) (nSlots logSlots : Nat) :
    Option (Bool × (Nat → Pointer w)) := do
  let n ← search A p slots nSlots logSlots
  if slots n = p then return (true, slots)
  else return (false, Function.update slots n p)

def reinsert (pset : PointerSet w) (newSlots : Nat → Pointer w) (i : Nat) :
    Option (Nat → Pointer w) :=
  if pset.slots i ≠ 0#w then
    (insertAux A (pset.slots i) newSlots (pset.nSlots * 2) (pset.logSlots + 1)).map Prod.snd
  else some newSlots

def pointerSetInsert (pset : PointerSet w) (p : Pointer w) :
    Option (Bool × PointerSet w) := do
  let (found, slots) ← insertAux A p pset.slots pset.nSlots pset.logSlots
  if found then return (true, pset)
  else
    let pset := { pset with slots := slots, nElements := pset.nElements + 1 }
    if pset.nSlots / 4 < pset.nElements then
      let newSlots ← (List.range pset.nSlots).foldlM (reinsert A pset) fun _ => 0#w
      return (false, { pset with
        nSlots := pset.nSlots * 2
        logSlots := pset.logSlots + 1
        slots := newSlots })
    else return (false, pset)

inductive Call (w : Nat) where
  | insert (p : Pointer w)
  | contains (p : Pointer w)

def Call.run (pset : PointerSet w) : Call w → Option (Bool × PointerSet w)
  | insert p => pointerSetInsert A pset p
  | contains p => (pointerSetContains A pset p).map fun found => (found, pset)

def runCalls : PointerSet w → List (Call w) → Option (List Bool × PointerSet w)
  | pset, [] => some ([], pset)
  | pset, call :: calls => do
      let (answer, pset) ← call.run A pset
      let (answers, pset) ← runCalls pset calls
      return (answer :: answers, pset)

variable {A}

theorem hash1_lt (A : BitVec w) (p : Pointer w) (logmax : Nat) :
    hash1 A p (2 ^ logmax) logmax < 2 ^ logmax := by
  rw [hash1, Nat.and_two_pow_sub_one_eq_mod]
  exact Nat.mod_lt _ (Nat.two_pow_pos logmax)

/-- The slots hold the pointers of a set, where searches find them. -/
abbrev Holds (A : BitVec w) (nSlots logSlots : Nat) (slots : Nat → Pointer w)
    (pointers : Finset (Pointer w)) : Prop :=
  Represents 0#w nSlots slots (fun p => hash1 A p nSlots logSlots) pointers

section Table

variable {nSlots logSlots : Nat} {slots : Nat → Pointer w} {pointers : Finset (Pointer w)}
  {p : Pointer w}

theorem search_spec (size : nSlots = 2 ^ logSlots) (holds : Holds A nSlots logSlots slots pointers)
    (room : pointers.card < nSlots) (nonnull : p ≠ 0#w) :
    ∃ n, search A p slots nSlots logSlots = some n ∧ n < nSlots ∧
      Leads 0#w nSlots slots (fun p => hash1 A p nSlots logSlots) p n ∧
      (slots n = p ∧ p ∈ pointers ∨ slots n = 0#w ∧ p ∉ pointers) :=
  holds.probe room nonnull (size ▸ hash1_lt A p logSlots)

theorem insertAux_spec (size : nSlots = 2 ^ logSlots)
    (holds : Holds A nSlots logSlots slots pointers) (room : pointers.card < nSlots)
    (nonnull : p ≠ 0#w) :
    ∃ slots', insertAux A p slots nSlots logSlots = some (decide (p ∈ pointers), slots') ∧
      Holds A nSlots logSlots slots' (insert p pointers) := by
  obtain ⟨n, found, inside, leads, ended⟩ := search_spec size holds room nonnull
  rcases ended with ⟨here, member⟩ | ⟨missing, fresh⟩
  · refine ⟨slots, ?_, ?_⟩
    · rw [insertAux, found, Option.bind_eq_bind, Option.bind_some, if_pos here,
        decide_eq_true member]
      rfl
    · rwa [Finset.insert_eq_self.mpr member]
  · refine ⟨Function.update slots n p, ?_, holds.insert nonnull inside leads missing fresh⟩
    have other : slots n ≠ p := fun same => nonnull (same.symm.trans missing)
    rw [insertAux, found, Option.bind_eq_bind, Option.bind_some, if_neg other,
      decide_eq_false fresh]
    rfl

end Table

theorem reinsert_spec {pset : PointerSet w} (size : pset.nSlots = 2 ^ pset.logSlots)
    {pointers : Finset (Pointer w)}
    (holds : Holds A pset.nSlots pset.logSlots pset.slots pointers)
    (room : pointers.card < pset.nSlots * 2) :
    ∃ newSlots, (List.range pset.nSlots).foldlM (reinsert A pset) (fun _ => 0#w) =
        some newSlots ∧
      Holds A (pset.nSlots * 2) (pset.logSlots + 1) newSlots pointers := by
  let moved : Nat → Finset (Pointer w) := fun i =>
    ((Finset.range i).filter fun n => pset.slots n ≠ 0#w).image pset.slots
  have all : moved pset.nSlots = pointers := by
    ext p
    rw [holds.mem_iff, Finset.mem_image]
    constructor
    · rintro ⟨n, member, rfl⟩
      rw [Finset.mem_filter, Finset.mem_range] at member
      exact ⟨member.2, n, member.1, rfl⟩
    · rintro ⟨nonnull, n, inside, rfl⟩
      exact ⟨n, Finset.mem_filter.mpr ⟨Finset.mem_range.mpr inside, nonnull⟩, rfl⟩
  have newSize : pset.nSlots * 2 = 2 ^ (pset.logSlots + 1) := by rw [size, Nat.pow_succ]
  have round : ∀ i newSlots, 0 ≤ i → i < 0 + pset.nSlots →
      Holds A (pset.nSlots * 2) (pset.logSlots + 1) newSlots (moved i) →
      ∃ next, reinsert A pset newSlots i = some next ∧
        Holds A (pset.nSlots * 2) (pset.logSlots + 1) next (moved (i + 1)) := by
    intro i newSlots _ below kept
    by_cases null : pset.slots i = 0#w
    · refine ⟨newSlots, if_neg (not_not.mpr null), ?_⟩
      have same : moved (i + 1) = moved i := by
        simp only [moved, Finset.range_add_one, Finset.filter_insert, null, ne_eq,
          not_true_eq_false, if_false]
      rwa [same]
    · have grown : moved (i + 1) = insert (pset.slots i) (moved i) := by
        simp only [moved, Finset.range_add_one, Finset.filter_insert, null, ne_eq,
          not_false_eq_true, if_true, Finset.image_insert]
      have fewer : (moved i).card ≤ pointers.card := by
        rw [← all]
        apply Finset.card_le_card
        apply Finset.image_subset_image
        apply Finset.filter_subset_filter
        exact Finset.range_subset_range.mpr (by omega)
      obtain ⟨next, ran, holdsNext⟩ := insertAux_spec newSize kept (by omega) null
      refine ⟨next, ?_, grown ▸ holdsNext⟩
      rw [reinsert, if_pos null, ran]
      rfl
  obtain ⟨newSlots, ran, final⟩ := CountedLoops.foldlM_range' round
    (show Holds A (pset.nSlots * 2) (pset.logSlots + 1) (fun _ => 0#w) (moved 0) from
      represents_empty 0#w _ _)
  rw [Nat.zero_add, all] at final
  rw [List.range_eq_range']
  exact ⟨newSlots, ran, final⟩

structure Valid (A : BitVec w) (pset : PointerSet w) (pointers : Finset (Pointer w)) :
    Prop where
  size : pset.nSlots = 2 ^ pset.logSlots
  large : 4 ≤ pset.nSlots
  count : pset.nElements = pointers.card
  load : 4 * pset.nElements ≤ pset.nSlots
  holds : Holds A pset.nSlots pset.logSlots pset.slots pointers

theorem valid_create (A : BitVec w) : Valid A (pointerSetCreate w) ∅ where
  size := rfl
  large := show 4 ≤ 2 ^ 8 by decide
  count := rfl
  load := Nat.zero_le _
  holds := represents_empty 0#w _ _

theorem Valid.room {pset : PointerSet w} {pointers : Finset (Pointer w)}
    (valid : Valid A pset pointers) : pointers.card < pset.nSlots := by
  have load := valid.load
  have large := valid.large
  rw [valid.count] at load
  omega

theorem Valid.contains {pset : PointerSet w} {pointers : Finset (Pointer w)}
    (valid : Valid A pset pointers) {p : Pointer w} (nonnull : p ≠ 0#w) :
    pointerSetContains A pset p = some (decide (p ∈ pointers)) := by
  obtain ⟨n, found, -, -, ended⟩ := search_spec valid.size valid.holds valid.room nonnull
  rw [pointerSetContains, found, Option.bind_eq_bind, Option.bind_some]
  rcases ended with ⟨here, member⟩ | ⟨missing, fresh⟩
  · rw [here, beq_self_eq_true, decide_eq_true member]
    rfl
  · have other : ¬ pset.slots n = p := fun same => nonnull (same.symm.trans missing)
    rw [decide_eq_false fresh, beq_eq_false_iff_ne.mpr other]
    rfl

theorem Valid.insert {pset : PointerSet w} {pointers : Finset (Pointer w)}
    (valid : Valid A pset pointers) {p : Pointer w} (nonnull : p ≠ 0#w) :
    ∃ pset', pointerSetInsert A pset p = some (decide (p ∈ pointers), pset') ∧
      Valid A pset' (insert p pointers) := by
  obtain ⟨slots, ran, holds⟩ := insertAux_spec valid.size valid.holds valid.room nonnull
  have large := valid.large
  have load := valid.load
  rw [pointerSetInsert, ran, Option.bind_eq_bind, Option.bind_some]
  by_cases member : p ∈ pointers
  · refine ⟨pset, ?_, ?_⟩
    · rw [decide_eq_true member]
      rfl
    · rwa [Finset.insert_eq_self.mpr member]
  · have count : pset.nElements + 1 = (Insert.insert p pointers).card := by
      rw [Finset.card_insert_of_notMem member, valid.count]
    rw [decide_eq_false member]
    dsimp only
    rw [if_neg Bool.false_ne_true]
    by_cases full : pset.nSlots / 4 < pset.nElements + 1
    · let grown : PointerSet w := { pset with slots := slots, nElements := pset.nElements + 1 }
      have room : (Insert.insert p pointers).card < grown.nSlots * 2 := by
        change _ < pset.nSlots * 2
        omega
      obtain ⟨newSlots, moved, newHolds⟩ := @reinsert_spec w A grown valid.size _ holds room
      rw [if_pos full, moved]
      refine ⟨_, rfl, ?_, ?_, count, ?_, newHolds⟩
      · change pset.nSlots * 2 = 2 ^ (pset.logSlots + 1)
        rw [valid.size, Nat.pow_succ]
      · change 4 ≤ pset.nSlots * 2
        omega
      · change 4 * (pset.nElements + 1) ≤ pset.nSlots * 2
        omega
    · rw [if_neg full]
      exact ⟨_, rfl, valid.size, large, count, by dsimp only; omega, holds⟩

def Call.pointer : Call w → Pointer w
  | insert p => p
  | contains p => p

def Call.inserts : Call w → Option (Pointer w)
  | insert p => some p
  | contains _ => none

def inserted (calls : List (Call w)) : Finset (Pointer w) :=
  (calls.filterMap Call.inserts).toFinset

def insertedBefore : Finset (Pointer w) → List (Call w) → List Bool
  | _, [] => []
  | before, call :: calls =>
    decide (call.pointer ∈ before) :: insertedBefore (inserted [call] ∪ before) calls

theorem Valid.run {pset : PointerSet w} {pointers : Finset (Pointer w)}
    (valid : Valid A pset pointers) {call : Call w} (nonnull : call.pointer ≠ 0#w) :
    ∃ pset', call.run A pset = some (decide (call.pointer ∈ pointers), pset') ∧
      Valid A pset' (inserted [call] ∪ pointers) := by
  cases call with
  | insert p => exact valid.insert nonnull
  | contains p =>
    refine ⟨pset, ?_, ?_⟩
    · have answer : pointerSetContains A pset p = some (decide (p ∈ pointers)) :=
        valid.contains nonnull
      rw [Call.run, answer]
      rfl
    · exact (Finset.empty_union pointers).symm ▸ valid

theorem runCalls_spec {pset : PointerSet w} {pointers : Finset (Pointer w)}
    (valid : Valid A pset pointers) {calls : List (Call w)}
    (nonnull : ∀ call ∈ calls, call.pointer ≠ 0#w) :
    ∃ pset', runCalls A pset calls = some (insertedBefore pointers calls, pset') ∧
      Valid A pset' (inserted calls ∪ pointers) := by
  induction calls generalizing pset pointers with
  | nil => exact ⟨pset, rfl, (Finset.empty_union pointers).symm ▸ valid⟩
  | cons call calls ih =>
    obtain ⟨middle, ran, validMiddle⟩ := valid.run (nonnull call List.mem_cons_self)
    obtain ⟨final, rest, validFinal⟩ := ih validMiddle
      fun other member => nonnull other (List.mem_cons_of_mem call member)
    refine ⟨final, ?_, ?_⟩
    · rw [runCalls, ran, Option.bind_eq_bind, Option.bind_some]
      dsimp only
      rw [rest]
      rfl
    · have both : inserted (call :: calls) ∪ pointers =
          inserted calls ∪ (inserted [call] ∪ pointers) := by
        have split : inserted (call :: calls) = inserted [call] ∪ inserted calls := by
          rw [inserted, ← List.singleton_append, List.filterMap_append, List.toFinset_append]
          rfl
        rw [split, Finset.union_comm (inserted [call]), Finset.union_assoc]
      rwa [both]

def emptySlots (pset : PointerSet w) : Finset Nat :=
  (Finset.range pset.nSlots).filter fun n => pset.slots n = 0#w

theorem Valid.emptySlots_card {pset : PointerSet w} {pointers : Finset (Pointer w)}
    (valid : Valid A pset pointers) : 3 * pset.nSlots ≤ 4 * (emptySlots pset).card := by
  have parts := Finset.card_filter_add_card_filter_not (s := Finset.range pset.nSlots)
    fun n => pset.slots n = 0#w
  have used : ((Finset.range pset.nSlots).filter fun n => ¬ pset.slots n = 0#w).card =
      pointers.card := valid.holds.card
  have load := valid.load
  rw [valid.count] at load
  rw [Finset.card_range] at parts
  rw [emptySlots]
  omega

/-- Every sequence of calls with nonnull pointers is answered, and rightly so.  (A prefix of the
sequence is one too, so the rest holds after each call.) -/
theorem runCalls_create (A : BitVec w) {calls : List (Call w)}
    (nonnull : ∀ call ∈ calls, call.pointer ≠ 0#w) :
    ∃ pset, runCalls A (pointerSetCreate w) calls = some (insertedBefore ∅ calls, pset) ∧
      pset.nElements = (inserted calls).card ∧ pset.nSlots = 2 ^ pset.logSlots ∧
      (∀ p, hash1 A p pset.nSlots pset.logSlots < pset.nSlots) ∧
      3 * pset.nSlots ≤ 4 * (emptySlots pset).card := by
  obtain ⟨pset, ran, valid⟩ := runCalls_spec (valid_create A) nonnull
  rw [Finset.union_empty] at valid
  refine ⟨pset, ran, valid.count, valid.size, fun p => ?_, valid.emptySlots_card⟩
  rw [valid.size]
  exact hash1_lt A p pset.logSlots

theorem runCalls_create_two :
    ∃ pset, runCalls multiplier64 (pointerSetCreate 64)
          [.insert 16#64, .insert 32#64, .contains 16#64] =
        some (insertedBefore ∅ [.insert 16#64, .insert 32#64, .contains 16#64], pset) ∧
      pset.nElements =
        (inserted ([.insert 16#64, .insert 32#64, .contains 16#64] : List (Call 64))).card ∧
      pset.nSlots = 2 ^ pset.logSlots ∧
      (∀ p, hash1 multiplier64 p pset.nSlots pset.logSlots < pset.nSlots) ∧
      3 * pset.nSlots ≤ 4 * (emptySlots pset).card :=
  runCalls_create multiplier64 (by decide)

end GccCil.Gcc.PointerSets
