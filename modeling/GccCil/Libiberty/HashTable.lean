import GccCil.Libiberty.PrimeTable

/-!
# Hash tables

The hash tables of `hashtab.c`: an array of entries that are probed by double hashing.
An entry that is removed leaves a deleted entry behind, which a later insertion may use
again.  The functions that search take the number of entries they may look at; one that
has looked at as many has not ended.  Whether an allocation succeeds is a parameter.
-/

namespace GccCil.Libiberty.Hashtab

/-- An entry: `HTAB_EMPTY_ENTRY`, `HTAB_DELETED_ENTRY`, or an element. -/
inductive Entry (α : Type) where
  | empty | deleted
  | live (element : α)
  deriving DecidableEq, Repr

/-- `struct htab`. -/
structure Htab (α : Type) where
  entries : List (Entry α)
  size : Nat
  nElements : Nat
  nDeleted : Nat
  sizePrimeIndex : Fin primeTab.length
  deriving DecidableEq, Repr

/-- How a function fails to return: it aborts, reads through a null slot, or has not ended. -/
inductive Fault where
  | abort | nullSlot | runsOn
  deriving DecidableEq, Repr

/-- The loop of `higher_prime_index`, which ends as `low` and `high` meet. -/
def higherPrimeLoop (n : Nat) : Nat → Nat → Nat → Nat
  | 0, low, _ => low
  | fuel + 1, low, high =>
    if low ≠ high then
      let mid := low + (high - low) / 2
      if n > (primeTab.getD mid ⟨0, 0, 0, 0⟩).prime.toNat then
        higherPrimeLoop n fuel (mid + 1) high
      else higherPrimeLoop n fuel low mid
    else low

/-- `higher_prime_index`.  There is no index where it aborts, or reads past the table. -/
def higherPrimeIndex (n : Nat) : Option (Fin primeTab.length) :=
  let low := higherPrimeLoop n primeTab.length 0 primeTab.length
  if inside : low < primeTab.length then
    if n > (primeTab.get ⟨low, inside⟩).prime.toNat then none else some ⟨low, inside⟩
  else none

namespace Htab

variable {α : Type} (h : Htab α)

def entry (slot : Nat) : Entry α := h.entries.getD slot .empty

def put (slot : Nat) (entry : Entry α) : Htab α :=
  { h with entries := h.entries.set slot entry }

/-- `htab_elements`. -/
def elements : Nat := h.nElements - h.nDeleted

def htabMod (hash : BitVec 32) : Nat :=
  let p := primeTab.get h.sizePrimeIndex
  (htabMod1 hash p.prime p.inv p.shift).toNat

def htabModM2 (hash : BitVec 32) : Nat :=
  let p := primeTab.get h.sizePrimeIndex
  (1 + htabMod1 hash (p.prime - 2) p.invM2 p.shift).toNat

end Htab

/-- The slot that a search looks at after another; `index` is a `hashval_t`. -/
def nextIndex (size hash2 index : Nat) : Nat :=
  let index := (index + hash2) % 2 ^ 32
  if index ≥ size then index - size else index

section Functions

variable {α : Type} (hashF : α → BitVec 32) (eqF : α → α → Bool)

/-- `htab_create`, where the allocations succeed. -/
def htabCreate (size : Nat) : Option (Htab α) :=
  (higherPrimeIndex size).map fun i =>
    let size := (primeTab.get i).prime.toNat
    { entries := List.replicate size .empty, size := size, nElements := 0, nDeleted := 0
      sizePrimeIndex := i }

def htabEmpty (h : Htab α) : Htab α :=
  { h with entries := List.replicate h.size .empty }

/-- The loop of `find_empty_slot_for_expand`. -/
def emptySlotLoop (h : Htab α) (hash2 : Nat) : Nat → Nat → Except Fault Nat
  | 0, _ => .error .runsOn
  | rounds + 1, index =>
    let index := nextIndex h.size hash2 index
    match h.entry index with
    | .empty => .ok index
    | .deleted => .error .abort
    | .live _ => emptySlotLoop h hash2 rounds index

def findEmptySlotForExpand (h : Htab α) (hash : BitVec 32) (rounds : Nat) : Except Fault Nat :=
  let index := h.htabMod hash
  match h.entry index with
  | .empty => .ok index
  | .deleted => .error .abort
  | .live _ => emptySlotLoop h (h.htabModM2 hash) rounds index

/-- The loop of `htab_expand`, which stores the live entries of the old array. -/
def rehash (rounds : Nat) : List (Entry α) → Htab α → Except Fault (Htab α)
  | [], h => .ok h
  | .live x :: rest, h =>
    match findEmptySlotForExpand h (hashF x) rounds with
    | .error fault => .error fault
    | .ok slot => rehash rounds rest (h.put slot (.live x))
  | _ :: rest, h => rehash rounds rest h

/-- `htab_expand`; the result is `none` where the allocation fails. -/
def htabExpand (h : Htab α) (allocates : Bool) (rounds : Nat) : Except Fault (Option (Htab α)) :=
  let elts := h.elements
  let index :=
    if elts * 2 > h.size ∨ (elts * 8 < h.size ∧ h.size > 32) then higherPrimeIndex (elts * 2)
    else some h.sizePrimeIndex
  match index with
  | none => .error .abort
  | some nindex =>
    if allocates then
      let nsize := (primeTab.get nindex).prime.toNat
      let fresh : Htab α :=
        { entries := List.replicate nsize .empty, size := nsize
          nElements := h.nElements - h.nDeleted, nDeleted := 0, sizePrimeIndex := nindex }
      (rehash hashF rounds h.entries fresh).map some
    else .ok none

/-- The loop of `htab_find_with_hash`, from the slot `index`. -/
def findLoop (h : Htab α) (element : α) (hash2 : Nat) : Nat → Nat → Except Fault (Option α)
  | 0, _ => .error .runsOn
  | rounds + 1, index =>
    match h.entry index with
    | .empty => .ok none
    | .deleted => findLoop h element hash2 rounds (nextIndex h.size hash2 index)
    | .live x =>
      if eqF x element then .ok (some x)
      else findLoop h element hash2 rounds (nextIndex h.size hash2 index)

def htabFindWithHash (h : Htab α) (element : α) (hash : BitVec 32) (rounds : Nat) :
    Except Fault (Option α) :=
  findLoop eqF h element (h.htabModM2 hash) rounds (h.htabMod hash)

/-- Where the search of `htab_find_slot_with_hash` ends. -/
inductive Search where
  | found (slot : Nat)
  | emptyEntry (slot : Nat) (firstDeletedSlot : Option Nat)
  deriving DecidableEq, Repr

/-- The search of `htab_find_slot_with_hash`, from the slot `index`. -/
def slotLoop (h : Htab α) (element : α) (hash2 : Nat) :
    Nat → Nat → Option Nat → Except Fault Search
  | 0, _, _ => .error .runsOn
  | rounds + 1, index, firstDeletedSlot =>
    match h.entry index with
    | .empty => .ok (.emptyEntry index firstDeletedSlot)
    | .deleted =>
      slotLoop h element hash2 rounds (nextIndex h.size hash2 index)
        (firstDeletedSlot.or (some index))
    | .live x =>
      if eqF x element then .ok (.found index)
      else slotLoop h element hash2 rounds (nextIndex h.size hash2 index) firstDeletedSlot

/-- `enum insert_option`. -/
inductive InsertOption where
  | noInsert | insert
  deriving DecidableEq, Repr

/-- `htab_find_slot_with_hash` after the expansion. -/
def findSlot (h : Htab α) (element : α) (hash : BitVec 32) (option : InsertOption)
    (rounds : Nat) : Except Fault (Htab α × Option Nat) :=
  match slotLoop eqF h element (h.htabModM2 hash) rounds (h.htabMod hash) none with
  | .error fault => .error fault
  | .ok (.found slot) => .ok (h, some slot)
  | .ok (.emptyEntry slot firstDeletedSlot) =>
    match option, firstDeletedSlot with
    | .noInsert, _ => .ok (h, none)
    | .insert, some deleted =>
      .ok ({ h.put deleted .empty with nDeleted := h.nDeleted - 1 }, some deleted)
    | .insert, none => .ok ({ h with nElements := h.nElements + 1 }, some slot)

/-- `htab_find_slot_with_hash`; the slot is `none` for a null pointer. -/
def htabFindSlotWithHash (h : Htab α) (element : α) (hash : BitVec 32) (option : InsertOption)
    (allocates : Bool) (rounds : Nat) : Except Fault (Htab α × Option Nat) :=
  if option = .insert ∧ h.size * 3 ≤ h.nElements * 4 then
    match htabExpand hashF h allocates rounds with
    | .error fault => .error fault
    | .ok none => .ok (h, none)
    | .ok (some h) => findSlot eqF h element hash option rounds
  else findSlot eqF h element hash option rounds

def Htab.delete (h : Htab α) (slot : Nat) : Htab α :=
  { h.put slot .deleted with nDeleted := h.nDeleted + 1 }

/-- `htab_remove_elt_with_hash`.  The slot of an absent element is null. -/
def htabRemoveEltWithHash (h : Htab α) (element : α) (hash : BitVec 32) (rounds : Nat) :
    Except Fault (Htab α) :=
  match htabFindSlotWithHash hashF eqF h element hash .noInsert true rounds with
  | .error fault => .error fault
  | .ok (_, none) => .error .nullSlot
  | .ok (h, some slot) =>
    match h.entry slot with
    | .empty => .ok h
    | .deleted | .live _ => .ok (h.delete slot)

/-- `htab_clear_slot`; a slot outside the array has an index past its end. -/
def htabClearSlot (h : Htab α) (slot : Nat) : Except Fault (Htab α) :=
  if slot ≥ h.size then .error .abort
  else
    match h.entry slot with
    | .empty | .deleted => .error .abort
    | .live _ => .ok (h.delete slot)

structure Visit where
  clears : Bool
  goesOn : Bool

/-- The loop of `htab_traverse_noresize` over `count` more slots. -/
def traverseLoop (callback : α → Visit) : Nat → Nat → Htab α → Except Fault (Htab α)
  | 0, _, h => .ok h
  | count + 1, slot, h =>
    match h.entry slot with
    | .empty | .deleted => traverseLoop callback count (slot + 1) h
    | .live x =>
      match if (callback x).clears then htabClearSlot h slot else .ok h with
      | .error fault => .error fault
      | .ok h =>
        if (callback x).goesOn then traverseLoop callback count (slot + 1) h else .ok h

def htabTraverseNoresize (h : Htab α) (callback : α → Visit) : Except Fault (Htab α) :=
  traverseLoop callback h.size 0 h

def htabTraverse (h : Htab α) (callback : α → Visit) (allocates : Bool) (rounds : Nat) :
    Except Fault (Htab α) :=
  if h.elements * 8 < h.size then
    match htabExpand hashF h allocates rounds with
    | .error fault => .error fault
    | .ok none => htabTraverseNoresize h callback
    | .ok (some h) => htabTraverseNoresize h callback
  else htabTraverseNoresize h callback

end Functions

end GccCil.Libiberty.Hashtab
