import GccCil.Lib.LinkedList
import Mathlib.Data.Fintype.Pi

/-!
# Sparse bitmaps

The operations of `bitmap.c` on bitmaps that share one obstack.  The fields of
the elements and of the heads are maps from their addresses.  A result `none`
stands for a null pointer that is followed, for a failed assertion, and for a
loop that visits more elements than there are.
-/

namespace GccCil.Gcc.Bitmap

open Lib

section Words

variable (wordBits : Nat)

/-- `BITMAP_ELEMENT_WORDS`, for words of `BITMAP_WORD_BITS` bits. -/
def elementWords : Nat := (128 + wordBits - 1) / wordBits

/-- `BITMAP_ELEMENT_ALL_BITS`. -/
def elementAllBits : Nat := elementWords wordBits * wordBits

abbrev Bits := Fin (elementWords wordBits) → BitVec wordBits

variable {wordBits}

def zeroBits : Bits wordBits := fun _ => 0

def wordNum (wordBits bit : Nat) : Nat := bit / wordBits % elementWords wordBits

def bitVal (wordBits bit : Nat) : BitVec wordBits :=
  (1 : BitVec wordBits) <<< (bit % wordBits)

def Bits.atWord (bits : Bits wordBits) (bit : Nat) (change : BitVec wordBits → BitVec wordBits) :
    Bits wordBits :=
  fun ix => if ix = wordNum wordBits bit then change (bits ix) else bits ix

def Bits.test (bits : Bits wordBits) (bit : Nat) : Bool :=
  if inElement : wordNum wordBits bit < elementWords wordBits then
    ((bits ⟨wordNum wordBits bit, inElement⟩ >>> (bit % wordBits)) &&& 1) ≠ 0
  else false

end Words

variable {β : Type} [DecidableEq β] {wordBits : Nat}

/-- The elements, the bitmaps that are their heads, and the free list. -/
structure Store (β : Type) (wordBits : Nat) where
  next : Nat → Option Nat
  prev : Nat → Option Nat
  indx : Nat → Nat
  bits : Nat → Bits wordBits
  first : β → Option Nat
  current : β → Option Nat
  headIndx : β → Nat
  elements : Option Nat
  /-- The elements from here on are not allocated. -/
  used : Nat

namespace Store

def setNext (s : Store β wordBits) (elt : Option Nat) (value : Option Nat) : Store β wordBits :=
  { s with next := setAt s.next elt value }

def setPrev (s : Store β wordBits) (elt : Option Nat) (value : Option Nat) : Store β wordBits :=
  { s with prev := setAt s.prev elt value }

def setIndx (s : Store β wordBits) (elt indx : Nat) : Store β wordBits :=
  { s with indx := Function.update s.indx elt indx }

def setBits (s : Store β wordBits) (elt : Nat) (bits : Bits wordBits) : Store β wordBits :=
  { s with bits := Function.update s.bits elt bits }

def setFirst (s : Store β wordBits) (head : β) (elt : Option Nat) : Store β wordBits :=
  { s with first := Function.update s.first head elt }

def setCurrent (s : Store β wordBits) (head : β) (elt : Option Nat) : Store β wordBits :=
  { s with current := Function.update s.current head elt }

def setHeadIndx (s : Store β wordBits) (head : β) (indx : Nat) : Store β wordBits :=
  { s with headIndx := Function.update s.headIndx head indx }

def setElements (s : Store β wordBits) (elt : Option Nat) : Store β wordBits :=
  { s with elements := elt }

def lookAt (s : Store β wordBits) (head : β) (elt : Nat) : Store β wordBits :=
  (s.setCurrent head (some elt)).setHeadIndx head (s.indx elt)

def elemToFreelist (s : Store β wordBits) (elt : Nat) : Store β wordBits :=
  ((s.setNext (some elt) none).setPrev (some elt) s.elements).setElements (some elt)

def leaveCurrent (s : Store β wordBits) (head : β) (next prev : Option Nat) : Store β wordBits :=
  match next.or prev with
  | some elt => s.lookAt head elt
  | none => s.setCurrent head none

def elementFree (s : Store β wordBits) (head : β) (elt : Nat) : Store β wordBits :=
  let next := s.next elt
  let prev := s.prev elt
  let s := (s.setNext prev next).setPrev next prev
  let s := if s.first head = some elt then s.setFirst head next else s
  let s := if s.current head = some elt then s.leaveCurrent head next prev else s
  s.elemToFreelist elt

def takeElement (s : Store β wordBits) (element : Nat) : Store β wordBits :=
  match s.next element with
  | some inner => (s.setElements (some inner)).setPrev (some inner) (s.prev element)
  | none => s.setElements (s.prev element)

def elementAllocate (s : Store β wordBits) : Nat × Store β wordBits :=
  match s.elements with
  | some element => (element, (s.takeElement element).setBits element zeroBits)
  | none => (s.used, { s with used := s.used + 1 }.setBits s.used zeroBits)

def eltClearFrom (s : Store β wordBits) (head : β) : Option Nat → Option (Store β wordBits)
  | none => some s
  | some elt =>
    let freed := fun s : Store β wordBits =>
      (s.setPrev (some elt) s.elements).setElements (some elt)
    match s.prev elt with
    | some prev =>
      (s.current head).map fun current =>
        let s := s.setNext (some prev) none
        freed (if s.indx current > s.indx prev then s.lookAt head prev else s)
    | none =>
      some (freed (((s.setFirst head none).setCurrent head none).setHeadIndx head 0))

def clear (s : Store β wordBits) (head : β) : Option (Store β wordBits) :=
  s.eltClearFrom head (s.first head)

def elementLink (s : Store β wordBits) (head : β) (element : Nat) : Option (Store β wordBits) :=
  let indx := s.indx element
  let linked : Option (Store β wordBits) :=
    match s.first head, s.current head with
    | none, _ =>
      some (((s.setNext (some element) none).setPrev (some element) none).setFirst head
        (some element))
    | some _, none => none
    | some _, some current =>
      if indx < s.headIndx head then
        (walk s.prev (fun _ prev => s.indx prev > indx) s.used current).map fun ptr =>
          let prev := s.prev ptr
          let s := match prev with
            | some _ => s.setNext prev (some element)
            | none => s.setFirst head (some element)
          ((s.setPrev (some element) prev).setNext (some element) (some ptr)).setPrev (some ptr)
            (some element)
      else
        (walk s.next (fun _ next => s.indx next < indx) s.used current).map fun ptr =>
          let next := s.next ptr
          ((((s.setPrev next (some element)).setNext (some element) next).setPrev (some element)
            (some ptr)).setNext (some ptr) (some element))
  linked.map fun s => (s.setCurrent head (some element)).setHeadIndx head indx

def eltInsertAfter (s : Store β wordBits) (head : β) (elt : Option Nat) :
    Option (Nat × Store β wordBits) :=
  let (node, s) := s.elementAllocate
  match elt with
  | none =>
    let s := if s.current head = none then s.setCurrent head (some node) else s
    let s := s.setNext (some node) (s.first head)
    let s := s.setPrev (s.first head) (some node)
    some (node, (s.setFirst head (some node)).setPrev (some node) none)
  | some elt =>
    if s.current head = none then none
    else
      let next := s.next elt
      let s := (s.setNext (some node) next).setPrev next (some node)
      some (node, (s.setNext (some elt) (some node)).setPrev (some node) (some elt))

/-- The loops of `bitmap_find_bit`, from the current element or from the first. -/
def nearest (s : Store β wordBits) (head : β) (current indx : Nat) : Option Nat :=
  if s.headIndx head < indx then walk s.next (fun elt _ => s.indx elt < indx) s.used current
  else if s.headIndx head / 2 < indx then
    walk s.prev (fun elt _ => s.indx elt > indx) s.used current
  else (s.first head).bind (walk s.next (fun elt _ => s.indx elt < indx) s.used)

def findBit (s : Store β wordBits) (head : β) (bit : Nat) :
    Option (Option Nat × Store β wordBits) :=
  let indx := bit / elementAllBits wordBits
  match s.current head with
  | none => some (none, s)
  | some current =>
    if s.headIndx head = indx then some (some current, s)
    else
      (s.nearest head current indx).map fun element =>
        (if s.indx element ≠ indx then none else some element, s.lookAt head element)

def clearBit (s : Store β wordBits) (head : β) (bit : Nat) : Option (Store β wordBits) :=
  (s.findBit head bit).map fun (ptr, s) =>
    match ptr with
    | none => s
    | some ptr =>
      let bits := (s.bits ptr).atWord bit fun word => word &&& ~~~bitVal wordBits bit
      let s := s.setBits ptr bits
      if bits = zeroBits then s.elementFree head ptr else s

def setBit (s : Store β wordBits) (head : β) (bit : Nat) : Option (Store β wordBits) :=
  (s.findBit head bit).bind fun (ptr, s) =>
    match ptr with
    | none =>
      let (ptr, s) := s.elementAllocate
      let s := s.setIndx ptr (bit / elementAllBits wordBits)
      (s.setBits ptr ((s.bits ptr).atWord bit fun _ => bitVal wordBits bit)).elementLink head ptr
    | some ptr =>
      some (s.setBits ptr ((s.bits ptr).atWord bit fun word => word ||| bitVal wordBits bit))

def bitP (s : Store β wordBits) (head : β) (bit : Nat) : Option (Bool × Store β wordBits) :=
  (s.findBit head bit).map fun (ptr, s) =>
    (match ptr with
      | none => false
      | some ptr => (s.bits ptr).test bit, s)

def append (s : Store β wordBits) (target : β) (toPtr : Option Nat) (toElt indx : Nat) :
    Store β wordBits :=
  match toPtr with
  | none =>
    let s := (s.setFirst target (some toElt)).setCurrent target (some toElt)
    ((s.setHeadIndx target indx).setNext (some toElt) none).setPrev (some toElt) none
  | some toPtr =>
    ((s.setPrev (some toElt) (some toPtr)).setNext (some toElt) none).setNext (some toPtr)
      (some toElt)

/-- The loop of `bitmap_copy`. -/
def copyLoop (target : β) : Nat → Option Nat → Option Nat → Store β wordBits →
    Option (Store β wordBits)
  | 0, _, _, _ => none
  | _ + 1, none, _, s => some s
  | fuel + 1, some fromPtr, toPtr, s =>
    let (toElt, s) := s.elementAllocate
    let s := (s.setIndx toElt (s.indx fromPtr)).setBits toElt (s.bits fromPtr)
    let s := s.append target toPtr toElt (s.indx fromPtr)
    copyLoop target fuel (s.next fromPtr) (some toElt) s

/-- More steps than a loop over two lists takes. -/
def fuel (s : Store β wordBits) : Nat := 2 * s.used + 1

def copy (s : Store β wordBits) (target source : β) : Option (Store β wordBits) :=
  (s.clear target).bind fun s => copyLoop target s.fuel (s.first source) none s

end Store

/-- What distinguishes the operations on two bitmaps: whether elements are kept
that only the one or the other has, how two elements are combined, which matches
count as a change, and whether an element without bits is freed. -/
structure IntoOp (wordBits : Nat) where
  keepA : Bool
  keepB : Bool
  combine : Bits wordBits → Bits wordBits → Bits wordBits
  changes : Bits wordBits → Bits wordBits → Bool
  freesZero : Bool

namespace Store

def intoLoop (op : IntoOp wordBits) (a : β) : Nat → Option Nat → Option Nat → Option Nat → Bool →
    Store β wordBits → Option (Option Nat × Bool × Store β wordBits)
  | 0, _, _, _, _, _ => none
  | _ + 1, _, aElt, none, changed, s => some (aElt, changed, s)
  | fuel + 1, aPrev, none, some y, changed, s =>
    if op.keepB then
      (s.eltInsertAfter a aPrev).bind fun (dst, s) =>
        let s := (s.setIndx dst (s.indx y)).setBits dst (s.bits y)
        intoLoop op a fuel (some dst) none (s.next y) true s
    else some (none, changed, s)
  | fuel + 1, aPrev, some x, some y, changed, s =>
    if s.indx x < s.indx y then
      if op.keepA then intoLoop op a fuel (some x) (s.next x) (some y) changed s
      else intoLoop op a fuel aPrev (s.next x) (some y) changed (s.elementFree a x)
    else if s.indx y < s.indx x then
      if op.keepB then
        (s.eltInsertAfter a aPrev).bind fun (dst, s) =>
          let s := (s.setIndx dst (s.indx y)).setBits dst (s.bits y)
          intoLoop op a fuel (some dst) (some x) (s.next y) true s
      else intoLoop op a fuel aPrev (some x) (s.next y) changed s
    else
      let r := op.combine (s.bits x) (s.bits y)
      let changed := changed || op.changes (s.bits x) (s.bits y)
      let next := s.next x
      let s := s.setBits x r
      if op.freesZero = true ∧ r = zeroBits then
        intoLoop op a fuel aPrev next (s.next y) changed (s.elementFree a x)
      else intoLoop op a fuel (some x) next (s.next y) changed s

/-- `gcc_assert (!a->current == !a->first)`. -/
def assertCurrent (s : Store β wordBits) (a : β) : Option (Store β wordBits) :=
  if (s.current a).isNone = (s.first a).isNone then some s else none

/-- `gcc_assert (!a->current || a->indx == a->current->indx)`. -/
def assertIndx (s : Store β wordBits) (a : β) : Option (Store β wordBits) :=
  match s.current a with
  | some current => if s.headIndx a = s.indx current then some s else none
  | none => some s

def updateIndx (s : Store β wordBits) (a : β) : Store β wordBits :=
  match s.current a with
  | some current => s.setHeadIndx a (s.indx current)
  | none => s

def andOp : IntoOp wordBits where
  keepA := false
  keepB := false
  combine := fun x y ix => x ix &&& y ix
  changes := fun _ _ => false
  freesZero := true

def andInto (s : Store β wordBits) (a b : β) : Option (Store β wordBits) :=
  if a = b then some s
  else
    (intoLoop andOp a s.fuel none (s.first a) (s.first b) false s).bind fun (aElt, _, s) =>
      (s.eltClearFrom a aElt).bind fun s => (s.assertCurrent a).bind fun s => s.assertIndx a

def andComplOp : IntoOp wordBits where
  keepA := true
  keepB := false
  combine := fun x y ix => x ix ^^^ (x ix &&& y ix)
  changes := fun x y => decide (∃ ix, x ix &&& y ix ≠ 0)
  freesZero := true

def andComplInto (s : Store β wordBits) (a b : β) : Option (Bool × Store β wordBits) :=
  if a = b then
    if s.first a = none then some (false, s) else (s.clear a).map fun s => (true, s)
  else
    (intoLoop andComplOp a s.fuel none (s.first a) (s.first b) false s).bind
      fun (_, changed, s) => (s.assertCurrent a).bind fun s => (s.assertIndx a).map fun s =>
        (changed, s)

def iorOp : IntoOp wordBits where
  keepA := true
  keepB := true
  combine := fun x y ix => x ix ||| y ix
  changes := fun x y => decide (∃ ix, x ix ≠ x ix ||| y ix)
  freesZero := false

def iorInto (s : Store β wordBits) (a b : β) : Option (Bool × Store β wordBits) :=
  if a = b then some (false, s)
  else
    (intoLoop iorOp a s.fuel none (s.first a) (s.first b) false s).bind fun (_, changed, s) =>
      (s.assertCurrent a).map fun s => (changed, s.updateIndx a)

def xorOp : IntoOp wordBits where
  keepA := true
  keepB := true
  combine := fun x y ix => x ix ^^^ y ix
  changes := fun _ _ => false
  freesZero := true

def xorInto (s : Store β wordBits) (a b : β) : Option (Store β wordBits) :=
  if a = b then s.clear a
  else
    (intoLoop xorOp a s.fuel none (s.first a) (s.first b) false s).bind fun (_, _, s) =>
      (s.assertCurrent a).map fun s => s.updateIndx a

end Store

/-- What distinguishes the operations on three bitmaps.  An element without bits
is skipped, or a change is looked for by comparing with what was there. -/
structure ThreeOp (wordBits : Nat) where
  keepA : Bool
  keepB : Bool
  combine : Bits wordBits → Bits wordBits → Bits wordBits
  skipsZero : Bool
  compares : Bool

namespace Store

/-- Write an element of the result over the next one that is there, or over a
new one.  Words are compared as long as nothing has changed. -/
def writeElt (op : ThreeOp wordBits) (s : Store β wordBits) (dst : β) (changed : Bool)
    (dstPrev dstElt : Option Nat) (indx : Nat) (r : Bits wordBits) :
    Option (Bool × Nat × Store β wordBits) :=
  match dstElt with
  | some elt =>
    let changed :=
      if op.compares = true ∧ changed = false ∧ s.indx elt = indx then
        decide (∃ ix, r ix ≠ s.bits elt ix)
      else true
    some (changed, elt, (s.setIndx elt indx).setBits elt r)
  | none =>
    (s.eltInsertAfter dst dstPrev).map fun (elt, s) =>
      (true, elt, (s.setIndx elt indx).setBits elt r)

def mergeLoop (op : ThreeOp wordBits) (dst : β) : Nat → Option Nat → Option Nat → Option Nat →
    Option Nat → Bool → Store β wordBits → Option (Option Nat × Bool × Store β wordBits)
  | 0, _, _, _, _, _, _ => none
  | _ + 1, _, dstElt, none, none, changed, s => some (dstElt, changed, s)
  | fuel + 1, dstPrev, dstElt, some x, none, changed, s =>
    if op.keepA then
      (s.writeElt op dst changed dstPrev dstElt (s.indx x) (s.bits x)).bind
        fun (changed, elt, s) =>
          mergeLoop op dst fuel (some elt) (s.next elt) (s.next x) none changed s
    else some (dstElt, changed, s)
  | fuel + 1, dstPrev, dstElt, none, some y, changed, s =>
    if op.keepB then
      (s.writeElt op dst changed dstPrev dstElt (s.indx y) (s.bits y)).bind
        fun (changed, elt, s) =>
          mergeLoop op dst fuel (some elt) (s.next elt) none (s.next y) changed s
    else some (dstElt, changed, s)
  | fuel + 1, dstPrev, dstElt, some x, some y, changed, s =>
    if s.indx x < s.indx y then
      if op.keepA then
        (s.writeElt op dst changed dstPrev dstElt (s.indx x) (s.bits x)).bind
          fun (changed, elt, s) =>
            mergeLoop op dst fuel (some elt) (s.next elt) (s.next x) (some y) changed s
      else mergeLoop op dst fuel dstPrev dstElt (s.next x) (some y) changed s
    else if s.indx y < s.indx x then
      if op.keepB then
        (s.writeElt op dst changed dstPrev dstElt (s.indx y) (s.bits y)).bind
          fun (changed, elt, s) =>
            mergeLoop op dst fuel (some elt) (s.next elt) (some x) (s.next y) changed s
      else mergeLoop op dst fuel dstPrev dstElt (some x) (s.next y) changed s
    else
      (s.writeElt op dst changed dstPrev dstElt (s.indx x)
          (op.combine (s.bits x) (s.bits y))).bind fun (changed, elt, s) =>
        if op.skipsZero = true ∧ s.bits elt = zeroBits then
          mergeLoop op dst fuel dstPrev (some elt) (s.next x) (s.next y) changed s
        else mergeLoop op dst fuel (some elt) (s.next elt) (s.next x) (s.next y) changed s

def finish (s : Store β wordBits) (dst : β) (dstElt : Option Nat) : Option (Store β wordBits) :=
  (s.eltClearFrom dst dstElt).bind fun s => (s.assertCurrent dst).map fun s => s.updateIndx dst

def and3 : ThreeOp wordBits where
  keepA := false
  keepB := false
  combine := fun x y ix => x ix &&& y ix
  skipsZero := true
  compares := false

def and (s : Store β wordBits) (dst a b : β) : Option (Store β wordBits) :=
  if dst = a ∨ dst = b then none
  else if a = b then s.copy dst a
  else
    (mergeLoop and3 dst s.fuel none (s.first dst) (s.first a) (s.first b) false s).bind
      fun (dstElt, _, s) => s.finish dst dstElt

def andCompl3 : ThreeOp wordBits where
  keepA := true
  keepB := false
  combine := fun x y ix => x ix &&& ~~~y ix
  skipsZero := true
  compares := false

def andCompl (s : Store β wordBits) (dst a b : β) : Option (Store β wordBits) :=
  if dst = a ∨ dst = b then none
  else if a = b then s.clear dst
  else
    (mergeLoop andCompl3 dst s.fuel none (s.first dst) (s.first a) (s.first b) false s).bind
      fun (dstElt, _, s) => s.finish dst dstElt

def ior3 : ThreeOp wordBits where
  keepA := true
  keepB := true
  combine := fun x y ix => x ix ||| y ix
  skipsZero := false
  compares := true

def ior (s : Store β wordBits) (dst a b : β) : Option (Bool × Store β wordBits) :=
  if dst = a ∨ dst = b then none
  else
    (mergeLoop ior3 dst s.fuel none (s.first dst) (s.first a) (s.first b) false s).bind
      fun (dstElt, changed, s) =>
        (s.finish dst dstElt).map fun s => (changed || dstElt.isSome, s)

def xor3 : ThreeOp wordBits where
  keepA := true
  keepB := true
  combine := fun x y ix => x ix ^^^ y ix
  skipsZero := true
  compares := false

def xor (s : Store β wordBits) (dst a b : β) : Option (Store β wordBits) :=
  if dst = a ∨ dst = b then none
  else if a = b then s.clear dst
  else
    (mergeLoop xor3 dst s.fuel none (s.first dst) (s.first a) (s.first b) false s).bind
      fun (dstElt, _, s) => s.finish dst dstElt

end Store

end GccCil.Gcc.Bitmap
