import GccCil.Gcc.BitmapWords
import Mathlib.Tactic.Ring

/-!
# Iteration

The iterators of `bitmap.h` over the bits of a bitmap and over the common bits of
two.  They share all but how they get to the next element and what they read of
a word.  A bit number is an `unsigned`, which the last word of the last element
may wrap.
-/

namespace GccCil.Gcc.Bitmap

open Lib

section Words

variable {wordBits : Nat}

/-- `unsigned` arithmetic. -/
def unsigned (n : Nat) : Nat := n % 2 ^ 32

def Bits.word (bits : Bits wordBits) (wordNo : Nat) : BitVec wordBits :=
  if within : wordNo < elementWords wordBits then bits ⟨wordNo, within⟩ else 0

/-- The loop at `next_bit`. -/
def nextBit : Nat → BitVec wordBits → Nat → Option (BitVec wordBits × Nat)
  | 0, _, _ => none
  | fuel + 1, bits, bitNo =>
    if bits.getLsbD 0 then some (bits, bitNo) else nextBit fuel (bits >>> 1) (unsigned (bitNo + 1))

def nextWord (word : Nat → BitVec wordBits) :
    Nat → Nat → Nat → Option (Option (BitVec wordBits) × Nat × Nat)
  | 0, _, _ => none
  | fuel + 1, wordNo, bitNo =>
    if wordNo ≠ elementWords wordBits then
      let bits := word wordNo
      if bits ≠ 0 then some (some bits, wordNo, bitNo)
      else nextWord word fuel (wordNo + 1) (unsigned (bitNo + wordBits))
    else some (none, wordNo, bitNo)

end Words

/-- `bitmap_iterator`: where it is in the elements, and the rest of a word. -/
structure Iterator (ε : Type) (wordBits : Nat) where
  elts : ε
  wordNo : Nat
  bits : BitVec wordBits

/-- What differs between the iterators: the next elements, if there are any, the
index, and the words. -/
structure Cursor (ε : Type) (wordBits : Nat) where
  advance : ε → Option (Option ε)
  indx : ε → Nat
  word : ε → Nat → BitVec wordBits

namespace Cursor

variable {ε : Type} {wordBits : Nat}

def nextElement (cursor : Cursor ε wordBits) :
    Nat → Iterator ε wordBits → Nat → Option (Bool × Iterator ε wordBits × Nat)
  | 0, _, _ => none
  | fuel + 1, bi, bitNo =>
    (nextWord (cursor.word bi.elts) (elementWords wordBits + 1) bi.wordNo bitNo).bind fun
      | (some bits, wordNo, bitNo) =>
        (nextBit wordBits bits bitNo).map fun (bits, bitNo) =>
          (true, { bi with bits, wordNo }, bitNo)
      | (none, wordNo, bitNo) =>
        (cursor.advance bi.elts).bind fun
          | none => some (false, { bi with wordNo }, bitNo)
          | some elts =>
            nextElement cursor fuel { bi with elts, wordNo := 0 }
              (unsigned (cursor.indx elts * elementAllBits wordBits))

/-- `bmp_iter_set` and `bmp_iter_and`. -/
def bmpIter (cursor : Cursor ε wordBits) (fuel : Nat) (bi : Iterator ε wordBits) (bitNo : Nat) :
    Option (Bool × Iterator ε wordBits × Nat) :=
  if bi.bits ≠ 0 then
    (nextBit wordBits bi.bits bitNo).map fun (bits, bitNo) => (true, { bi with bits }, bitNo)
  else
    cursor.nextElement fuel { bi with wordNo := bi.wordNo + 1 }
      (unsigned (unsigned (bitNo + wordBits - 1) / wordBits * wordBits))

def bmpIterNext (bi : Iterator ε wordBits) (bitNo : Nat) : Iterator ε wordBits × Nat :=
  ({ bi with bits := bi.bits >>> 1 }, unsigned (bitNo + 1))

/-- The loop that visits the bits, with a bound on their number. -/
def visits (cursor : Cursor ε wordBits) (elements : Nat) :
    Nat → Iterator ε wordBits → Nat → Option (List Nat)
  | 0, _, _ => none
  | fuel + 1, bi, bitNo =>
    (cursor.bmpIter elements bi bitNo).bind fun
      | (false, _, _) => some []
      | (true, bi, bitNo) =>
        let (bi, next) := bmpIterNext bi bitNo
        (visits cursor elements fuel bi next).map (bitNo :: ·)

def begin (cursor : Cursor ε wordBits) (elts : ε) (startBit : Nat) :
    Iterator ε wordBits × Nat :=
  let startBit :=
    if cursor.indx elts ≠ startBit / elementAllBits wordBits then
      unsigned (cursor.indx elts * elementAllBits wordBits)
    else startBit
  let wordNo := startBit / wordBits % elementWords wordBits
  let bits := cursor.word elts wordNo >>> (startBit % wordBits)
  ({ elts, wordNo, bits }, unsigned (startBit + if bits = 0 then 1 else 0))

end Cursor

/-- An element, or `&bitmap_zero_bits`. -/
inductive Pointer where
  | zeroBits
  | element (x : Nat)
  deriving DecidableEq, Repr

namespace Store

variable {β : Type} {wordBits : Nat}

def nextOf (s : Store β wordBits) : Pointer → Option Pointer
  | .zeroBits => none
  | .element x => (s.next x).map .element

def indxOf (s : Store β wordBits) : Pointer → Nat
  | .zeroBits => 0
  | .element x => s.indx x

def bitsOf (s : Store β wordBits) : Pointer → Bits wordBits
  | .zeroBits => Bitmap.zeroBits
  | .element x => s.bits x

def seek (s : Store β wordBits) (bound : Nat) : Nat → Option Nat → Option (Option Nat)
  | _, none => some none
  | 0, some _ => none
  | fuel + 1, some x => if s.indx x ≥ bound then some (some x) else seek s bound fuel (s.next x)

def advancePast (s : Store β wordBits) (bound : Nat) : Nat → Pointer → Option (Option Pointer)
  | 0, _ => none
  | fuel + 1, elt =>
    match s.nextOf elt with
    | none => some none
    | some elt =>
      if s.indxOf elt < bound then advancePast s bound fuel elt else some (some elt)

def advanceTo (s : Store β wordBits) (bound : Nat) (fuel : Nat) (elt : Pointer) :
    Option (Option Pointer) :=
  if s.indxOf elt < bound then s.advancePast bound fuel elt else some (some elt)

def advanceBoth (s : Store β wordBits) : Nat → Pointer × Pointer → Option (Option (Pointer × Pointer))
  | 0, _ => none
  | fuel + 1, (elt1, elt2) =>
    (s.advancePast (s.indxOf elt2) (s.used + 1) elt1).bind fun
      | none => some none
      | some elt1 =>
        (s.advanceTo (s.indxOf elt1) (s.used + 1) elt2).bind fun
          | none => some none
          | some elt2 =>
            if s.indxOf elt1 ≠ s.indxOf elt2 then advanceBoth s fuel (elt1, elt2)
            else some (some (elt1, elt2))

def setCursor (s : Store β wordBits) : Cursor Pointer wordBits where
  advance := fun elt => some (s.nextOf elt)
  indx := s.indxOf
  word := fun elt => (s.bitsOf elt).word

def andCursor (s : Store β wordBits) : Cursor (Pointer × Pointer) wordBits where
  advance := s.advanceBoth (s.used + 1)
  indx := fun elts => s.indxOf elts.1
  word := fun elts wordNo => (s.bitsOf elts.1).word wordNo &&& (s.bitsOf elts.2).word wordNo

def bmpIterSetInit (s : Store β wordBits) (map : β) (startBit : Nat) :
    Option (Iterator Pointer wordBits × Nat) :=
  (s.seek (startBit / elementAllBits wordBits) (s.used + 1) (s.first map)).map fun elt1 =>
    s.setCursor.begin (match elt1 with | some x => .element x | none => .zeroBits) startBit

def bmpIterAndInit (s : Store β wordBits) (map1 map2 : β) (startBit : Nat) :
    Option (Iterator (Pointer × Pointer) wordBits × Nat) :=
  (s.seek (startBit / elementAllBits wordBits) (s.used + 1) (s.first map1)).bind fun
    | none => some (s.andCursor.begin (.zeroBits, .zeroBits) startBit)
    | some x =>
      (s.seek (s.indx x) (s.used + 1) (s.first map2)).map fun
        | none => s.andCursor.begin (.zeroBits, .zeroBits) startBit
        | some y =>
          if s.indx x = s.indx y then s.andCursor.begin (.element x, .element y) startBit
          else
            ({ elts := (.element x, .element y), wordNo := elementWords wordBits - 1, bits := 0 },
              unsigned (startBit + 1))

def iterateSet (s : Store β wordBits) (map : β) (startBit fuel : Nat) : Option (List Nat) :=
  (s.bmpIterSetInit map startBit).bind fun (bi, bitNo) =>
    s.setCursor.visits (s.used + 1) fuel bi bitNo

def iterateAnd (s : Store β wordBits) (map1 map2 : β) (startBit fuel : Nat) :
    Option (List Nat) :=
  (s.bmpIterAndInit map1 map2 startBit).bind fun (bi, bitNo) =>
    s.andCursor.visits (s.used + 1) fuel bi bitNo

end Store

section Places

variable {wordBits : Nat}

theorem unsigned_of_lt {n : Nat} (small : n < 2 ^ 32) : unsigned n = n := Nat.mod_eq_of_lt small

theorem exists_place (wide : 0 < wordBits) {k indx : Nat}
    (inElement : k / elementAllBits wordBits = indx) :
    ∃ n p, n < elementWords wordBits ∧ p < wordBits ∧
      k = indx * elementAllBits wordBits + n * wordBits + p := by
  refine ⟨wordNum wordBits k, k % wordBits, wordNum_lt wide k, Nat.mod_lt _ wide, ?_⟩
  have outer := Nat.div_add_mod (k / wordBits) (elementWords wordBits)
  have inner := Nat.div_add_mod k wordBits
  rw [div_elementAllBits] at inElement
  rw [inElement] at outer
  rw [wordNum, elementAllBits, ← Nat.mul_assoc, ← Nat.add_mul, Nat.mul_comm indx, outer,
    Nat.mul_comm, inner]

theorem test_place (bits : Bits wordBits) {indx n p : Nat} (inElement : n < elementWords wordBits)
    (inWord : p < wordBits) :
    bits.test (indx * elementAllBits wordBits + n * wordBits + p) =
      (bits.word n).getLsbD p := by
  have wide : 0 < wordBits := Nat.zero_lt_of_lt inWord
  have isPlace : indx * elementAllBits wordBits + n * wordBits + p =
      wordBits * (elementWords wordBits * indx + n) + p := by
    rw [elementAllBits]
    ring
  have isWord : wordNum wordBits (indx * elementAllBits wordBits + n * wordBits + p) = n := by
    rw [isPlace, wordNum, Nat.mul_add_div wide, Nat.div_eq_of_lt inWord, Nat.add_zero,
      Nat.mul_add_mod, Nat.mod_eq_of_lt inElement]
  have isOffset : (indx * elementAllBits wordBits + n * wordBits + p) % wordBits = p := by
    rw [isPlace, Nat.mul_add_mod, Nat.mod_eq_of_lt inWord]
  rw [test_eq wide, isOffset, Bits.word, dif_pos inElement]
  exact congrArg (fun ix => (bits ix).getLsbD p) (Fin.ext isWord)

theorem nextBit_spec {fuel : Nat} {bits : BitVec wordBits} {bitNo : Nat} (nonzero : bits ≠ 0)
    (within : ∀ p, bits.getLsbD p = true → p < fuel ∧ bitNo + p < 2 ^ 32) :
    ∃ p, nextBit fuel bits bitNo = some (bits >>> p, bitNo + p) ∧ bits.getLsbD p = true ∧
      ∀ q < p, bits.getLsbD q = false := by
  induction fuel generalizing bits bitNo with
  | zero =>
    refine absurd (BitVec.eq_of_getLsbD_eq fun p _ => ?_) nonzero
    rw [Bool.eq_false_iff.mpr fun isSet => absurd (within p isSet).1 (Nat.not_lt_zero p)]
    exact BitVec.getLsbD_zero.symm
  | succ fuel ih =>
    by_cases lowest : bits.getLsbD 0 = true
    · refine ⟨0, ?_, lowest, fun q less => absurd less (Nat.not_lt_zero q)⟩
      rw [nextBit, if_pos lowest, BitVec.ushiftRight_zero, Nat.add_zero]
    · have shifted : ∀ p, (bits >>> 1).getLsbD p = bits.getLsbD (1 + p) := fun p =>
        BitVec.getLsbD_ushiftRight bits 1 p
      have rest : bits >>> 1 ≠ 0 := by
        intro isZero
        apply nonzero
        apply BitVec.eq_of_getLsbD_eq
        intro p _
        cases p with
        | zero => simpa using lowest
        | succ p =>
          have unset := shifted p
          rw [isZero, Nat.add_comm] at unset
          rw [← unset]
          simp
      obtain ⟨p, isSet⟩ : ∃ p, (bits >>> 1).getLsbD p = true := by
        by_contra none
        apply rest
        apply BitVec.eq_of_getLsbD_eq
        intro p _
        rw [Bool.eq_false_iff.mpr fun isSet => none ⟨p, isSet⟩]
        exact BitVec.getLsbD_zero.symm
      have small : bitNo + 1 < 2 ^ 32 := by
        have last := (within (1 + p) (shifted p ▸ isSet)).2
        omega
      obtain ⟨p, isNext, isFirst, before⟩ := @ih _ (bitNo + 1) rest
        fun p isSet => by
          have last := within (1 + p) (shifted p ▸ isSet)
          omega
      refine ⟨1 + p, ?_, shifted p ▸ isFirst, ?_⟩
      · rw [nextBit, if_neg lowest, unsigned_of_lt small, isNext, BitVec.shiftRight_add,
          Nat.add_assoc]
      · intro q less
        cases q with
        | zero => simpa using lowest
        | succ q =>
          rw [Nat.add_comm, ← shifted]
          exact before q (by omega)

theorem nextWord_spec (wide : 0 < wordBits) {word : Nat → BitVec wordBits}
    {fuel base wordNo bitNo : Nat}
    (fits : base + elementAllBits wordBits ≤ 2 ^ 32) (inElement : wordNo ≤ elementWords wordBits)
    (number : wordNo < elementWords wordBits → bitNo = base + wordNo * wordBits)
    (enough : elementWords wordBits - wordNo < fuel) :
    (∃ n, nextWord word fuel wordNo bitNo = some (some (word n), n, base + n * wordBits) ∧
      wordNo ≤ n ∧ n < elementWords wordBits ∧ word n ≠ 0 ∧
      ∀ m, wordNo ≤ m → m < n → word m = 0) ∨
    ∃ after, nextWord word fuel wordNo bitNo = some (none, elementWords wordBits, after) ∧
      ∀ m, wordNo ≤ m → m < elementWords wordBits → word m = 0 := by
  induction fuel generalizing wordNo bitNo with
  | zero => omega
  | succ fuel ih =>
    by_cases atEnd : wordNo = elementWords wordBits
    · refine .inr ⟨bitNo, ?_, fun m from_ before => absurd before (by omega)⟩
      rw [nextWord, if_neg (by simpa using atEnd), atEnd]
    · have inside : wordNo < elementWords wordBits := by omega
      by_cases zero : word wordNo = 0
      · have next : nextWord word (fuel + 1) wordNo bitNo =
            nextWord word fuel (wordNo + 1) (unsigned (bitNo + wordBits)) := by
          rw [nextWord, if_pos atEnd]
          dsimp only
          rw [if_neg (by simpa using zero)]
        have extend : ∀ {n : Nat}, (∀ m, wordNo + 1 ≤ m → m < n → word m = 0) →
            ∀ m, wordNo ≤ m → m < n → word m = 0 := by
          intro n rest m from_ before
          by_cases first : m = wordNo
          · rw [first, zero]
          · exact rest m (by omega) before
        have numberNext : wordNo + 1 < elementWords wordBits →
            unsigned (bitNo + wordBits) = base + (wordNo + 1) * wordBits := by
          intro insideNext
          have upper := Nat.mul_lt_mul_of_pos_right insideNext wide
          rw [elementAllBits] at fits
          rw [number inside, Nat.succ_mul, ← Nat.add_assoc]
          rw [Nat.succ_mul] at upper
          exact unsigned_of_lt (by omega)
        obtain ⟨n, found, from_, within, nonzero, zeros⟩ | ⟨after, ended, zeros⟩ :=
          ih (by omega) numberNext (by omega)
        · exact .inl ⟨n, next.trans found, by omega, within, nonzero, extend zeros⟩
        · exact .inr ⟨after, next.trans ended, extend zeros⟩
      · refine .inl ⟨wordNo, ?_, le_refl _, inside, zero, fun m from_ before => by omega⟩
        rw [nextWord, if_pos atEnd]
        dsimp only
        rw [if_pos zero, number inside]

end Places

section Steps

variable {ε : Type} {wordBits : Nat} {cursor : Cursor ε wordBits}

inductive Follows (cursor : Cursor ε wordBits) : ε → List (Nat × Bits wordBits) → Prop
  | last {elts : ε} : cursor.advance elts = some none → Follows cursor elts []
  | next {elts elts' : ε} {indx : Nat} {bits : Bits wordBits}
      {blocks : List (Nat × Bits wordBits)} :
      cursor.advance elts = some (some elts') → cursor.indx elts' = indx →
      cursor.word elts' = bits.word → Follows cursor elts' blocks →
      Follows cursor elts ((indx, bits) :: blocks)

structure Stands (cursor : Cursor ε wordBits) (elts : ε) (wordNo : Nat)
    (block : Nat × Bits wordBits) (blocks : List (Nat × Bits wordBits)) : Prop where
  follows : Follows cursor elts blocks
  shows : ∀ n, wordNo ≤ n → n < elementWords wordBits → cursor.word elts n = block.2.word n
  increasing : Increasing (block :: blocks)
  bounded : ∀ other ∈ block :: blocks,
    other.1 * elementAllBits wordBits + elementAllBits wordBits ≤ 2 ^ 32

/-- The bits of a block from one on, and those of the blocks after it. -/
def Left (wordBits cut : Nat) (block : Nat × Bits wordBits) (blocks : List (Nat × Bits wordBits))
    (k : Nat) : Prop :=
  (k / elementAllBits wordBits = block.1 ∧ block.2.test k = true ∧ cut ≤ k) ∨
    has blocks k = true

structure Found (cursor : Cursor ε wordBits) (bi : Iterator ε wordBits) (bitNo : Nat)
    (left : Nat → Prop) (block : Nat × Bits wordBits) (blocks : List (Nat × Bits wordBits)) :
    Prop where
  stands : Stands cursor bi.elts (bi.wordNo + 1) block blocks
  inElement : bi.wordNo < elementWords wordBits
  lower : block.1 * elementAllBits wordBits + bi.wordNo * wordBits ≤ bitNo
  shifted : ∀ p, bi.bits.getLsbD p = true ↔
    bitNo + p < block.1 * elementAllBits wordBits + bi.wordNo * wordBits + wordBits ∧
      block.2.test (bitNo + p) = true
  first : bi.bits.getLsbD 0 = true
  isLeft : ∀ k, left k ↔ Left wordBits bitNo block blocks k

def Answers (cursor : Cursor ε wordBits) (elements : Nat) (left : Nat → Prop) :
    Option (Bool × Iterator ε wordBits × Nat) → Prop
  | none => False
  | some (false, _, _) => ∀ k, ¬left k
  | some (true, bi, bitNo) =>
    ∃ block blocks, blocks.length < elements ∧ Found cursor bi bitNo left block blocks

theorem word_end {n : Nat} (inElement : n < elementWords wordBits) :
    n * wordBits + wordBits ≤ elementAllBits wordBits := by
  rw [← Nat.succ_mul]
  exact Nat.mul_le_mul_right wordBits inElement

theorem answers_word {elts : ε} {n : Nat} {block : Nat × Bits wordBits}
    {blocks : List (Nat × Bits wordBits)} {left : Nat → Prop} {bits : BitVec wordBits}
    {cut elements : Nat} (stands : Stands cursor elts (n + 1) block blocks)
    (few : blocks.length < elements) (inElement : n < elementWords wordBits)
    (lower : block.1 * elementAllBits wordBits + n * wordBits ≤ cut)
    (shifted : ∀ p, bits.getLsbD p = true ↔
      cut + p < block.1 * elementAllBits wordBits + n * wordBits + wordBits ∧
        block.2.test (cut + p) = true)
    (nonzero : bits ≠ 0) (isLeft : ∀ k, left k ↔ Left wordBits cut block blocks k) :
    Answers cursor elements left ((nextBit wordBits bits cut).map fun (bits, bitNo) =>
      (true, { elts, bits, wordNo := n }, bitNo)) := by
  have bounded := stands.bounded block List.mem_cons_self
  have ends := word_end inElement
  obtain ⟨p, found, isSet, before⟩ := @nextBit_spec _ wordBits _ cut nonzero fun p isSet => by
    have within := ((shifted p).mp isSet).1
    exact ⟨by omega, by omega⟩
  rw [found, Option.map_some]
  refine ⟨block, blocks, few, stands, inElement, ?_, ?_, ?_, ?_⟩
  · change block.1 * elementAllBits wordBits + n * wordBits ≤ cut + p
    omega
  · intro q
    change (bits >>> p).getLsbD q = true ↔
      cut + p + q < block.1 * elementAllBits wordBits + n * wordBits + wordBits ∧
        block.2.test (cut + p + q) = true
    rw [BitVec.getLsbD_ushiftRight, shifted, Nat.add_assoc cut]
  · change (bits >>> p).getLsbD 0 = true
    rw [BitVec.getLsbD_ushiftRight, Nat.add_zero, isSet]
  · intro k
    rw [isLeft]
    unfold Left
    refine or_congr_left (and_congr_right fun sameElement => and_congr_right fun isTest => ?_)
    constructor
    · intro after
      by_contra skipped
      have unset := before (k - cut) (by omega)
      rw [Bool.eq_false_iff, ne_eq, shifted, Nat.add_sub_cancel' after] at unset
      have within := ((shifted p).mp isSet).1
      exact unset ⟨by omega, isTest⟩
    · intro after
      omega

theorem has_cons {indx : Nat} {bits : Bits wordBits} {blocks : List (Nat × Bits wordBits)}
    {k : Nat} : has ((indx, bits) :: blocks) k = true ↔
      (k / elementAllBits wordBits = indx ∧ bits.test k = true) ∨ has blocks k = true := by
  rw [has, List.any_cons, Bool.or_eq_true, Bool.and_eq_true, beq_iff_eq, eq_comm]
  rfl

theorem not_left_of_zero (wide : 0 < wordBits) {block : Nat × Bits wordBits} {wordNo n : Nat}
    (zeros : ∀ m, wordNo ≤ m → m < n → block.2.word m = 0) {k : Nat}
    (sameElement : k / elementAllBits wordBits = block.1) (isSet : block.2.test k = true)
    (after : block.1 * elementAllBits wordBits + wordNo * wordBits ≤ k) :
    block.1 * elementAllBits wordBits + n * wordBits ≤ k := by
  obtain ⟨m, p, within, inWord, rfl⟩ := exists_place wide sameElement
  rw [test_place _ within inWord] at isSet
  have reached : wordNo < m + 1 := by
    apply @Nat.lt_of_mul_lt_mul_right wordBits
    rw [Nat.succ_mul]
    omega
  have passed : n ≤ m := by
    by_contra before
    rw [zeros m (by omega) (by omega)] at isSet
    simp at isSet
  have scaled := Nat.mul_le_mul_right wordBits passed
  omega

theorem nextElement_answers (wide : 0 < wordBits) {fuel : Nat} {bi : Iterator ε wordBits}
    {bitNo : Nat} {block : Nat × Bits wordBits} {blocks : List (Nat × Bits wordBits)}
    {left : Nat → Prop} (stands : Stands cursor bi.elts bi.wordNo block blocks)
    (inElement : bi.wordNo ≤ elementWords wordBits)
    (number : bi.wordNo < elementWords wordBits →
      bitNo = block.1 * elementAllBits wordBits + bi.wordNo * wordBits)
    (enough : blocks.length < fuel) {elements : Nat} (few : blocks.length < elements)
    (isLeft : ∀ k, left k ↔
      Left wordBits (block.1 * elementAllBits wordBits + bi.wordNo * wordBits) block blocks k) :
    Answers cursor elements left (cursor.nextElement fuel bi bitNo) := by
  induction fuel generalizing bi bitNo block blocks with
  | zero => omega
  | succ fuel ih =>
    have fits := stands.bounded block List.mem_cons_self
    -- Only the words of the element that are still to come are read.
    have zeroOf : ∀ {n : Nat}, n ≤ elementWords wordBits →
        (∀ m, bi.wordNo ≤ m → m < n → cursor.word bi.elts m = 0) →
        ∀ m, bi.wordNo ≤ m → m < n → block.2.word m = 0 := by
      intro n within zeros m from_ before
      rw [← stands.shows m from_ (by omega), zeros m from_ before]
    rw [Cursor.nextElement]
    obtain ⟨n, found, from_, within, nonzero, zeros⟩ | ⟨after, ended, zeros⟩ :=
      @nextWord_spec _ wide (cursor.word bi.elts) (elementWords wordBits + 1) _ _ _ fits
        inElement number (by omega)
    · rw [found, Option.bind_some]
      have isWord := stands.shows n from_ within
      have before := zeroOf (Nat.le_of_lt within) zeros
      refine answers_word ⟨stands.follows, fun m after => stands.shows m (by omega),
        stands.increasing, stands.bounded⟩ few within (le_refl _) (fun p => ?_) nonzero fun k => ?_
      · rw [isWord]
        constructor
        · intro isSet
          have inWord := BitVec.lt_of_getLsbD isSet
          rw [test_place _ within inWord]
          exact ⟨by omega, isSet⟩
        · rintro ⟨inWord, isSet⟩
          rwa [test_place _ within (by omega)] at isSet
      · rw [isLeft]
        have scaled := Nat.mul_le_mul_right wordBits from_
        exact or_congr_left (and_congr_right fun sameElement => and_congr_right fun isSet =>
          ⟨not_left_of_zero wide before sameElement isSet, fun after => by omega⟩)
    · rw [ended, Option.bind_some]
      have none : ∀ k, left k ↔ has blocks k = true := by
        intro k
        rw [isLeft]
        refine or_iff_right ?_
        rintro ⟨sameElement, isSet, after⟩
        have beyond := not_left_of_zero wide (zeroOf (le_refl _) zeros) sameElement isSet after
        obtain ⟨m, p, within, inWord, rfl⟩ := exists_place wide sameElement
        have ends := word_end within
        rw [← elementAllBits] at beyond
        omega
      dsimp only
      cases stands.follows with
      | last advances =>
        rw [advances, Option.bind_some]
        intro k isLeft
        simpa [has] using (none k).mp isLeft
      | next advances isIndx isWord follows =>
        rename_i elts indx bits blocks
        have increasing := (List.pairwise_cons.mp stands.increasing).2
        have bounded : ∀ other ∈ (indx, bits) :: blocks,
            other.1 * elementAllBits wordBits + elementAllBits wordBits ≤ 2 ^ 32 :=
          fun other member => stands.bounded other (List.mem_cons_of_mem _ member)
        have small := bounded (indx, bits) List.mem_cons_self
        have words := elementWords_pos wide
        have positive : 0 < elementAllBits wordBits := Nat.mul_pos words wide
        rw [advances, Option.bind_some]
        refine @ih _ _ (indx, bits) blocks
          ⟨follows, fun n _ _ => by rw [isWord], increasing, bounded⟩ (Nat.zero_le _)
          (fun _ => ?_) (by simpa using enough)
          (Nat.lt_of_succ_lt few) fun k => ?_
        · dsimp only at small
          rw [isIndx, unsigned_of_lt (by omega), Nat.zero_mul, Nat.add_zero]
        · rw [none, has_cons]
          unfold Left
          rw [Nat.zero_mul, Nat.add_zero]
          refine or_congr_left (and_congr_right fun sameElement => ?_)
          refine (and_iff_left ?_).symm
          rw [← sameElement]
          exact Nat.div_mul_le_self _ _

/-- The state before a bit is looked for.  The bit number is that of the first bit of
the rest of the word, and where no bit is left of it, it is after the first bit of the
word, or the word is the last one of its element. -/
structure Pending (cursor : Cursor ε wordBits) (bi : Iterator ε wordBits) (bitNo : Nat)
    (left : Nat → Prop) (cut : Nat) (block : Nat × Bits wordBits)
    (blocks : List (Nat × Bits wordBits)) : Prop where
  stands : Stands cursor bi.elts (bi.wordNo + 1) block blocks
  inElement : bi.wordNo < elementWords wordBits
  lower : block.1 * elementAllBits wordBits + bi.wordNo * wordBits ≤ cut
  upper : cut ≤ block.1 * elementAllBits wordBits + bi.wordNo * wordBits + wordBits
  shifted : ∀ p, bi.bits.getLsbD p = true ↔
    cut + p < block.1 * elementAllBits wordBits + bi.wordNo * wordBits + wordBits ∧
      block.2.test (cut + p) = true
  number : bi.bits ≠ 0 → bitNo = cut
  rounds : bi.bits = 0 → bi.wordNo + 1 = elementWords wordBits ∨
    (block.1 * elementAllBits wordBits + bi.wordNo * wordBits < bitNo ∧
      bitNo ≤ block.1 * elementAllBits wordBits + bi.wordNo * wordBits + wordBits)
  isLeft : ∀ k, left k ↔ Left wordBits cut block blocks k

variable {bi : Iterator ε wordBits} {bitNo : Nat} {left : Nat → Prop}
  {block : Nat × Bits wordBits} {blocks : List (Nat × Bits wordBits)}

theorem round_up (wide : 0 < wordBits) {indx n : Nat} (inElement : n + 1 < elementWords wordBits)
    (fits : indx * elementAllBits wordBits + elementAllBits wordBits ≤ 2 ^ 32)
    (lower : indx * elementAllBits wordBits + n * wordBits < bitNo)
    (upper : bitNo ≤ indx * elementAllBits wordBits + n * wordBits + wordBits) :
    unsigned (unsigned (bitNo + wordBits - 1) / wordBits * wordBits) =
      indx * elementAllBits wordBits + (n + 1) * wordBits := by
  have ends := word_end inElement
  have isWord : indx * elementAllBits wordBits + (n + 1) * wordBits =
      (indx * elementWords wordBits + n + 1) * wordBits := by
    rw [elementAllBits]
    ring
  have next : indx * elementAllBits wordBits + (n + 1) * wordBits =
      indx * elementAllBits wordBits + n * wordBits + wordBits := by
    rw [Nat.succ_mul, Nat.add_assoc]
  have quotient : (bitNo + wordBits - 1) / wordBits = indx * elementWords wordBits + n + 1 := by
    refine Nat.div_eq_of_lt_le ?_ ?_
    · rw [← isWord]
      omega
    · rw [Nat.succ_mul, ← isWord]
      omega
  rw [@unsigned_of_lt (bitNo + wordBits - 1) (by omega), quotient, ← isWord]
  exact unsigned_of_lt (by omega)

theorem bmpIter_answers (wide : 0 < wordBits) {cut elements : Nat}
    (pending : Pending cursor bi bitNo left cut block blocks) (few : blocks.length < elements) :
    Answers cursor elements left (cursor.bmpIter elements bi bitNo) := by
  have fits := pending.stands.bounded block List.mem_cons_self
  by_cases zero : bi.bits = 0
  · rw [Cursor.bmpIter, if_neg (not_not.mpr zero)]
    refine @nextElement_answers _ _ _ wide elements { bi with wordNo := bi.wordNo + 1 } _ block
      blocks left pending.stands pending.inElement (fun inside => ?_) few elements few fun k => ?_
    · obtain ⟨lower, upper⟩ := (pending.rounds zero).resolve_left (Nat.ne_of_lt inside)
      exact round_up wide inside fits lower upper
    · rw [pending.isLeft, Nat.succ_mul, ← Nat.add_assoc]
      refine or_congr_left (and_congr_right fun _ => and_congr_right fun isSet => ?_)
      refine ⟨fun after => ?_, pending.upper.trans⟩
      by_contra before
      have set := (pending.shifted (k - cut)).mpr (by
        rw [Nat.add_sub_cancel' after]
        exact ⟨not_le.mp before, isSet⟩)
      rw [zero] at set
      simp at set
  · rw [Cursor.bmpIter, if_pos zero, pending.number zero]
    exact answers_word pending.stands few pending.inElement pending.lower pending.shifted zero
      pending.isLeft

theorem after_of_has (wide : 0 < wordBits) (increasing : Increasing (block :: blocks)) {k : Nat}
    (member : has blocks k = true) :
    block.1 * elementAllBits wordBits + elementAllBits wordBits ≤ k := by
  obtain ⟨bits, isBlock, -⟩ := has_iff.mp member
  have later := (List.pairwise_cons.mp increasing).1 _ isBlock
  have positive : 0 < elementAllBits wordBits := Nat.mul_pos (elementWords_pos wide) wide
  rw [← Nat.succ_mul]
  exact (Nat.le_div_iff_mul_le positive).mp later

theorem Found.isFirst (wide : 0 < wordBits) (found : Found cursor bi bitNo left block blocks) :
    left bitNo ∧ ∀ k, left k → bitNo ≤ k := by
  have ends := word_end found.inElement
  have lower := found.lower
  obtain ⟨within, isSet⟩ := (found.shifted 0).mp found.first
  rw [Nat.add_zero] at within isSet
  constructor
  · refine (found.isLeft bitNo).mpr (.inl ⟨?_, isSet, le_refl _⟩)
    refine Nat.div_eq_of_lt_le (by omega) ?_
    rw [Nat.succ_mul]
    omega
  · intro k isLeft
    obtain ⟨-, -, after⟩ | later := (found.isLeft k).mp isLeft
    · exact after
    · have beyond := after_of_has wide found.stands.increasing later
      omega

theorem Found.next (wide : 0 < wordBits) (found : Found cursor bi bitNo left block blocks) :
    Pending cursor (Cursor.bmpIterNext bi bitNo).1 (Cursor.bmpIterNext bi bitNo).2
      (fun k => left k ∧ bitNo < k) (bitNo + 1) block blocks := by
  have fits := found.stands.bounded block List.mem_cons_self
  have ends := word_end found.inElement
  have lower := found.lower
  have within := ((found.shifted 0).mp found.first).1
  have shifted : ∀ p, (bi.bits >>> 1).getLsbD p = true ↔
      bitNo + 1 + p < block.1 * elementAllBits wordBits + bi.wordNo * wordBits + wordBits ∧
        block.2.test (bitNo + 1 + p) = true := by
    intro p
    rw [BitVec.getLsbD_ushiftRight, found.shifted, Nat.add_assoc bitNo]
  refine ⟨found.stands, found.inElement, ?_, ?_, shifted, ?_, ?_, ?_⟩
  · exact Nat.le_succ_of_le lower
  · change bitNo + 1 ≤ block.1 * elementAllBits wordBits + bi.wordNo * wordBits + wordBits
    omega
  · intro nonzero
    obtain ⟨p, isSet⟩ : ∃ p, (bi.bits >>> 1).getLsbD p = true := by
      by_contra none
      apply nonzero
      apply BitVec.eq_of_getLsbD_eq
      intro p _
      change (bi.bits >>> 1).getLsbD p = _
      rw [Bool.eq_false_iff.mpr fun isSet => none ⟨p, isSet⟩]
      exact BitVec.getLsbD_zero.symm
    have inWord := ((shifted p).mp isSet).1
    exact unsigned_of_lt (by omega)
  · intro _
    by_cases last : bi.wordNo + 1 = elementWords wordBits
    · exact .inl last
    · have inside : bi.wordNo + 1 < elementWords wordBits := by
        have := found.inElement
        omega
      have endsNext := word_end inside
      have wraps : unsigned (bitNo + 1) = bitNo + 1 := unsigned_of_lt (by
        rw [Nat.succ_mul] at endsNext
        omega)
      right
      change _ < unsigned (bitNo + 1) ∧ unsigned (bitNo + 1) ≤
        block.1 * elementAllBits wordBits + bi.wordNo * wordBits + wordBits
      rw [wraps]
      exact ⟨Nat.lt_succ_of_le lower, by omega⟩
  · intro k
    rw [found.isLeft]
    unfold Left
    constructor
    · rintro ⟨⟨sameElement, isSet, -⟩ | later, after⟩
      · exact .inl ⟨sameElement, isSet, after⟩
      · exact .inr later
    · rintro (⟨sameElement, isSet, after⟩ | later)
      · exact ⟨.inl ⟨sameElement, isSet, Nat.le_of_succ_le after⟩, after⟩
      · have beyond := after_of_has wide found.stands.increasing later
        exact ⟨.inr later, by omega⟩

theorem visits_eq (wide : 0 < wordBits) {cut elements fuel : Nat} {visited : List Nat}
    (pending : Pending cursor bi bitNo left cut block blocks) (few : blocks.length < elements)
    (increasing : visited.Pairwise (· < ·)) (members : ∀ k, k ∈ visited ↔ left k)
    (enough : visited.length < fuel) :
    cursor.visits elements fuel bi bitNo = some visited := by
  induction visited generalizing bi bitNo left cut block blocks fuel with
  | nil =>
    obtain ⟨fuel, rfl⟩ := Nat.exists_eq_add_of_le' (Nat.one_le_of_lt enough)
    have answers := bmpIter_answers wide pending few
    rw [Cursor.visits]
    revert answers
    rcases cursor.bmpIter elements bi bitNo with _ | ⟨isFound, bi', bitNo'⟩
    · exact False.elim
    · cases isFound with
      | false => exact fun _ => rfl
      | true =>
        rintro ⟨block, blocks, -, found⟩
        exact absurd ((members bitNo').mpr (found.isFirst wide).1) List.not_mem_nil
  | cons bit rest ih =>
    obtain ⟨fuel, rfl⟩ := Nat.exists_eq_add_of_le' (Nat.one_le_of_lt enough)
    obtain ⟨later, restIncreasing⟩ := List.pairwise_cons.mp increasing
    have answers := bmpIter_answers wide pending few
    have isLeft : left bit := (members bit).mp List.mem_cons_self
    rw [Cursor.visits]
    revert answers
    rcases cursor.bmpIter elements bi bitNo with _ | ⟨isFound, bi', bitNo'⟩
    · exact False.elim
    · cases isFound with
      | false => exact fun none => absurd isLeft (none bit)
      | true =>
        rintro ⟨block', blocks', few', found⟩
        obtain ⟨isMember, least⟩ := found.isFirst wide
        have isBit : bitNo' = bit := by
          have member := (members bitNo').mpr isMember
          cases member with
          | head => rfl
          | tail _ member =>
            have less := later bitNo' member
            have more := least bit isLeft
            omega
        subst isBit
        rw [Option.bind_some]
        dsimp only
        rw [ih (found.next wide) few' restIncreasing (fun k => ?_)
          (by simpa using enough)]
        · rfl
        · rw [← members]
          constructor
          · exact fun member => ⟨List.mem_cons_of_mem _ member, later k member⟩
          · rintro ⟨member, after⟩
            exact (List.mem_cons.mp member).resolve_left (Nat.ne_of_gt after)

end Steps

end GccCil.Gcc.Bitmap
