import GccCil.Gcc.BitmapInto
import Mathlib.Data.Set.Basic
import Mathlib.Order.SymmDiff

/-!
# The bits of an element

A bitmap denotes the set of the bits that its elements have.  Well-formed lists
that denote the same set are the same, and a merge denotes what its operation on
words makes of two sets.
-/

namespace GccCil.Gcc.Bitmap

open Lib

variable {wordBits : Nat}

theorem elementWords_pos (wide : 0 < wordBits) : 0 < elementWords wordBits :=
  Nat.div_pos (by omega) wide

theorem wordNum_lt (wide : 0 < wordBits) (bit : Nat) :
    wordNum wordBits bit < elementWords wordBits :=
  Nat.mod_lt _ (elementWords_pos wide)

def wordOf (wide : 0 < wordBits) (bit : Nat) : Fin (elementWords wordBits) :=
  ⟨wordNum wordBits bit, wordNum_lt wide bit⟩

theorem test_eq (wide : 0 < wordBits) (bits : Bits wordBits) (bit : Nat) :
    bits.test bit = (bits (wordOf wide bit)).getLsbD (bit % wordBits) := by
  have within : bit % wordBits < wordBits := Nat.mod_lt _ wide
  rw [Bits.test, dif_pos (wordNum_lt wide bit)]
  change decide ((bits (wordOf wide bit) >>> (bit % wordBits)) &&& 1 ≠ 0) = _
  have lowest : ∀ word : BitVec wordBits, decide (word &&& 1 ≠ 0) = word.getLsbD 0 := by
    intro word
    rw [Bool.eq_iff_iff, decide_eq_true_iff]
    constructor
    · intro nonzero
      by_contra unset
      apply nonzero
      apply BitVec.eq_of_getLsbD_eq
      intro i _
      rw [BitVec.getLsbD_and]
      change _ = (BitVec.ofNat wordBits 0).getLsbD i
      rw [BitVec.getLsbD_zero]
      by_cases first : i = 0
      · subst first
        simp [Bool.eq_false_iff.mpr unset]
      · have none : (1 : BitVec wordBits).getLsbD i = false := by
          change (BitVec.ofNat wordBits 1).getLsbD i = false
          rw [BitVec.getLsbD_one, decide_eq_false first, Bool.and_false]
        rw [none, Bool.and_false]
    · intro isSet isZero
      have zero := congrArg (fun word => word.getLsbD 0) isZero
      simp [BitVec.getLsbD_and, isSet] at zero
      exact wide.ne' zero
  rw [lowest, BitVec.getLsbD_ushiftRight, Nat.add_zero]

theorem div_elementAllBits (bit : Nat) :
    bit / elementAllBits wordBits = bit / wordBits / elementWords wordBits := by
  rw [elementAllBits, Nat.mul_comm, Nat.div_div_eq_div_mul]

theorem bit_eq {k m : Nat} (element : k / elementAllBits wordBits = m / elementAllBits wordBits)
    (word : wordNum wordBits k = wordNum wordBits m) (place : k % wordBits = m % wordBits) :
    k = m := by
  rw [div_elementAllBits, div_elementAllBits] at element
  unfold wordNum at word
  have words : k / wordBits = m / wordBits := by
    rw [← Nat.div_add_mod (k / wordBits) (elementWords wordBits), element, word, Nat.div_add_mod]
  rw [← Nat.div_add_mod k wordBits, words, place, Nat.div_add_mod]

theorem exists_bit (indx : Nat) (ix : Fin (elementWords wordBits)) {place : Nat}
    (within : place < wordBits) :
    ∃ bit, bit / elementAllBits wordBits = indx ∧ wordNum wordBits bit = ix ∧
      bit % wordBits = place := by
  have wide : 0 < wordBits := Nat.zero_lt_of_lt within
  have words := elementWords_pos wide
  have quotient : ((indx * elementWords wordBits + ix) * wordBits + place) / wordBits =
      indx * elementWords wordBits + ix := by
    rw [Nat.mul_comm, Nat.mul_add_div wide, Nat.div_eq_of_lt within, Nat.add_zero]
  refine ⟨(indx * elementWords wordBits + ix) * wordBits + place, ?_, ?_, ?_⟩
  · rw [div_elementAllBits, quotient, Nat.mul_comm, Nat.mul_add_div words,
      Nat.div_eq_of_lt ix.isLt, Nat.add_zero]
  · rw [wordNum, quotient, Nat.mul_comm, Nat.mul_add_mod, Nat.mod_eq_of_lt ix.isLt]
  · rw [Nat.mul_comm, Nat.mul_add_mod, Nat.mod_eq_of_lt within]

theorem bits_ext (indx : Nat) {x y : Bits wordBits}
    (same : ∀ bit, bit / elementAllBits wordBits = indx → x.test bit = y.test bit) : x = y := by
  funext ix
  apply BitVec.eq_of_getLsbD_eq
  intro place within
  have wide : 0 < wordBits := Nat.zero_lt_of_lt within
  obtain ⟨bit, isIndx, isWord, isPlace⟩ := exists_bit indx ix within
  have isIx : wordOf wide bit = ix := Fin.ext isWord
  have both := same bit isIndx
  rwa [test_eq wide, test_eq wide, isIx, isPlace] at both

theorem zeroBits_test (bit : Nat) : (zeroBits : Bits wordBits).test bit = false := by
  unfold Bits.test zeroBits
  split
  · simp
  · rfl

theorem exists_test_of_ne_zero (indx : Nat) {x : Bits wordBits} (nonzero : x ≠ zeroBits) :
    ∃ bit, bit / elementAllBits wordBits = indx ∧ x.test bit = true := by
  by_contra absent
  apply nonzero
  apply bits_ext indx
  intro bit isIndx
  rw [zeroBits_test, Bool.eq_false_iff]
  exact fun isSet => absent ⟨bit, isIndx, isSet⟩

theorem bitVal_getLsbD (bit place : Nat) (wide : 0 < wordBits) :
    (bitVal wordBits bit).getLsbD place = decide (place = bit % wordBits) := by
  have small : bit % wordBits < wordBits := Nat.mod_lt _ wide
  have shifted : bitVal wordBits bit = BitVec.ofNat wordBits 1 <<< (bit % wordBits) := rfl
  rw [shifted, BitVec.getLsbD_shiftLeft]
  by_cases same : place = bit % wordBits
  · simp [same, small, wide]
  · by_cases less : place < bit % wordBits
    · simp [less, same]
    · have more : place - bit % wordBits ≠ 0 := by omega
      simp [less, same, more]

theorem test_set (wide : 0 < wordBits) (bits : Bits wordBits) {bit other : Nat}
    (sameElement : other / elementAllBits wordBits = bit / elementAllBits wordBits) :
    (bits.atWord bit fun word => word ||| bitVal wordBits bit).test other =
      (decide (other = bit) || bits.test other) := by
  have within : other % wordBits < wordBits := Nat.mod_lt _ wide
  rw [test_eq wide, test_eq wide, Bits.atWord]
  by_cases sameWord : (wordOf wide other : Nat) = wordNum wordBits bit
  · rw [if_pos sameWord, BitVec.getLsbD_or, bitVal_getLsbD bit _ wide, Bool.or_comm]
    congr 1
    rw [decide_eq_decide]
    exact ⟨bit_eq sameElement sameWord, fun same => by rw [same]⟩
  · have different : other ≠ bit := fun same => sameWord (by rw [same]; rfl)
    rw [if_neg sameWord, decide_eq_false different, Bool.false_or]

theorem test_clear (wide : 0 < wordBits) (bits : Bits wordBits) {bit other : Nat}
    (sameElement : other / elementAllBits wordBits = bit / elementAllBits wordBits) :
    (bits.atWord bit fun word => word &&& ~~~bitVal wordBits bit).test other =
      (!decide (other = bit) && bits.test other) := by
  have within : other % wordBits < wordBits := Nat.mod_lt _ wide
  rw [test_eq wide, test_eq wide, Bits.atWord]
  by_cases sameWord : (wordOf wide other : Nat) = wordNum wordBits bit
  · rw [if_pos sameWord, BitVec.getLsbD_and, BitVec.getLsbD_not,
      bitVal_getLsbD bit _ wide, Bool.and_comm, decide_eq_true within, Bool.true_and]
    congr 2
    rw [decide_eq_decide]
    exact ⟨bit_eq sameElement sameWord, fun same => by rw [same]⟩
  · have different : other ≠ bit := fun same => sameWord (by rw [same]; rfl)
    rw [if_neg sameWord, decide_eq_false different, Bool.not_false, Bool.true_and]

theorem test_new (wide : 0 < wordBits) {bit other : Nat}
    (sameElement : other / elementAllBits wordBits = bit / elementAllBits wordBits) :
    ((zeroBits : Bits wordBits).atWord bit fun _ => bitVal wordBits bit).test other =
      decide (other = bit) := by
  have asOr : ((zeroBits : Bits wordBits).atWord bit fun _ => bitVal wordBits bit) =
      zeroBits.atWord bit fun word => word ||| bitVal wordBits bit := by
    funext ix
    unfold Bits.atWord zeroBits
    split
    · simp
    · rfl
  rw [asOr, test_set wide _ sameElement, zeroBits_test, Bool.or_false]

def has (blocks : List (Nat × Bits wordBits)) (bit : Nat) : Bool :=
  blocks.any fun block => block.1 == bit / elementAllBits wordBits && block.2.test bit

theorem has_iff {blocks : List (Nat × Bits wordBits)} {bit : Nat} :
    has blocks bit = true ↔
      ∃ x, (bit / elementAllBits wordBits, x) ∈ blocks ∧ x.test bit = true := by
  simp only [has, List.any_eq_true, Bool.and_eq_true, beq_iff_eq, Prod.exists]
  constructor
  · rintro ⟨indx, x, member, rfl, isSet⟩
    exact ⟨x, member, isSet⟩
  · rintro ⟨x, member, isSet⟩
    exact ⟨_, x, member, rfl, isSet⟩

theorem has_of_mem {blocks : List (Nat × Bits wordBits)} (increasing : Increasing blocks)
    {bit : Nat} {x : Bits wordBits} (member : (bit / elementAllBits wordBits, x) ∈ blocks) :
    has blocks bit = x.test bit := by
  rw [Bool.eq_iff_iff, has_iff]
  constructor
  · rintro ⟨y, other, isSet⟩
    rwa [increasing.unique member other]
  · exact fun isSet => ⟨x, member, isSet⟩

theorem has_of_not_hasKey {blocks : List (Nat × Bits wordBits)} {bit : Nat}
    (absent : ¬HasKey blocks (bit / elementAllBits wordBits)) : has blocks bit = false := by
  rw [Bool.eq_false_iff, ne_eq, has_iff]
  rintro ⟨x, member, -⟩
  exact absent ⟨x, member⟩

theorem blocks_ext {left right : List (Nat × Bits wordBits)} (leftIncreasing : Increasing left)
    (rightIncreasing : Increasing right) (leftNonzero : ∀ block ∈ left, block.2 ≠ zeroBits)
    (rightNonzero : ∀ block ∈ right, block.2 ≠ zeroBits)
    (same : ∀ bit, has left bit = has right bit) : left = right := by
  have within : ∀ {left right : List (Nat × Bits wordBits)}, Increasing left → Increasing right →
      (∀ block ∈ left, block.2 ≠ zeroBits) → (∀ bit, has left bit = has right bit) →
      ∀ block ∈ left, block ∈ right := by
    rintro left right leftIncreasing rightIncreasing nonzero same ⟨indx, x⟩ member
    obtain ⟨bit, isIndx, isSet⟩ := exists_test_of_ne_zero indx (nonzero _ member)
    have isLeft : has left bit = true := by
      rw [has_of_mem leftIncreasing (isIndx.symm ▸ member), isSet]
    rw [same, has_iff, isIndx] at isLeft
    obtain ⟨y, isRight, -⟩ := isLeft
    have equal : x = y := by
      apply bits_ext indx
      intro bit isIndx
      rw [← has_of_mem leftIncreasing (isIndx.symm ▸ member), same,
        has_of_mem rightIncreasing (isIndx.symm ▸ isRight)]
    rwa [equal]
  exact leftIncreasing.eq_of_mem_iff rightIncreasing fun block =>
    ⟨within leftIncreasing rightIncreasing leftNonzero same block,
      within rightIncreasing leftIncreasing rightNonzero (fun bit => (same bit).symm) block⟩

/-- An operation on bits, and what a merge must keep and combine for it. -/
structure Computes (keepA keepB : Bool)
    (combine : Bits wordBits → Bits wordBits → Option (Bits wordBits)) (f : Bool → Bool → Bool) :
    Prop where
  left : f true false = keepA
  right : f false true = keepB
  neither : f false false = false
  both : ∀ x y z, combine x y = some z → ∀ bit, z.test bit = f (x.test bit) (y.test bit)
  empty : ∀ x y, combine x y = none → ∀ bit, f (x.test bit) (y.test bit) = false

theorem has_mergeWith {keepA keepB : Bool}
    {combine : Bits wordBits → Bits wordBits → Option (Bits wordBits)} {f : Bool → Bool → Bool}
    (computes : Computes keepA keepB combine f) {left right : List (Nat × Bits wordBits)}
    (leftIncreasing : Increasing left) (rightIncreasing : Increasing right) (bit : Nat) :
    has (mergeWith keepA keepB combine left right) bit = f (has left bit) (has right bit) := by
  have increasing : Increasing (mergeWith keepA keepB combine left right) :=
    increasing_mergeWith leftIncreasing rightIncreasing
  have merged : ∀ value,
      (bit / elementAllBits wordBits, value) ∈ mergeWith keepA keepB combine left right ↔
        Merged keepA keepB combine left right (bit / elementAllBits wordBits) value :=
    fun _ => mem_mergeWith leftIncreasing rightIncreasing
  by_cases inLeft : HasKey left (bit / elementAllBits wordBits)
  · obtain ⟨x, isLeft⟩ := inLeft
    rw [has_of_mem leftIncreasing isLeft]
    by_cases inRight : HasKey right (bit / elementAllBits wordBits)
    · obtain ⟨y, isRight⟩ := inRight
      rw [has_of_mem rightIncreasing isRight]
      cases joined : combine x y with
      | some z =>
        have member := (merged z).mpr (Or.inl ⟨x, y, isLeft, isRight, joined⟩)
        rw [has_of_mem increasing member, computes.both x y z joined]
      | none =>
        rw [computes.empty x y joined, has_of_not_hasKey]
        rintro ⟨z, member⟩
        obtain ⟨x', y', isLeft', isRight', joined'⟩ | ⟨-, -, absent⟩ | ⟨-, -, absent⟩ :=
          (merged z).mp member
        · rw [← leftIncreasing.unique isLeft isLeft', ← rightIncreasing.unique isRight isRight',
            joined] at joined'
          cases joined'
        · exact absent ⟨y, isRight⟩
        · exact absent ⟨x, isLeft⟩
    · rw [has_of_not_hasKey inRight]
      cases keeps : keepA with
      | true =>
        have member := (merged x).mpr (Or.inr (Or.inl ⟨keeps, isLeft, inRight⟩))
        rw [keeps] at increasing member
        rw [has_of_mem increasing member]
        cases x.test bit with
        | true => rw [computes.left, keeps]
        | false => rw [computes.neither]
      | false =>
        have none : f (x.test bit) false = false := by
          cases x.test bit with
          | true => rw [computes.left, keeps]
          | false => rw [computes.neither]
        rw [none, has_of_not_hasKey]
        rw [← keeps]
        rintro ⟨z, member⟩
        obtain ⟨-, y, -, isRight, -⟩ | ⟨kept, -⟩ | ⟨-, isRight, -⟩ := (merged z).mp member
        · exact inRight ⟨y, isRight⟩
        · rw [keeps] at kept
          cases kept
        · exact inRight ⟨z, isRight⟩
  · rw [has_of_not_hasKey inLeft]
    by_cases inRight : HasKey right (bit / elementAllBits wordBits)
    · obtain ⟨y, isRight⟩ := inRight
      rw [has_of_mem rightIncreasing isRight]
      cases keeps : keepB with
      | true =>
        have member := (merged y).mpr (Or.inr (Or.inr ⟨keeps, isRight, inLeft⟩))
        rw [keeps] at increasing member
        rw [has_of_mem increasing member]
        cases y.test bit with
        | true => rw [computes.right, keeps]
        | false => rw [computes.neither]
      | false =>
        have none : f false (y.test bit) = false := by
          cases y.test bit with
          | true => rw [computes.right, keeps]
          | false => rw [computes.neither]
        rw [none, has_of_not_hasKey]
        rw [← keeps]
        rintro ⟨z, member⟩
        obtain ⟨x, -, isLeft, -⟩ | ⟨-, isLeft, -⟩ | ⟨kept, -⟩ := (merged z).mp member
        · exact inLeft ⟨x, isLeft⟩
        · exact inLeft ⟨z, isLeft⟩
        · rw [keeps] at kept
          cases kept
    · rw [has_of_not_hasKey inRight, computes.neither, has_of_not_hasKey]
      rintro ⟨z, member⟩
      obtain ⟨x, -, isLeft, -⟩ | ⟨-, isLeft, -⟩ | ⟨-, isRight, -⟩ := (merged z).mp member
      · exact inLeft ⟨x, isLeft⟩
      · exact inLeft ⟨z, isLeft⟩
      · exact inRight ⟨z, isRight⟩

end GccCil.Gcc.Bitmap
