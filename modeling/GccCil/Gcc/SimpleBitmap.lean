import Mathlib
import GccCil.Lib.CountedLoops

/-!
# Simple bitmaps

The bitmaps of `sbitmap.c`, vectors of words with a number of bits.  The bits
past that number in the last word are zero, which each operation sees to
itself.
-/

namespace GccCil.Gcc.SimpleBitmaps

open GccCil.Lib

/-- `SBITMAP_ELT_BITS`, for elements of `k` bytes. -/
abbrev eltBits (k : Nat) : Nat := 8 * k

/-- `SBITMAP_ELT_TYPE` -/
abbrev Elt (k : Nat) := BitVec (eltBits k)

/-- The number of values of an `unsigned int`. -/
abbrev uintSize : Nat := 2 ^ 32

/-- `struct simple_bitmap_def`; words that are not set yet are arbitrary. -/
structure SimpleBitmap (k : Nat) where
  nBits : Nat
  size : Nat
  bytes : Nat
  elms : Nat → Elt k

variable {k : Nat} {β : Type} [DecidableEq β]

/-- `SBITMAP_SET_SIZE` -/
def setSize (k n : Nat) : Nat := (n + eltBits k - 1) % uintSize / eltBits k

def sizeBytes (k size : Nat) : Nat := size * k % uintSize

def testBit (bmap : SimpleBitmap k) (bitno : Nat) : Bool :=
  (bmap.elms (bitno / eltBits k) >>> (bitno % eltBits k)).getLsbD 0

/-- `memset`, for whole elements. -/
def memset (elms : Nat → Elt k) (start : Nat) (value : Elt k) (bytes : Nat) : Nat → Elt k :=
  fun i => if start ≤ i ∧ i < start + bytes / k then value else elms i

/-- `xrealloc`; what follows the old elements is arbitrary. -/
def xrealloc (elms : Nat → Elt k) (bytes : Nat) (fresh : Nat → Elt k) : Nat → Elt k :=
  fun i => if i < bytes / k then elms i else fresh i

def lowOnes (k lastBit : Nat) : Elt k := BitVec.allOnes (eltBits k) >>> (eltBits k - lastBit)

def clearSurplus (elms : Nat → Elt k) (size nBits : Nat) : Nat → Elt k :=
  let lastBit := nBits % eltBits k
  if lastBit ≠ 0 then
    Function.update elms (size - 1) (elms (size - 1) &&& lowOnes k lastBit)
  else elms

def sbitmapAlloc (nElms : Nat) (fresh : Nat → Elt k) : SimpleBitmap k :=
  let size := setSize k nElms
  ⟨nElms, size, sizeBytes k size, fresh⟩

def sbitmapResize (bmap : SimpleBitmap k) (nElms : Nat) (default : Int) (fresh : Nat → Elt k) :
    SimpleBitmap k :=
  let size := setSize k nElms
  let bytes := sizeBytes k size
  let elms := if bmap.bytes < bytes then xrealloc bmap.elms bmap.bytes fresh else bmap.elms
  let newBytes := (bytes + uintSize - bmap.bytes) % uintSize
  let elms :=
    if bmap.nBits < nElms then
      if default ≠ 0 then
        let elms := memset elms bmap.size (BitVec.allOnes _) newBytes
        let lastBit := bmap.nBits % eltBits k
        let elms :=
          if lastBit ≠ 0 then
            Function.update elms (bmap.size - 1) (elms (bmap.size - 1) ||| ~~~ lowOnes k lastBit)
          else elms
        clearSurplus elms size nElms
      else memset elms bmap.size 0#_ newBytes
    else if nElms < bmap.nBits then clearSurplus elms size nElms
    else elms
  ⟨nElms, size, bytes, elms⟩

def sbitmapRealloc (src : SimpleBitmap k) (nElms : Nat) (fresh : Nat → Elt k) : SimpleBitmap k :=
  let size := setSize k nElms
  let bytes := sizeBytes k size
  if bytes ≤ src.bytes then { src with nBits := nElms }
  else ⟨nElms, size, bytes, xrealloc src.elms src.bytes fresh⟩

def sbitmapEqual (a b : SimpleBitmap k) : Bool :=
  (List.range a.size).all fun i => a.elms i == b.elms i

def sbitmapZero (bmap : SimpleBitmap k) : SimpleBitmap k :=
  { bmap with elms := memset bmap.elms 0 0#_ bmap.bytes }

def sbitmapOnes (bmap : SimpleBitmap k) : SimpleBitmap k :=
  let elms := memset bmap.elms 0 (BitVec.allOnes _) bmap.bytes
  let lastBit := bmap.nBits % eltBits k
  if lastBit ≠ 0 then
    { bmap with elms := Function.update elms (bmap.size - 1) (lowOnes k lastBit) }
  else { bmap with elms := elms }

/-- The bitmaps of a program, where one may be several operands of a call. -/
abbrev Store (β : Type) (k : Nat) := β → SimpleBitmap k

def setElms (s : Store β k) (dst : β) (elms : Nat → Elt k) : Store β k :=
  Function.update s dst { s dst with elms := elms }

/-- A loop that sets elements of a bitmap to `value` of the elements with the same index. -/
def setElements (s : Store β k) (dst : β) (value : (β → Elt k) → Elt k) (first count : Nat) :
    Store β k :=
  (List.range' first count).foldl
    (fun s i => setElms s dst (Function.update (s dst).elms i (value fun x => (s x).elms i))) s

def sbitmapUnionOfDiff (s : Store β k) (dst a b c : β) : Store β k :=
  setElements s dst (fun elt => elt a ||| elt b &&& ~~~ elt c) 0 (s dst).size

def sbitmapNot (s : Store β k) (dst src : β) : Store β k :=
  let n := (s dst).size
  let s := setElements s dst (fun elt => ~~~ elt src) 0 n
  setElms s dst (clearSurplus (s dst).elms n (s src).nBits)

/-- `sbitmap_difference`, with `none` where its assertion fails. -/
def sbitmapDifference (s : Store β k) (dst a b : β) : Option (Store β k) :=
  let dstSize := (s dst).size
  let minSize := if (s b).size < dstSize then (s b).size else dstSize
  if dstSize ≤ (s a).size then
    let s := setElements s dst (fun elt => elt a &&& ~~~ elt b) 0 minSize
    if dst ≠ a ∧ minSize ≠ dstSize then
      some (setElements s dst (fun elt => elt a) minSize (dstSize - minSize))
    else some s
  else none

inductive Fill where
  | zero
  | ones

def Fill.run : Fill → SimpleBitmap k → SimpleBitmap k
  | zero => sbitmapZero
  | ones => sbitmapOnes

inductive Call (β : Type) (k : Nat) where
  | alloc (x : β) (nElms : Nat) (fresh : Nat → Elt k) (fill : Fill)
  | refill (x : β) (fill : Fill)
  | resize (x : β) (nElms : Nat) (default : Int) (fresh : Nat → Elt k)
  | realloc (x : β) (nElms : Nat) (fresh : Nat → Elt k) (fill : Fill)
  | unionOfDiff (dst a b c : β)
  | not (dst src : β)
  | difference (dst a b : β)

def Call.run (s : Store β k) : Call β k → Option (Store β k)
  | alloc x nElms fresh fill => some (Function.update s x (fill.run (sbitmapAlloc nElms fresh)))
  | refill x fill => some (Function.update s x (fill.run (s x)))
  | resize x nElms default fresh =>
    some (Function.update s x (sbitmapResize (s x) nElms default fresh))
  | realloc x nElms fresh fill =>
    some (Function.update s x (fill.run (sbitmapRealloc (s x) nElms fresh)))
  | unionOfDiff dst a b c => some (sbitmapUnionOfDiff s dst a b c)
  | not dst src => some (sbitmapNot s dst src)
  | difference dst a b => sbitmapDifference s dst a b

/-- A length that an `unsigned int` holds, and operands of equal length. -/
def Call.Proper (s : Store β k) : Call β k → Prop
  | alloc _ nElms _ _ | resize _ nElms _ _ | realloc _ nElms _ _ => nElms < uintSize
  | refill _ _ => True
  | unionOfDiff dst a b c =>
    (s a).nBits = (s dst).nBits ∧ (s b).nBits = (s dst).nBits ∧ (s c).nBits = (s dst).nBits
  | not dst src => (s src).nBits = (s dst).nBits
  | difference dst a b => (s a).nBits = (s dst).nBits ∧ (s b).nBits = (s dst).nBits

/-- The stores that allowed calls lead to from bitmaps without bits. -/
inductive Reachable (allowed : Store β k → Call β k → Prop) : Store β k → Prop where
  | start (fresh : β → Nat → Elt k) : Reachable allowed fun x => sbitmapAlloc 0 (fresh x)
  | call {s s' : Store β k} {call : Call β k} (reachable : Reachable allowed s)
      (proper : call.Proper s) (allows : allowed s call) (ran : call.run s = some s') :
      Reachable allowed s'

def neededSize (k n : Nat) : Nat := (n + (eltBits k - 1)) / eltBits k

def bitAt (elms : Nat → Elt k) (i : Nat) : Bool := (elms (i / eltBits k)).getLsbD (i % eltBits k)

omit [DecidableEq β] in
theorem testBit_eq (bmap : SimpleBitmap k) (i : Nat) : testBit bmap i = bitAt bmap.elms i := by
  rw [testBit, bitAt, BitVec.getLsbD_ushiftRight, Nat.add_zero]

section Sizes

variable [NeZero k] {n m i : Nat}

theorem eltBits_pos : 0 < eltBits k := Nat.mul_pos (by decide) (Nat.pos_of_neZero k)

/-- A length for which the computation of the size does not wrap around. -/
def Small (k n : Nat) : Prop := n + (eltBits k - 1) < uintSize

theorem setSize_eq (small : Small k n) : setSize k n = neededSize k n := by
  have positive := @eltBits_pos k _
  rw [setSize, neededSize, Nat.add_sub_assoc positive, Nat.mod_eq_of_lt small]

omit [NeZero k] in
theorem neededSize_mono (below : n ≤ m) : neededSize k n ≤ neededSize k m :=
  Nat.div_le_div_right (by omega)

omit [NeZero k] in
theorem neededSize_mul_lt (small : Small k n) : neededSize k n * k < uintSize := by
  have bits : neededSize k n * eltBits k ≤ n + (eltBits k - 1) := Nat.div_mul_le_self _ _
  have fewer : neededSize k n * k ≤ neededSize k n * eltBits k :=
    Nat.mul_le_mul_left _ (by rw [eltBits]; omega)
  rw [Small] at small
  omega

omit [NeZero k] in
theorem sizeBytes_eq (small : Small k n) :
    sizeBytes k (neededSize k n) = neededSize k n * k :=
  Nat.mod_eq_of_lt (neededSize_mul_lt small)

theorem neededSize_of_mod_eq_zero (whole : n % eltBits k = 0) :
    neededSize k n * eltBits k = n := by
  have positive := @eltBits_pos k _
  obtain ⟨q, rfl⟩ := Nat.dvd_of_mod_eq_zero whole
  rw [neededSize, Nat.mul_add_div positive, Nat.div_eq_of_lt (by omega), Nat.add_zero,
    Nat.mul_comm]

theorem neededSize_of_mod_ne_zero (partly : n % eltBits k ≠ 0) :
    neededSize k n = n / eltBits k + 1 := by
  have positive := @eltBits_pos k _
  have parts := Nat.div_add_mod n (eltBits k)
  have below := Nat.mod_lt n positive
  apply Nat.div_eq_of_lt_le
  · rw [Nat.add_mul, Nat.mul_comm (n / _)]
    omega
  · rw [Nat.add_mul, Nat.add_mul, Nat.mul_comm (n / _)]
    omega

theorem le_neededSize_mul (k n : Nat) [NeZero k] : n ≤ neededSize k n * eltBits k := by
  have positive := @eltBits_pos k _
  have parts := Nat.div_add_mod n (eltBits k)
  have below := Nat.mod_lt n positive
  by_cases whole : n % eltBits k = 0
  · exact (neededSize_of_mod_eq_zero whole).ge
  · rw [neededSize_of_mod_ne_zero whole, Nat.add_mul, Nat.mul_comm (n / _)]
    omega

theorem surplus_iff (partly : n % eltBits k ≠ 0) :
    i / eltBits k = neededSize k n - 1 ∧ ¬ i % eltBits k < n % eltBits k ↔
      n ≤ i ∧ i < neededSize k n * eltBits k := by
  have positive := @eltBits_pos k _
  have parts := Nat.div_add_mod n (eltBits k)
  have below := Nat.mod_lt n positive
  have bitParts := Nat.div_add_mod i (eltBits k)
  have bitBelow := Nat.mod_lt i positive
  rw [neededSize_of_mod_ne_zero partly, Nat.add_sub_cancel, Nat.add_mul, Nat.one_mul]
  constructor
  · rintro ⟨same, above⟩
    rw [same] at bitParts
    rw [Nat.mul_comm (n / _)]
    omega
  · rintro ⟨above, inside⟩
    have same : i / eltBits k = n / eltBits k := by
      apply Nat.div_eq_of_lt_le
      · rw [Nat.mul_comm]
        omega
      · rwa [Nat.add_mul, Nat.one_mul]
    rw [same] at bitParts
    exact ⟨same, by omega⟩

end Sizes

section Elements

variable [NeZero k] {n i : Nat} {elms : Nat → Elt k}

theorem bitAt_memset {start bytes count : Nat} (value : Elt k) (whole : bytes = count * k) :
    bitAt (memset elms start value bytes) i =
      if start * eltBits k ≤ i ∧ i < (start + count) * eltBits k then value.getLsbD (i % eltBits k)
      else bitAt elms i := by
  have positive := @eltBits_pos k _
  have place : start ≤ i / eltBits k ∧ i / eltBits k < start + count ↔
      start * eltBits k ≤ i ∧ i < (start + count) * eltBits k :=
    and_congr (Nat.le_div_iff_mul_le positive) (Nat.div_lt_iff_lt_mul positive)
  rw [bitAt, memset, whole, Nat.mul_div_cancel _ (Nat.pos_of_neZero k), apply_ite BitVec.getLsbD]
  by_cases inside : start * eltBits k ≤ i ∧ i < (start + count) * eltBits k
  · rw [if_pos inside, if_pos (place.mpr inside)]
  · rw [if_neg inside, if_neg (mt place.mp inside), bitAt]

omit [NeZero k] in
theorem bitAt_update (place : Nat) (value : Elt k) :
    bitAt (Function.update elms place value) i =
      if i / eltBits k = place then value.getLsbD (i % eltBits k) else bitAt elms i := by
  rw [bitAt, Function.update_apply]
  split
  · rfl
  · rfl

omit [NeZero k] in
theorem getLsbD_lowOnes {lastBit j : Nat} (inside : lastBit ≤ eltBits k) :
    (lowOnes k lastBit).getLsbD j = decide (j < lastBit) := by
  rw [lowOnes, BitVec.getLsbD_ushiftRight, BitVec.getLsbD_allOnes, decide_eq_decide]
  omega

theorem bitAt_clearSurplus :
    bitAt (clearSurplus elms (neededSize k n) n) i =
      if n ≤ i ∧ i < neededSize k n * eltBits k then false else bitAt elms i := by
  rw [clearSurplus]
  split
  · next partly =>
      have inside := (Nat.mod_lt n (@eltBits_pos k _)).le
      have surplus := @surplus_iff k _ n i partly
      rw [bitAt_update, BitVec.getLsbD_and, getLsbD_lowOnes inside]
      by_cases high : n ≤ i ∧ i < neededSize k n * eltBits k
      · obtain ⟨last, notLow⟩ := surplus.mpr high
        rw [if_pos high, if_pos last, decide_eq_false notLow, Bool.and_false]
      · rw [if_neg high]
        split
        · next last =>
            have low := not_not.mp fun notLow => high (surplus.mp ⟨last, notLow⟩)
            rw [decide_eq_true low, Bool.and_true, bitAt, last]
        · rfl
  · next whole =>
      rw [neededSize_of_mod_eq_zero (not_not.mp whole), if_neg (by omega)]

theorem bitAt_setSurplus :
    bitAt (if n % eltBits k ≠ 0 then
        Function.update elms (neededSize k n - 1)
          (elms (neededSize k n - 1) ||| ~~~ lowOnes k (n % eltBits k))
      else elms) i =
      if n ≤ i ∧ i < neededSize k n * eltBits k then true else bitAt elms i := by
  split
  · next partly =>
      have positive := @eltBits_pos k _
      have inside := (Nat.mod_lt n positive).le
      have bitInside := Nat.mod_lt i positive
      rw [bitAt_update, BitVec.getLsbD_or, BitVec.getLsbD_not, getLsbD_lowOnes inside,
        decide_eq_true bitInside, Bool.true_and]
      have surplus := @surplus_iff k _ n i partly
      by_cases high : n ≤ i ∧ i < neededSize k n * eltBits k
      · obtain ⟨last, notLow⟩ := surplus.mpr high
        rw [if_pos high, if_pos last, decide_eq_false notLow, Bool.not_false, Bool.or_true]
      · rw [if_neg high]
        split
        · next last =>
            have low := not_not.mp fun notLow => high (surplus.mp ⟨last, notLow⟩)
            rw [decide_eq_true low, Bool.not_true, Bool.or_false, bitAt, last]
        · rfl
  · next whole =>
      rw [neededSize_of_mod_eq_zero (not_not.mp whole), if_neg (by omega)]

end Elements

structure Sized (bmap : SimpleBitmap k) : Prop where
  small : Small k bmap.nBits
  size : bmap.size = neededSize k bmap.nBits
  bytes : bmap.bytes = bmap.size * k

structure Valid (bmap : SimpleBitmap k) : Prop extends Sized bmap where
  surplus : ∀ i, bmap.nBits ≤ i → i < bmap.size * eltBits k → testBit bmap i = false

section Single

variable [NeZero k] {bmap : SimpleBitmap k} {n : Nat}

theorem sized_alloc (small : Small k n) (fresh : Nat → Elt k) : Sized (sbitmapAlloc n fresh) where
  small := small
  size := setSize_eq small
  bytes := by
    change sizeBytes k (setSize k n) = setSize k n * k
    rw [setSize_eq small, sizeBytes_eq small]

theorem Sized.zero (sized : Sized bmap) : Valid (sbitmapZero bmap) where
  toSized := ⟨sized.small, sized.size, sized.bytes⟩
  surplus i _ below := by
    rw [testBit_eq, sbitmapZero]
    dsimp only
    rw [bitAt_memset 0#_ sized.bytes, Nat.zero_mul, Nat.zero_add,
      if_pos ⟨Nat.zero_le i, below⟩, BitVec.getLsbD_zero]

theorem Sized.ones (sized : Sized bmap) : Valid (sbitmapOnes bmap) := by
  have positive := @eltBits_pos k _
  by_cases partly : bmap.nBits % eltBits k ≠ 0
  · rw [sbitmapOnes, if_pos partly]
    refine ⟨⟨sized.small, sized.size, sized.bytes⟩, ?_⟩
    intro i above below
    change i < bmap.size * _ at below
    rw [sized.size] at below
    obtain ⟨last, high⟩ := (surplus_iff partly).mpr ⟨above, below⟩
    rw [testBit_eq]
    dsimp only
    rw [bitAt_update, sized.size, if_pos last, getLsbD_lowOnes (Nat.mod_lt _ positive).le,
      decide_eq_false high]
  · rw [sbitmapOnes, if_neg partly]
    refine ⟨⟨sized.small, sized.size, sized.bytes⟩, ?_⟩
    intro i above below
    change i < bmap.size * _ at below
    change bmap.nBits ≤ i at above
    rw [sized.size, neededSize_of_mod_eq_zero (not_not.mp partly)] at below
    omega

theorem Sized.fill (sized : Sized bmap) (fill : Fill) : Valid (fill.run bmap) := by
  cases fill with
  | zero => exact sized.zero
  | ones => exact sized.ones

theorem Sized.realloc (sized : Sized bmap) (small : Small k n)
    (enough : bmap.size ≤ neededSize k n) (fresh : Nat → Elt k) :
    Sized (sbitmapRealloc bmap n fresh) := by
  have positive := Nat.pos_of_neZero k
  rw [sbitmapRealloc, setSize_eq small, sizeBytes_eq small, sized.bytes]
  split
  · next fits =>
      have same : bmap.size = neededSize k n :=
        enough.antisymm (Nat.le_of_mul_le_mul_right fits positive)
      exact ⟨small, same, rfl⟩
  · exact ⟨small, rfl, rfl⟩

theorem Valid.resize (valid : Valid bmap) (small : Small k n) (default : Int)
    (fresh : Nat → Elt k) :
    Valid (sbitmapResize bmap n default fresh) ∧
      ∀ i, i < n → testBit (sbitmapResize bmap n default fresh) i =
        if i < bmap.nBits then testBit bmap i else decide (default ≠ 0) := by
  have positive := Nat.pos_of_neZero k
  have oldBits := le_neededSize_mul k bmap.nBits
  have newBits := le_neededSize_mul k n
  have oldBytes := neededSize_mul_lt valid.small
  have newBytes := neededSize_mul_lt small
  obtain ⟨elms, kept, same⟩ : ∃ elms : Nat → Elt k,
      elms = (if bmap.bytes < neededSize k n * k then xrealloc bmap.elms bmap.bytes fresh
        else bmap.elms) ∧
      ∀ i, i < neededSize k bmap.nBits * eltBits k → bitAt elms i = testBit bmap i := by
    refine ⟨_, rfl, fun i below => ?_⟩
    rw [testBit_eq]
    split
    · rw [bitAt, xrealloc, if_pos, bitAt]
      rw [valid.bytes, valid.size, Nat.mul_div_cancel _ positive]
      exact Nat.div_lt_of_lt_mul (by rwa [Nat.mul_comm])
    · rfl
  have surplus : ∀ i, bmap.nBits ≤ i → i < neededSize k bmap.nBits * eltBits k →
      bitAt elms i = false := by
    intro i above below
    rw [same i below]
    exact valid.surplus i above (by rwa [valid.size])
  suffices bits : ∀ i, i < neededSize k n * eltBits k →
      bitAt (sbitmapResize bmap n default fresh).elms i =
        if n ≤ i then false
        else if i < bmap.nBits then testBit bmap i else decide (default ≠ 0) by
    refine ⟨⟨⟨small, setSize_eq small, ?_⟩, ?_⟩, ?_⟩
    · change sizeBytes k (setSize k n) = setSize k n * k
      rw [setSize_eq small, sizeBytes_eq small]
    · intro i above below
      change n ≤ i at above
      change i < setSize k n * _ at below
      rw [setSize_eq small] at below
      rw [testBit_eq, bits i below, if_pos above]
    · intro i below
      rw [testBit_eq, bits i (by omega), if_neg (Nat.not_le.mpr below)]
  intro i inside
  rw [sbitmapResize, setSize_eq small, sizeBytes_eq small, ← kept]
  dsimp only
  by_cases grows : bmap.nBits < n
  · have sizes := @neededSize_mono k _ _ grows.le
    have added : (neededSize k n * k + uintSize - bmap.bytes) % uintSize =
        (neededSize k n - neededSize k bmap.nBits) * k := by
      have more : neededSize k bmap.nBits * k ≤ neededSize k n * k :=
        Nat.mul_le_mul_right k sizes
      rw [valid.bytes, valid.size, Nat.sub_mul, Nat.add_comm, Nat.add_sub_assoc more,
        Nat.add_mod_left, Nat.mod_eq_of_lt (by omega)]
    have whole : neededSize k bmap.nBits + (neededSize k n - neededSize k bmap.nBits) =
        neededSize k n := by omega
    rw [if_pos grows]
    by_cases one : default ≠ 0
    · rw [if_pos one, bitAt_clearSurplus, valid.size, bitAt_setSurplus,
        bitAt_memset (BitVec.allOnes _) added, whole, BitVec.getLsbD_allOnes,
        decide_eq_true (Nat.mod_lt i eltBits_pos), decide_eq_true one]
      by_cases above : n ≤ i
      · rw [if_pos ⟨above, inside⟩, if_pos above]
      · rw [if_neg (fun surplus => above surplus.1), if_neg above]
        by_cases old : i < bmap.nBits
        · rw [if_neg (by omega), if_neg (by omega), if_pos old, same i (by omega)]
        · rw [if_neg old]
          by_cases last : i < neededSize k bmap.nBits * eltBits k
          · rw [if_pos ⟨by omega, last⟩]
          · rw [if_neg (fun surplus => last surplus.2), if_pos ⟨by omega, inside⟩]
    · rw [if_neg one, valid.size, bitAt_memset 0#_ added, whole, BitVec.getLsbD_zero,
        decide_eq_false one]
      by_cases old : i < bmap.nBits
      · rw [if_neg (by omega), if_neg (by omega), if_pos old, same i (by omega)]
      · rw [if_neg old, ite_self]
        split
        · rfl
        · next first => exact surplus i (by omega) (by omega)
  · have sizes : neededSize k n * eltBits k ≤ neededSize k bmap.nBits * eltBits k :=
      Nat.mul_le_mul_right _ (neededSize_mono (Nat.not_lt.mp grows))
    rw [if_neg grows]
    by_cases shrinks : n < bmap.nBits
    · rw [if_pos shrinks, bitAt_clearSurplus]
      by_cases above : n ≤ i
      · rw [if_pos ⟨above, inside⟩, if_pos above]
      · rw [if_neg (fun surplus => above surplus.1), if_neg above, if_pos (by omega),
          same i (by omega)]
    · rw [if_neg shrinks]
      by_cases above : n ≤ i
      · rw [if_pos above, surplus i (by omega) (by omega)]
      · rw [if_neg above, if_pos (by omega), same i (by omega)]

theorem Valid.equal_iff {a b : SimpleBitmap k} (validA : Valid a) (validB : Valid b)
    (sameLength : a.nBits = b.nBits) :
    sbitmapEqual a b = true ↔ ∀ i, i < a.nBits → testBit a i = testBit b i := by
  have positive := @eltBits_pos k _
  have sameSize : a.size = b.size := by rw [validA.size, validB.size, sameLength]
  have bitsBelow := le_neededSize_mul k a.nBits
  rw [← validA.size] at bitsBelow
  rw [sbitmapEqual, List.all_eq_true]
  constructor
  · intro same i below
    have place : i / eltBits k < a.size := (Nat.div_lt_iff_lt_mul positive).mpr (by omega)
    rw [testBit, testBit, eq_of_beq (same _ (List.mem_range.mpr place))]
  · intro same place member
    have inside : place < a.size := List.mem_range.mp member
    apply beq_iff_eq.mpr
    apply BitVec.eq_of_getLsbD_eq
    intro j below
    have atBit : ∀ elms : Nat → Elt k,
        bitAt elms (place * eltBits k + j) = (elms place).getLsbD j := by
      intro elms
      rw [bitAt, Nat.mul_comm, Nat.mul_add_div positive, Nat.div_eq_of_lt below, Nat.add_zero,
        Nat.mul_add_mod, Nat.mod_eq_of_lt below]
    have bit : place * eltBits k + j < a.size * eltBits k := by
      have next : (place + 1) * eltBits k ≤ a.size * eltBits k := Nat.mul_le_mul_right _ inside
      rw [Nat.add_mul, Nat.one_mul] at next
      omega
    rw [← atBit, ← atBit, ← testBit_eq, ← testBit_eq]
    by_cases counted : place * eltBits k + j < a.nBits
    · exact same _ counted
    · rw [validA.surplus _ (by omega) bit,
        validB.surplus _ (by omega) (sameSize ▸ bit)]

end Single

section Loops

variable {s : Store β k} {dst : β}

theorem setElms_self (s : Store β k) (dst : β) (elms : Nat → Elt k) :
    setElms s dst elms dst = { s dst with elms := elms } :=
  Function.update_self ..

theorem setElms_of_ne (s : Store β k) {x : β} (other : x ≠ dst) (elms : Nat → Elt k) :
    setElms s dst elms x = s x :=
  Function.update_of_ne other ..

theorem setElms_setElms (s : Store β k) (dst : β) (elms elms' : Nat → Elt k) :
    setElms (setElms s dst elms) dst elms' = setElms s dst elms' := by
  rw [setElms, setElms_self, setElms, Function.update_idem]
  rfl

theorem setElms_elms (s : Store β k) (dst : β) : setElms s dst (s dst).elms = s :=
  Function.update_eq_self dst s

theorem setElements_eq (s : Store β k) (dst : β) (value : (β → Elt k) → Elt k)
    (first count : Nat) :
    setElements s dst value first count = setElms s dst fun i =>
      if first ≤ i ∧ i < first + count then value fun x => (s x).elms i else (s dst).elms i := by
  let elms : Nat → Nat → Elt k := fun reached i =>
    if first ≤ i ∧ i < reached then value fun x => (s x).elms i else (s dst).elms i
  have round : ∀ i s', first ≤ i → i < first + count → s' = setElms s dst (elms i) →
      setElms s' dst (Function.update (s' dst).elms i (value fun x => (s' x).elms i)) =
        setElms s dst (elms (i + 1)) := by
    rintro i _ above below rfl
    have untouched : (fun x => (setElms s dst (elms i) x).elms i) = fun x => (s x).elms i := by
      funext x
      by_cases same : x = dst
      · rw [same, setElms_self]
        exact if_neg fun inside => Nat.lt_irrefl i inside.2
      · rw [setElms_of_ne s same]
    rw [untouched, setElms_self, setElms_setElms]
    congr 1
    funext j
    rw [Function.update_apply]
    by_cases here : j = i
    · rw [here, if_pos rfl]
      exact (if_pos ⟨above, Nat.lt_succ_self i⟩).symm
    · rw [if_neg here]
      have same : first ≤ j ∧ j < i ↔ first ≤ j ∧ j < i + 1 := by omega
      exact if_congr same rfl rfl
  have start : s = setElms s dst (elms first) := by
    have none : elms first = (s dst).elms := by
      funext i
      exact if_neg fun inside => Nat.not_lt.mpr inside.1 inside.2
    rw [none, setElms_elms]
  exact @CountedLoops.foldl_range' _ (fun reached s' => s' = setElms s dst (elms reached))
    first count s _ round start

end Loops

section Calls

variable [NeZero k] {s : Store β k} {dst : β}

omit [NeZero k] in
theorem valid_update (valid : ∀ x, Valid (s x)) {bmap : SimpleBitmap k} (validNew : Valid bmap)
    (y : β) : ∀ x, Valid (Function.update s y bmap x) := by
  intro x
  by_cases same : x = y
  · rwa [same, Function.update_self]
  · rw [Function.update_of_ne same]
    exact valid x

omit [NeZero k] in
theorem valid_setElms (valid : ∀ x, Valid (s x)) {elms : Nat → Elt k}
    (surplus : ∀ i, (s dst).nBits ≤ i → i < (s dst).size * eltBits k → bitAt elms i = false) :
    ∀ x, Valid (setElms s dst elms x) := by
  have old := valid dst
  have validNew : Valid ({ s dst with elms := elms } : SimpleBitmap k) := by
    refine ⟨⟨old.small, old.size, old.bytes⟩, ?_⟩
    intro i above below
    rw [testBit_eq]
    exact surplus i above below
  exact valid_update valid validNew dst

omit [DecidableEq β] [NeZero k] in
theorem no_surplus (valid : ∀ x, Valid (s x)) {x : β} (sameLength : (s x).nBits = (s dst).nBits)
    {i : Nat} (above : (s dst).nBits ≤ i) (below : i < (s dst).size * eltBits k) :
    ((s x).elms (i / eltBits k)).getLsbD (i % eltBits k) = false := by
  have sameSize : (s x).size = (s dst).size := by
    rw [(valid x).size, (valid dst).size, sameLength]
  have clear := (valid x).surplus i (sameLength ▸ above) (sameSize ▸ below)
  rwa [testBit_eq] at clear

theorem valid_setElements (valid : ∀ x, Valid (s x)) {value : (β → Elt k) → Elt k}
    (surplus : ∀ i, (s dst).nBits ≤ i → i < (s dst).size * eltBits k →
      (value fun x => (s x).elms (i / eltBits k)).getLsbD (i % eltBits k) = false) :
    ∀ x, Valid (setElements s dst value 0 (s dst).size x) := by
  rw [setElements_eq]
  apply valid_setElms valid
  intro i above below
  have inside : i / eltBits k < (s dst).size := (Nat.div_lt_iff_lt_mul eltBits_pos).mpr below
  rw [bitAt, if_pos ⟨Nat.zero_le _, by rwa [Nat.zero_add]⟩]
  exact surplus i above below

theorem valid_unionOfDiff (valid : ∀ x, Valid (s x)) {a b c : β}
    (sameA : (s a).nBits = (s dst).nBits) (sameB : (s b).nBits = (s dst).nBits) :
    ∀ x, Valid (sbitmapUnionOfDiff s dst a b c x) := by
  apply valid_setElements valid
  intro i above below
  rw [BitVec.getLsbD_or, BitVec.getLsbD_and, no_surplus valid sameA above below,
    no_surplus valid sameB above below, Bool.false_and, Bool.or_false]

theorem valid_not (valid : ∀ x, Valid (s x)) {src : β}
    (sameLength : (s src).nBits = (s dst).nBits) : ∀ x, Valid (sbitmapNot s dst src x) := by
  have lengths : ∀ elms, (setElms s dst elms src).nBits = (s dst).nBits := by
    intro elms
    by_cases same : src = dst
    · rw [same, setElms_self]
    · rw [setElms_of_ne s same, sameLength]
  rw [sbitmapNot, setElements_eq, setElms_setElms, lengths, setElms_self]
  apply valid_setElms valid
  intro i above below
  rw [(valid dst).size] at below ⊢
  rw [bitAt_clearSurplus, if_pos ⟨above, below⟩]

theorem valid_difference (valid : ∀ x, Valid (s x)) {a b : β}
    (sameA : (s a).nBits = (s dst).nBits) (sameB : (s b).nBits = (s dst).nBits) :
    ∃ s', sbitmapDifference s dst a b = some s' ∧ ∀ x, Valid (s' x) := by
  have sizeA : (s a).size = (s dst).size := by rw [(valid a).size, (valid dst).size, sameA]
  have sizeB : (s b).size = (s dst).size := by rw [(valid b).size, (valid dst).size, sameB]
  refine ⟨setElements s dst (fun elt => elt a &&& ~~~ elt b) 0 (s dst).size, ?_, ?_⟩
  · rw [sbitmapDifference, sizeA, sizeB, if_neg (Nat.lt_irrefl _)]
    dsimp only
    rw [if_pos (Nat.le_refl _), if_neg (fun both => both.2 rfl)]
  · apply valid_setElements valid
    intro i above below
    rw [BitVec.getLsbD_and, no_surplus valid sameA above below, Bool.false_and]

/-- The calls after which the size fits the number of bits: the computation of the size does not
wrap around, and a bitmap that is allocated again does not get fewer elements. -/
def Call.Fits (s : Store β k) : Call β k → Prop
  | alloc _ nElms _ _ | resize _ nElms _ _ => Small k nElms
  | realloc x nElms _ _ => Small k nElms ∧ (s x).size ≤ neededSize k nElms
  | refill _ _ | unionOfDiff _ _ _ _ | not _ _ | difference _ _ _ => True

theorem Call.valid (valid : ∀ x, Valid (s x)) {call : Call β k} (proper : call.Proper s)
    (fits : call.Fits s) : ∃ s', call.run s = some s' ∧ ∀ x, Valid (s' x) := by
  cases call with
  | alloc x nElms fresh fill =>
    exact ⟨_, rfl, valid_update valid ((sized_alloc fits fresh).fill fill) x⟩
  | refill x fill => exact ⟨_, rfl, valid_update valid ((valid x).toSized.fill fill) x⟩
  | resize x nElms default fresh =>
    exact ⟨_, rfl, valid_update valid ((valid x).resize fits default fresh).1 x⟩
  | realloc x nElms fresh fill =>
    obtain ⟨small, enough⟩ := fits
    have sized := (valid x).toSized.realloc small enough fresh
    exact ⟨_, rfl, valid_update valid (sized.fill fill) x⟩
  | unionOfDiff dst a b c =>
    obtain ⟨sameA, sameB, -⟩ := proper
    exact ⟨_, rfl, valid_unionOfDiff valid sameA sameB⟩
  | not dst src => exact ⟨_, rfl, valid_not valid proper⟩
  | difference dst a b => exact valid_difference valid proper.1 proper.2

theorem Reachable.valid (representable : eltBits k ≤ uintSize)
    (reachable : Reachable Call.Fits s) : ∀ x, Valid (s x) := by
  induction reachable with
  | start fresh =>
    intro x
    have positive := @eltBits_pos k _
    have small : Small k 0 := by
      rw [Small]
      omega
    have sized := sized_alloc small (fresh x)
    refine ⟨sized, fun i _ below => ?_⟩
    have none : neededSize k 0 = 0 := Nat.div_eq_of_lt (by omega)
    have size : (sbitmapAlloc 0 (fresh x)).size = 0 := sized.size.trans none
    rw [size, Nat.zero_mul] at below
    exact absurd below (Nat.not_lt_zero i)
  | call reachable proper fits ran ih =>
    obtain ⟨s', finished, valid⟩ := Call.valid ih proper fits
    rw [ran, Option.some.injEq] at finished
    rwa [finished]

end Calls

def members (bmap : SimpleBitmap k) : Set Nat := {i | i < bmap.nBits ∧ testBit bmap i = true}

/-- What is expected of a store: the sizes are right, there are no surplus bits, equality is that
of sets, and resizing keeps the old bits and gives the new ones the default. -/
structure Consistent (allowed : Store β k → Call β k → Prop) (s : Store β k) : Prop where
  size : ∀ x, (s x).size = neededSize k (s x).nBits
  surplus : ∀ x i, (s x).nBits ≤ i → i < (s x).size * eltBits k → testBit (s x) i = false
  equal : ∀ x y, (s x).nBits = (s y).nBits →
    (sbitmapEqual (s x) (s y) = true ↔ members (s x) = members (s y))
  resize : ∀ x n default fresh, n < uintSize → allowed s (.resize x n default fresh) →
    (sbitmapResize (s x) n default fresh).nBits = n ∧
      ∀ i, i < n → testBit (sbitmapResize (s x) n default fresh) i =
        if i < (s x).nBits then testBit (s x) i else decide (default ≠ 0)

omit [DecidableEq β] in
theorem members_eq_iff {a b : SimpleBitmap k} (sameLength : a.nBits = b.nBits) :
    members a = members b ↔ ∀ i, i < a.nBits → testBit a i = testBit b i := by
  constructor
  · intro same i below
    have iff := Set.ext_iff.mp same i
    rw [Bool.eq_iff_iff]
    exact ⟨fun set => (iff.mp ⟨below, set⟩).2, fun set => (iff.mpr ⟨sameLength ▸ below, set⟩).2⟩
  · intro same
    ext i
    change i < a.nBits ∧ testBit a i = true ↔ i < b.nBits ∧ testBit b i = true
    rw [← sameLength]
    exact and_congr_right fun below => by rw [same i below]

/-- Calls that fit lead to consistent stores only. -/
theorem reachable_consistent [NeZero k] (representable : eltBits k ≤ uintSize) {s : Store β k}
    (reachable : Reachable Call.Fits s) : Consistent Call.Fits s := by
  have valid := reachable.valid representable
  refine ⟨fun x => (valid x).size, fun x => (valid x).surplus, ?_, ?_⟩
  · intro x y sameLength
    rw [(valid x).equal_iff (valid y) sameLength, members_eq_iff sameLength]
  · intro x n default fresh _ small
    exact ⟨rfl, ((valid x).resize small default fresh).2⟩

theorem reachable_consistent_resized :
    ∃ s : Store Unit 8, (s ()).nBits = 65 ∧ Consistent Call.Fits s := by
  have start : Reachable Call.Fits fun _ : Unit => sbitmapAlloc 0 fun _ => 0#(8 * 8) :=
    Reachable.start fun _ _ => 0#(8 * 8)
  have allocated := start.call (show Call.Proper _ (.alloc () 200 (fun _ => 0#64) .zero) from
    show 200 < uintSize by decide) (show Small 8 200 from show 263 < uintSize by decide) rfl
  have resized := allocated.call (show Call.Proper _ (.resize () 65 1 fun _ => 0#64) from
    show 65 < uintSize by decide) (show Small 8 65 from show 128 < uintSize by decide) rfl
  exact ⟨_, rfl, reachable_consistent (by decide) resized⟩

/-- A bitmap of 200 bits that is allocated again for 65 keeps its size of four words. -/
theorem realloc_not_consistent :
    ¬ ∀ s : Store Unit 8, Reachable (fun _ _ => True) s → Consistent (fun _ _ => True) s := by
  intro consistent
  have start : Reachable (fun _ _ => True) fun _ : Unit => sbitmapAlloc 0 fun _ => 0#(8 * 8) :=
    Reachable.start fun _ _ => 0#(8 * 8)
  have allocated := start.call (show Call.Proper _ (.alloc () 200 (fun _ => 0#64) .zero) from
    show 200 < uintSize by decide) trivial rfl
  have again := allocated.call (show Call.Proper _ (.realloc () 65 (fun _ => 0#64) .ones) from
    show 65 < uintSize by decide) trivial rfl
  exact absurd ((consistent _ again).size ()) (by decide)

end GccCil.Gcc.SimpleBitmaps
