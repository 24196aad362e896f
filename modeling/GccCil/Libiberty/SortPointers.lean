import GccCil.Lib.StablePlacement

/-!
# Radix sort of pointers

`sort_pointers` of `sort.c`.  Each pass is a counting sort by one byte of the pointers from
the one array to the other.  The passes go from the least to the most significant byte, and
an even number of them leaves the result in the caller's array.  The bytes are read through
addresses in the array, so a wrong offset reads a byte of the next pointer.
-/

namespace GccCil.Libiberty.SortPointers

open GccCil.Lib

/-- What `sort_pointers` depends on of the machine. -/
structure Host where
  bigEndian : Bool
  sizeofPointer : Nat
  sizeofSizeT : Nat
  positive : 0 < sizeofPointer
  /-- The bytes that the test of the byte order stores are different from each other. -/
  wide : 2 ≤ sizeofSizeT ∧ sizeofSizeT ≤ 256

variable (host : Host)

/-- A value of type `void *`. -/
abbrev Pointer : Type := Fin (256 ^ host.sizeofPointer)

/-- The byte at an offset of an integer of `size` bytes. -/
def byteAt (size value offset : Nat) : UInt8 :=
  UInt8.ofNat (value / 256 ^ (if host.bigEndian then size - 1 - offset else offset))

/-- The loop that stores the numbers `0`, `1`, .. in the bytes of `j`. -/
def numberBytes (size : Nat) : Nat → Nat
  | 0 => 0
  | i + 1 => (numberBytes size i * 256 + i) % 256 ^ size

/-- `big_endian_p`: the first byte of `j` is 0. -/
def bigEndianP : Bool :=
  byteAt host host.sizeofSizeT (numberBytes host.sizeofSizeT host.sizeofSizeT) 0 == 0

def digitMax : Nat := 256

/-- An `unsigned int`. -/
def unsignedInt (n : Nat) : Nat := n % 2 ^ 32

variable {host}

/-- The byte at offset `j` from pointer `k` of an array.  `outside` is what is found after
the array. -/
def readDigit (outside : UInt8) (pointers : List (Pointer host)) (j k : Nat) : UInt8 :=
  let address := k * host.sizeofPointer + j
  match pointers[address / host.sizeofPointer]? with
  | some pointer => byteAt host host.sizeofPointer pointer (address % host.sizeofPointer)
  | none => outside

def countDigits (digits : List UInt8) : List Nat :=
  digits.foldl (fun count digit => count.modify digit.toNat (fun c => unsignedInt (c + 1)))
    (List.replicate digitMax 0)

/-- The loop `*countp += countp[-1]`. -/
def sumsFrom (previous : Nat) : List Nat → List Nat
  | [] => []
  | c :: count => unsignedInt (c + previous) :: sumsFrom (unsignedInt (c + previous)) count

def runningSums : List Nat → List Nat
  | [] => []
  | c :: count => c :: sumsFrom c count

/-- The loop that drops the first `k` pointers into `work`, from the last one on.  There is
no result where a store is outside the array. -/
def dropPointers (digit : Nat → UInt8) (pointers : List (Pointer host)) :
    Nat → List Nat → List (Pointer host) → Option (List (Pointer host))
  | 0, _, work => some work
  | k + 1, count, work =>
    let place := unsignedInt (count.getD (digit k).toNat 0 + (2 ^ 32 - 1))
    match pointers[k]? with
    | some pointer =>
      if place < work.length then
        dropPointers digit pointers k (count.set (digit k).toNat place)
          (work.set place pointer)
      else none
    | none => none

structure State (host : Host) where
  pointers : List (Pointer host)
  work : List (Pointer host)
  /-- `pointers` is the caller's `WORK`. -/
  exchanged : Bool
  /-- The digits that were read: the pointer in question and the offset from its start. -/
  reads : List (Nat × Nat)

/-- The offset of digit `i`. -/
def digitOffset (host : Host) (i : Nat) : Nat :=
  if bigEndianP host then host.sizeofPointer - i else i

/-- One pass: a stable sort by digit `i`. -/
def sortPass (outside : UInt8) (i : Nat) (state : State host) : Option (State host) :=
  let n := state.pointers.length
  let j := digitOffset host i
  let digit := readDigit outside state.pointers j
  let count := runningSums (countDigits ((List.range n).map digit))
  (dropPointers digit state.pointers n count state.work).map fun work =>
    { pointers := work
      work := state.pointers
      exchanged := !state.exchanged
      reads := state.reads ++ (List.range n).map (fun k => (k, j)) ++
        (List.range n).reverse.map (fun k => (k, j)) }

/-- The first `i` passes. -/
def sortPasses (outside : UInt8) (state : State host) : Nat → Option (State host)
  | 0 => some state
  | i + 1 => (sortPasses outside state i).bind (sortPass outside i)

/-- What the caller finds in `POINTERS`, and the digits that were read. -/
structure Sorted (host : Host) where
  pointers : List (Pointer host)
  reads : List (Nat × Nat)

/-- `sort_pointers`.  It has no result where it aborts or stores outside an array. -/
def sortPointers (outside : UInt8) (pointers work : List (Pointer host)) : Option (Sorted host) :=
  if host.sizeofPointer % 2 ≠ 0 then none
  else
    (sortPasses outside ⟨pointers, work, false, []⟩ host.sizeofPointer).map fun state =>
      ⟨if state.exchanged then state.work else state.pointers, state.reads⟩

theorem numberBytes_spec {size i : Nat} (small : size ≤ 256) (inside : i < size) :
    numberBytes size (i + 1) < 256 ^ i ∧ numberBytes size (i + 1) % 256 = i := by
  induction i with
  | zero => simp [numberBytes]
  | succ i ih =>
    obtain ⟨less, _⟩ := ih (by omega)
    have next : numberBytes size (i + 1) * 256 + (i + 1) < 256 ^ (i + 1) := by
      rw [pow_succ]
      omega
    have fits : 256 ^ (i + 1) ≤ 256 ^ size := Nat.pow_le_pow_right (by omega) (by omega)
    rw [numberBytes, Nat.mod_eq_of_lt (lt_of_lt_of_le next fits)]
    exact ⟨next, by omega⟩

theorem toNat_byteAt (size value offset : Nat) :
    (byteAt host size value offset).toNat =
      value / 256 ^ (if host.bigEndian then size - 1 - offset else offset) % 256 :=
  UInt8.toNat_ofNat'

theorem bigEndianP_eq : bigEndianP host = host.bigEndian := by
  obtain ⟨wide, small⟩ := host.wide
  have last : host.sizeofSizeT = host.sizeofSizeT - 1 + 1 := by omega
  have bytes := @numberBytes_spec host.sizeofSizeT (host.sizeofSizeT - 1) small (by omega)
  rw [← last] at bytes
  have first := @toNat_byteAt host host.sizeofSizeT
    (numberBytes host.sizeofSizeT host.sizeofSizeT) 0
  rw [bigEndianP, Bool.eq_iff_iff, beq_iff_eq, ← UInt8.toNat_inj, first]
  cases order : host.bigEndian with
  | false =>
    simp only [Bool.false_eq_true, if_false, pow_zero, Nat.div_one, bytes.2]
    simp
    omega
  | true =>
    simp [Nat.div_eq_of_lt bytes.1]

theorem digitOffset_eq (i : Nat) :
    digitOffset host i = if host.bigEndian then host.sizeofPointer - i else i := by
  rw [digitOffset, bigEndianP_eq]

theorem readDigit_eq (outside : UInt8) (pointers : List (Pointer host)) {j k : Nat}
    (inside : k < pointers.length) (offset : j < host.sizeofPointer) :
    readDigit outside pointers j k = byteAt host host.sizeofPointer pointers[k] j := by
  have positive := host.positive
  have element : (k * host.sizeofPointer + j) / host.sizeofPointer = k := by
    rw [Nat.add_comm, Nat.add_mul_div_right _ _ positive, Nat.div_eq_of_lt offset, Nat.zero_add]
  have rest : (k * host.sizeofPointer + j) % host.sizeofPointer = j := by
    rw [Nat.add_comm, Nat.add_mul_mod_self_right, Nat.mod_eq_of_lt offset]
  simp only [readDigit, element, rest, List.getElem?_eq_getElem inside]

theorem unsignedInt_of_lt {n : Nat} (small : n < 2 ^ 32) : unsignedInt n = n :=
  Nat.mod_eq_of_lt small

theorem countDigits_spec (digit : Nat → UInt8) {n : Nat} (small : n < 2 ^ 32) :
    (countDigits ((List.range n).map digit)).length = digitMax ∧
    ∀ d < digitMax, (countDigits ((List.range n).map digit)).getD d 0 =
      Nat.count (fun i => (digit i).toNat = d) n := by
  induction n with
  | zero =>
    refine ⟨by simp [countDigits], ?_⟩
    intro d inside
    simp [countDigits, List.getD_eq_getElem?_getD, inside]
  | succ n ih =>
    obtain ⟨length, counts⟩ := ih (by omega)
    have next : countDigits ((List.range (n + 1)).map digit) =
        (countDigits ((List.range n).map digit)).modify (digit n).toNat
          (fun c => unsignedInt (c + 1)) := by
      rw [countDigits, List.range_succ, List.map_append, List.foldl_append]
      rfl
    rw [next, List.length_modify]
    refine ⟨length, ?_⟩
    intro d inside
    have before := counts d inside
    have bound := @Nat.count_le (fun i => (digit i).toNat = d) _ n
    rw [List.getD_eq_getElem?_getD, List.getElem?_eq_getElem (by omega), Option.getD_some]
      at before
    rw [List.getD_eq_getElem?_getD, List.getElem?_modify, List.getElem?_eq_getElem (by omega),
      Nat.count_succ]
    by_cases same : (digit n).toNat = d
    · simp only [same, if_true, before]
      exact unsignedInt_of_lt (by omega)
    · simp [same, before]

theorem sumsFrom_spec (previous : Nat) (count : List Nat) :
    (sumsFrom previous count).length = count.length ∧
    (0 < count.length → (sumsFrom previous count).getD 0 0 =
      unsignedInt (count.getD 0 0 + previous)) ∧
    ∀ d, d + 1 < count.length → (sumsFrom previous count).getD (d + 1) 0 =
      unsignedInt (count.getD (d + 1) 0 + (sumsFrom previous count).getD d 0) := by
  induction count generalizing previous with
  | nil => simp [sumsFrom]
  | cons c count ih =>
    obtain ⟨length, first, next⟩ := ih (unsignedInt (c + previous))
    refine ⟨by simp [sumsFrom, length], by simp [sumsFrom], ?_⟩
    intro d inside
    rw [List.length_cons] at inside
    cases d with
    | zero => simpa [sumsFrom] using first (by omega)
    | succ d => simpa [sumsFrom] using next d (by omega)

theorem runningSums_spec (count : List Nat) :
    (runningSums count).length = count.length ∧
    (runningSums count).getD 0 0 = count.getD 0 0 ∧
    ∀ d, d + 1 < count.length → (runningSums count).getD (d + 1) 0 =
      unsignedInt (count.getD (d + 1) 0 + (runningSums count).getD d 0) := by
  cases count with
  | nil => simp [runningSums]
  | cons c count =>
    obtain ⟨length, first, next⟩ := sumsFrom_spec c count
    refine ⟨by simp [runningSums, length], by simp [runningSums], ?_⟩
    intro d inside
    rw [List.length_cons] at inside
    cases d with
    | zero => simpa [runningSums] using first (by omega)
    | succ d => simpa [runningSums] using next d (by omega)

theorem runningSums_countDigits (digit : Nat → UInt8) {n : Nat} (small : n < 2 ^ 32) :
    (runningSums (countDigits ((List.range n).map digit))).length = digitMax ∧
    ∀ d < digitMax, (runningSums (countDigits ((List.range n).map digit))).getD d 0 =
      Nat.count (fun i => (digit i).toNat ≤ d) n := by
  obtain ⟨length, counts⟩ := countDigits_spec digit small
  obtain ⟨sumsLength, first, next⟩ := runningSums_spec (countDigits ((List.range n).map digit))
  rw [length] at sumsLength next
  refine ⟨sumsLength, ?_⟩
  intro d inside
  induction d with
  | zero =>
    rw [first, counts 0 inside]
    simp only [Nat.le_zero]
  | succ d ih =>
    have sum := count_lt_add_count_eq (fun i => (digit i).toNat) (d + 1) n
    have bound := @Nat.count_le (fun i => (digit i).toNat ≤ d + 1) _ n
    simp only [Nat.lt_succ_iff] at sum
    rw [next d inside, counts (d + 1) inside, ih (by omega), unsignedInt_of_lt (by omega)]
    omega

theorem unsignedInt_pred {c : Nat} (positive : 0 < c) (small : c < 2 ^ 32) :
    unsignedInt (c + (2 ^ 32 - 1)) = c - 1 := by
  rw [unsignedInt]
  omega

theorem dropPointers_spec (digit : Nat → UInt8) {pointers : List (Pointer host)}
    (small : pointers.length < 2 ^ 32) {k : Nat} (inside : k ≤ pointers.length)
    {count : List Nat} (counts : count.length = digitMax)
    (free : ∀ d < digitMax, count.getD d 0 =
      Nat.count (fun i => (digit i).toNat < d) pointers.length +
        Nat.count (fun i => (digit i).toNat = d) k)
    {work : List (Pointer host)} (room : work.length = pointers.length) :
    ∃ result, dropPointers digit pointers k count work = some result ∧
      result.length = pointers.length ∧
      (∀ i < k, result[place (fun i => (digit i).toNat) pointers.length i]? = pointers[i]?) ∧
      ∀ p, (∀ i < k, place (fun i => (digit i).toNat) pointers.length i ≠ p) →
        result[p]? = work[p]? := by
  induction k generalizing count work with
  | zero => exact ⟨work, rfl, room, fun i less => absurd less (Nat.not_lt_zero i), fun _ _ => rfl⟩
  | succ k ih =>
    have member : (digit k).toNat < digitMax := (digit k).toNat_lt
    have target := place_lt_length (fun i => (digit i).toNat) inside
    have entry := free _ member
    rw [Nat.count_succ, if_pos rfl, ← Nat.add_assoc] at entry
    change _ = place (fun i => (digit i).toNat) pointers.length k + 1 at entry
    have down : unsignedInt (count.getD (digit k).toNat 0 + (2 ^ 32 - 1)) =
        place (fun i => (digit i).toNat) pointers.length k := by
      rw [entry, unsignedInt_pred (by omega) (by omega), Nat.add_sub_cancel]
    rw [dropPointers, down]
    simp only [List.getElem?_eq_getElem (show k < pointers.length by omega)]
    rw [if_pos (by omega)]
    have stillFree : ∀ d < digitMax,
        (count.set (digit k).toNat (place (fun i => (digit i).toNat) pointers.length k)).getD d 0 =
          Nat.count (fun i => (digit i).toNat < d) pointers.length +
            Nat.count (fun i => (digit i).toNat = d) k := by
      intro d bound
      have before := free d bound
      rw [Nat.count_succ] at before
      by_cases same : (digit k).toNat = d
      · subst same
        rw [List.getD_eq_getElem?_getD, List.getElem?_set_self (by omega), Option.getD_some]
        rfl
      · rw [if_neg same, Nat.add_zero] at before
        rw [List.getD_eq_getElem?_getD, List.getElem?_set_ne same,
          ← List.getD_eq_getElem?_getD, before]
    obtain ⟨result, run, length, placed, others⟩ := @ih (by omega) _
      (by rw [List.length_set, counts]) stillFree
      (work.set (place (fun i => (digit i).toNat) pointers.length k) pointers[k])
      (by rw [List.length_set, room])
    refine ⟨result, run, length, ?_, ?_⟩
    · intro i less
      rcases Nat.lt_succ_iff_lt_or_eq.mp less with before | rfl
      · exact placed i before
      · have apart : ∀ i' < i, place (fun i => (digit i).toNat) pointers.length i' ≠
            place (fun i => (digit i).toNat) pointers.length i := by
          intro i' before same
          have equal := place_inj _ (by omega) (by omega) same
          omega
        rw [others _ apart, List.getElem?_set_self (by omega),
          List.getElem?_eq_getElem (by omega)]
    · intro p free
      rw [others p (fun i before => free i (by omega)),
        List.getElem?_set_ne (free k (by omega))]

theorem sortPass_spec (outside : UInt8) (i : Nat) {state : State host}
    (small : state.pointers.length < 2 ^ 32) (room : state.work.length = state.pointers.length) :
    ∃ sorted, sortPass outside i state = some
      { pointers := sorted
        work := state.pointers
        exchanged := !state.exchanged
        reads := state.reads ++ (List.range state.pointers.length).map
            (fun k => (k, digitOffset host i)) ++
          (List.range state.pointers.length).reverse.map (fun k => (k, digitOffset host i)) } ∧
      Placed (fun k => (readDigit outside state.pointers (digitOffset host i) k).toNat)
        state.pointers sorted := by
  have sums := runningSums_countDigits
    (readDigit outside state.pointers (digitOffset host i)) small
  obtain ⟨sorted, run, length, placed, _⟩ := dropPointers_spec
    (readDigit outside state.pointers (digitOffset host i)) small (le_refl _) sums.1
    (fun d inside => (sums.2 d inside).trans (count_lt_add_count_eq _ d _).symm) room
  refine ⟨sorted, ?_, length, placed⟩
  simp only [sortPass, run, Option.map_some]

/-- What holds after `i` passes when each digit is read at its own offset. -/
structure AfterPasses (input : List (Pointer host)) (i : Nat) (state : State host) : Prop where
  perm : state.pointers.Perm input
  sorted : state.pointers.Pairwise fun a b => a.val % 256 ^ i ≤ b.val % 256 ^ i
  room : state.work.length = state.pointers.length
  exchanged : state.exchanged = decide (i % 2 = 1)
  reads : ∀ read ∈ state.reads, read.2 < host.sizeofPointer

theorem mod_pow_succ_le {a b i : Nat}
    (order : a / 256 ^ i % 256 < b / 256 ^ i % 256 ∨
      a / 256 ^ i % 256 = b / 256 ^ i % 256 ∧ a % 256 ^ i ≤ b % 256 ^ i) :
    a % 256 ^ (i + 1) ≤ b % 256 ^ (i + 1) := by
  have positive : 0 < 256 ^ i := Nat.pow_pos (by omega)
  have small : a % 256 ^ i < 256 ^ i := Nat.mod_lt a positive
  rw [Nat.mod_pow_succ, Nat.mod_pow_succ]
  rcases order with less | ⟨equal, less⟩
  · calc a % 256 ^ i + 256 ^ i * (a / 256 ^ i % 256)
        ≤ 256 ^ i * (a / 256 ^ i % 256 + 1) := by rw [Nat.mul_add]; omega
      _ ≤ 256 ^ i * (b / 256 ^ i % 256) := Nat.mul_le_mul_left _ less
      _ ≤ b % 256 ^ i + 256 ^ i * (b / 256 ^ i % 256) := Nat.le_add_left _ _
  · rw [equal]
    exact Nat.add_le_add_right less _

theorem sortPass_afterPasses (little : host.bigEndian = false) (outside : UInt8)
    {input : List (Pointer host)} (small : input.length < 2 ^ 32) {i : Nat}
    (inside : i < host.sizeofPointer) {state : State host} (after : AfterPasses input i state) :
    ∃ next, sortPass outside i state = some next ∧ AfterPasses input (i + 1) next := by
  have length := after.perm.length_eq
  have offset : digitOffset host i = i := by
    rw [digitOffset_eq, little]
    rfl
  obtain ⟨sorted, run, placed⟩ := sortPass_spec outside i (by rw [length]; exact small) after.room
  have digit : ∀ k (bound : k < state.pointers.length),
      (readDigit outside state.pointers (digitOffset host i) k).toNat =
        state.pointers[k].val / 256 ^ i % 256 := by
    intro k bound
    rw [offset, readDigit_eq outside state.pointers bound inside, toNat_byteAt, little]
    rfl
  refine ⟨_, run, ?_, ?_, ?_, ?_, ?_⟩
  · exact placed.perm.trans after.perm
  · refine placed.pairwise ?_
    intro a b first second order
    rw [digit a first, digit b second] at order
    refine mod_pow_succ_le (order.imp_right ?_)
    rintro ⟨equal, less⟩
    exact ⟨equal, List.pairwise_iff_getElem.mp after.sorted a b first second less⟩
  · exact placed.length.symm
  · rw [after.exchanged]
    rcases Nat.mod_two_eq_zero_or_one i with even | odd
    · have next : (i + 1) % 2 = 1 := by omega
      simp [even, next]
    · have next : (i + 1) % 2 = 0 := by omega
      simp [odd, next]
  · intro read member
    simp only [List.mem_append, List.mem_map, offset] at member
    rcases member with (before | ⟨k, _, rfl⟩) | ⟨k, _, rfl⟩
    · exact after.reads read before
    · exact inside
    · exact inside

theorem sortPasses_afterPasses (little : host.bigEndian = false) (outside : UInt8)
    {pointers work : List (Pointer host)} (small : pointers.length < 2 ^ 32)
    (room : work.length = pointers.length) {i : Nat} (inside : i ≤ host.sizeofPointer) :
    ∃ state, sortPasses outside ⟨pointers, work, false, []⟩ i = some state ∧
      AfterPasses pointers i state := by
  induction i with
  | zero =>
    refine ⟨_, rfl, List.Perm.refl _, ?_, room, rfl, ?_⟩
    · simp [List.pairwise_iff_getElem, Nat.mod_one]
    · simp
  | succ i ih =>
    obtain ⟨state, run, after⟩ := ih (by omega)
    obtain ⟨next, pass, afterNext⟩ := sortPass_afterPasses little outside small inside after
    exact ⟨next, by rw [sortPasses, run, Option.bind_some, pass], afterNext⟩

/-- `sort_pointers` sorts the caller's array, and each byte it reads is one of the pointer
being sorted. -/
def Sorts (outside : UInt8) (pointers work : List (Pointer host)) : Prop :=
  ∃ result, sortPointers outside pointers work = some result ∧
    result.pointers.Perm pointers ∧ result.pointers.Pairwise (· ≤ ·) ∧
    ∀ read ∈ result.reads, read.2 < host.sizeofPointer

theorem sorts_of_littleEndian (little : host.bigEndian = false)
    (even : host.sizeofPointer % 2 = 0) (outside : UInt8) {pointers work : List (Pointer host)}
    (small : pointers.length < 2 ^ 32) (room : work.length = pointers.length) :
    Sorts outside pointers work := by
  obtain ⟨state, run, after⟩ := sortPasses_afterPasses little outside small room
    (le_refl host.sizeofPointer)
  have home : state.exchanged = false := by
    rw [after.exchanged, even]
    rfl
  refine ⟨⟨state.pointers, state.reads⟩, ?_, after.perm, ?_, after.reads⟩
  · rw [sortPointers, if_neg (by simp [even]), run, Option.map_some, home]
    rfl
  · refine after.sorted.imp ?_
    intro a b order
    rw [Nat.mod_eq_of_lt a.isLt, Nat.mod_eq_of_lt b.isLt] at order
    exact order

theorem reads_sortPass {outside : UInt8} {i : Nat} {state next : State host}
    (pass : sortPass outside i state = some next) {read : Nat × Nat}
    (before : read ∈ state.reads) : read ∈ next.reads := by
  simp only [sortPass, Option.map_eq_some_iff] at pass
  obtain ⟨work, _, rfl⟩ := pass
  simp [before]

theorem sortPasses_bigEndian (big : host.bigEndian = true) {outside : UInt8}
    {pointers work : List (Pointer host)} (nonempty : 0 < pointers.length) {i : Nat}
    {state : State host}
    (run : sortPasses outside ⟨pointers, work, false, []⟩ (i + 1) = some state) :
    (0, host.sizeofPointer) ∈ state.reads := by
  induction i generalizing state with
  | zero =>
    simp only [sortPasses, Option.bind_some, sortPass, Option.map_eq_some_iff] at run
    obtain ⟨_, _, rfl⟩ := run
    simp [digitOffset_eq, big, nonempty]
  | succ i ih =>
    rw [sortPasses, Option.bind_eq_some_iff] at run
    obtain ⟨before, run, pass⟩ := run
    exact reads_sortPass pass (ih run)

theorem not_sorts_of_bigEndian (big : host.bigEndian = true) {outside : UInt8}
    {pointers work : List (Pointer host)} (nonempty : 0 < pointers.length) :
    ¬ Sorts outside pointers work := by
  rintro ⟨result, run, _, _, reads⟩
  have passes := Nat.sub_add_cancel host.positive
  rw [sortPointers] at run
  split at run
  · exact absurd run (by simp)
  · rw [Option.map_eq_some_iff, ← passes] at run
    obtain ⟨state, run, rfl⟩ := run
    exact absurd (reads _ (sortPasses_bigEndian big nonempty run)) (lt_irrefl _)

theorem sorts_nil (even : host.sizeofPointer % 2 = 0) (outside : UInt8) :
    Sorts outside ([] : List (Pointer host)) [] := by
  have passes : ∀ i, ∃ exchanged, sortPasses outside (⟨[], [], false, []⟩ : State host) i =
      some ⟨[], [], exchanged, []⟩ := by
    intro i
    induction i with
    | zero => exact ⟨false, rfl⟩
    | succ i ih =>
      obtain ⟨exchanged, run⟩ := ih
      exact ⟨!exchanged, by rw [sortPasses, run]; rfl⟩
  obtain ⟨exchanged, run⟩ := passes host.sizeofPointer
  refine ⟨⟨[], []⟩, ?_, List.Perm.refl _, List.Pairwise.nil, by simp⟩
  rw [sortPointers, if_neg (by simp [even]), run]
  simp

/-- `sort_pointers` does its work on the hosts with the least significant byte first, and
for no pointers. -/
theorem sortPointers_sorts_iff (even : host.sizeofPointer % 2 = 0) (outside : UInt8)
    (pointers work : List (Pointer host)) (small : pointers.length < 2 ^ 32)
    (room : work.length = pointers.length) :
    Sorts outside pointers work ↔ host.bigEndian = false ∨ pointers.length = 0 := by
  constructor
  · intro sorts
    by_contra wrong
    simp only [not_or, Bool.not_eq_false] at wrong
    exact not_sorts_of_bigEndian wrong.1 (Nat.pos_of_ne_zero wrong.2) sorts
  · rintro (little | none)
    · exact sorts_of_littleEndian little even outside small room
    · obtain rfl := List.length_eq_zero_iff.mp none
      obtain rfl := List.length_eq_zero_iff.mp room
      exact sorts_nil even outside

theorem eight_positive : 0 < 8 := by decide

theorem eight_wide : 2 ≤ 8 ∧ 8 ≤ 256 := by decide

def host64 (bigEndian : Bool) : Host := ⟨bigEndian, 8, 8, eight_positive, eight_wide⟩

theorem sortPointers_sorts_host64 :
    Sorts 0 ([2, 1] : List (Pointer (host64 false))) [0, 0] ↔
      (host64 false).bigEndian = false ∨ ([2, 1] : List (Pointer (host64 false))).length = 0 :=
  sortPointers_sorts_iff rfl 0 [2, 1] [0, 0] (by decide) rfl

/-- On a big-endian host the most significant byte is never looked at. -/
theorem sortPointers_bigEndian_wrong :
    (sortPointers 0 ([0x100000000000000, 1] : List (Pointer (host64 true))) [0, 0]).map
        (fun result => result.pointers) = some [0x100000000000000, 1] ∧
      ¬ Sorts 0 ([0x100000000000000, 1] : List (Pointer (host64 true))) [0, 0] := by
  refine ⟨by decide, ?_⟩
  exact not_sorts_of_bigEndian rfl (by decide)

end GccCil.Libiberty.SortPointers
