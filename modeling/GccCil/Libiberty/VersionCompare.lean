import Mathlib.Data.Prod.Lex
import Mathlib.Data.List.DropRight
import Mathlib.Data.Int.Bitwise
import GccCil.Lib.PrefixComparison

/-!
# Comparison of version strings

`strverscmp` of `strverscmp.c`.  The strings are followed together as far as they agree; the
state tells which kind of part they are in.  What the first different characters mean is
looked up by the state.  A digit run is compared by its length where the table says `LEN`.
The strings are lists of bytes without the NUL that ends them.
-/

namespace GccCil.Libiberty.VersionCompare

open GccCil.Lib

structure CString where
  bytes : List UInt8
  noNul : 0 ∉ bytes
  deriving DecidableEq

def current (s : List UInt8) : UInt8 := s.headD 0

def isDigit (c : UInt8) : Bool := 0x30 ≤ c && c ≤ 0x39

/-- `(c == '0') + (ISDIGIT (c) != 0)`: 2 for a zero, 1 for another digit, 0 for the rest. -/
def symbolOf (c : UInt8) : Nat :=
  (if c = 0x30 then 1 else 0) + (if isDigit c then 1 else 0)

/-- The states, without the symbol of the current character. -/
def S_N : Nat := 0x0
def S_I : Nat := 0x4
def S_F : Nat := 0x8
def S_Z : Nat := 0xC

def CMP : Int := 2
def LEN : Int := 3

def nextState : List Nat :=
  [ -- x   d    0    -
   S_N, S_I, S_Z, S_N,
   S_N, S_I, S_I, S_I,
   S_N, S_F, S_F, S_F,
   S_N, S_F, S_Z, S_Z]

def resultType : List Int :=
  [ -- x/x x/d  x/0  x/-  d/x  d/d  d/0  d/-
   CMP, CMP, CMP, CMP, CMP, LEN, CMP, CMP,
   -- 0/x 0/d  0/0  0/-  -/x  -/d  -/0  -/-
   CMP, CMP, CMP, CMP, CMP, CMP, CMP, CMP,
   CMP, -1, -1, CMP, 1, LEN, LEN, CMP,
   1, LEN, LEN, CMP, CMP, CMP, CMP, CMP,
   CMP, CMP, CMP, CMP, CMP, LEN, CMP, CMP,
   CMP, CMP, CMP, CMP, CMP, CMP, CMP, CMP,
   CMP, 1, 1, CMP, -1, CMP, CMP, CMP,
   -1, CMP, CMP, CMP]

/-- The loops of `LEN`: the longer run of digits is greater, else `diff` decides. -/
def lenCompare (diff : Int) : List UInt8 → List UInt8 → Int
  | [], p2 => if isDigit (current p2) then -1 else diff
  | c :: p1, p2 =>
    if isDigit c then
      if isDigit (current p2) then lenCompare diff p1 p2.tail else 1
    else if isDigit (current p2) then -1 else diff

/-- What comes after the loop: the pointers are at the characters `c1` and `c2`. -/
def compareDifferent (state : Nat) (p1 p2 : List UInt8) : Int :=
  let diff : Int := (current p1).toNat - (current p2).toNat
  let result := resultType.getD (state <<< 2 ||| symbolOf (current p2)) CMP
  if result = CMP then diff
  else if result = LEN then lenCompare diff p1.tail p2.tail
  else result

def compareLoop (state : Nat) : List UInt8 → List UInt8 → Int
  | c1 :: p1, c2 :: p2 =>
    if c1 = c2 then
      compareLoop (nextState.getD state S_N ||| symbolOf (current p1)) p1 p2
    else compareDifferent state (c1 :: p1) (c2 :: p2)
  | p1, p2 => compareDifferent state p1 p2

def strverscmp (s1 s2 : CString) : Int :=
  compareLoop (S_N ||| symbolOf (current s1.bytes)) s1.bytes s2.bytes

inductive Mode
  | normal
  | integral
  | fractional
  | leadingZeros
  deriving DecidableEq, Repr

def Mode.code : Mode → Nat
  | .normal => S_N
  | .integral => S_I
  | .fractional => S_F
  | .leadingZeros => S_Z

def Mode.step (mode : Mode) (c : UInt8) : Mode :=
  if isDigit c then
    match mode with
    | .normal => if c = 0x30 then .leadingZeros else .integral
    | .integral => .integral
    | .fractional => .fractional
    | .leadingZeros => if c = 0x30 then .leadingZeros else .fractional
  else .normal

def digitRun (s : List UInt8) : Nat := (s.takeWhile isDigit).length

def kind (mode : Mode) (c : UInt8) : Nat :=
  match mode with
  | .normal | .fractional => if c ≤ 0x30 then 0 else if isDigit c then 1 else 2
  | .integral => if isDigit c then 1 else 0
  | .leadingZeros => if isDigit c then 0 else 1

/-- The table says `LEN` for two different characters of this kind. -/
def measured (mode : Mode) (c : UInt8) : Bool :=
  match mode with
  | .normal | .fractional => isDigit c && c != 0x30
  | .integral => isDigit c
  | .leadingZeros => false

/-- What decides in a state between strings that start differently: the kind of the
character, the length of a digit run, the character. -/
def rank (mode : Mode) (s : List UInt8) : ℕ ×ₗ ℕ ×ₗ ℕ :=
  toLex (kind mode (current s),
    toLex (if measured mode (current s) then digitRun s else 0, (current s).toNat))

theorem rank_lt_iff (mode : Mode) (s1 s2 : List UInt8) :
    rank mode s1 < rank mode s2 ↔
      kind mode (current s1) < kind mode (current s2) ∨
      kind mode (current s1) = kind mode (current s2) ∧
        ((if measured mode (current s1) then digitRun s1 else 0) <
            (if measured mode (current s2) then digitRun s2 else 0) ∨
          (if measured mode (current s1) then digitRun s1 else 0) =
              (if measured mode (current s2) then digitRun s2 else 0) ∧
            (current s1).toNat < (current s2).toNat) := by
  simp only [rank, Prod.Lex.toLex_lt_toLex]

theorem symbolOf_cases (c : UInt8) :
    (symbolOf c = 0 ∧ isDigit c = false ∧ (c.toNat < 48 ∨ 57 < c.toNat)) ∨
    (symbolOf c = 1 ∧ isDigit c = true ∧ 48 < c.toNat ∧ c.toNat ≤ 57) ∨
    (symbolOf c = 2 ∧ isDigit c = true ∧ c.toNat = 48) := by
  by_cases zero : c = 0x30
  · subst zero
    exact Or.inr (Or.inr (by decide))
  · have apart : c.toNat ≠ 48 := fun same => zero (UInt8.toNat_inj.mp same)
    by_cases digit : isDigit c
    · have bounds : 48 ≤ c.toNat ∧ c.toNat ≤ 57 := by
        simpa [isDigit, UInt8.le_iff_toNat_le] using digit
      refine Or.inr (Or.inl ⟨by simp [symbolOf, zero, digit], digit, ?_, bounds.2⟩)
      exact lt_of_le_of_ne bounds.1 apart.symm
    · have bounds : 48 ≤ c.toNat → 57 < c.toNat := by
        simpa [isDigit, UInt8.le_iff_toNat_le] using digit
      refine Or.inl ⟨by simp [symbolOf, zero, digit], by simpa using digit, ?_⟩
      exact (Nat.lt_or_ge c.toNat 48).imp_right bounds

theorem nextState_code (mode : Mode) (c : UInt8) :
    nextState.getD (mode.code ||| symbolOf c) S_N = (mode.step c).code := by
  rcases symbolOf_cases c with ⟨symbol, digit, _⟩ | ⟨symbol, digit, _⟩ | ⟨symbol, digit, zero⟩
  · rw [symbol]
    simp only [Mode.step, digit, Bool.false_eq_true, if_false]
    cases mode <;> rfl
  · have apart : c ≠ 0x30 := by
      rintro rfl
      exact absurd symbol (by decide)
    rw [symbol]
    simp only [Mode.step, digit, apart, if_true, if_false]
    cases mode <;> rfl
  · obtain rfl : c = 0x30 := UInt8.toNat_inj.mp zero
    cases mode <;> rfl

@[simp] theorem digitRun_nil : digitRun [] = 0 := rfl

theorem digitRun_cons (c : UInt8) (s : List UInt8) :
    digitRun (c :: s) = if isDigit c then digitRun s + 1 else 0 := by
  cases digit : isDigit c <;> simp [digitRun, digit]

theorem isDigit_current (s : List UInt8) : isDigit (current s) = true ↔ 0 < digitRun s := by
  cases s with
  | nil => decide
  | cons c s =>
    rw [digitRun_cons]
    cases digit : isDigit c <;> simp [current, digit]

theorem digitRun_tail (s : List UInt8) : digitRun s.tail = digitRun s - 1 ∨ digitRun s = 0 := by
  cases s with
  | nil => exact Or.inr rfl
  | cons c s =>
    rw [digitRun_cons, List.tail_cons]
    cases isDigit c
    · exact Or.inr rfl
    · exact Or.inl rfl

theorem lenCompare_eq (diff : Int) (p1 p2 : List UInt8) :
    lenCompare diff p1 p2 =
      if digitRun p1 < digitRun p2 then -1
      else if digitRun p2 < digitRun p1 then 1 else diff := by
  induction p1 generalizing p2 with
  | nil => simp only [lenCompare, isDigit_current, digitRun_nil, Nat.not_lt_zero, if_false]
  | cons c p1 ih =>
    have second := isDigit_current p2
    rw [lenCompare, digitRun_cons]
    cases digit : isDigit c with
    | false => simp only [second, Bool.false_eq_true, Nat.not_lt_zero, if_false]
    | true =>
      simp only [second, if_true]
      by_cases more : 0 < digitRun p2
      · rw [if_pos more, ih]
        have shorter := (digitRun_tail p2).resolve_right (by omega)
        rw [shorter]
        split_ifs <;> first | rfl | omega
      · rw [if_neg more, if_neg (by omega), if_pos (by omega)]

theorem lenCompare_tails {s1 s2 : List UInt8} (first : isDigit (current s1))
    (second : isDigit (current s2)) (diff : Int) :
    lenCompare diff s1.tail s2.tail =
      if digitRun s1 < digitRun s2 then -1
      else if digitRun s2 < digitRun s1 then 1 else diff := by
  have firstRun := (isDigit_current s1).mp first
  have secondRun := (isDigit_current s2).mp second
  rw [lenCompare_eq, (digitRun_tail s1).resolve_right (by omega),
    (digitRun_tail s2).resolve_right (by omega)]
  split_ifs <;> first | rfl | omega

theorem compareDifferent_iff (mode : Mode) {s1 s2 : List UInt8}
    (differ : current s1 ≠ current s2) :
    (compareDifferent (mode.code ||| symbolOf (current s1)) s1 s2 < 0 ↔
      rank mode s1 < rank mode s2) ∧
    (0 < compareDifferent (mode.code ||| symbolOf (current s1)) s1 s2 ↔
      rank mode s2 < rank mode s1) := by
  have apart : (current s1).toNat ≠ (current s2).toNat :=
    fun same => differ (UInt8.toNat_inj.mp same)
  have small : ∀ c : UInt8, c ≤ 0x30 ↔ c.toNat ≤ 48 := fun c => UInt8.le_iff_toNat_le
  have zero : ∀ c : UInt8, c = 0x30 ↔ c.toNat = 48 := fun c => UInt8.toNat_inj.symm
  rw [rank_lt_iff, rank_lt_iff]
  rcases symbolOf_cases (current s1) with
    ⟨symbol1, digit1, bounds1⟩ | ⟨symbol1, digit1, bounds1⟩ | ⟨symbol1, digit1, bounds1⟩ <;>
  rcases symbolOf_cases (current s2) with
    ⟨symbol2, digit2, bounds2⟩ | ⟨symbol2, digit2, bounds2⟩ | ⟨symbol2, digit2, bounds2⟩ <;>
  cases mode <;>
  simp [compareDifferent, symbol1, symbol2, digit1, digit2, kind, measured, small, zero,
    Mode.code, S_N, S_I, S_F, S_Z, resultType, CMP, LEN, lenCompare_tails] <;>
  grind

end GccCil.Libiberty.VersionCompare
