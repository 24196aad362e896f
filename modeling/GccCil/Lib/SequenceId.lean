import GccCil.Lib.PrefixCode

/-!
# Back references of mangled names

The back references `S_`, `S0_`, `S1_`, ... of the C++ ABI: the positions of a
table, counted from -1 in base 36.  The loops are those of the compilers that
write them.
-/

namespace GccCil.Lib

def base36 : List Char := "0123456789ABCDEFGHIJKLMNOPQRSTUVWXYZ".toList

def leadingPower (number : Nat) : Nat :=
  if number < 36 then 1 else 36 * leadingPower (number / 36)

def digitsFrom (number power : Nat) : List Char :=
  if _done : power = 0 then []
  else base36.getD (number / power) '0' ::
    digitsFrom (number - number / power * power) (power / 36)
termination_by power
decreasing_by omega

def sequenceDigits : Nat → List Char
  | 0 => []
  | number + 1 => digitsFrom number (leadingPower number)

def backReference (position : Nat) : List Char := 'S' :: (sequenceDigits position ++ ['_'])

theorem leadingPower_spec (number : Nat) :
    ∃ exponent, leadingPower number = 36 ^ exponent ∧ number < 36 ^ (exponent + 1) := by
  induction number using Nat.strongRecOn with
  | ind number ih =>
    rw [leadingPower]
    split
    case isTrue small => exact ⟨0, rfl, by simpa using small⟩
    case isFalse large =>
      obtain ⟨exponent, power, bound⟩ := ih (number / 36) (by omega)
      refine ⟨exponent + 1, by rw [power, pow_succ, Nat.mul_comm], ?_⟩
      rw [pow_succ]
      omega

def readDigits (digits : List Char) : Nat :=
  digits.foldl (fun number digit => number * 36 + base36.idxOf digit) 0

theorem idxOf_base36 {digit : Nat} (bound : digit < 36) :
    base36.idxOf (base36.getD digit '0') = digit := by
  have everyDigit : ∀ digit < 36, base36.idxOf (base36.getD digit '0') = digit := by
    decide
  exact everyDigit digit bound

theorem digitsFrom_spec {number exponent : Nat} (bound : number < 36 ^ (exponent + 1))
    (before : Nat) :
    (digitsFrom number (36 ^ exponent)).foldl
      (fun number digit => number * 36 + base36.idxOf digit) before =
        before * 36 ^ (exponent + 1) + number := by
  induction exponent generalizing number before with
  | zero =>
    have small : number < 36 := by simpa using bound
    rw [digitsFrom, dif_neg (by decide), digitsFrom, dif_pos (by decide)]
    simpa using idxOf_base36 small
  | succ exponent ih =>
    have positive : 0 < 36 ^ (exponent + 1) := Nat.pow_pos (by decide)
    have digitBound : number / 36 ^ (exponent + 1) < 36 :=
      Nat.div_lt_of_lt_mul (by rwa [← pow_succ])
    have rest : number - number / 36 ^ (exponent + 1) * 36 ^ (exponent + 1) =
        number % 36 ^ (exponent + 1) := by
      rw [Nat.mod_eq_sub_div_mul]
    have nextPower : 36 ^ (exponent + 1) / 36 = 36 ^ exponent := by
      rw [pow_succ, Nat.mul_div_cancel _ (by decide)]
    rw [digitsFrom, dif_neg positive.ne', rest, nextPower, List.foldl_cons,
      ih (Nat.mod_lt _ positive), idxOf_base36 digitBound]
    have split := Nat.div_add_mod number (36 ^ (exponent + 1))
    rw [Nat.add_mul, Nat.mul_assoc, Nat.add_assoc, Nat.mul_comm (number / _) _, split,
      Nat.mul_comm 36, ← pow_succ]

theorem readDigits_sequenceDigits (number : Nat) :
    readDigits (sequenceDigits (number + 1)) = number := by
  obtain ⟨exponent, power, bound⟩ := leadingPower_spec number
  rw [readDigits, sequenceDigits, power, digitsFrom_spec bound]
  simp

theorem sequenceDigits_injective : Function.Injective sequenceDigits := by
  have nonempty : ∀ number, sequenceDigits (number + 1) ≠ [] := by
    intro number empty
    obtain ⟨exponent, power, -⟩ := leadingPower_spec number
    rw [sequenceDigits, power, digitsFrom, dif_neg (Nat.pow_pos (by decide)).ne'] at empty
    cases empty
  intro left right same
  cases left with
  | zero =>
    cases right with
    | zero => rfl
    | succ right => exact absurd same.symm (nonempty right)
  | succ left =>
    cases right with
    | zero => exact absurd same (nonempty left)
    | succ right =>
      rw [← readDigits_sequenceDigits left, same, readDigits_sequenceDigits]

theorem stop_not_mem_digitsFrom (number power : Nat) : '_' ∉ digitsFrom number power := by
  induction power using Nat.strongRecOn generalizing number with
  | ind power ih =>
    rw [digitsFrom]
    split
    case isTrue => simp
    case isFalse positive =>
      have digit : ∀ index, '_' ≠ base36.getD index '0' := by
        intro index same
        rw [List.getD_eq_getElem?_getD] at same
        cases entry : base36[index]? with
        | none => simp [entry] at same
        | some found =>
          rw [entry, Option.getD_some] at same
          have member := List.mem_of_getElem? entry
          rw [← same] at member
          revert member
          decide
      rw [List.mem_cons, not_or]
      exact ⟨digit _, ih (power / 36) (by omega) _⟩

theorem backReference_prefixFree : PrefixFree backReference := by
  have absent : ∀ position, '_' ∉ sequenceDigits position := by
    intro position
    cases position with
    | zero => simp [sequenceDigits]
    | succ number => exact stop_not_mem_digitsFrom _ _
  intro left right leftRest rightRest same
  exact prefixFree_of_stop sequenceDigits_injective absent (List.cons.inj same).2

end GccCil.Lib
