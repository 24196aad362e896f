import Mathlib.Data.List.Basic
import Mathlib.Data.List.TakeWhile
import Mathlib.Tactic.IntervalCases

/-!
# Codes that can be read from the front of a text

Prefix-free codes, sequences of them that end with a stop symbol, and texts that
are preceded by their length in decimal.
-/

namespace GccCil.Lib

variable {α β : Type}

/-- A code word ends where it ends, whatever follows. -/
def PrefixFree (code : α → List β) : Prop :=
  ∀ ⦃left right : α⦄ ⦃leftRest rightRest : List β⦄,
    code left ++ leftRest = code right ++ rightRest → left = right ∧ leftRest = rightRest

theorem flatMap_code_inj (Allowed : α → Prop) {code : α → List β}
    (nonempty : ∀ value, code value ≠ [])
    (prefixFree : ∀ {left right leftRest rightRest}, Allowed left → Allowed right →
      code left ++ leftRest = code right ++ rightRest → left = right ∧ leftRest = rightRest)
    {left right : List α} (leftAllowed : ∀ value ∈ left, Allowed value)
    (rightAllowed : ∀ value ∈ right, Allowed value)
    (same : left.flatMap code = right.flatMap code) : left = right := by
  induction left generalizing right with
  | nil =>
    cases right with
    | nil => rfl
    | cons value right => exact absurd (List.append_eq_nil_iff.mp same.symm).1 (nonempty value)
  | cons value left ih =>
    cases right with
    | nil => exact absurd (List.append_eq_nil_iff.mp same).1 (nonempty value)
    | cons other right =>
      obtain ⟨sameValue, sameTail⟩ := prefixFree (leftAllowed value List.mem_cons_self)
        (rightAllowed other List.mem_cons_self) same
      rw [sameValue, ih
        (fun value member => leftAllowed value (List.mem_cons_of_mem _ member))
        (fun value member => rightAllowed value (List.mem_cons_of_mem _ member)) sameTail]

theorem append_stop_inj {stop : β} {left right leftRest rightRest : List β}
    (leftAbsent : stop ∉ left) (rightAbsent : stop ∉ right)
    (same : left ++ stop :: leftRest = right ++ stop :: rightRest) :
    left = right ∧ leftRest = rightRest := by
  induction left generalizing right with
  | nil =>
    cases right with
    | nil => exact ⟨rfl, (List.cons.inj same).2⟩
    | cons first right =>
      exact absurd ((List.cons.inj same).1 ▸ List.mem_cons_self) rightAbsent
  | cons first left ih =>
    cases right with
    | nil => exact absurd ((List.cons.inj same).1 ▸ List.mem_cons_self) leftAbsent
    | cons other right =>
      obtain ⟨sameFirst, sameTail⟩ := List.cons.inj same
      obtain ⟨sameList, sameRest⟩ := ih
        (fun membership => leftAbsent (List.mem_cons_of_mem _ membership))
        (fun membership => rightAbsent (List.mem_cons_of_mem _ membership)) sameTail
      exact ⟨by rw [sameFirst, sameList], sameRest⟩

theorem prefixFree_of_stop {digits : α → List β} {stop : β}
    (injective : Function.Injective digits) (absent : ∀ value, stop ∉ digits value) :
    PrefixFree fun value => digits value ++ [stop] := by
  intro left right leftRest rightRest same
  simp only [List.append_assoc, List.singleton_append] at same
  obtain ⟨sameDigits, sameRest⟩ := append_stop_inj (absent left) (absent right) same
  exact ⟨injective sameDigits, sameRest⟩

/-- A sequence of code words that ends with a symbol with which none begins. -/
theorem PrefixFree.flatMap_stop {code : α → List β} (prefixFree : PrefixFree code) {stop : β}
    (begins : ∀ value, ∃ first rest, code value = first :: rest ∧ first ≠ stop)
    {left right : List α} {leftRest rightRest : List β}
    (same : left.flatMap code ++ stop :: leftRest = right.flatMap code ++ stop :: rightRest) :
    left = right ∧ leftRest = rightRest := by
  induction left generalizing right with
  | nil =>
    cases right with
    | nil => exact ⟨rfl, (List.cons.inj same).2⟩
    | cons value right =>
      obtain ⟨first, rest, word, different⟩ := begins value
      rw [List.flatMap_cons, word] at same
      exact absurd (List.cons.inj same).1.symm different
  | cons value left ih =>
    cases right with
    | nil =>
      obtain ⟨first, rest, word, different⟩ := begins value
      rw [List.flatMap_cons, word] at same
      exact absurd (List.cons.inj same).1 different
    | cons other right =>
      simp only [List.flatMap_cons, List.append_assoc] at same
      obtain ⟨sameValue, sameTail⟩ := prefixFree same
      obtain ⟨sameList, sameRest⟩ := ih sameTail
      exact ⟨by rw [sameValue, sameList], sameRest⟩

theorem eq_zero_of_head_toDigits {number : Nat}
    (head : (Nat.toDigits 10 number).head? = some '0') : number = 0 := by
  induction number using Nat.strongRecOn with
  | ind number ih =>
    rw [Nat.toDigits_eq_if (by decide)] at head
    split at head
    case isTrue small =>
      interval_cases number <;> first | rfl | exact absurd head (by decide)
    case isFalse large =>
      rw [List.head?_append_of_ne_nil _ Nat.toDigits_ne_nil] at head
      have := ih (number / 10) (by omega) head
      omega

theorem toDigits_injective {base : Nat} (two : 1 < base) (small : base ≤ 16) :
    Function.Injective (Nat.toDigits base) := by
  have digits : ∀ left < 16, ∀ right < 16,
      Nat.digitChar left = Nat.digitChar right → left = right := by
    decide
  intro left
  induction left using Nat.strong_induction_on with
  | _ left ih =>
    intro right same
    rw [Nat.toDigits_eq_if two (n := left), Nat.toDigits_eq_if two (n := right)] at same
    have leftLength := Nat.length_toDigits_pos (b := base) (n := left / base)
    have rightLength := Nat.length_toDigits_pos (b := base) (n := right / base)
    split at same <;> split at same
    case isTrue.isTrue leftSmall rightSmall =>
      exact digits left (by omega) right (by omega) (List.cons.inj same).1
    case isTrue.isFalse =>
      have lengths := congrArg List.length same
      simp only [List.length_append, List.length_singleton] at lengths
      omega
    case isFalse.isTrue =>
      have lengths := congrArg List.length same
      simp only [List.length_append, List.length_singleton] at lengths
      omega
    case isFalse.isFalse large _ =>
      obtain ⟨front, last⟩ := List.append_inj' same rfl
      have quotients := ih (left / base) (Nat.div_lt_self (by omega) two) front
      have leftDigit := Nat.mod_lt left (show 0 < base by omega)
      have rightDigit := Nat.mod_lt right (show 0 < base by omega)
      have remainders := digits _ (by omega) _ (by omega) (List.cons.inj last).1
      rw [← Nat.div_add_mod left base, quotients, remainders, Nat.div_add_mod]

def NoDigitFirst (text : List Char) : Prop :=
  ∀ first, text.head? = some first → first.isDigit = false

instance decidableNoDigitFirst (text : List Char) : Decidable (NoDigitFirst text) :=
  match text with
  | [] => isTrue fun _ head => by cases head
  | first :: _ => decidable_of_iff (first.isDigit = false) (by simp [NoDigitFirst])

theorem takeWhile_toDigits {number : Nat} {rest : List Char} (noDigit : NoDigitFirst rest) :
    (Nat.toDigits 10 number ++ rest).takeWhile Char.isDigit = Nat.toDigits 10 number := by
  rw [List.takeWhile_append_of_pos fun digit membership =>
    Nat.isDigit_of_mem_toDigits (by decide) (by decide) membership]
  cases rest with
  | nil => simp
  | cons first rest => simp [noDigit first rfl]

theorem lengthPrefixed_inj {left right leftRest rightRest : List Char}
    (leftFirst : NoDigitFirst left) (rightFirst : NoDigitFirst right)
    (same : Nat.toDigits 10 left.length ++ (left ++ leftRest) =
      Nat.toDigits 10 right.length ++ (right ++ rightRest)) :
    left = right ∧ leftRest = rightRest := by
  have sameLength : left.length = right.length := by
    have noDigit : ∀ {text rest : List Char}, NoDigitFirst text → text ≠ [] →
        NoDigitFirst (text ++ rest) := by
      intro text rest noDigitFirst nonempty first head
      rw [List.head?_append_of_ne_nil _ nonempty] at head
      exact noDigitFirst first head
    have empty : ∀ {text rest other : List Char},
        '0' :: rest = Nat.toDigits 10 text.length ++ other → text.length = 0 := by
      intro text rest other equation
      apply eq_zero_of_head_toDigits
      rw [← List.head?_append_of_ne_nil _ Nat.toDigits_ne_nil, ← equation]
      rfl
    by_cases leftEmpty : left = []
    · subst leftEmpty
      exact (empty (by simpa using same)).symm
    · by_cases rightEmpty : right = []
      · subst rightEmpty
        exact empty (by simpa using same.symm)
      · apply @toDigits_injective 10 (by decide) (by decide)
        rw [← takeWhile_toDigits (noDigit leftFirst leftEmpty), same,
          takeWhile_toDigits (noDigit rightFirst rightEmpty)]
  rw [sameLength, List.append_cancel_left_eq] at same
  exact List.append_inj same sameLength

end GccCil.Lib
