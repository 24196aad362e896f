import GccCil.Gcc.BitmapIteration
import GccCil.Gcc.BitmapRuns

/-!
# What the iterators visit

The iterators stand at an element from which on no bit is missed.  The one over
two bitmaps meets each index that both have.
-/

namespace GccCil.Gcc.Bitmap

open Lib

variable {β : Type} {wordBits : Nat} {s : Store β wordBits}

/-- The first elements are before the bound, and the next one is not. -/
structure Split (s : Store β wordBits) (bound : Nat) (l passed rest : List Nat) : Prop where
  isList : l = passed ++ rest
  before : ∀ z ∈ passed, s.indx z < bound
  reached : ∀ z ∈ rest.head?, bound ≤ s.indx z

theorem Split.cons {bound x : Nat} {l passed rest : List Nat} (less : s.indx x < bound)
    (split : Split s bound l passed rest) : Split s bound (x :: l) (x :: passed) rest :=
  ⟨by rw [split.isList, List.cons_append], List.forall_mem_cons.mpr ⟨less, split.before⟩,
    split.reached⟩

theorem Split.of_reached {bound x : Nat} {l : List Nat} (reached : bound ≤ s.indx x) :
    Split s bound (x :: l) [] (x :: l) :=
  ⟨rfl, fun _ member => absurd member List.not_mem_nil, fun _ member =>
    Option.some.inj member ▸ reached⟩

theorem Split.nil {bound : Nat} : Split s bound [] [] [] :=
  ⟨rfl, fun _ member => absurd member List.not_mem_nil, fun _ member => absurd member (by simp)⟩

theorem seek_spec {bound fuel : Nat} {l : List Nat} (linked : Chain s.next l)
    (enough : l.length ≤ fuel) :
    ∃ passed rest, s.seek bound fuel l.head? = some rest.head? ∧ Split s bound l passed rest := by
  induction l generalizing fuel with
  | nil => exact ⟨[], [], by cases fuel <;> rfl, Split.nil⟩
  | cons x l ih =>
    obtain ⟨fuel, rfl⟩ := Nat.exists_eq_add_of_le' (Nat.one_le_of_lt enough)
    by_cases reached : s.indx x ≥ bound
    · refine ⟨[], x :: l, ?_, Split.of_reached reached⟩
      rw [List.head?_cons, Store.seek, if_pos reached]
    · obtain ⟨passed, rest, found, split⟩ :=
        @ih fuel linked.2 (by simpa using enough)
      refine ⟨x :: passed, rest, ?_, split.cons (not_le.mp reached)⟩
      rw [List.head?_cons, Store.seek, if_neg reached, linked.1, found]

theorem advancePast_spec {bound fuel x : Nat} {l : List Nat} (linked : Chain s.next (x :: l))
    (enough : l.length < fuel) :
    ∃ passed rest, s.advancePast bound fuel (.element x) =
      some (rest.head?.map Pointer.element) ∧ Split s bound l passed rest := by
  induction l generalizing fuel x with
  | nil =>
    obtain ⟨fuel, rfl⟩ := Nat.exists_eq_add_of_le' (Nat.one_le_of_lt enough)
    refine ⟨[], [], ?_, Split.nil⟩
    rw [Store.advancePast, Store.nextOf, linked.1]
    rfl
  | cons y l ih =>
    obtain ⟨fuel, rfl⟩ := Nat.exists_eq_add_of_le' (Nat.one_le_of_lt enough)
    have isNext : s.nextOf (.element x) = some (.element y) := by
      rw [Store.nextOf, linked.1]
      rfl
    rw [Store.advancePast, isNext]
    by_cases less : s.indx y < bound
    · obtain ⟨passed, rest, found, split⟩ :=
        @ih fuel y linked.2 (by simpa using enough)
      exact ⟨y :: passed, rest, (if_pos less).trans found, split.cons less⟩
    · exact ⟨[], y :: l, if_neg less, Split.of_reached (not_lt.mp less)⟩

theorem advanceTo_spec {bound fuel y : Nat} {m : List Nat} (linked : Chain s.next (y :: m))
    (enough : m.length < fuel) :
    ∃ passed rest, s.advanceTo bound fuel (.element y) =
      some (rest.head?.map Pointer.element) ∧ Split s bound (y :: m) passed rest := by
  by_cases less : s.indx y < bound
  · obtain ⟨passed, rest, found, split⟩ := @advancePast_spec _ _ _ bound _ _ _ linked enough
    exact ⟨y :: passed, rest, (if_pos less).trans found, split.cons less⟩
  · exact ⟨[], y :: m, if_neg less, Split.of_reached (not_lt.mp less)⟩

theorem has_contents {l : List Nat} {k : Nat} : has (contents s l) k = true ↔
    ∃ z ∈ l, k / elementAllBits wordBits = s.indx z ∧ (s.bits z).test k = true := by
  rw [has_iff]
  constructor
  · rintro ⟨bits, member, isSet⟩
    obtain ⟨z, isMember, isBlock⟩ := List.mem_map.mp member
    rw [Prod.mk.injEq] at isBlock
    obtain ⟨isIndx, rfl⟩ := isBlock
    exact ⟨z, isMember, isIndx.symm, isSet⟩
  · rintro ⟨z, member, isIndx, isSet⟩
    exact ⟨s.bits z, List.mem_map.mpr ⟨z, member, by rw [isIndx]⟩, isSet⟩

theorem Split.has_iff {bound : Nat} {l passed rest : List Nat} (split : Split s bound l passed rest)
    {k : Nat} (after : bound ≤ k / elementAllBits wordBits) :
    has (contents s l) k = true ↔ has (contents s rest) k = true := by
  rw [split.isList, has_contents, has_contents]
  constructor
  · rintro ⟨z, member, isIndx, isSet⟩
    obtain member | member := List.mem_append.mp member
    · have less := split.before z member
      omega
    · exact ⟨z, member, isIndx, isSet⟩
  · rintro ⟨z, member, isIndx, isSet⟩
    exact ⟨z, List.mem_append_right _ member, isIndx, isSet⟩

theorem Split.increasing {bound : Nat} {l passed rest : List Nat}
    (split : Split s bound l passed rest) (increasing : Increasing (contents s l)) :
    Increasing (contents s rest) := by
  rw [split.isList, contents_append] at increasing
  exact (List.pairwise_append.mp increasing).2.1

theorem Split.linked {bound : Nat} {l passed rest : List Nat}
    (split : Split s bound l passed rest) (linked : Chain s.next l) : Chain s.next rest := by
  rw [split.isList] at linked
  exact linked.suffix

theorem Split.subset {bound : Nat} {l passed rest : List Nat}
    (split : Split s bound l passed rest) : rest ⊆ l := by
  rw [split.isList]
  exact List.subset_append_right _ _

theorem Split.length_le {bound : Nat} {l passed rest : List Nat}
    (split : Split s bound l passed rest) : rest.length ≤ l.length := by
  rw [split.isList, List.length_append]
  exact Nat.le_add_left _ _

theorem indx_lt_of_has {x : Nat} {l : List Nat} (increasing : Increasing (contents s (x :: l)))
    {k : Nat} (member : has (contents s l) k = true) :
    s.indx x < k / elementAllBits wordBits := by
  obtain ⟨z, isMember, isIndx, -⟩ := has_contents.mp member
  rw [isIndx]
  exact (List.pairwise_cons.mp increasing).1 _ (List.mem_map.mpr ⟨z, isMember, rfl⟩)

theorem has_contents_cons {x : Nat} {l : List Nat} {k : Nat} :
    has (contents s (x :: l)) k = true ↔
      (k / elementAllBits wordBits = s.indx x ∧ (s.bits x).test k = true) ∨
        has (contents s l) k = true := by
  rw [contents_cons, has_cons]

theorem indx_le_of_has {x : Nat} {l : List Nat} (increasing : Increasing (contents s (x :: l)))
    {k : Nat} (member : has (contents s (x :: l)) k = true) :
    s.indx x ≤ k / elementAllBits wordBits := by
  obtain ⟨isIndx, -⟩ | later := has_contents_cons.mp member
  · exact isIndx.ge
  · exact Nat.le_of_lt (indx_lt_of_has increasing later)

theorem setCursor_follows {x : Nat} {l : List Nat} (linked : Chain s.next (x :: l)) :
    Follows s.setCursor (.element x) (contents s l) := by
  induction l generalizing x with
  | nil =>
    refine .last ?_
    change some (s.nextOf (.element x)) = some none
    rw [Store.nextOf, linked.1]
    rfl
  | cons y l ih =>
    have advances : s.setCursor.advance (.element x) = some (some (.element y)) := by
      change some (s.nextOf (.element x)) = _
      rw [Store.nextOf, linked.1]
      rfl
    exact .next advances rfl rfl (ih linked.2)

def Meets (s : Store β wordBits) (l m : List Nat) : Option (Pointer × Pointer) → Prop
  | none => ∀ k, ¬(has (contents s l) k = true ∧ has (contents s m) k = true)
  | some elts => ∃ x y before l' after m', elts = (.element x, .element y) ∧
      l = before ++ x :: l' ∧ m = after ++ y :: m' ∧ s.indx x = s.indx y ∧
      ∀ k, (has (contents s l) k = true ∧ has (contents s m) k = true) ↔
        (k / elementAllBits wordBits = s.indx x ∧
          (s.bits x).test k = true ∧ (s.bits y).test k = true) ∨
        (has (contents s l') k = true ∧ has (contents s (y :: m')) k = true)

theorem has_both {x y : Nat} {l m : List Nat}
    (mIncreasing : Increasing (contents s (y :: m))) (same : s.indx x = s.indx y) (k : Nat) :
    (has (contents s (x :: l)) k = true ∧ has (contents s (y :: m)) k = true) ↔
      (k / elementAllBits wordBits = s.indx x ∧
        (s.bits x).test k = true ∧ (s.bits y).test k = true) ∨
      (has (contents s l) k = true ∧ has (contents s (y :: m)) k = true) := by
  constructor
  · rintro ⟨inL, inM⟩
    obtain ⟨isIndx, isSet⟩ | later := has_contents_cons.mp inL
    · obtain ⟨-, isSetM⟩ | laterM := has_contents_cons.mp inM
      · exact .inl ⟨isIndx, isSet, isSetM⟩
      · have beyond := indx_lt_of_has mIncreasing laterM
        omega
    · exact .inr ⟨later, inM⟩
  · rintro (⟨isIndx, isSet, isSetM⟩ | ⟨later, inM⟩)
    · exact ⟨has_contents_cons.mpr (.inl ⟨isIndx, isSet⟩),
        has_contents_cons.mpr (.inl ⟨isIndx.trans same, isSetM⟩)⟩
    · exact ⟨has_contents_cons.mpr (.inr later), inM⟩

theorem advanceBoth_meets {fuel x y : Nat} {l m : List Nat} (lLinked : Chain s.next (x :: l))
    (mLinked : Chain s.next (y :: m)) (lIncreasing : Increasing (contents s l))
    (mIncreasing : Increasing (contents s (y :: m))) (lShort : l.length ≤ s.used)
    (mShort : m.length ≤ s.used) (enough : l.length < fuel) :
    ∃ result, s.advanceBoth fuel (.element x, .element y) = some result ∧
      Meets s l (y :: m) result := by
  induction fuel generalizing x y l m with
  | zero => omega
  | succ fuel ih =>
    obtain ⟨passed, rest, isFirst, split⟩ :=
      @advancePast_spec _ _ s (s.indx y) (s.used + 1) _ _ lLinked (by omega)
    rw [Store.advanceBoth]
    change ∃ result, (s.advancePast (s.indx y) _ _).bind _ = some result ∧ _
    rw [isFirst, Option.bind_some]
    -- Bits of both lists are from the index of the second element on.
    have narrow : ∀ k, (has (contents s l) k = true ∧ has (contents s (y :: m)) k = true) ↔
        (has (contents s rest) k = true ∧ has (contents s (y :: m)) k = true) := by
      intro k
      exact and_congr_left fun inM => split.has_iff (indx_le_of_has mIncreasing inM)
    cases rest with
    | nil => exact ⟨none, rfl, fun k => by rw [narrow]; simp [has]⟩
    | cons x' l' =>
      have restIncreasing := split.increasing lIncreasing
      obtain ⟨passedM, restM, isSecond, splitM⟩ :=
        @advanceTo_spec _ _ s (s.indx x') (s.used + 1) _ _ mLinked (by omega)
      have narrowM : ∀ k,
          (has (contents s l) k = true ∧ has (contents s (y :: m)) k = true) ↔
          (has (contents s (x' :: l')) k = true ∧ has (contents s restM) k = true) := by
        intro k
        rw [narrow]
        exact and_congr_right fun inL => splitM.has_iff (indx_le_of_has restIncreasing inL)
      change ∃ result, (s.advanceTo (s.indx x') _ _).bind _ = some result ∧ _
      rw [isSecond, Option.bind_some]
      cases restM with
      | nil => exact ⟨none, rfl, fun k => by rw [narrowM]; simp [has]⟩
      | cons y' m' =>
        have restMIncreasing := splitM.increasing mIncreasing
        have reached : s.indx x' ≤ s.indx y' := splitM.reached y' rfl
        by_cases same : s.indx x' = s.indx y'
        · refine ⟨some (.element x', .element y'), if_neg (not_not.mpr same), x', y', passed,
            l', passedM, m', rfl, split.isList, splitM.isList, same, fun k => ?_⟩
          rw [narrowM, has_both restMIncreasing same]
        · have lengths := split.length_le
          have lengthsM := splitM.length_le
          rw [List.length_cons] at lengths lengthsM
          rw [List.length_cons] at lengthsM
          obtain ⟨result, isResult, meets⟩ := @ih x' y' l' m'
            (split.linked lLinked.2) (splitM.linked mLinked)
            (List.pairwise_cons.mp restIncreasing).2 restMIncreasing (by omega) (by omega)
            (by omega)
          have skip : ∀ k,
              (has (contents s l) k = true ∧ has (contents s (y :: m)) k = true) ↔
              (has (contents s l') k = true ∧ has (contents s (y' :: m')) k = true) := by
            intro k
            rw [narrowM, has_contents_cons]
            refine and_congr_left fun inM => or_iff_right ?_
            rintro ⟨isIndx, -⟩
            have after := indx_le_of_has restMIncreasing inM
            omega
          refine ⟨result, (if_pos same).trans isResult, ?_⟩
          cases result with
          | none => exact fun k => by rw [skip]; exact meets k
          | some elts =>
            obtain ⟨x₁, y₁, before, l₁, after, m₁, isElts, isL, isM, sameIndx, bits⟩ := meets
            refine ⟨x₁, y₁, passed ++ x' :: before, l₁, passedM ++ after, m₁, isElts, ?_, ?_,
              sameIndx, fun k => by rw [skip, bits]⟩
            · rw [split.isList, isL, List.append_assoc, List.cons_append]
            · rw [splitM.isList, isM, List.append_assoc]

def andBits (s : Store β wordBits) (x y : Nat) : Bits wordBits := fun ix => s.bits x ix &&& s.bits y ix

theorem word_andBits (x y wordNo : Nat) :
    (andBits s x y).word wordNo = (s.bits x).word wordNo &&& (s.bits y).word wordNo := by
  unfold Bits.word andBits
  split
  · rfl
  · exact (BitVec.and_self).symm

theorem test_andBits (wide : 0 < wordBits) (x y k : Nat) : (andBits s x y).test k = true ↔
    (s.bits x).test k = true ∧ (s.bits y).test k = true := by
  rw [test_eq wide, test_eq wide, test_eq wide, andBits, BitVec.getLsbD_and, Bool.and_eq_true]

structure Common (s : Store β wordBits) (l m : List Nat) (blocks : List (Nat × Bits wordBits)) :
    Prop where
  bits : ∀ k, has blocks k = true ↔ has (contents s l) k = true ∧ has (contents s m) k = true
  keys : ∀ block ∈ blocks, ∃ z ∈ l, s.indx z = block.1
  increasing : Increasing blocks
  few : blocks.length ≤ l.length

theorem andCursor_follows (wide : 0 < wordBits) {x y : Nat} {l m : List Nat}
    (lLinked : Chain s.next (x :: l)) (mLinked : Chain s.next (y :: m))
    (lIncreasing : Increasing (contents s l)) (mIncreasing : Increasing (contents s (y :: m)))
    (lShort : l.length ≤ s.used) (mShort : m.length ≤ s.used) :
    ∃ blocks, Follows s.andCursor (.element x, .element y) blocks ∧
      Common s l (y :: m) blocks := by
  induction count : l.length using Nat.strong_induction_on generalizing x y l m with
  | _ count ih =>
    obtain ⟨result, advances, meets⟩ := @advanceBoth_meets _ _ s (s.used + 1) _ _ _ _ lLinked
      mLinked lIncreasing mIncreasing lShort mShort (by omega)
    cases result with
    | none =>
      refine ⟨[], .last advances, fun k => ?_, fun _ member => absurd member List.not_mem_nil,
        .nil, Nat.zero_le _⟩
      exact iff_of_false (by simp [has]) (meets k)
    | some elts =>
      obtain ⟨x', y', before, l', after, m', rfl, isL, isM, same, bits⟩ := meets
      have lRest := lIncreasing
      have mRest := mIncreasing
      rw [isL, contents_append] at lRest
      rw [isM, contents_append] at mRest
      have lSuffix := lLinked.2
      have mSuffix := mLinked
      rw [isL] at lSuffix
      rw [isM] at mSuffix
      have lengthL := congrArg List.length isL
      have lengthM := congrArg List.length isM
      rw [List.length_append, List.length_cons] at lengthL
      rw [List.length_append, List.length_cons, List.length_cons] at lengthM
      have lCons := (List.pairwise_append.mp lRest).2.1
      obtain ⟨blocks, follows, common⟩ := ih l'.length (by omega)
        lSuffix.suffix mSuffix.suffix (List.pairwise_cons.mp lCons).2
        (List.pairwise_append.mp mRest).2.1 (by omega) (by omega) rfl
      have isWord : s.andCursor.word (.element x', .element y') = (andBits s x' y').word :=
        funext fun wordNo => (word_andBits x' y' wordNo).symm
      refine ⟨(s.indx x', andBits s x' y') :: blocks, .next advances rfl isWord follows,
        fun k => ?_, ?_, ?_, ?_⟩
      · rw [has_cons, bits, common.bits, test_andBits wide]
      · intro block member
        obtain rfl | member := List.mem_cons.mp member
        · exact ⟨x', by rw [isL]; simp, rfl⟩
        · obtain ⟨z, isMember, isIndx⟩ := common.keys block member
          exact ⟨z, by rw [isL]; simp [isMember], isIndx⟩
      · refine List.pairwise_cons.mpr ⟨fun block member => ?_, common.increasing⟩
        obtain ⟨z, isMember, isIndx⟩ := common.keys block member
        rw [← isIndx]
        exact (List.pairwise_cons.mp lCons).1 _ (List.mem_map.mpr ⟨z, isMember, rfl⟩)
      · have few := common.few
        rw [List.length_cons]
        omega

theorem place_eq (k : Nat) :
    k = k / elementAllBits wordBits * elementAllBits wordBits +
      wordNum wordBits k * wordBits + k % wordBits := by
  have outer := Nat.div_add_mod (k / wordBits) (elementWords wordBits)
  have inner := Nat.div_add_mod k wordBits
  rw [div_elementAllBits, wordNum, elementAllBits, ← Nat.mul_assoc, ← Nat.add_mul,
    Nat.mul_comm (k / wordBits / _), outer, Nat.mul_comm, inner]

def startOf (wordBits : Nat) (block : Nat × Bits wordBits) (startBit : Nat) : Nat :=
  if block.1 ≠ startBit / elementAllBits wordBits then block.1 * elementAllBits wordBits
  else startBit

theorem begin_pending (wide : 0 < wordBits) {ε : Type} (cursor : Cursor ε wordBits) (elts : ε)
    (block : Nat × Bits wordBits) {blocks : List (Nat × Bits wordBits)} {startBit : Nat}
    (small : startBit < 2 ^ 32) (isIndx : cursor.indx elts = block.1)
    (isWord : cursor.word elts = block.2.word) (follows : Follows cursor elts blocks)
    (increasing : Increasing (block :: blocks))
    (bounded : ∀ other ∈ block :: blocks,
      other.1 * elementAllBits wordBits + elementAllBits wordBits ≤ 2 ^ 32) :
    Pending cursor (cursor.begin elts startBit).1 (cursor.begin elts startBit).2
      (Left wordBits (startOf wordBits block startBit) block blocks)
      (startOf wordBits block startBit) block blocks := by
  have fits := bounded block List.mem_cons_self
  have positive : 0 < elementAllBits wordBits := Nat.mul_pos (elementWords_pos wide) wide
  have isStart : (if cursor.indx elts ≠ startBit / elementAllBits wordBits then
      unsigned (cursor.indx elts * elementAllBits wordBits) else startBit) =
      startOf wordBits block startBit := by
    rw [isIndx, startOf, unsigned_of_lt (by omega)]
  have startSmall : startOf wordBits block startBit < 2 ^ 32 := by
    unfold startOf
    split <;> omega
  have inElement : startOf wordBits block startBit / elementAllBits wordBits = block.1 := by
    unfold startOf
    split
    · exact Nat.mul_div_cancel _ positive
    · rename_i same
      exact (not_not.mp same).symm
  rw [Cursor.begin, isStart, isWord]
  dsimp only
  generalize startOf wordBits block startBit = start at startSmall inElement ⊢
  have place := @place_eq wordBits start
  rw [inElement] at place
  have within : start % wordBits < wordBits := Nat.mod_lt _ wide
  have inside := wordNum_lt wide start
  have shifted : ∀ p, (block.2.word (wordNum wordBits start) >>> (start % wordBits)).getLsbD p =
      true ↔ start + p < block.1 * elementAllBits wordBits + wordNum wordBits start * wordBits +
        wordBits ∧ block.2.test (start + p) = true := by
    intro p
    have isPlace : start + p = block.1 * elementAllBits wordBits +
        wordNum wordBits start * wordBits + (start % wordBits + p) := by omega
    rw [BitVec.getLsbD_ushiftRight, isPlace]
    constructor
    · intro isSet
      have inWord := BitVec.lt_of_getLsbD isSet
      rw [test_place _ inside inWord]
      exact ⟨by omega, isSet⟩
    · rintro ⟨inWord, isSet⟩
      rwa [test_place _ inside (by omega)] at isSet
  refine ⟨⟨follows, fun n _ _ => by rw [isWord], increasing, bounded⟩, inside, ?_, ?_, shifted,
    ?_, ?_, fun k => Iff.rfl⟩
  · change block.1 * elementAllBits wordBits + wordNum wordBits start * wordBits ≤ start
    omega
  · change start ≤
      block.1 * elementAllBits wordBits + wordNum wordBits start * wordBits + wordBits
    omega
  · intro nonzero
    rw [if_neg nonzero, Nat.add_zero, unsigned_of_lt startSmall]
  · intro zero
    rw [if_pos zero]
    by_cases last : wordNum wordBits start + 1 = elementWords wordBits
    · exact .inl last
    · have ends := word_end (show wordNum wordBits start + 1 < elementWords wordBits by omega)
      rw [Nat.succ_mul] at ends
      rw [unsigned_of_lt (by omega)]
      right
      change block.1 * elementAllBits wordBits + wordNum wordBits start * wordBits < start + 1 ∧
        start + 1 ≤ block.1 * elementAllBits wordBits + wordNum wordBits start * wordBits + wordBits
      omega

theorem left_startOf (wide : 0 < wordBits) {block : Nat × Bits wordBits}
    {blocks : List (Nat × Bits wordBits)} {startBit : Nat} (increasing : Increasing (block :: blocks))
    (reached : startBit / elementAllBits wordBits ≤ block.1) (k : Nat) :
    Left wordBits (startOf wordBits block startBit) block blocks k ↔
      startBit ≤ k ∧ ((k / elementAllBits wordBits = block.1 ∧ block.2.test k = true) ∨
        has blocks k = true) := by
  have positive : 0 < elementAllBits wordBits := Nat.mul_pos (elementWords_pos wide) wide
  have later : ∀ {k : Nat}, startBit / elementAllBits wordBits < k / elementAllBits wordBits →
      startBit ≤ k := by
    intro k less
    by_contra before
    exact absurd (Nat.div_le_div_right (Nat.le_of_not_le before)) (Nat.not_le.mpr less)
  constructor
  · rintro (⟨isIndx, isSet, after⟩ | inBlocks)
    · refine ⟨?_, .inl ⟨isIndx, isSet⟩⟩
      by_cases same : block.1 = startBit / elementAllBits wordBits
      · rwa [startOf, if_neg (not_not.mpr same)] at after
      · exact later (by omega)
    · obtain ⟨bits, isBlock, -⟩ := has_iff.mp inBlocks
      have beyond := (List.pairwise_cons.mp increasing).1 _ isBlock
      exact ⟨later (lt_of_le_of_lt reached beyond), .inr inBlocks⟩
  · rintro ⟨after, ⟨isIndx, isSet⟩ | inBlocks⟩
    · refine .inl ⟨isIndx, isSet, ?_⟩
      unfold startOf
      split
      · rw [← isIndx]
        exact Nat.div_mul_le_self _ _
      · exact after
    · exact .inr inBlocks

theorem exists_sorted (p : Nat → Prop) (bound : Nat) (below : ∀ k, p k → k < bound) :
    ∃ l : List Nat, l.Pairwise (· < ·) ∧ ∀ k, k ∈ l ↔ p k := by
  classical
  refine ⟨(List.range bound).filter fun k => decide (p k), ?_, fun k => ?_⟩
  · exact List.Pairwise.filter _ List.pairwise_lt_range
  · rw [List.mem_filter, List.mem_range, decide_eq_true_iff]
    exact and_iff_right_of_imp (below k)

theorem visits_left (wide : 0 < wordBits) {ε : Type} {cursor : Cursor ε wordBits}
    {bi : Iterator ε wordBits} {bitNo cut elements : Nat} {left : Nat → Prop}
    {block : Nat × Bits wordBits} {blocks : List (Nat × Bits wordBits)}
    (pending : Pending cursor bi bitNo left cut block blocks) (few : blocks.length < elements) :
    ∃ visited : List Nat, (∃ bound, ∀ fuel ≥ bound,
        cursor.visits elements fuel bi bitNo = some visited) ∧
      visited.Pairwise (· < ·) ∧ ∀ k, k ∈ visited ↔ left k := by
  have positive : 0 < elementAllBits wordBits := Nat.mul_pos (elementWords_pos wide) wide
  have below : ∀ k, left k → k < 2 ^ 32 := by
    intro k isLeft
    have bounded : ∃ other ∈ block :: blocks, k / elementAllBits wordBits = other.1 := by
      obtain ⟨isIndx, -⟩ | inBlocks := (pending.isLeft k).mp isLeft
      · exact ⟨block, List.mem_cons_self, isIndx⟩
      · obtain ⟨bits, isBlock, -⟩ := has_iff.mp inBlocks
        exact ⟨_, List.mem_cons_of_mem _ isBlock, rfl⟩
    obtain ⟨other, member, isIndx⟩ := bounded
    have fits := pending.stands.bounded other member
    rw [← isIndx, ← Nat.succ_mul] at fits
    exact lt_of_lt_of_le ((Nat.div_lt_iff_lt_mul positive).mp (Nat.lt_succ_self _)) fits
  obtain ⟨visited, increasing, members⟩ := exists_sorted left (2 ^ 32) below
  exact ⟨visited, ⟨visited.length + 1, fun fuel enough =>
    visits_eq wide pending few increasing members enough⟩, increasing, members⟩

/-- The bits of the elements are `unsigned` numbers. -/
def Unsigned (s : Store β wordBits) (l : List Nat) : Prop :=
  ∀ x ∈ l, s.indx x * elementAllBits wordBits + elementAllBits wordBits ≤ 2 ^ 32

theorem Unsigned.contents {l : List Nat} (small : Unsigned s l) :
    ∀ block ∈ contents s l,
      block.1 * elementAllBits wordBits + elementAllBits wordBits ≤ 2 ^ 32 := by
  intro block member
  obtain ⟨x, isMember, rfl⟩ := List.mem_map.mp member
  exact small x isMember

theorem visits_zeroBits (wide : 0 < wordBits) (narrow : elementAllBits wordBits ≤ 2 ^ 32) {ε : Type}
    (cursor : Cursor ε wordBits) (elts : ε) {startBit elements : Nat} (small : startBit < 2 ^ 32)
    (isIndx : cursor.indx elts = 0) (isWord : cursor.word elts = (zeroBits : Bits wordBits).word)
    (last : cursor.advance elts = some none) (some_ : 0 < elements) :
    ∃ bound, ∀ fuel ≥ bound, cursor.visits elements fuel (cursor.begin elts startBit).1
      (cursor.begin elts startBit).2 = some [] := by
  have pending := begin_pending wide cursor elts (0, zeroBits) small isIndx isWord (.last last)
    (List.pairwise_singleton _ _) (by simpa using narrow)
  obtain ⟨visited, runs, -, members⟩ := visits_left wide pending some_
  have isEmpty : visited = [] := by
    rw [List.eq_nil_iff_forall_not_mem]
    intro k member
    obtain ⟨-, isSet, -⟩ | inBlocks := (members k).mp member
    · rw [zeroBits_test] at isSet
      cases isSet
    · simp [has] at inBlocks
  rwa [isEmpty] at runs

variable {lists : β → List Nat} {free : List (List Nat)}

theorem iterateSet_visits (wide : 0 < wordBits) (narrow : elementAllBits wordBits ≤ 2 ^ 32)
    (consistent : Consistent s lists free) (map : β) (small : Unsigned s (lists map))
    {startBit : Nat} (isUnsigned : startBit < 2 ^ 32) :
    ∃ visited : List Nat,
      (∃ bound, ∀ fuel ≥ bound, s.iterateSet map startBit fuel = some visited) ∧
      visited.Pairwise (· < ·) ∧
      ∀ bit, bit ∈ visited ↔ startBit ≤ bit ∧ has (contents s (lists map)) bit = true := by
  have linked := (consistent.linked.segment map).chain
  have short := consistent.linked.length_le map
  have increasing := consistent.increasing map
  obtain ⟨passed, rest, found, split⟩ :=
    @seek_spec _ _ s (startBit / elementAllBits wordBits) (s.used + 1) _ linked (by omega)
  have narrowed : ∀ bit, startBit ≤ bit →
      (has (contents s (lists map)) bit = true ↔ has (contents s rest) bit = true) :=
    fun bit after => split.has_iff (Nat.div_le_div_right after)
  simp only [Store.iterateSet, Store.bmpIterSetInit, consistent.linked.first, found]
  cases rest with
  | nil =>
    obtain ⟨bound, runs⟩ := visits_zeroBits wide narrow s.setCursor .zeroBits
      isUnsigned rfl rfl rfl (Nat.succ_pos s.used)
    refine ⟨[], ⟨bound, runs⟩, List.Pairwise.nil, fun bit => ?_⟩
    refine iff_of_false List.not_mem_nil ?_
    rintro ⟨after, member⟩
    rw [narrowed bit after] at member
    simp [has] at member
  | cons x rest =>
    have restIncreasing := split.increasing increasing
    have restLinked := split.linked linked
    have restShort := split.length_le
    have bounded : Unsigned s (x :: rest) := fun z member => small z (split.subset member)
    have blocksIncreasing : Increasing ((s.indx x, s.bits x) :: contents s rest) :=
      restIncreasing
    have pending := begin_pending wide s.setCursor (.element x) (s.indx x, s.bits x) isUnsigned
      rfl rfl (setCursor_follows restLinked) blocksIncreasing bounded.contents
    have few : (contents s rest).length < s.used + 1 := by
      rw [contents, List.length_map]
      rw [List.length_cons] at restShort
      omega
    obtain ⟨visited, runs, sorted, members⟩ := visits_left wide pending few
    refine ⟨visited, runs, sorted, fun bit => ?_⟩
    rw [members, left_startOf wide blocksIncreasing (split.reached x rfl)]
    refine and_congr_right fun after => ?_
    rw [narrowed bit after, has_contents_cons]

theorem Common.bounded {l m : List Nat} {blocks : List (Nat × Bits wordBits)}
    (common : Common s l m blocks) (small : Unsigned s l) : ∀ block ∈ blocks,
      block.1 * elementAllBits wordBits + elementAllBits wordBits ≤ 2 ^ 32 := by
  intro block member
  obtain ⟨z, isMember, isIndx⟩ := common.keys block member
  rw [← isIndx]
  exact small z isMember

theorem Common.increasing_cons {l m : List Nat} {blocks : List (Nat × Bits wordBits)} {x : Nat}
    (common : Common s l m blocks) (increasing : Increasing (contents s (x :: l)))
    (bits : Bits wordBits) : Increasing ((s.indx x, bits) :: blocks) := by
  refine List.pairwise_cons.mpr ⟨fun block member => ?_, common.increasing⟩
  obtain ⟨z, isMember, isIndx⟩ := common.keys block member
  rw [← isIndx]
  exact (List.pairwise_cons.mp increasing).1 _ (List.mem_map.mpr ⟨z, isMember, rfl⟩)

/-- The loop over two bitmaps visits their common bits from the start bit on, each once
and in increasing order. -/
theorem iterateAnd_visits (wide : 0 < wordBits) (narrow : elementAllBits wordBits ≤ 2 ^ 32)
    (consistent : Consistent s lists free) (map1 map2 : β) (small : Unsigned s (lists map1))
    {startBit : Nat} (isUnsigned : startBit < 2 ^ 32) :
    ∃ visited : List Nat,
      (∃ bound, ∀ fuel ≥ bound, s.iterateAnd map1 map2 startBit fuel = some visited) ∧
      visited.Pairwise (· < ·) ∧
      ∀ bit, bit ∈ visited ↔ startBit ≤ bit ∧ has (contents s (lists map1)) bit = true ∧
        has (contents s (lists map2)) bit = true := by
  have linked := fun map => (consistent.linked.segment map).chain
  have short := consistent.linked.length_le
  obtain ⟨passed, rest, found, split⟩ := @seek_spec _ _ s (startBit / elementAllBits wordBits)
    (s.used + 1) _ (linked map1) (by have := short map1; omega)
  have narrowed : ∀ bit, startBit ≤ bit →
      (has (contents s (lists map1)) bit = true ↔ has (contents s rest) bit = true) :=
    fun bit after => split.has_iff (Nat.div_le_div_right after)
  have nothing : ∃ bound, ∀ fuel ≥ bound, s.andCursor.visits (s.used + 1) fuel
      (s.andCursor.begin (.zeroBits, .zeroBits) startBit).1
      (s.andCursor.begin (.zeroBits, .zeroBits) startBit).2 = some [] :=
    visits_zeroBits wide narrow s.andCursor (.zeroBits, .zeroBits) isUnsigned rfl
      (funext fun _ => BitVec.and_self) rfl (Nat.succ_pos s.used)
  simp only [Store.iterateAnd, Store.bmpIterAndInit, consistent.linked.first, found]
  cases rest with
  | nil =>
    obtain ⟨bound, runs⟩ := nothing
    refine ⟨[], ⟨bound, runs⟩, List.Pairwise.nil, fun bit => ?_⟩
    refine iff_of_false List.not_mem_nil ?_
    rintro ⟨after, member, -⟩
    rw [narrowed bit after] at member
    simp [has] at member
  | cons x l =>
    have xIncreasing := split.increasing (consistent.increasing map1)
    have xLinked := split.linked (linked map1)
    have lShort := split.length_le
    have xShort := short map1
    rw [List.length_cons] at lShort
    have bounded : Unsigned s (x :: l) := fun z member => small z (split.subset member)
    have lBounded : Unsigned s l := fun z member => bounded z (List.mem_cons_of_mem _ member)
    obtain ⟨passedM, restM, foundM, splitM⟩ := @seek_spec _ _ s (s.indx x) (s.used + 1) _
      (linked map2) (by have := short map2; omega)
    -- A common bit is one of the elements from the first one on.
    have common : ∀ bit, startBit ≤ bit →
        ((has (contents s (lists map1)) bit = true ∧ has (contents s (lists map2)) bit = true) ↔
          (has (contents s (x :: l)) bit = true ∧ has (contents s restM) bit = true)) := by
      intro bit after
      rw [narrowed bit after]
      exact and_congr_right fun inL => splitM.has_iff (indx_le_of_has xIncreasing inL)
    simp only [List.head?_cons, Option.bind_some, foundM]
    cases restM with
    | nil =>
      obtain ⟨bound, runs⟩ := nothing
      refine ⟨[], ⟨bound, runs⟩, List.Pairwise.nil, fun bit => ?_⟩
      refine iff_of_false List.not_mem_nil ?_
      rintro ⟨after, members⟩
      rw [common bit after] at members
      simp [has] at members
    | cons y m =>
      have yIncreasing := splitM.increasing (consistent.increasing map2)
      have mShort := splitM.length_le
      have yShort := short map2
      rw [List.length_cons] at mShort
      have reached : s.indx x ≤ s.indx y := splitM.reached y rfl
      obtain ⟨blocks, follows, both⟩ := andCursor_follows wide xLinked
        (splitM.linked (linked map2)) (List.pairwise_cons.mp xIncreasing).2 yIncreasing
        (by omega) (by omega)
      have few : blocks.length < s.used + 1 := by
        have fewer := both.few
        omega
      simp only [List.head?_cons, Option.map_some, Option.bind_some]
      by_cases same : s.indx x = s.indx y
      · rw [if_pos same]
        have blocksIncreasing := both.increasing_cons xIncreasing (andBits s x y)
        have pending := begin_pending wide s.andCursor (.element x, .element y)
          (s.indx x, andBits s x y) isUnsigned rfl
          (funext fun wordNo => (word_andBits x y wordNo).symm) follows blocksIncreasing
          (List.forall_mem_cons.mpr ⟨bounded x List.mem_cons_self, both.bounded lBounded⟩)
        obtain ⟨visited, runs, sorted, members⟩ := visits_left wide pending few
        refine ⟨visited, runs, sorted, fun bit => ?_⟩
        rw [members, left_startOf wide blocksIncreasing (split.reached x rfl)]
        refine and_congr_right fun after => ?_
        rw [common bit after, has_both yIncreasing same, both.bits, test_andBits wide]
      · rw [if_neg same]
        have words := elementWords_pos wide
        -- Nothing is left of the first element.
        have pending : Pending s.andCursor
            { elts := (.element x, .element y), wordNo := elementWords wordBits - 1, bits := 0 }
            (unsigned (startBit + 1))
            (fun bit => startBit ≤ bit ∧ has (contents s (lists map1)) bit = true ∧
              has (contents s (lists map2)) bit = true)
            (s.indx x * elementAllBits wordBits + (elementWords wordBits - 1) * wordBits +
              wordBits) (s.indx x, zeroBits) blocks := by
          refine ⟨⟨follows, fun n after before => by dsimp only at after; omega,
            both.increasing_cons xIncreasing _, List.forall_mem_cons.mpr
              ⟨bounded x List.mem_cons_self, both.bounded lBounded⟩⟩, ?_,
            Nat.le_add_right _ _, le_refl _, fun p => ?_, fun nonzero => absurd rfl nonzero,
            fun _ => .inl ?_, fun bit => ?_⟩
          · dsimp only
            omega
          · rw [zeroBits_test]
            simp
          · dsimp only
            omega
          · unfold Left
            rw [zeroBits_test, both.bits]
            constructor
            · rintro ⟨after, members⟩
              rw [common bit after, has_contents_cons] at members
              obtain ⟨⟨isIndx, -⟩ | inL, inM⟩ := members
              · have beyond := indx_le_of_has yIncreasing inM
                omega
              · exact .inr ⟨inL, inM⟩
            · rintro (⟨-, absent, -⟩ | ⟨inL, inM⟩)
              · cases absent
              · have beyond := indx_lt_of_has xIncreasing inL
                have start := split.reached x rfl
                have after : startBit ≤ bit := by
                  by_contra before
                  have less := @Nat.div_le_div_right _ _ (elementAllBits wordBits)
                    (Nat.le_of_not_le before)
                  omega
                refine ⟨after, (common bit after).mpr ⟨?_, inM⟩⟩
                exact has_contents_cons.mpr (.inr inL)
        exact visits_left wide pending few

def Visits (loop : Nat → Option (List Nat)) (set : Set Nat) : Prop :=
  ∃ visited : List Nat, (∃ bound, ∀ fuel ≥ bound, loop fuel = some visited) ∧
    visited.Pairwise (· < ·) ∧ ∀ bit, bit ∈ visited ↔ bit ∈ set

theorem unsigned_of_denotes (wide : 0 < wordBits) (divides : elementAllBits wordBits ∣ 2 ^ 32)
    (consistent : Consistent s lists free) {sets : β → Set Nat} (denotes : Denotes s lists sets)
    {map : β} (small : ∀ bit ∈ sets map, bit < 2 ^ 32) : Unsigned s (lists map) := by
  intro x member
  have isBlock : (s.indx x, s.bits x) ∈ contents s (lists map) := List.mem_map.mpr ⟨x, member, rfl⟩
  obtain ⟨bit, isIndx, isSet⟩ := exists_test_of_ne_zero (s.indx x)
    (consistent.nonzero map _ isBlock)
  have less := small bit ((denotes map bit).mp (has_contents.mpr ⟨x, member, isIndx, isSet⟩))
  obtain ⟨count, isCount⟩ := divides
  have positive : 0 < elementAllBits wordBits := Nat.mul_pos (elementWords_pos wide) wide
  rw [isCount, Nat.mul_comm, ← Nat.div_lt_iff_lt_mul positive, isIndx] at less
  rw [isCount, ← Nat.succ_mul, Nat.mul_comm]
  exact Nat.mul_le_mul_left _ less

/-- The loops visit the members of the sets from the start bit on, and their common
members. -/
theorem iterations_visit_members (wide : 0 < wordBits) (divides : elementAllBits wordBits ∣ 2 ^ 32)
    (consistent : Consistent s lists free) {sets : β → Set Nat} (denotes : Denotes s lists sets)
    (small : ∀ map, ∀ bit ∈ sets map, bit < 2 ^ 32) {startBit : Nat}
    (isUnsigned : startBit < 2 ^ 32) :
    (∀ map, Visits (s.iterateSet map startBit) {bit ∈ sets map | startBit ≤ bit}) ∧
    ∀ map1 map2, Visits (s.iterateAnd map1 map2 startBit)
      {bit ∈ sets map1 ∩ sets map2 | startBit ≤ bit} := by
  have narrow := Nat.le_of_dvd (by decide) divides
  have unsigned := fun map => unsigned_of_denotes wide divides consistent denotes (small map)
  constructor
  · intro map
    obtain ⟨visited, runs, sorted, members⟩ :=
      iterateSet_visits wide narrow consistent map (unsigned map) isUnsigned
    refine ⟨visited, runs, sorted, fun bit => ?_⟩
    rw [members, denotes]
    exact and_comm
  · intro map1 map2
    obtain ⟨visited, runs, sorted, members⟩ :=
      iterateAnd_visits wide narrow consistent map1 map2 (unsigned map1) isUnsigned
    refine ⟨visited, runs, sorted, fun bit => ?_⟩
    rw [members, denotes, denotes]
    exact and_comm

def twoSets (map : Bool) : Set Nat := if map then {3, 300} else {300}

/-- Bitmaps of these sets, from the bit 4 on. -/
theorem iterations_visit_members_two :
    ∃ (s : Store Bool 64) (lists : Bool → List Nat) (free : List (List Nat)),
      (Consistent s lists free ∧ Denotes s lists twoSets) ∧
      (∀ map, Visits (s.iterateSet map 4) {bit ∈ twoSets map | 4 ≤ bit}) ∧
      ∀ map1 map2, Visits (s.iterateAnd map1 map2 4)
        {bit ∈ twoSets map1 ∩ twoSets map2 | 4 ≤ bit} := by
  have noBit : Denotes (Store.initial : Store Bool 64) (fun _ => []) fun _ => ∅ :=
    fun _ bit => iff_of_false Bool.false_ne_true (Set.notMem_empty bit)
  obtain ⟨s, lists, free, -, consistent, denotes⟩ := run_spec (by decide)
    [.setBit true 300, .setBit true 3, .setBit false 300] (by simp [Op.Valid]) initial_consistent
    noBit
  have sets : applyAll (fun _ => ∅) [.setBit true 300, .setBit true 3, .setBit false 300] =
      twoSets := by
    funext map
    cases map with
    | false => simp [applyAll, Op.apply, twoSets]
    | true => simp [applyAll, Op.apply, twoSets]
  rw [sets] at denotes
  refine ⟨s, lists, free, ⟨consistent, denotes⟩, iterations_visit_members (by decide)
    (by decide) consistent denotes ?_ (by decide)⟩
  intro map bit member
  cases map with
  | false =>
    rw [show bit = 300 from member]
    decide
  | true =>
    obtain rfl | rfl := member
    · decide
    · decide

end GccCil.Gcc.Bitmap
