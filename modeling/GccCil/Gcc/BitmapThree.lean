import GccCil.Gcc.BitmapMerge
import GccCil.Gcc.BitmapRuns

/-!
# Operations on three bitmaps

The operations compute the right sets.  When they cut off the elements that are
left over, the current element is moved if its index is greater than that of the
last element that stays, but indices have been written over by then.
-/

namespace GccCil.Gcc.Bitmap

open Lib

variable {β : Type} [DecidableEq β] {wordBits : Nat}

inductive Three where
  | and
  | andCompl
  | ior
  | xor
  deriving DecidableEq

def Three.onBits : Three → Bool → Bool → Bool
  | .and, p, q => p && q
  | .andCompl, p, q => p && !q
  | .ior, p, q => p || q
  | .xor, p, q => p ^^ q

def Three.loop : Three → ThreeOp wordBits
  | .and => Store.and3
  | .andCompl => Store.andCompl3
  | .ior => Store.ior3
  | .xor => Store.xor3

def Store.exec3 (s : Store β wordBits) (op : Three) (dst a b : β) :
    Option (Option Bool × Store β wordBits) :=
  match op with
  | .and => (s.and dst a b).map (none, ·)
  | .andCompl => (s.andCompl dst a b).map (none, ·)
  | .ior => (s.ior dst a b).map fun (changed, s) => (some changed, s)
  | .xor => (s.xor dst a b).map (none, ·)

def results (op : Three) (s : Store β wordBits) (lists : β → List Nat) (a b : β) :
    List (Nat × Bits wordBits) :=
  op.loop.merge (contents s (lists a)) (contents s (lists b))

/-- The current element of the destination is one of those that are written over
and stay, or its index is greater than those of the result, also if that index
is one that both operands have and that is written last. -/
def CurrentStays (op : Three) (s : Store β wordBits) (lists : β → List Nat) (dst a b : β) : Prop :=
  ∀ before c after, lists dst = before ++ c :: after → s.current dst = some c →
    before.length < (results op s lists a b).length ∨
      (∀ block ∈ results op s lists a b, block.1 < s.indx c) ∨
      (before.length = (results op s lists a b).length ∧
        ∃ indx, IsSkipped (contents s (lists a)) (contents s (lists b)) (results op s lists a b)
          indx)

/-- The operation leaves well-formed bitmaps, the right set and the operands, and
reports a change where it should. -/
def Correct (op : Three) (s : Store β wordBits) (lists : β → List Nat) (dst a b : β) : Prop :=
  ∃ answer s' lists' free', s.exec3 op dst a b = some (answer, s') ∧
    Consistent s' lists' free' ∧ OnlyChanges s s' lists lists' dst ∧
    (∀ bit, has (contents s' (lists' dst)) bit =
      op.onBits (has (contents s (lists a)) bit) (has (contents s (lists b)) bit)) ∧
    (op = .ior → ∃ changed, answer = some changed ∧
      (changed = true ↔
        ∃ bit, has (contents s' (lists' dst)) bit ≠ has (contents s (lists dst)) bit))

theorem ThreeOp.computes (op : ThreeOp wordBits) {f : Bool → Bool → Bool}
    (left : f true false = op.keepA) (right : f false true = op.keepB)
    (neither : f false false = false)
    (pointwise : ∀ x y bit, (op.combine x y).test bit = f (x.test bit) (y.test bit)) :
    Computes op.keepA op.keepB op.join f where
  left := left
  right := right
  neither := neither
  both := by
    intro x y z joined bit
    unfold ThreeOp.join at joined
    split at joined
    · cases joined
    · rw [← Option.some.inj joined, pointwise]
  empty := by
    intro x y joined bit
    unfold ThreeOp.join at joined
    split at joined
    · rename_i isZero
      rw [← pointwise, isZero.2, zeroBits_test]
    · cases joined

theorem Three.computes (wide : 0 < wordBits) (op : Three) :
    Computes (op.loop : ThreeOp wordBits).keepA (op.loop : ThreeOp wordBits).keepB
      (op.loop : ThreeOp wordBits).join op.onBits := by
  cases op with
  | and =>
    refine ThreeOp.computes Store.and3 rfl rfl rfl fun x y bit => ?_
    rw [test_eq wide, test_eq wide, test_eq wide]
    exact BitVec.getLsbD_and
  | andCompl =>
    refine ThreeOp.computes Store.andCompl3 rfl rfl rfl fun x y bit => ?_
    have within : bit % wordBits < wordBits := Nat.mod_lt _ wide
    rw [test_eq wide, test_eq wide, test_eq wide]
    have isWord : Store.andCompl3.combine x y (wordOf wide bit) =
        x (wordOf wide bit) &&& ~~~y (wordOf wide bit) := rfl
    rw [isWord, BitVec.getLsbD_and, BitVec.getLsbD_not, decide_eq_true within, Bool.true_and]
    rfl
  | ior =>
    refine ThreeOp.computes Store.ior3 rfl rfl rfl fun x y bit => ?_
    rw [test_eq wide, test_eq wide, test_eq wide]
    exact BitVec.getLsbD_or
  | xor =>
    refine ThreeOp.computes Store.xor3 rfl rfl rfl fun x y bit => ?_
    rw [test_eq wide, test_eq wide, test_eq wide]
    exact BitVec.getLsbD_xor

theorem Three.join_nonzero (op : Three) {x y z : Bits wordBits} (nonzero : x ≠ zeroBits)
    (joined : op.loop.join x y = some z) : z ≠ zeroBits := by
  rintro rfl
  unfold ThreeOp.join at joined
  split at joined
  · cases joined
  · rename_i notSkipped
    have isZero := Option.some.inj joined
    cases op with
    | and => exact notSkipped ⟨rfl, isZero⟩
    | andCompl => exact notSkipped ⟨rfl, isZero⟩
    | ior =>
      apply nonzero
      funext ix
      have isWord : Store.ior3.combine x y ix = zeroBits ix := congrFun isZero ix
      exact (BitVec.or_eq_zero_iff.mp isWord).1
    | xor => exact notSkipped ⟨rfl, isZero⟩

variable {s s' t : Store β wordBits} {lists lists' : β → List Nat}
  {free free' : List (List Nat)} {dst a b : β} {op : Three}

omit [DecidableEq β] in
theorem results_increasing (consistent : Consistent s lists free) (op : Three) (a b : β) :
    Increasing (results op s lists a b) :=
  increasing_mergeWith (consistent.increasing a) (consistent.increasing b)

omit [DecidableEq β] in
theorem results_nonzero (consistent : Consistent s lists free) (op : Three) (a b : β) :
    ∀ block ∈ results op s lists a b, block.2 ≠ zeroBits := by
  rintro ⟨indx, z⟩ member
  obtain ⟨x, y, isLeft, -, joined⟩ | ⟨-, isLeft, -⟩ | ⟨-, isRight, -⟩ :=
    (mem_mergeWith (consistent.increasing a) (consistent.increasing b)).mp member
  · exact op.join_nonzero (consistent.nonzero a _ isLeft) joined
  · exact consistent.nonzero a _ isLeft
  · exact consistent.nonzero b _ isRight

omit [DecidableEq β] in
theorem has_results (wide : 0 < wordBits) (consistent : Consistent s lists free) (op : Three)
    (a b : β) (bit : Nat) : has (results op s lists a b) bit =
      op.onBits (has (contents s (lists a)) bit) (has (contents s (lists b)) bit) :=
  has_mergeWith (op.computes wide) (consistent.increasing a) (consistent.increasing b) bit

theorem mem_left_iff {done rest before more : List Nat} {c : Nat} (nodup : (done ++ rest).Nodup)
    (same : done ++ rest = before ++ c :: more) : c ∈ done ↔ before.length < done.length := by
  constructor
  · intro member
    by_contra longer
    have isPrefix : done <+: before :=
      List.prefix_of_prefix_length_le (List.prefix_append done rest)
        (same ▸ List.prefix_append before _) (by omega)
    rw [same] at nodup
    exact (List.nodup_append.mp nodup).2.2 c (isPrefix.subset member) c List.mem_cons_self rfl
  · intro shorter
    have isPrefix : before ++ [c] <+: done := by
      refine List.prefix_of_prefix_length_le ?_ (List.prefix_append done rest) ?_
      · rw [same, List.append_cons before c more]
        exact List.prefix_append _ _
      · rw [List.length_append, List.length_singleton]
        exact shorter
    exact isPrefix.subset (by simp)

theorem head_right_iff {done rest before more : List Nat} {c : Nat} (nodup : (done ++ rest).Nodup)
    (same : done ++ rest = before ++ c :: more) :
    rest.head? = some c ↔ before.length = done.length := by
  constructor
  · intro isHead
    obtain ⟨y, rest, rfl⟩ := List.exists_cons_of_ne_nil (List.ne_nil_of_mem (List.mem_of_head? isHead))
    obtain rfl : y = c := Option.some.inj isHead
    have notLeft : ¬before.length < done.length := fun shorter =>
      (List.nodup_append.mp nodup).2.2 y ((mem_left_iff nodup same).mpr shorter) y
        List.mem_cons_self rfl
    have nodup' : ((done ++ [y]) ++ rest).Nodup := by rwa [← List.append_cons]
    have same' : (done ++ [y]) ++ rest = before ++ y :: more := by rw [← List.append_cons, same]
    have isLeft := (mem_left_iff nodup' same').mp (by simp)
    rw [List.length_append, List.length_singleton] at isLeft
    omega
  · intro sameLength
    obtain ⟨rfl, rfl⟩ := List.append_inj same sameLength.symm
    rfl

structure Finished (t u : Store β wordBits) (lists' : β → List Nat) (dst : β)
    (done rest : List Nat) : Prop where
  linked : ∃ free, Linked u (Function.update lists' dst done) free
  changes : OnlyChanges t u lists' (Function.update lists' dst done) dst
  isDone : contents u done = contents t done
  fresh : Fresh u dst
  whole : rest = [] → u.current dst = t.current dst
  emptied : rest ≠ [] → done = [] → u.current dst = none
  moved : ∀ p c, rest ≠ [] → done.getLast? = some p → t.current dst = some c →
    u.current dst = if t.indx c > t.indx p then some p else some c

theorem finish_spec {done rest : List Nat} (focus : Focus t lists' free' dst done rest) :
    ∃ u, t.finish dst rest.head? = some u ∧ Finished t u lists' dst done rest := by
  obtain ⟨v, free, isCut, linked, cut⟩ :=
    eltClearFrom_spec focus.linked focus.isList focus.looks
  have isFirst := linked.first dst
  rw [Function.update_self] at isFirst
  have looks := focus.looks
  rw [focus.isList] at looks
  have isAsserted : v.assertCurrent dst = some v := by
    unfold Store.assertCurrent
    apply if_pos
    rw [isFirst]
    by_cases isWhole : rest = []
    · rw [cut.whole isWhole]
      rw [isWhole, List.append_nil] at looks
      obtain ⟨isEmpty, isNone⟩ | ⟨c, member, isSome⟩ := looks
      · rw [isEmpty, isNone]
        rfl
      · obtain ⟨x, l, isList⟩ := List.exists_cons_of_ne_nil (List.ne_nil_of_mem member)
        rw [isList, isSome]
        rfl
    · cases done using List.reverseRecOn with
      | nil =>
        rw [cut.emptied isWhole rfl]
        rfl
      | append_singleton done p =>
        obtain ⟨isEmpty, -⟩ | ⟨c, -, isCurrent⟩ := looks
        · simp at isEmpty
        · rw [(cut.moved p c isWhole (by simp) isCurrent).1]
          cases done <;> (split <;> rfl)
  obtain ⟨linked', current, fresh, isIndx, isBits, changes⟩ := updateIndx_spec linked dst
  refine ⟨v.updateIndx dst, ?_, ⟨free, linked'⟩, ?_, ?_, fresh, ?_, ?_, ?_⟩
  · rw [Store.finish, isCut, Option.bind_some, isAsserted]
    rfl
  · exact (cut.changes fun c other => Function.update_of_ne other _ _).trans changes
  · refine contents_congr (fun x _ => ?_) fun x _ => ?_
    · rw [isIndx, cut.indx]
    · rw [isBits, cut.bits]
  · intro isWhole
    rw [current, cut.whole isWhole]
  · intro more isEmpty
    rw [current, cut.emptied more isEmpty]
  · intro p c more isLast isCurrent
    rw [current, (cut.moved p c more isLast isCurrent).1]

omit [DecidableEq β] in
theorem last_above_iff {done : List Nat} {p : Nat} {blocks : List (Nat × Bits wordBits)}
    (isDone : contents t (done ++ [p]) = blocks) (increasing : Increasing blocks) (indx : Nat) :
    indx > t.indx p ↔ ∀ block ∈ blocks, block.1 < indx := by
  subst isDone
  rw [contents_append] at increasing ⊢
  constructor
  · intro greater block member
    obtain early | last := List.mem_append.mp member
    · have less := (List.pairwise_append.mp increasing).2.2 block early (t.indx p, t.bits p)
        List.mem_cons_self
      exact less.trans greater
    · obtain rfl := List.mem_singleton.mp last
      exact greater
  · intro all
    exact all (t.indx p, t.bits p) (List.mem_append_right _ List.mem_cons_self)

theorem looks_iff {done rest : List Nat} {u : Store β wordBits}
    (consistent : Consistent s lists free)
    (wrote : Wrote s t lists lists' free' dst [] (lists dst) done rest (contents s (lists a))
      (contents s (lists b)) (results op s lists a b))
    (finished : Finished t u lists' dst done rest) :
    Looks u dst done ↔ CurrentStays op s lists dst a b := by
  obtain ⟨more, whole⟩ := wrote.whole
  rw [List.nil_append] at whole
  have nodup := wrote.focus.nodup
  have lengths := wrote.length_done
  rw [List.length_nil, Nat.zero_add] at lengths
  have looks := wrote.focus.looks
  rw [wrote.focus.isList] at looks
  obtain ⟨isEmpty, isNone⟩ | ⟨c, member, isCurrent⟩ := consistent.looks dst
  · -- The list was empty, so the first new element is the current one.
    have current := wrote.current
    rw [isNone, Option.none_or] at current
    refine iff_of_true ?_ ?_
    · cases done with
      | nil =>
        left
        refine ⟨rfl, ?_⟩
        by_cases noRest : rest = []
        · rw [finished.whole noRest, current, noRest]
          rfl
        · exact finished.emptied noRest rfl
      | cons x done =>
        right
        rw [List.cons_append, List.head?_cons] at current
        by_cases noRest : rest = []
        · exact ⟨x, List.mem_cons_self, by rw [finished.whole noRest, current]⟩
        · obtain ⟨p, isLast⟩ : ∃ p, (x :: done).getLast? = some p := ⟨_, List.getLast?_cons⟩
          have moved := finished.moved p x noRest isLast current
          split at moved
          · exact ⟨p, List.mem_of_getLast? isLast, moved⟩
          · exact ⟨x, List.mem_cons_self, moved⟩
    · intro before c after isList
      rw [isEmpty] at isList
      simp at isList
  · have current : t.current dst = some c := by
      rw [wrote.current, isCurrent]
      rfl
    have decides : ∀ before after, lists dst = before ++ c :: after → (Looks u dst done ↔
        before.length < (results op s lists a b).length ∨
          (∀ block ∈ results op s lists a b, block.1 < s.indx c) ∨
          (before.length = (results op s lists a b).length ∧
            ∃ indx, IsSkipped (contents s (lists a)) (contents s (lists b))
              (results op s lists a b) indx)) := by
      intro before after isList
      rw [isList, List.append_assoc, List.cons_append] at whole
      have isLeft := mem_left_iff nodup whole
      have isHead := head_right_iff nodup whole
      rw [← lengths]
      have inRest : c ∉ done → c ∈ rest := by
        intro notLeft
        have inWhole : c ∈ done ++ rest := by
          rw [whole]
          simp
        exact (List.mem_append.mp inWhole).resolve_left notLeft
      cases done using List.reverseRecOn with
      | nil =>
        have noResults : results op s lists a b = [] :=
          List.length_eq_zero_iff.mp lengths.symm
        have hasRest := List.ne_nil_of_mem (inRest List.not_mem_nil)
        refine iff_of_true (Or.inl ⟨rfl, finished.emptied hasRest rfl⟩) ?_
        rw [noResults]
        exact Or.inr (Or.inl fun _ absent => absurd absent List.not_mem_nil)
      | append_singleton done p =>
        by_cases noRest : rest = []
        · have here : c ∈ done ++ [p] := by
            by_contra notLeft
            have absent := inRest notLeft
            rw [noRest] at absent
            exact List.not_mem_nil absent
          exact iff_of_true (Or.inr ⟨c, here, by rw [finished.whole noRest, current]⟩)
            (Or.inl (isLeft.mp here))
        · have moved := finished.moved p c noRest (by simp) current
          have looks : Looks u dst (done ++ [p]) ↔ t.indx c > t.indx p ∨ c ∈ done ++ [p] := by
            unfold Looks
            rw [moved]
            split
            · rename_i greater
              exact iff_of_true (Or.inr ⟨p, by simp, rfl⟩) (Or.inl greater)
            · rename_i notGreater
              simp [notGreater]
          have above : t.indx c > t.indx p ↔
              ∀ block ∈ results op s lists a b, block.1 < t.indx c :=
            last_above_iff (wrote.isDone.trans (List.nil_append _))
              (results_increasing consistent op a b) _
          rw [looks]
          by_cases here : c ∈ done ++ [p]
          · exact iff_of_true (Or.inr here) (Or.inl (isLeft.mp here))
          · have notShorter := fun shorter => here (isLeft.mpr shorter)
            by_cases next : rest.head? = some c
            · by_cases someSkipped : ∃ indx, IsSkipped (contents s (lists a))
                  (contents s (lists b)) (results op s lists a b) indx
              · have isSkipped := wrote.skipped c next someSkipped
                exact iff_of_true (Or.inl (above.mpr isSkipped.2.2))
                  (Or.inr (Or.inr ⟨isHead.mp next, someSkipped⟩))
              · rw [above, wrote.same c member next someSkipped]
                rw [or_iff_left here, or_iff_right notShorter,
                  or_iff_left fun both => someSkipped both.2]
            · rw [above, wrote.tail c member (inRest here) next]
              have notNext := fun sameLength => next (isHead.mpr sameLength)
              rw [or_iff_left here, or_iff_right notShorter, or_iff_left fun both => notNext both.1]
    constructor
    · intro stays before c' after isList isCurrent'
      rw [isCurrent, Option.some.injEq] at isCurrent'
      subst isCurrent'
      exact (decides before after isList).mp stays
    · intro stays
      obtain ⟨before, after, isList⟩ := List.append_of_mem member
      exact (decides before after isList).mpr (stays before c after isList isCurrent)

theorem loop_spec (consistent : Consistent s lists free) (op : Three) (otherA : dst ≠ a)
    (otherB : dst ≠ b) :
    ∃ (changed : Bool) (t u : Store β wordBits) (lists' : β → List Nat) (free' : List (List Nat))
        (rest : List Nat),
      Store.mergeLoop op.loop dst s.fuel none (s.first dst) (s.first a) (s.first b) false s =
        some (rest.head?, changed, t) ∧
      t.finish dst rest.head? = some u ∧ Linked u lists' free' ∧ OnlyChanges s u lists lists' dst ∧
      contents u (lists' dst) = results op s lists a b ∧ Fresh u dst ∧
      (Looks u dst (lists' dst) ↔ CurrentStays op s lists dst a b) ∧
      (op = .ior → ((changed || rest.head?.isSome) = true ↔
        results op s lists a b ≠ contents s (lists dst))) := by
  have focus : Focus s lists free dst [] (lists dst) :=
    ⟨consistent.linked, rfl, consistent.looks dst⟩
  have shortA := consistent.linked.length_le a
  have shortB := consistent.linked.length_le b
  have enough : (lists a).length + (lists b).length < s.fuel := by
    unfold Store.fuel
    omega
  obtain ⟨changed, t, lists', free', done, rest, isLoop, wrote, compares, ended⟩ :=
    mergeLoop_spec op.loop (Ne.symm otherA) (Ne.symm otherB) s.fuel s lists free [] (lists dst) []
      (lists a) [] (lists b) false focus rfl rfl (consistent.increasing a) (consistent.increasing b)
      enough
  obtain ⟨u, isFinish, finished⟩ := finish_spec wrote.focus
  obtain ⟨free'', linked⟩ := finished.linked
  have isDone : Function.update lists' dst done dst = done := Function.update_self _ _ _
  refine ⟨changed, t, u, Function.update lists' dst done, free'', rest, ?_, isFinish, linked,
    wrote.changes.trans finished.changes, ?_, finished.fresh, ?_, ?_⟩
  · rw [consistent.linked.first dst, consistent.linked.first a, consistent.linked.first b]
    exact isLoop
  · rw [isDone, finished.isDone]
    exact wrote.isDone
  · rw [isDone]
    exact looks_iff consistent wrote finished
  · rintro rfl
    have lengths : done.length = (results .ior s lists a b).length := by
      have written := wrote.length_done
      rwa [List.length_nil, Nat.zero_add] at written
    have sameLength : (contents s (lists dst)).length = (lists dst).length := List.length_map _
    rw [Bool.or_eq_true, compares rfl rfl]
    obtain isEnd | isWhole := ended rfl
    · obtain ⟨more, whole⟩ := wrote.whole
      rw [isEnd, List.append_nil, List.nil_append] at whole
      have longer := congrArg List.length whole
      rw [List.length_append] at longer
      rw [isEnd]
      simp only [Bool.false_eq_true, false_or, List.head?_nil, Option.isSome_none, or_false]
      refine not_congr ⟨fun isPrefix => ?_, fun same => ?_⟩
      · have shorter : (results .ior s lists a b).length ≤ (contents s (lists dst)).length :=
          isPrefix.length_le
        have isLength : (results .ior s lists a b).length = (contents s (lists dst)).length := by
          omega
        exact isPrefix.eq_of_length isLength
      · exact same ▸ List.prefix_refl _
    · cases rest with
      | nil =>
        rw [List.append_nil, List.nil_append] at isWhole
        simp only [Bool.false_eq_true, false_or, List.head?_nil, Option.isSome_none, or_false]
        refine not_congr ⟨fun isPrefix => ?_, fun same => same ▸ List.prefix_refl _⟩
        exact isPrefix.eq_of_length (lengths.symm.trans (by rw [sameLength, isWhole]))
      | cons x rest =>
        refine iff_of_true (Or.inr rfl) ?_
        intro same
        have longer := congrArg List.length isWhole
        rw [List.length_append, List.length_cons, List.nil_append, lengths, ← sameLength, ← same]
          at longer
        omega

omit [DecidableEq β] in
theorem Linked.unique (linked : Linked s lists free) (linked' : Linked s lists' free') (b : β) :
    lists b = lists' b :=
  (linked.segment b).chain.unique (linked'.segment b).chain
    ((linked.first b).symm.trans (linked'.first b))

theorem exec3_loop (distinct : a ≠ b ∨ op = .ior) (otherA : dst ≠ a) (otherB : dst ≠ b)
    {changed : Bool} {u : Store β wordBits} {rest : Option Nat}
    (isLoop : Store.mergeLoop op.loop dst s.fuel none (s.first dst) (s.first a) (s.first b) false
      s = some (rest, changed, t)) (isFinish : t.finish dst rest = some u) :
    ∃ answer, s.exec3 op dst a b = some (answer, u) ∧
      (op = .ior → answer = some (changed || rest.isSome)) := by
  have notBoth : ¬(dst = a ∨ dst = b) := not_or.mpr ⟨otherA, otherB⟩
  cases op with
  | and =>
    have other := distinct.resolve_right Three.noConfusion
    have isLoop' : Store.mergeLoop Store.and3 dst s.fuel none (s.first dst) (s.first a)
      (s.first b) false s = some (rest, changed, t) := isLoop
    refine ⟨none, ?_, Three.noConfusion⟩
    rw [Store.exec3, Store.and, if_neg notBoth, if_neg other, isLoop', Option.bind_some]
    dsimp only
    rw [isFinish]
    rfl
  | andCompl =>
    have other := distinct.resolve_right Three.noConfusion
    have isLoop' : Store.mergeLoop Store.andCompl3 dst s.fuel none (s.first dst) (s.first a)
      (s.first b) false s = some (rest, changed, t) := isLoop
    refine ⟨none, ?_, Three.noConfusion⟩
    rw [Store.exec3, Store.andCompl, if_neg notBoth, if_neg other, isLoop', Option.bind_some]
    dsimp only
    rw [isFinish]
    rfl
  | ior =>
    have isLoop' : Store.mergeLoop Store.ior3 dst s.fuel none (s.first dst) (s.first a)
      (s.first b) false s = some (rest, changed, t) := isLoop
    refine ⟨some (changed || rest.isSome), ?_, fun _ => rfl⟩
    rw [Store.exec3, Store.ior, if_neg notBoth, isLoop', Option.bind_some]
    dsimp only
    rw [isFinish]
    rfl
  | xor =>
    have other := distinct.resolve_right Three.noConfusion
    have isLoop' : Store.mergeLoop Store.xor3 dst s.fuel none (s.first dst) (s.first a)
      (s.first b) false s = some (rest, changed, t) := isLoop
    refine ⟨none, ?_, Three.noConfusion⟩
    rw [Store.exec3, Store.xor, if_neg notBoth, if_neg other, isLoop', Option.bind_some]
    dsimp only
    rw [isFinish]
    rfl

theorem exec3_same (consistent : Consistent s lists free) (other : dst ≠ a) (notIor : op ≠ .ior) :
    Correct op s lists dst a a := by
  have notBoth : ¬(dst = a ∨ dst = a) := not_or.mpr ⟨other, other⟩
  have cleared : (∀ s', s.clear dst = some s' → s.exec3 op dst a a = some (none, s')) →
      (∀ p, op.onBits p p = false) → Correct op s lists dst a a := by
    intro isExec isFalse
    obtain ⟨s', isClear, lists', free', consistent', isEmpty, changes⟩ := clear_spec consistent dst
    refine ⟨none, s', lists', free', isExec s' isClear, consistent', changes, ?_,
      fun isIor => absurd isIor notIor⟩
    intro bit
    rw [isEmpty, isFalse]
    rfl
  cases op with
  | and =>
    obtain ⟨s', isCopy, lists', free', consistent', isContents, changes⟩ :=
      copy_spec consistent (Ne.symm other)
    refine ⟨none, s', lists', free', ?_, consistent', changes, ?_, Three.noConfusion⟩
    · rw [Store.exec3, Store.and, if_neg notBoth, if_pos rfl, isCopy]
      rfl
    · intro bit
      rw [isContents]
      exact (Bool.and_self _).symm
  | andCompl =>
    refine cleared (fun s' isClear => ?_) fun p => Bool.and_not_self p
    rw [Store.exec3, Store.andCompl, if_neg notBoth, if_pos rfl, isClear]
    rfl
  | ior => exact absurd rfl notIor
  | xor =>
    refine cleared (fun s' isClear => ?_) fun p => Bool.xor_self p
    rw [Store.exec3, Store.xor, if_neg notBoth, if_pos rfl, isClear]
    rfl

/-- The operations are correct exactly where the current element stays. -/
theorem threeOperands_correct_iff (wide : 0 < wordBits) (consistent : Consistent s lists free)
    (op : Three) (otherA : dst ≠ a) (otherB : dst ≠ b) :
    Correct op s lists dst a b ↔ (a = b ∧ op ≠ .ior) ∨ CurrentStays op s lists dst a b := by
  by_cases same : a = b ∧ op ≠ .ior
  · obtain ⟨rfl, notIor⟩ := same
    exact iff_of_true (exec3_same consistent otherA notIor) (Or.inl ⟨rfl, notIor⟩)
  · rw [or_iff_right same]
    have distinct : a ≠ b ∨ op = .ior := by
      rw [not_and_or, not_not] at same
      exact same
    obtain ⟨changed, t, u, lists', free', rest, isLoop, isFinish, linked, changes, isResults, fresh,
      stays, reports⟩ := loop_spec consistent op otherA otherB
    obtain ⟨answer, isExec, isAnswer⟩ := exec3_loop distinct otherA otherB isLoop isFinish
    rw [← stays]
    constructor
    · rintro ⟨answer', s', lists'', free'', isExec', consistent', -⟩
      rw [isExec, Option.some.injEq, Prod.mk.injEq] at isExec'
      obtain ⟨-, rfl⟩ := isExec'
      rw [linked.unique consistent'.linked dst]
      exact consistent'.looks dst
    · intro looks
      have consistent' : Consistent u lists' free' := by
        refine consistent.update linked changes looks fresh ?_ ?_
        · rw [isResults]
          exact results_increasing consistent op a b
        · rw [isResults]
          exact results_nonzero consistent op a b
      refine ⟨answer, u, lists', free', isExec, consistent', changes, ?_, fun isIor => ?_⟩
      · intro bit
        rw [isResults]
        exact has_results wide consistent op a b bit
      · refine ⟨_, isAnswer isIor, (reports isIor).trans ?_⟩
        rw [isResults]
        constructor
        · intro differs
          by_contra none
          apply differs
          apply blocks_ext (results_increasing consistent op a b) (consistent.increasing dst)
            (results_nonzero consistent op a b) (consistent.nonzero dst)
          intro bit
          by_contra differsHere
          exact none ⟨bit, differsHere⟩
        · rintro ⟨bit, differs⟩ equal
          exact differs (by rw [equal])

def Store.after (ops : List (Op (Fin 3))) : Store (Fin 3) 64 :=
  ((Store.initial.run ops).map (·.2)).getD Store.initial

theorem after_consistent (ops : List (Op (Fin 3))) (valid : ∀ op ∈ ops, op.Valid) :
    ∃ lists free, Consistent (Store.after ops) lists free := by
  have noBits : Denotes (Store.initial : Store (Fin 3) 64) (fun _ => []) (fun _ => ∅) :=
    fun _ bit => iff_of_false Bool.false_ne_true (Set.notMem_empty bit)
  obtain ⟨s, lists, free, isRun, consistent, -⟩ :=
    run_spec (by decide) ops valid initial_consistent noBits
  refine ⟨lists, free, ?_⟩
  rwa [Store.after, isRun]

/-- The union {3, 500} is written over {3, 200}, whose current element is the second. -/
theorem threeOperands_correct_union :
    ∃ lists free, Consistent (Store.after [.setBit 0 3, .setBit 0 200, .setBit 1 3, .setBit 2 3,
        .setBit 2 500]) lists free ∧
      Correct .ior (Store.after [.setBit 0 3, .setBit 0 200, .setBit 1 3, .setBit 2 3,
        .setBit 2 500]) lists 0 1 2 := by
  obtain ⟨lists, free, consistent⟩ := after_consistent
    [.setBit 0 3, .setBit 0 200, .setBit 1 3, .setBit 2 3, .setBit 2 500] (by simp [Op.Valid])
  refine ⟨lists, free, consistent, ?_⟩
  refine (threeOperands_correct_iff (by decide) consistent .ior (by decide) (by decide)).mpr
    (Or.inr ?_)
  have isList (bitmap : Fin 3) (list : List Nat)
      (chain : Chain (Store.after [.setBit 0 3, .setBit 0 200, .setBit 1 3, .setBit 2 3,
        .setBit 2 500]).next list) (isFirst : (Store.after [.setBit 0 3, .setBit 0 200,
        .setBit 1 3, .setBit 2 3, .setBit 2 500]).first bitmap = list.head?) :
      lists bitmap = list :=
    (consistent.linked.segment bitmap).chain.unique chain
      ((consistent.linked.first bitmap).symm.trans isFirst)
  have isOne := isList 1 [2] ⟨by decide, trivial⟩ (by decide)
  have isTwo := isList 2 [3, 4] ⟨by decide, by decide, trivial⟩ (by decide)
  intro before c after isDst isCurrent
  rw [isList 0 [0, 1] ⟨by decide, by decide, trivial⟩ (by decide)] at isDst
  have length := congrArg List.length isDst
  rw [List.length_append, List.length_cons] at length
  refine .inl (Nat.lt_of_lt_of_le (show before.length < 2 by simp at length; omega) ?_)
  rw [results, isOne, isTwo]
  decide +kernel

/-- A destination that looks at its second element gets one element with a
greater index. -/
theorem current_freed :
    ∃ lists free, Consistent (Store.after [.setBit 0 0, .setBit 0 128, .setBit 1 640,
        .setBit 2 640]) lists free ∧
      ¬Correct .and (Store.after [.setBit 0 0, .setBit 0 128, .setBit 1 640, .setBit 2 640]) lists
        0 1 2 := by
  obtain ⟨lists, free, consistent⟩ := after_consistent
    [.setBit 0 0, .setBit 0 128, .setBit 1 640, .setBit 2 640] (by simp [Op.Valid])
  refine ⟨lists, free, consistent, ?_⟩
  rintro ⟨answer, s', lists', free', isExec, consistent', -⟩
  have computed : ((Store.after [.setBit 0 0, .setBit 0 128, .setBit 1 640, .setBit 2 640]).exec3
      .and 0 1 2).map (fun result => (result.2.first 0, result.2.next 0, result.2.current 0)) =
      some (some 0, none, some 1) := by decide
  rw [isExec, Option.map_some, Option.some.injEq, Prod.mk.injEq, Prod.mk.injEq] at computed
  obtain ⟨isFirst, isNext, isCurrent⟩ := computed
  have isList : lists' 0 = [0] :=
    (consistent'.linked.segment 0).chain.unique ⟨isNext, trivial⟩
      ((consistent'.linked.first 0).symm.trans isFirst)
  obtain ⟨isEmpty, -⟩ | ⟨c, member, isSome⟩ := consistent'.looks 0
  · rw [isList] at isEmpty
    cases isEmpty
  · rw [isCurrent, Option.some.injEq] at isSome
    rw [isList, ← isSome] at member
    simp at member

end GccCil.Gcc.Bitmap
