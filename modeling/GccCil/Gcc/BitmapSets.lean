import GccCil.Gcc.BitmapSearch

/-!
# Bitmaps as sets

What each operation makes of the sets that the bitmaps denote, and what any run
of them does.
-/

namespace GccCil.Gcc.Bitmap

open Lib

variable {β : Type} [DecidableEq β] {wordBits : Nat}

variable {s s' : Store β wordBits} {lists lists' : β → List Nat} {free free' : List (List Nat)}
  {a b : β}

omit [DecidableEq β] in
theorem Cut.changes {l m : List Nat} (cut : Cut s s' a l m)
    (same : ∀ c, c ≠ a → lists' c = lists c) : OnlyChanges s s' lists lists' a :=
  ⟨same, fun _ _ x _ => congrFun cut.indx x, fun _ _ x _ => congrFun cut.bits x,
    fun c other => (cut.others c other).1, fun c other => (cut.others c other).2, cut.used.ge⟩

theorem clear_spec (consistent : Consistent s lists free) (a : β) :
    ∃ s', s.clear a = some s' ∧ Updates s s' lists a [] := by
  have isFirst := consistent.linked.first a
  obtain ⟨s', free', isCleared, linked, cut⟩ :=
    eltClearFrom_spec (l := []) consistent.linked rfl (consistent.looks a)
  have isNone : s'.current a = none := by
    by_cases isEmpty : lists a = []
    · rw [cut.whole isEmpty]
      obtain ⟨-, isNone⟩ | ⟨c, member, -⟩ := consistent.looks a
      · exact isNone
      · rw [isEmpty] at member
        exact absurd member List.not_mem_nil
    · exact cut.emptied isEmpty rfl
  have isEmpty : Function.update lists a [] a = [] := Function.update_self _ _ _
  have changes : OnlyChanges s s' lists (Function.update lists a []) a :=
    cut.changes fun c other => Function.update_of_ne other _ _
  refine ⟨s', ?_, _, free', consistent.update linked changes ?_ ?_ ?_ ?_, ?_, changes⟩
  · rw [Store.clear, isFirst, isCleared]
  · rw [isEmpty]
    exact Or.inl ⟨rfl, isNone⟩
  · intro c isCurrent
    rw [isNone] at isCurrent
    cases isCurrent
  · rw [isEmpty]
    exact List.Pairwise.nil
  · rw [isEmpty]
    exact fun _ absent => absurd absent List.not_mem_nil
  · rw [isEmpty]
    rfl

theorem append_spec (focus : Focus s lists free a done []) (fresh : Fresh s a) {x indx : Nat}
    (loose : Loose lists free s.used x) (isIndx : s.indx x = indx) :
    Focus (s.append a done.getLast? x indx) (Function.update lists a (done ++ [x])) free a
        (done ++ [x]) [] ∧
      Fresh (s.append a done.getLast? x indx) a ∧
      (s.append a done.getLast? x indx).indx = s.indx ∧
      (s.append a done.getLast? x indx).bits = s.bits ∧
      OnlyChanges s (s.append a done.getLast? x indx) lists
        (Function.update lists a (done ++ [x])) a := by
  have isList := focus.isList
  have looks := focus.looks
  have isFirst := focus.linked.first a
  rw [List.append_nil] at isList
  rw [isList] at looks isFirst
  have others : ∀ c, c ≠ a → Function.update lists a (done ++ [x]) c = lists c :=
    fun c other => Function.update_of_ne other _ _
  cases done using List.reverseRecOn with
  | nil =>
    have linked : Linked (s.append a none x indx) (Function.update lists a [x]) free :=
      focus.linked.put [] [] isList loose rfl rfl rfl rfl rfl
    refine ⟨⟨linked, Function.update_self _ _ _, ?_⟩, ?_, rfl, rfl, others, fun _ _ _ _ => rfl,
      fun _ _ _ _ => rfl, fun c other => Function.update_of_ne other _ _,
      fun c other => Function.update_of_ne other _ _, Nat.le_refl _⟩
    · rw [Function.update_self]
      exact Or.inr ⟨x, by simp, Function.update_self _ _ _⟩
    · intro c isCurrent
      change Function.update s.current a (some x) a = some c at isCurrent
      change Function.update s.headIndx a indx a = s.indx c
      rw [Function.update_self, Option.some.injEq] at isCurrent
      rw [Function.update_self, ← isCurrent, isIndx]
  | append_singleton done p =>
    rw [List.getLast?_append_cons]
    have other : p ≠ x := by
      rintro rfl
      apply loose.notListed a
      rw [isList]
      simp
    have linked : Linked (s.append a (some p) x indx)
        (Function.update lists a (done ++ [p] ++ [x])) free := by
      refine focus.linked.put (done ++ [p]) [] (isList.trans (List.append_nil _).symm) loose
        ?_ ?_ ?_ rfl rfl
      · rw [List.getLast?_append_cons]
        exact Function.update_comm other.symm _ _ _
      · rw [List.getLast?_append_cons]
        rfl
      · have sameHead : (done ++ [p] ++ [x]).head? = (done ++ [p]).head? := by cases done <;> rfl
        rw [sameHead, ← isFirst, Function.update_eq_self]
        rfl
    refine ⟨⟨linked, ?_, ?_⟩, fresh, rfl, rfl, others, fun _ _ _ _ => rfl, fun _ _ _ _ => rfl,
      fun _ _ => rfl, fun _ _ => rfl, Nat.le_refl _⟩
    · rw [Function.update_self, List.append_nil]
    · rw [Function.update_self]
      obtain ⟨isEmpty, -⟩ | ⟨c, member, isCurrent⟩ := looks
      · simp at isEmpty
      · exact Or.inr ⟨c, List.mem_append_left _ member, isCurrent⟩

theorem copyLoop_spec (other : b ≠ a) :
    ∀ (fuel : Nat) (s : Store β wordBits) (lists : β → List Nat) (free : List (List Nat))
      (done bDone bTodo : List Nat), Focus s lists free a done [] → Fresh s a →
      lists b = bDone ++ bTodo → bTodo.length < fuel →
      ∃ s' lists' free' done', Store.copyLoop a fuel bTodo.head? done.getLast? s = some s' ∧
        Focus s' lists' free' a done' [] ∧ Fresh s' a ∧
        contents s' done' = contents s done ++ contents s bTodo ∧
        OnlyChanges s s' lists lists' a := by
  intro fuel
  induction fuel with
  | zero => exact fun _ _ _ _ _ _ _ _ _ enough => absurd enough (Nat.not_lt_zero _)
  | succ fuel ih =>
    intro s lists free done bDone bTodo focus fresh isB enough
    cases bTodo with
    | nil =>
      refine ⟨s, lists, free, done, rfl, focus, fresh, ?_, OnlyChanges.refl⟩
      rw [contents_nil, List.append_nil]
    | cons y bTodo =>
      obtain ⟨free', allocated⟩ := elementAllocate_spec focus.linked
      have yListed : y ∈ lists b := by
        rw [isB]
        simp
      rw [List.head?_cons, Store.copyLoop]
      dsimp only
      generalize s.elementAllocate = allocation at allocated ⊢
      obtain ⟨x, t⟩ := allocation
      dsimp only at allocated ⊢
      have yNe : y ≠ x := fun isX => allocated.loose.notListed b (isX ▸ yListed)
      rw [allocated.bits, Function.update_of_ne yNe, allocated.indx]
      have prepared := allocated.prepare (s.indx y) (s.bits y)
      generalize (t.setIndx x (s.indx y)).setBits x (s.bits y) = u at prepared ⊢
      have focus' : Focus u lists free' a done [] :=
        ⟨prepared.linked, focus.isList, prepared.looks focus.looks⟩
      obtain ⟨appended, fresh', isIndx, isBits, changes⟩ := append_spec focus'
        (prepared.fresh focus.looks fresh) prepared.loose prepared.isIndx
      rw [prepared.sameIndx b y yListed]
      have isB' : Function.update lists a (done ++ [x]) b = (bDone ++ [y]) ++ bTodo := by
        rw [changes.sameLists b other, isB, List.append_cons]
      have isNext := next_of_list appended.linked (isB'.trans (by simp :
        (bDone ++ [y]) ++ bTodo = bDone ++ y :: bTodo))
      have listedDone : ∀ z ∈ done, z ∈ lists a := by
        rw [focus.isList]
        exact fun z member => List.mem_append_left _ member
      have listedTodo : ∀ z ∈ bTodo, z ∈ lists b := by
        rw [isB]
        exact fun z member => List.mem_append_right _ (List.mem_cons_of_mem _ member)
      have sameDone := prepared.contents a listedDone
      have sameTodo := prepared.contents b listedTodo
      have isX : (u.indx x, u.bits x) = (s.indx y, s.bits y) := by
        rw [prepared.isIndx, prepared.isBits]
      generalize u.append a done.getLast? x (s.indx y) = v at *
      have same : ∀ l, contents v l = contents u l := fun l =>
        contents_congr (fun z _ => congrFun isIndx z) fun z _ => congrFun isBits z
      obtain ⟨s', lists', free'', done', isLoop, focus'', fresh'', isContents, more⟩ :=
        ih v _ free' (done ++ [x]) (bDone ++ [y]) bTodo appended fresh' isB'
          (Nat.lt_of_succ_lt_succ enough)
      refine ⟨s', lists', free'', done', ?_, focus'', fresh'', ?_,
        ((prepared.changes a).trans changes).trans more⟩
      · rw [isNext, ← isLoop, List.getLast?_append_cons]
        rfl
      · rw [isContents, same, same, contents_append, contents_cons, sameDone, sameTodo, isX,
          contents_nil, contents_cons, List.append_assoc]
        rfl

theorem copy_spec (consistent : Consistent s lists free) (other : b ≠ a) :
    ∃ s', s.copy a b = some s' ∧ Updates s s' lists a (contents s (lists b)) := by
  obtain ⟨t, isCleared, lists₁, free₁, cleared, isEmpty, changes⟩ := clear_spec consistent a
  have isEmptyList : lists₁ a = [] := contents_eq_nil.mp isEmpty
  have sameB := changes.sameLists b other
  have isFirst := cleared.linked.first b
  have enough : (lists₁ b).length < t.fuel := by
    have short := cleared.linked.length_le b
    unfold Store.fuel
    omega
  have looks := cleared.looks a
  obtain ⟨s', lists', free', done', isLoop, focus, fresh, isContents, more⟩ :=
    copyLoop_spec other t.fuel t lists₁ free₁ [] [] (lists₁ b)
      ⟨cleared.linked, isEmptyList, looks⟩ (cleared.fresh a) rfl enough
  have sameContents : contents t (lists₁ b) = contents s (lists b) := by
    rw [sameB]
    exact changes.contents other fun _ member => member
  have isList : lists' a = done' := by rw [focus.isList, List.append_nil]
  rw [contents_nil, List.nil_append, sameContents, ← isList] at isContents
  refine ⟨s', ?_, lists', free', cleared.update focus.linked more focus.looks fresh ?_ ?_,
    isContents, changes.trans more⟩
  · rw [Store.copy, isCleared, Option.bind_some, isFirst]
    exact isLoop
  · rw [isContents]
    exact consistent.increasing b
  · rw [isContents]
    exact consistent.nonzero b

theorem IntoOp.computes (op : IntoOp wordBits) (f : Bool → Bool → Bool)
    (left : f true false = op.keepA) (right : f false true = op.keepB)
    (neither : f false false = false)
    (pointwise : ∀ x y bit, (op.combine x y).test bit = f (x.test bit) (y.test bit)) :
    Computes op.keepA op.keepB op.join f where
  left := left
  right := right
  neither := neither
  both := by
    intro x y z joined bit
    unfold IntoOp.join at joined
    split at joined
    · cases joined
    · rw [← Option.some.inj joined, pointwise]
  empty := by
    intro x y joined bit
    unfold IntoOp.join at joined
    split at joined
    · rename_i isZero
      rw [← pointwise, isZero.2, zeroBits_test]
    · cases joined

section Operations

variable (wide : 0 < wordBits)
include wide

theorem andOp_computes : Computes false false (Store.andOp : IntoOp wordBits).join (· && ·) := by
  refine IntoOp.computes Store.andOp _ rfl rfl rfl fun x y bit => ?_
  rw [test_eq wide, test_eq wide, test_eq wide]
  exact BitVec.getLsbD_and

theorem andComplOp_computes :
    Computes true false (Store.andComplOp : IntoOp wordBits).join fun p q => p && !q := by
  refine IntoOp.computes Store.andComplOp _ rfl rfl rfl fun x y bit => ?_
  rw [test_eq wide, test_eq wide, test_eq wide]
  have isWord : Store.andComplOp.combine x y (wordOf wide bit) =
      x (wordOf wide bit) ^^^ (x (wordOf wide bit) &&& y (wordOf wide bit)) := rfl
  rw [isWord, BitVec.getLsbD_xor, BitVec.getLsbD_and]
  cases (x (wordOf wide bit)).getLsbD (bit % wordBits) <;>
    cases (y (wordOf wide bit)).getLsbD (bit % wordBits) <;> rfl

theorem iorOp_computes : Computes true true (Store.iorOp : IntoOp wordBits).join (· || ·) := by
  refine IntoOp.computes Store.iorOp _ rfl rfl rfl fun x y bit => ?_
  rw [test_eq wide, test_eq wide, test_eq wide]
  exact BitVec.getLsbD_or

theorem xorOp_computes : Computes true true (Store.xorOp : IntoOp wordBits).join (· ^^ ·) := by
  refine IntoOp.computes Store.xorOp _ rfl rfl rfl fun x y bit => ?_
  rw [test_eq wide, test_eq wide, test_eq wide]
  exact BitVec.getLsbD_xor

end Operations

/-- Two elements without zero words only leave such an element, or none. -/
def IntoOp.Nonzero (op : IntoOp wordBits) : Prop :=
  ∀ x y z, x ≠ zeroBits → op.join x y = some z → z ≠ zeroBits

theorem IntoOp.nonzero_of_frees {op : IntoOp wordBits} (frees : op.freesZero = true) :
    op.Nonzero := by
  rintro x y z - joined rfl
  unfold IntoOp.join at joined
  split at joined
  · cases joined
  · rename_i notFreed
    exact notFreed ⟨frees, Option.some.inj joined⟩

theorem iorOp_nonzero : (Store.iorOp : IntoOp wordBits).Nonzero := by
  rintro x y z nonzero joined rfl
  apply nonzero
  unfold IntoOp.join at joined
  split at joined
  · cases joined
  · funext ix
    have isZero : Store.iorOp.combine x y ix = zeroBits ix := congrFun (Option.some.inj joined) ix
    exact (BitVec.or_eq_zero_iff.mp isZero).1

theorem nonzero_mergeWith {op : IntoOp wordBits} (nonzero : op.Nonzero)
    {left right : List (Nat × Bits wordBits)} (leftIncreasing : Increasing left)
    (rightIncreasing : Increasing right) (leftNonzero : ∀ block ∈ left, block.2 ≠ zeroBits)
    (rightNonzero : ∀ block ∈ right, block.2 ≠ zeroBits) :
    ∀ block ∈ mergeWith op.keepA op.keepB op.join left right, block.2 ≠ zeroBits := by
  rintro ⟨indx, z⟩ member
  obtain ⟨x, y, isLeft, -, joined⟩ | ⟨-, isLeft, -⟩ | ⟨-, isRight, -⟩ :=
    (mem_mergeWith leftIncreasing rightIncreasing).mp member
  · exact nonzero x y z (leftNonzero _ isLeft) joined
  · exact leftNonzero _ isLeft
  · exact rightNonzero _ isRight

theorem reports_iff {op : IntoOp wordBits} (keeps : op.keepA = true)
    (decides : ∀ x y, op.changes x y = true ↔ op.combine x y ≠ x)
    {left right : List (Nat × Bits wordBits)} (leftIncreasing : Increasing left)
    (rightIncreasing : Increasing right) (leftNonzero : ∀ block ∈ left, block.2 ≠ zeroBits) :
    op.reports left right = true ↔ mergeWith op.keepA op.keepB op.join left right ≠ left := by
  induction left, right using mergeWith.induct with
  | case1 right =>
    rw [mergeWith]
    cases right with
    | nil => simp [IntoOp.reports, kept]
    | cons block right =>
      rw [IntoOp.reports, kept]
      cases op.keepB <;> simp
  | case2 left nonempty =>
    obtain ⟨block, left, rfl⟩ := List.exists_cons_of_ne_nil nonempty
    rw [mergeWith_nil_right, keeps, IntoOp.reports]
    simp [kept]
  | case3 i x left j y right less ih =>
    obtain ⟨-, leftIncreasing⟩ := List.pairwise_cons.mp leftIncreasing
    rw [IntoOp.reports, mergeWith, if_pos less, if_pos less, keeps,
      ih leftIncreasing rightIncreasing
        fun block member => leftNonzero block (List.mem_cons_of_mem _ member), keeps]
    simp [kept]
  | case4 i x left j y right notLess greater ih =>
    obtain ⟨-, rightIncreasing⟩ := List.pairwise_cons.mp rightIncreasing
    rw [IntoOp.reports, mergeWith, if_neg notLess, if_neg notLess, if_pos greater,
      if_pos greater]
    cases keepsB : op.keepB with
    | true => simp [kept, greater.ne]
    | false =>
      rw [keepsB] at ih
      rw [Bool.false_or, ih leftIncreasing rightIncreasing leftNonzero]
      simp [kept]
  | case5 i x left j y right notLess notGreater ih =>
    obtain rfl : i = j := le_antisymm (not_lt.mp notGreater) (not_lt.mp notLess)
    obtain ⟨above, leftIncreasing⟩ := List.pairwise_cons.mp leftIncreasing
    obtain ⟨aboveRight, rightIncreasing⟩ := List.pairwise_cons.mp rightIncreasing
    rw [IntoOp.reports, mergeWith, if_neg notLess, if_neg notLess, if_neg notGreater,
      if_neg notGreater, Bool.or_eq_true, decides,
      ih leftIncreasing rightIncreasing
        fun block member => leftNonzero block (List.mem_cons_of_mem _ member)]
    unfold IntoOp.join
    split
    · rename_i isZero
      have differs : op.combine x y ≠ x := by
        rw [isZero.2]
        exact (leftNonzero _ List.mem_cons_self).symm
      refine iff_of_true (Or.inl differs) ?_
      intro same
      have later := lt_mergeWith leftIncreasing rightIncreasing above aboveRight (i, x)
        (same ▸ List.mem_cons_self)
      exact lt_irrefl i later
    · simp only [Option.map_some, Option.toList_some, List.singleton_append, ne_eq,
        List.cons.injEq, Prod.mk.injEq, true_and]
      exact not_and_or.symm

theorem intoLoop_consistent (op : IntoOp wordBits) (other : a ≠ b)
    (consistent : Consistent s lists free) :
    ∃ s' lists' free' done rest,
      Store.intoLoop op a s.fuel none (s.first a) (s.first b) false s =
        some (rest.head?, op.reports (contents s (lists a)) (contents s (lists b)), s') ∧
      Merges op s s' lists lists' free' a [] (lists a) (lists b) done rest := by
  have focus : Focus s lists free a [] (lists a) :=
    ⟨consistent.linked, rfl, consistent.looks a⟩
  have shortA := consistent.linked.length_le a
  have shortB := consistent.linked.length_le b
  have enough : (lists a).length + (lists b).length < s.fuel := by
    unfold Store.fuel
    omega
  obtain ⟨s', lists', free', done, rest, isLoop, merges⟩ :=
    intoLoop_spec op other s.fuel s lists free [] (lists a) [] (lists b) false focus rfl enough
  refine ⟨s', lists', free', done, rest, ?_, merges⟩
  rw [consistent.linked.first a, consistent.linked.first b]
  exact isLoop

omit [DecidableEq β] in
theorem assertions (linked : Linked s lists free) (looks : Looks s a (lists a)) :
    s.assertCurrent a = some s ∧ (Fresh s a → s.assertIndx a = some s) := by
  have isFirst := linked.first a
  constructor
  · unfold Store.assertCurrent
    apply if_pos
    rw [isFirst]
    obtain ⟨isEmpty, isNone⟩ | ⟨c, member, isSome⟩ := looks
    · rw [isEmpty, isNone]
      rfl
    · obtain ⟨x, l, isList⟩ := List.exists_cons_of_ne_nil (List.ne_nil_of_mem member)
      rw [isList, isSome]
      rfl
  · intro fresh
    unfold Store.assertIndx
    split
    · rename_i c isCurrent
      exact if_pos (fresh c isCurrent)
    · rfl

theorem updateIndx_spec (linked : Linked s lists free) (a : β) :
    Linked (s.updateIndx a) lists free ∧ (s.updateIndx a).current = s.current ∧
      Fresh (s.updateIndx a) a ∧ (s.updateIndx a).indx = s.indx ∧
      (s.updateIndx a).bits = s.bits ∧ OnlyChanges s (s.updateIndx a) lists lists a := by
  unfold Store.updateIndx
  split
  · rename_i c isCurrent
    refine ⟨linked.frame (fun _ _ => rfl) (fun _ _ => rfl) rfl rfl rfl, rfl, ?_, rfl, rfl,
      fun _ _ => rfl, fun _ _ _ _ => rfl, fun _ _ _ _ => rfl, fun _ _ => rfl,
      fun c other => Function.update_of_ne other _ _, Nat.le_refl _⟩
    intro c' isCurrent'
    change s.current a = some c' at isCurrent'
    change Function.update s.headIndx a (s.indx c) a = s.indx c'
    rw [isCurrent, Option.some.injEq] at isCurrent'
    rw [Function.update_self, isCurrent']
  · rename_i isNone
    refine ⟨linked, rfl, ?_, rfl, rfl, OnlyChanges.refl⟩
    intro c isCurrent
    rw [isNone] at isCurrent
    cases isCurrent

def merged (op : IntoOp wordBits) (s : Store β wordBits) (lists : β → List Nat) (a b : β) :
    List (Nat × Bits wordBits) :=
  mergeWith op.keepA op.keepB op.join (contents s (lists a)) (contents s (lists b))

omit [DecidableEq β] in
theorem Consistent.merge (consistent : Consistent s lists free) {op : IntoOp wordBits}
    (nonzero : op.Nonzero) (linked : Linked s' lists' free')
    (changes : OnlyChanges s s' lists lists' a) (looks : Looks s' a (lists' a))
    (fresh : Fresh s' a) (isMerge : contents s' (lists' a) = merged op s lists a b) :
    Updates s s' lists a (merged op s lists a b) := by
  refine ⟨lists', free', consistent.update linked changes looks fresh ?_ ?_, isMerge, changes⟩
  · rw [isMerge]
    exact increasing_mergeWith (consistent.increasing a) (consistent.increasing b)
  · rw [isMerge]
    exact nonzero_mergeWith nonzero (consistent.increasing a) (consistent.increasing b)
      (consistent.nonzero a) (consistent.nonzero b)

theorem andComplInto_spec (consistent : Consistent s lists free) (other : a ≠ b) :
    ∃ s', s.andComplInto a b = some (Store.andComplOp.reports (contents s (lists a))
        (contents s (lists b)), s') ∧
      Updates s s' lists a (merged Store.andComplOp s lists a b) := by
  obtain ⟨s', lists', free', done, rest, isLoop, merges⟩ :=
    intoLoop_consistent Store.andComplOp other consistent
  have fresh := (merges.shrinks rfl).fresh (consistent.fresh a)
  have isMerge : contents s' (lists' a) = merged Store.andComplOp s lists a b := by
    rw [merges.focus.isList, contents_append]
    exact merges.merge
  obtain ⟨isCurrent, isIndx⟩ := assertions merges.focus.linked merges.focus.looks
  refine ⟨s', ?_, consistent.merge (IntoOp.nonzero_of_frees rfl) merges.focus.linked
    merges.changes merges.focus.looks fresh isMerge⟩
  rw [Store.andComplInto, if_neg other, isLoop, Option.bind_some]
  dsimp only
  rw [isCurrent, Option.bind_some, isIndx fresh]
  rfl

theorem insertsInto (op : IntoOp wordBits) (nonzero : op.Nonzero) (keepsA : op.keepA = true)
    (consistent : Consistent s lists free) (other : a ≠ b) :
    ∃ t head, Store.intoLoop op a s.fuel none (s.first a) (s.first b) false s =
        some (head, op.reports (contents s (lists a)) (contents s (lists b)), t) ∧
      t.assertCurrent a = some t ∧
      Updates s (t.updateIndx a) lists a (merged op s lists a b) := by
  obtain ⟨t, lists', free', done, rest, isLoop, merges⟩ :=
    intoLoop_consistent op other consistent
  obtain ⟨linked, current, fresh, isIndx, isBits, changes⟩ :=
    updateIndx_spec merges.focus.linked a
  have looks : Looks (t.updateIndx a) a (lists' a) := by
    have before := merges.focus.looks
    unfold Looks at before ⊢
    rwa [current]
  have isMerge : contents (t.updateIndx a) (lists' a) = merged op s lists a b := by
    rw [contents_congr (fun x _ => congrFun isIndx x) fun x _ => congrFun isBits x,
      merges.focus.isList, contents_append]
    have merge := merges.merge
    rw [keepsA] at merge
    rw [merged, keepsA]
    exact merge
  exact ⟨t, _, isLoop, (assertions merges.focus.linked merges.focus.looks).1,
    consistent.merge nonzero linked (merges.changes.trans changes) looks fresh isMerge⟩

theorem iorInto_spec (consistent : Consistent s lists free) (other : a ≠ b) :
    ∃ s', s.iorInto a b = some (Store.iorOp.reports (contents s (lists a)) (contents s (lists b)),
        s') ∧ Updates s s' lists a (merged Store.iorOp s lists a b) := by
  obtain ⟨t, head, isLoop, isCurrent, updates⟩ :=
    insertsInto Store.iorOp iorOp_nonzero rfl consistent other
  refine ⟨t.updateIndx a, ?_, updates⟩
  rw [Store.iorInto, if_neg other, isLoop, Option.bind_some]
  dsimp only
  rw [isCurrent]
  rfl

theorem xorInto_spec (consistent : Consistent s lists free) (other : a ≠ b) :
    ∃ s', s.xorInto a b = some s' ∧ Updates s s' lists a (merged Store.xorOp s lists a b) := by
  obtain ⟨t, head, isLoop, isCurrent, updates⟩ :=
    insertsInto Store.xorOp (IntoOp.nonzero_of_frees rfl) rfl consistent other
  refine ⟨t.updateIndx a, ?_, updates⟩
  rw [Store.xorInto, if_neg other, isLoop, Option.bind_some]
  dsimp only
  rw [isCurrent]
  rfl

theorem andInto_spec (consistent : Consistent s lists free) (other : a ≠ b) :
    ∃ s', s.andInto a b = some s' ∧ Updates s s' lists a (merged Store.andOp s lists a b) := by
  obtain ⟨t, lists', free', done, rest, isLoop, merges⟩ :=
    intoLoop_consistent Store.andOp other consistent
  obtain ⟨sublist, isIndx, fresh⟩ := merges.shrinks rfl
  have fresh := fresh (consistent.fresh a)
  have looks := merges.focus.looks
  obtain ⟨s', free'', isCut, linked, cut⟩ :=
    eltClearFrom_spec merges.focus.linked merges.focus.isList looks
  have ordered : (done ++ rest).Pairwise fun x y => t.indx x < t.indx y := by
    rw [isIndx]
    exact (increasing_contents (consistent.increasing a)).sublist sublist
  have stays : Looks s' a done ∧ Fresh s' a := by
    rw [merges.focus.isList] at looks
    by_cases isWhole : rest = []
    · rw [cut.whole isWhole]
      rw [isWhole, List.append_nil] at looks
      exact ⟨looks, fresh⟩
    · cases done using List.reverseRecOn with
      | nil =>
        have isNone := cut.emptied isWhole rfl
        refine ⟨Or.inl ⟨rfl, isNone⟩, ?_⟩
        intro c isCurrent
        rw [isNone] at isCurrent
        cases isCurrent
      | append_singleton done p =>
        obtain ⟨isEmpty, -⟩ | ⟨c, member, isCurrent⟩ := looks
        · simp at isEmpty
        · have isLast : (done ++ [p]).getLast? = some p := by simp
          obtain ⟨current, headIndx⟩ := cut.moved p c isWhole isLast isCurrent
          have isFresh := fresh c isCurrent
          by_cases after : t.indx c > t.indx p
          · rw [if_pos after] at current headIndx
            refine ⟨Or.inr ⟨p, by simp, current⟩, ?_⟩
            intro c' isCurrent'
            rw [current, Option.some.injEq] at isCurrent'
            rw [headIndx, cut.indx, isCurrent']
          · rw [if_neg after] at current headIndx
            refine ⟨Or.inr ⟨c, ?_, current⟩, ?_⟩
            · obtain early | late := List.mem_append.mp member
              · exact early
              · exact absurd ((List.pairwise_append.mp ordered).2.2 p (by simp) c late) after
            · intro c' isCurrent'
              rw [current, Option.some.injEq] at isCurrent'
              rw [headIndx, cut.indx, ← isCurrent', isFresh]
  obtain ⟨looks', fresh'⟩ := stays
  have isDone : Function.update lists' a done a = done := Function.update_self _ _ _
  have changes : OnlyChanges t s' lists' (Function.update lists' a done) a :=
    cut.changes fun c different => Function.update_of_ne different _ _
  have isMerge : contents s' (Function.update lists' a done a) =
      merged Store.andOp s lists a b := by
    rw [isDone, contents_congr (fun x _ => congrFun cut.indx x) fun x _ => congrFun cut.bits x]
    have merge := merges.merge
    have noRest : kept (Store.andOp : IntoOp wordBits).keepA (contents t rest) = [] := rfl
    rw [noRest, List.append_nil] at merge
    exact merge
  obtain ⟨isCurrent, isIndx'⟩ := assertions linked (isDone.symm ▸ looks')
  refine ⟨s', ?_, consistent.merge (IntoOp.nonzero_of_frees rfl) linked
    (merges.changes.trans changes) (isDone.symm ▸ looks') fresh' isMerge⟩
  rw [Store.andInto, if_neg other, isLoop, Option.bind_some]
  dsimp only
  rw [isCut, Option.bind_some, isCurrent, Option.bind_some, isIndx' fresh']

end GccCil.Gcc.Bitmap
