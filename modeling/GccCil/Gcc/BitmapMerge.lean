import GccCil.Gcc.BitmapInto

/-!
# The loops of the operations on three bitmaps

A loop goes through the lists of two bitmaps and writes their merge over the
elements of a third one.  An element without bits is written over again.
-/

namespace GccCil.Gcc.Bitmap

open Lib

variable {β : Type} {wordBits : Nat}

def ThreeOp.join (op : ThreeOp wordBits) (x y : Bits wordBits) : Option (Bits wordBits) :=
  if op.skipsZero = true ∧ op.combine x y = zeroBits then none else some (op.combine x y)

def ThreeOp.merge (op : ThreeOp wordBits) (left right : List (Nat × Bits wordBits)) :
    List (Nat × Bits wordBits) := mergeWith op.keepA op.keepB op.join left right

def IsSkipped (left right news : List (Nat × Bits wordBits)) (indx : Nat) : Prop :=
  HasKey left indx ∧ HasKey right indx ∧ ∀ block ∈ news, block.1 < indx

variable {s s' t : Store β wordBits} {lists lists' lists₁ : β → List Nat}
  {free free' : List (List Nat)} {dst a b : β} {done rest done' rest' : List Nat}

structure Wrote (s s' : Store β wordBits) (lists lists' : β → List Nat) (free' : List (List Nat))
    (dst : β) (done rest done' rest' : List Nat) (left right news : List (Nat × Bits wordBits)) :
    Prop where
  focus : Focus s' lists' free' dst done' rest'
  changes : OnlyChanges s s' lists lists' dst
  isDone : contents s' done' = contents s done ++ news
  whole : ∃ more, done' ++ rest' = done ++ rest ++ more
  current : s'.current dst = (s.current dst).or (done' ++ rest').head?
  tail : ∀ x ∈ rest, x ∈ rest' → rest'.head? ≠ some x → s'.indx x = s.indx x
  skipped : ∀ x, rest'.head? = some x → (∃ indx, IsSkipped left right news indx) →
    IsSkipped left right news (s'.indx x)
  same : ∀ x ∈ rest, rest'.head? = some x → (¬∃ indx, IsSkipped left right news indx) →
    s'.indx x = s.indx x

structure WroteOne (s s' : Store β wordBits) (lists lists' : β → List Nat)
    (free' : List (List Nat)) (dst : β) (done rest : List Nat) (x indx : Nat)
    (r : Bits wordBits) : Prop where
  focus : Focus s' lists' free' dst done (x :: rest.tail)
  changes : OnlyChanges s s' lists lists' dst
  isDone : contents s' done = contents s done
  isRest : contents s' (x :: rest.tail) = (indx, r) :: contents s rest.tail
  reused : rest = [] ∨ rest = x :: rest.tail
  others : ∀ y ∈ rest, y ≠ x → s'.indx y = s.indx y
  current : s'.current dst = (s.current dst).or (done ++ x :: rest.tail).head?

theorem writeElt_spec [DecidableEq β] (op : ThreeOp wordBits)
    (focus : Focus s lists free dst done rest) (changed : Bool) (indx : Nat)
    (r : Bits wordBits) :
    ∃ changed' x s' lists' free',
      s.writeElt op dst changed done.getLast? rest.head? indx r = some (changed', x, s') ∧
      WroteOne s s' lists lists' free' dst done rest x indx r ∧
      (op.compares = true →
        (changed' = true ↔ changed = true ∨ ¬[(indx, r)] <+: contents s rest)) := by
  cases rest with
  | nil =>
    obtain ⟨x, t, lists', free', isInserted, -, focus', isDone, -, changes, current⟩ :=
      focus.copy indx r
    have isList := focus'.isList
    rw [List.append_nil] at isList
    obtain ⟨sameDone, isNew⟩ := List.append_inj (contents_append _ done [x] ▸ isDone)
      (by rw [contents, contents, List.length_map, List.length_map])
    refine ⟨true, x, (t.setIndx x indx).setBits x r, lists', free', ?_,
      ⟨⟨focus'.linked, isList, focus'.looks⟩, changes, sameDone, isNew, Or.inl rfl, nofun, ?_⟩, ?_⟩
    · change Option.map _ (s.eltInsertAfter dst done.getLast?) = _
      rw [isInserted]
      rfl
    · change t.current dst = _
      rw [current]
      obtain ⟨isEmpty, isNone⟩ | ⟨c, -, isCurrent⟩ := focus.looks
      · rw [focus.isList, List.append_nil] at isEmpty
        rw [isNone, isEmpty]
        rfl
      · rw [isCurrent]
        rfl
    · intro _
      simp
  | cons x rest =>
    obtain ⟨focus', isDone, isRest, changes⟩ := focus.overwrite indx r
    refine ⟨_, x, _, lists, free, rfl, ⟨focus', changes, isDone, isRest, Or.inr rfl, ?_, ?_⟩, ?_⟩
    · exact fun y _ other => Function.update_of_ne other _ _
    · change s.current dst = _
      obtain ⟨isEmpty, -⟩ | ⟨c, -, isCurrent⟩ := focus.looks
      · rw [focus.isList] at isEmpty
        simp at isEmpty
      · rw [isCurrent]
        rfl
    · intro compares
      rw [contents_cons, List.singleton_prefix_cons_iff, Prod.mk.injEq]
      split
      · rename_i compared
        obtain ⟨-, unchanged, sameIndx⟩ := compared
        rw [decide_eq_true_iff, unchanged, sameIndx]
        simp [funext_iff]
      · rename_i notCompared
        refine iff_of_true rfl ?_
        cases changed with
        | true => exact Or.inl rfl
        | false =>
          right
          rintro ⟨sameIndx, -⟩
          exact notCompared ⟨compares, rfl, sameIndx.symm⟩

section Steps

variable {left right left₁ right₁ news : List (Nat × Bits wordBits)} {x indx : Nat}
  {r : Bits wordBits}

theorem Wrote.done_prefix
    (wrote : Wrote s s' lists lists' free' dst done rest done' rest' left right news) :
    done <+: done' := by
  obtain ⟨more, whole⟩ := wrote.whole
  have lengths := congrArg List.length wrote.isDone
  rw [List.length_append, contents, contents, List.length_map, List.length_map] at lengths
  have isPrefix : done <+: done' ++ rest' := by
    rw [whole, List.append_assoc]
    exact List.prefix_append _ _
  exact List.prefix_of_prefix_length_le isPrefix (List.prefix_append _ _) (by omega)

theorem Wrote.length_done
    (wrote : Wrote s s' lists lists' free' dst done rest done' rest' left right news) :
    done'.length = done.length + news.length := by
  have lengths := congrArg List.length wrote.isDone
  rwa [List.length_append, contents, contents, List.length_map, List.length_map] at lengths

theorem Wrote.next_of_mem
    (wrote : Wrote s s' lists lists' free' dst done (x :: rest) done' rest' left right news)
    (member : x ∈ rest') : news = [] ∧ rest'.head? = some x := by
  obtain ⟨more, whole⟩ := wrote.whole
  obtain ⟨written, rfl⟩ := wrote.done_prefix
  have lengths := wrote.length_done
  rw [List.length_append] at lengths
  rw [List.append_assoc, List.append_assoc, List.append_cancel_left_eq] at whole
  cases written with
  | nil =>
    refine ⟨List.length_eq_zero_iff.mp (by simpa using lengths), ?_⟩
    rw [List.nil_append] at whole
    rw [whole]
    rfl
  | cons y written =>
    rw [List.cons_append, List.cons_append, List.cons.injEq] at whole
    have apart := (List.nodup_append.mp wrote.focus.nodup).2.2 y (by simp) x member
    exact absurd whole.1 apart

theorem WroteOne.whole (one : WroteOne s t lists lists₁ free dst done rest x indx r)
    (more : List Nat) : ∃ more', done ++ x :: rest.tail ++ more = done ++ rest ++ more' := by
  obtain isEmpty | isCons := one.reused
  · refine ⟨x :: more, ?_⟩
    rw [isEmpty]
    simp
  · refine ⟨more, ?_⟩
    rw [← isCons]

theorem WroteOne.isIndx (one : WroteOne s t lists lists₁ free dst done rest x indx r) :
    t.indx x = indx := (Prod.mk.inj (List.cons.inj one.isRest).1).1

theorem WroteOne.isTail (one : WroteOne s t lists lists₁ free dst done rest x indx r) :
    contents t rest.tail = contents s rest.tail := (List.cons.inj one.isRest).2

theorem WroteOne.mem_of_mem (one : WroteOne s t lists lists₁ free dst done rest x indx r) {y : Nat}
    (member : y ∈ rest) : y ∈ x :: rest.tail := by
  obtain isEmpty | isCons := one.reused
  · rw [isEmpty] at member
    exact absurd member List.not_mem_nil
  · rwa [← isCons]

theorem or_head {current first : Option Nat} : (current.or first).or first = current.or first := by
  cases current <;> cases first <;> rfl

theorem WroteOne.current_after (one : WroteOne s t lists lists₁ free dst done rest x indx r)
    {l more : List Nat} (whole : l = done ++ x :: rest.tail ++ more)
    (after : s'.current dst = (t.current dst).or l.head?) :
    s'.current dst = (s.current dst).or l.head? := by
  have sameHead : (done ++ x :: rest.tail).head? = l.head? := by
    rw [whole]
    cases done <;> rfl
  rw [after, one.current, sameHead, or_head]

theorem Wrote.keep (one : WroteOne s t lists lists₁ free dst done rest x indx r)
    (after : Wrote t s' lists₁ lists' free' dst (done ++ [x]) rest.tail done' rest' left₁ right₁
      news)
    (skips : ∀ i, IsSkipped left right ((indx, r) :: news) i ↔ IsSkipped left₁ right₁ news i) :
    Wrote s s' lists lists' free' dst done rest done' rest' left right ((indx, r) :: news) := by
  obtain ⟨more, whole⟩ := after.whole
  rw [← List.append_cons] at whole
  have written : x ∈ done' := after.done_prefix.subset (by simp)
  have notX : ∀ y ∈ rest', y ≠ x := by
    rintro y member rfl
    exact (List.nodup_append.mp after.focus.nodup).2.2 y written y member rfl
  have isTail : ∀ y ∈ rest, y ≠ x → y ∈ rest.tail := by
    intro y member other
    obtain isX | isTail := List.mem_cons.mp (one.mem_of_mem member)
    · exact absurd isX other
    · exact isTail
  constructor
  · exact after.focus
  · exact one.changes.trans after.changes
  · rw [after.isDone, contents_append, one.isDone, List.append_assoc]
    have isNew : contents t [x] = [(indx, r)] :=
      congrArg (fun block => [block]) (List.cons.inj one.isRest).1
    rw [isNew]
    rfl
  · rw [whole]
    exact one.whole more
  · exact one.current_after whole after.current
  · intro y member remains notHead
    have other := notX y remains
    rw [after.tail y (isTail y member other) remains notHead, one.others y member other]
  · intro y isHead someSkipped
    obtain ⟨i, isSkipped⟩ := someSkipped
    exact (skips _).mpr (after.skipped y isHead ⟨i, (skips i).mp isSkipped⟩)
  · intro y member isHead noneSkipped
    have other := notX y (List.mem_of_head? isHead)
    rw [after.same y (isTail y member other) isHead
      fun ⟨i, isSkipped⟩ => noneSkipped ⟨i, (skips i).mpr isSkipped⟩, one.others y member other]

theorem Wrote.skip (one : WroteOne s t lists lists₁ free dst done rest x indx r)
    (after : Wrote t s' lists₁ lists' free' dst done (x :: rest.tail) done' rest' left₁ right₁
      news)
    (both : ∀ i, HasKey left i ∧ HasKey right i ↔ i = indx ∨ (HasKey left₁ i ∧ HasKey right₁ i))
    (above : ∀ block ∈ news, indx < block.1) :
    Wrote s s' lists lists' free' dst done rest done' rest' left right news := by
  obtain ⟨more, whole⟩ := after.whole
  have widens : ∀ i, IsSkipped left₁ right₁ news i → IsSkipped left right news i := by
    rintro i ⟨isLeft, isRight, later⟩
    have isBoth := (both i).mpr (Or.inr ⟨isLeft, isRight⟩)
    exact ⟨isBoth.1, isBoth.2, later⟩
  have here : news = [] → IsSkipped left right news indx := by
    rintro rfl
    have isBoth := (both indx).mpr (Or.inl rfl)
    exact ⟨isBoth.1, isBoth.2, fun _ absent => absurd absent List.not_mem_nil⟩
  constructor
  · exact after.focus
  · exact one.changes.trans after.changes
  · rw [after.isDone, one.isDone]
  · rw [whole]
    exact one.whole more
  · exact one.current_after whole after.current
  · intro y member remains notHead
    have other : y ≠ x := by
      rintro rfl
      exact notHead (after.next_of_mem remains).2
    rw [after.tail y (one.mem_of_mem member) remains notHead, one.others y member other]
  · intro y isHead someSkipped
    by_cases later : ∃ i, IsSkipped left₁ right₁ news i
    · exact widens _ (after.skipped y isHead later)
    · obtain ⟨i, isLeft, isRight, afterAll⟩ := someSkipped
      obtain rfl | ⟨isLeft₁, isRight₁⟩ := (both i).mp ⟨isLeft, isRight⟩
      · have isEmpty : news = [] := by
          rw [List.eq_nil_iff_forall_not_mem]
          exact fun block member => lt_asymm (above block member) (afterAll block member)
        have sameDone : done = done' := by
          apply after.done_prefix.eq_of_length
          rw [after.length_done, isEmpty]
          rfl
        rw [← sameDone, List.append_assoc, List.append_cancel_left_eq] at whole
        rw [whole] at isHead
        obtain rfl : x = y := Option.some.inj isHead
        have isSame := after.same x List.mem_cons_self (by rw [whole]; rfl) later
        rw [isSame, one.isIndx]
        exact here isEmpty
      · exact absurd ⟨i, isLeft₁, isRight₁, afterAll⟩ later
  · intro y member isHead noneSkipped
    have other : y ≠ x := by
      rintro rfl
      have isEmpty := (after.next_of_mem (List.mem_of_head? isHead)).1
      exact noneSkipped ⟨indx, here isEmpty⟩
    rw [after.same y (one.mem_of_mem member) isHead
      fun ⟨i, isSkipped⟩ => noneSkipped ⟨i, widens i isSkipped⟩, one.others y member other]

theorem Wrote.stop (focus : Focus s lists free' dst done rest)
    (apart : ∀ i, ¬(HasKey left i ∧ HasKey right i)) :
    Wrote s s lists lists free' dst done rest done rest left right [] := by
  refine ⟨focus, OnlyChanges.refl, (List.append_nil _).symm, ⟨[], (List.append_nil _).symm⟩, ?_,
    fun _ _ _ _ => rfl, fun _ _ ⟨i, isLeft, isRight, _⟩ => absurd ⟨isLeft, isRight⟩ (apart i),
    fun _ _ _ _ => rfl⟩
  obtain ⟨isEmpty, isNone⟩ | ⟨c, -, isCurrent⟩ := focus.looks
  · rw [isNone, ← focus.isList, isEmpty]
    rfl
  · rw [isCurrent]
    rfl

theorem Wrote.pass
    (after : Wrote s s' lists lists' free' dst done rest done' rest' left₁ right₁ news)
    (skips : ∀ i, IsSkipped left right news i ↔ IsSkipped left₁ right₁ news i) :
    Wrote s s' lists lists' free' dst done rest done' rest' left right news where
  focus := after.focus
  changes := after.changes
  isDone := after.isDone
  whole := after.whole
  current := after.current
  tail := after.tail
  skipped := fun y isHead ⟨i, isSkipped⟩ =>
    (skips _).mpr (after.skipped y isHead ⟨i, (skips i).mp isSkipped⟩)
  same := fun y member isHead noneSkipped =>
    after.same y member isHead fun ⟨i, isSkipped⟩ => noneSkipped ⟨i, (skips i).mpr isSkipped⟩

end Steps

/-- What is known of a change that is looked for by comparing. -/
def Compares (op : ThreeOp wordBits) (changed changed' : Bool)
    (news old : List (Nat × Bits wordBits)) : Prop :=
  op.compares = true → op.skipsZero = false → (changed' = true ↔ changed = true ∨ ¬news <+: old)

theorem Compares.cons {op : ThreeOp wordBits} {changed changed₁ changed' : Bool}
    {block : Nat × Bits wordBits} {news old : List (Nat × Bits wordBits)}
    (first : op.compares = true → (changed₁ = true ↔ changed = true ∨ ¬[block] <+: old))
    (rest : Compares op changed₁ changed' news old.tail) :
    Compares op changed changed' (block :: news) old := by
  intro compares noSkips
  rw [rest compares noSkips, first compares, or_assoc]
  cases old with
  | nil => simp
  | cons other old =>
    rw [List.singleton_prefix_cons_iff, List.cons_prefix_cons, List.tail_cons, not_and_or]

theorem contents_tail (l : List Nat) : contents s l.tail = (contents s l).tail := by
  cases l <;> rfl

def LoopResult (op : ThreeOp wordBits) (result : Option (Option Nat × Bool × Store β wordBits))
    (dst : β) (changed : Bool) (s : Store β wordBits) (lists : β → List Nat)
    (done rest : List Nat) (left right news : List (Nat × Bits wordBits)) : Prop :=
  ∃ changed' s' lists' free' done' rest', result = some (rest'.head?, changed', s') ∧
    Wrote s s' lists lists' free' dst done rest done' rest' left right news ∧
    Compares op changed changed' news (contents s rest) ∧
    (op.skipsZero = false → rest' = [] ∨ done' ++ rest' = done ++ rest)

theorem isSkipped_cons_of_lt {i j k : Nat} {x y : Bits wordBits}
    {left right news : List (Nat × Bits wordBits)} (less : i < j)
    (rightIncreasing : Increasing ((j, y) :: right)) :
    IsSkipped ((i, x) :: left) ((j, y) :: right) news k ↔
      IsSkipped left ((j, y) :: right) news k := by
  have absent := not_hasKey_of_lt (lt_of_mem_cons less rightIncreasing)
  unfold IsSkipped
  rw [hasKey_cons]
  constructor
  · rintro ⟨rfl | isLeft, isRight, later⟩
    · exact absurd isRight absent
    · exact ⟨isLeft, isRight, later⟩
  · rintro ⟨isLeft, isRight, later⟩
    exact ⟨Or.inr isLeft, isRight, later⟩

theorem isSkipped_comm {k : Nat} {left right news : List (Nat × Bits wordBits)} :
    IsSkipped left right news k ↔ IsSkipped right left news k := by
  unfold IsSkipped
  rw [and_left_comm]

theorem isSkipped_news_cons {i k : Nat} {r : Bits wordBits}
    {left right news : List (Nat × Bits wordBits)}
    (above : HasKey left k → HasKey right k → i < k) :
    IsSkipped left right ((i, r) :: news) k ↔ IsSkipped left right news k := by
  unfold IsSkipped
  constructor
  · rintro ⟨isLeft, isRight, later⟩
    exact ⟨isLeft, isRight, fun block member => later block (List.mem_cons_of_mem _ member)⟩
  · rintro ⟨isLeft, isRight, later⟩
    refine ⟨isLeft, isRight, fun block member => ?_⟩
    obtain rfl | member := List.mem_cons.mp member
    · exact above isLeft isRight
    · exact later block member

theorem mergeLoop_spec [DecidableEq β] (op : ThreeOp wordBits) (otherA : a ≠ dst)
    (otherB : b ≠ dst) :
    ∀ (fuel : Nat) (s : Store β wordBits) (lists : β → List Nat) (free : List (List Nat))
      (done rest aDone aTodo bDone bTodo : List Nat) (changed : Bool),
      Focus s lists free dst done rest → lists a = aDone ++ aTodo → lists b = bDone ++ bTodo →
      Increasing (contents s aTodo) → Increasing (contents s bTodo) →
      aTodo.length + bTodo.length < fuel →
      LoopResult op (Store.mergeLoop op dst fuel done.getLast? rest.head? aTodo.head? bTodo.head?
        changed s) dst changed s lists done rest (contents s aTodo) (contents s bTodo)
        (op.merge (contents s aTodo) (contents s bTodo)) := by
  intro fuel
  induction fuel with
  | zero => exact fun _ _ _ _ _ _ _ _ _ _ _ _ _ _ _ enough => absurd enough (Nat.not_lt_zero _)
  | succ fuel ih =>
    intro s lists free done rest aDone aTodo bDone bTodo changed focus isA isB increasingA
      increasingB enough
    -- After one element is written, the loop goes on from the state with it.
    have writes : ∀ (indx : Nat) (r : Bits wordBits),
        ∃ changed₁ x t lists₁ free₁,
          s.writeElt op dst changed done.getLast? rest.head? indx r = some (changed₁, x, t) ∧
          WroteOne s t lists lists₁ free₁ dst done rest x indx r ∧
          (op.compares = true →
            (changed₁ = true ↔ changed = true ∨ ¬[(indx, r)] <+: contents s rest)) :=
      fun indx r => writeElt_spec op focus changed indx r
    have continues : ∀ {indx : Nat} {r : Bits wordBits} {x : Nat} {t : Store β wordBits}
        {lists₁ : β → List Nat} {free₁ : List (List Nat)}
        (_ : WroteOne s t lists lists₁ free₁ dst done rest x indx r)
        (done₁ rest₁ aDone₁ aTodo₁ bDone₁ bTodo₁ : List Nat) (changed₁ : Bool),
        done₁ ++ rest₁ = done ++ x :: rest.tail → lists a = aDone₁ ++ aTodo₁ →
        lists b = bDone₁ ++ bTodo₁ → Increasing (contents s aTodo₁) →
        Increasing (contents s bTodo₁) → aTodo₁.length + bTodo₁.length < fuel →
        LoopResult op (Store.mergeLoop op dst fuel done₁.getLast? rest₁.head? aTodo₁.head?
          bTodo₁.head? changed₁ t) dst changed₁ t lists₁ done₁ rest₁ (contents s aTodo₁)
          (contents s bTodo₁) (op.merge (contents s aTodo₁) (contents s bTodo₁)) := by
      intro indx r x t lists₁ free₁ one done₁ rest₁ aDone₁ aTodo₁ bDone₁ bTodo₁ changed₁ isList₁
        isA₁ isB₁ increasingA₁ increasingB₁ enough₁
      have sameA : contents t aTodo₁ = contents s aTodo₁ := one.changes.contents otherA
        fun y member => isA₁ ▸ List.mem_append_right _ member
      have sameB : contents t bTodo₁ = contents s bTodo₁ := one.changes.contents otherB
        fun y member => isB₁ ▸ List.mem_append_right _ member
      have focus₁ : Focus t lists₁ free₁ dst done₁ rest₁ :=
        ⟨one.focus.linked, one.focus.isList.trans isList₁.symm, one.focus.looks⟩
      have result := ih t lists₁ free₁ done₁ rest₁ aDone₁ aTodo₁ bDone₁ bTodo₁
        changed₁ focus₁ ((one.changes.sameLists a otherA).trans isA₁)
        ((one.changes.sameLists b otherB).trans isB₁) (sameA ▸ increasingA₁)
        (sameB ▸ increasingB₁) enough₁
      rwa [sameA, sameB] at result
    have keepOne : ∀ {indx : Nat} {r : Bits wordBits} {x : Nat} {t : Store β wordBits}
        {lists₁ : β → List Nat} {free₁ : List (List Nat)} {changed₁ : Bool}
        (_ : WroteOne s t lists lists₁ free₁ dst done rest x indx r)
        (_ : op.compares = true →
          (changed₁ = true ↔ changed = true ∨ ¬[(indx, r)] <+: contents s rest))
        (aDone₁ aTodo₁ bDone₁ bTodo₁ : List Nat), lists a = aDone₁ ++ aTodo₁ →
        lists b = bDone₁ ++ bTodo₁ → Increasing (contents s aTodo₁) →
        Increasing (contents s bTodo₁) → aTodo₁.length + bTodo₁.length < fuel →
        op.merge (contents s aTodo) (contents s bTodo) =
          (indx, r) :: op.merge (contents s aTodo₁) (contents s bTodo₁) →
        (∀ i, IsSkipped (contents s aTodo) (contents s bTodo)
            ((indx, r) :: op.merge (contents s aTodo₁) (contents s bTodo₁)) i ↔
          IsSkipped (contents s aTodo₁) (contents s bTodo₁)
            (op.merge (contents s aTodo₁) (contents s bTodo₁)) i) →
        LoopResult op (Store.mergeLoop op dst fuel (some x) (t.next x) aTodo₁.head?
          bTodo₁.head? changed₁ t) dst changed s lists done rest (contents s aTodo)
          (contents s bTodo) (op.merge (contents s aTodo) (contents s bTodo)) := by
      intro indx r x t lists₁ free₁ changed₁ one compares aDone₁ aTodo₁ bDone₁ bTodo₁ isA₁ isB₁
        increasingA₁ increasingB₁ enough₁ isMerge skips
      obtain ⟨changed', s', lists', free', done', rest', isLoop, wrote, compared, ended⟩ :=
        continues one (done ++ [x]) rest.tail aDone₁ aTodo₁ bDone₁ bTodo₁ changed₁
          (List.append_cons _ _ _).symm isA₁ isB₁ increasingA₁ increasingB₁ enough₁
      have last : (done ++ [x]).getLast? = some x := by simp
      rw [last] at isLoop
      rw [one.focus.next, isMerge]
      refine ⟨changed', s', lists', free', done', rest', isLoop, wrote.keep one skips, ?_,
        fun noSkips => ?_⟩
      · rw [one.isTail, contents_tail] at compared
        exact compared.cons compares
      · obtain isEnd | isWhole := ended noSkips
        · exact Or.inl isEnd
        · obtain isEmpty | isCons := one.reused
          · left
            rw [isEmpty, List.tail_nil, List.append_nil] at isWhole
            have lengths := congrArg List.length isWhole
            have written := wrote.done_prefix.length_le
            rw [List.length_append] at lengths
            exact List.length_eq_zero_iff.mp (by omega)
          · right
            rw [isWhole, ← List.append_cons, ← isCons]
    have keep : ∀ (indx : Nat) (r : Bits wordBits) (aDone₁ aTodo₁ bDone₁ bTodo₁ : List Nat),
        lists a = aDone₁ ++ aTodo₁ → lists b = bDone₁ ++ bTodo₁ →
        Increasing (contents s aTodo₁) → Increasing (contents s bTodo₁) →
        aTodo₁.length + bTodo₁.length < fuel →
        op.merge (contents s aTodo) (contents s bTodo) =
          (indx, r) :: op.merge (contents s aTodo₁) (contents s bTodo₁) →
        (∀ i, IsSkipped (contents s aTodo) (contents s bTodo)
            ((indx, r) :: op.merge (contents s aTodo₁) (contents s bTodo₁)) i ↔
          IsSkipped (contents s aTodo₁) (contents s bTodo₁)
            (op.merge (contents s aTodo₁) (contents s bTodo₁)) i) →
        ∃ changed₁ x t,
          s.writeElt op dst changed done.getLast? rest.head? indx r = some (changed₁, x, t) ∧
          (∀ c, c ≠ dst → ∀ y l m, lists c = l ++ y :: m → t.next y = m.head?) ∧
          LoopResult op (Store.mergeLoop op dst fuel (some x) (t.next x) aTodo₁.head?
            bTodo₁.head? changed₁ t) dst changed s lists done rest (contents s aTodo)
            (contents s bTodo) (op.merge (contents s aTodo) (contents s bTodo)) := by
      intro indx r aDone₁ aTodo₁ bDone₁ bTodo₁ isA₁ isB₁ increasingA₁ increasingB₁ enough₁ isMerge
        skips
      obtain ⟨changed₁, x, t, lists₁, free₁, isWritten, one, compares⟩ := writes indx r
      refine ⟨changed₁, x, t, isWritten, ?_, ?_⟩
      · intro c other y l m isC
        exact next_of_list one.focus.linked ((one.changes.sameLists c other).trans isC)
      · exact keepOne one compares aDone₁ aTodo₁ bDone₁ bTodo₁ isA₁ isB₁ increasingA₁ increasingB₁
          enough₁ isMerge skips
    have stop : (∀ i, ¬(HasKey (contents s aTodo) i ∧ HasKey (contents s bTodo) i)) →
        op.merge (contents s aTodo) (contents s bTodo) = [] →
        LoopResult op (some (rest.head?, changed, s)) dst changed s lists done rest
          (contents s aTodo) (contents s bTodo) (op.merge (contents s aTodo)
          (contents s bTodo)) := by
      intro apart isEmpty
      rw [isEmpty]
      exact ⟨changed, s, lists, free, done, rest, rfl, Wrote.stop focus apart, by simp [Compares],
        fun _ => Or.inr rfl⟩
    cases aTodo with
    | nil =>
      have noKey : ∀ i, ¬HasKey (contents s []) i := fun i hasKey =>
        absurd hasKey.choose_spec List.not_mem_nil
      cases bTodo with
      | nil =>
        exact stop (fun i both => noKey i both.1) (by simp [ThreeOp.merge, mergeWith, kept])
      | cons y bTodo =>
        rw [List.head?_nil, List.head?_cons, Store.mergeLoop]
        split
        · rename_i keeps
          have isB₁ : lists b = (bDone ++ [y]) ++ bTodo := by rw [isB, List.append_cons]
          rw [List.length_cons] at enough
          obtain ⟨changed₁, x, t, isWritten, next, result⟩ :=
            keep (s.indx y) (s.bits y) aDone [] (bDone ++ [y]) bTodo isA isB₁ increasingA
              (List.pairwise_cons.mp increasingB).2 (by rw [List.length_nil] at *; omega)
              (by simp [ThreeOp.merge, mergeWith, kept, keeps])
              (fun i => iff_of_false (fun skipped => noKey i skipped.1)
                fun skipped => noKey i skipped.1)
          rw [isWritten, Option.bind_some]
          dsimp only
          rw [next b otherB y bDone bTodo isB]
          exact result
        · rename_i notKept
          exact stop (fun i both => noKey i both.1)
            (by simp [ThreeOp.merge, mergeWith, kept, notKept])
    | cons x aTodo =>
      have isA₁ : lists a = (aDone ++ [x]) ++ aTodo := by rw [isA, List.append_cons]
      have increasingA₁ := (List.pairwise_cons.mp increasingA).2
      have nextX : s.next x = aTodo.head? := next_of_list focus.linked isA
      rw [List.length_cons] at enough
      cases bTodo with
      | nil =>
        have noKey : ∀ i, ¬HasKey (contents s []) i := fun i hasKey =>
          absurd hasKey.choose_spec List.not_mem_nil
        rw [List.head?_cons, List.head?_nil, Store.mergeLoop]
        split
        · rename_i keeps
          obtain ⟨changed₁, z, t, isWritten, next, result⟩ :=
            keep (s.indx x) (s.bits x) (aDone ++ [x]) aTodo bDone [] isA₁ isB increasingA₁
              increasingB (by omega)
              (by
                unfold ThreeOp.merge
                rw [contents_nil, mergeWith_nil_right, mergeWith_nil_right, keeps]
                rfl)
              (fun i => iff_of_false (fun skipped => noKey i skipped.2.1)
                fun skipped => noKey i skipped.2.1)
          rw [isWritten, Option.bind_some]
          dsimp only
          rw [next a otherA x aDone aTodo isA]
          exact result
        · rename_i notKept
          refine stop (fun i both => noKey i both.2) ?_
          unfold ThreeOp.merge
          rw [contents_nil, mergeWith_nil_right]
          simp [kept, notKept]
      | cons y bTodo =>
        have isB₁ : lists b = (bDone ++ [y]) ++ bTodo := by rw [isB, List.append_cons]
        have increasingB₁ := (List.pairwise_cons.mp increasingB).2
        have nextY : s.next y = bTodo.head? := next_of_list focus.linked isB
        rw [List.length_cons] at enough
        have aboveX : ∀ i, HasKey (contents s aTodo) i → s.indx x < i :=
          fun i hasKey => (List.pairwise_cons.mp increasingA).1 _ hasKey.choose_spec
        have aboveY : ∀ i, HasKey (contents s bTodo) i → s.indx y < i :=
          fun i hasKey => (List.pairwise_cons.mp increasingB).1 _ hasKey.choose_spec
        rw [List.head?_cons, List.head?_cons, Store.mergeLoop]
        split
        · rename_i less
          split
          · rename_i keeps
            obtain ⟨changed₁, z, t, isWritten, next, result⟩ :=
              keep (s.indx x) (s.bits x) (aDone ++ [x]) aTodo bDone (y :: bTodo) isA₁ isB
                increasingA₁ increasingB (by rw [List.length_cons]; omega)
                (by simp [ThreeOp.merge, mergeWith, less, kept, keeps])
                (fun i => (isSkipped_cons_of_lt less increasingB).trans
                  (isSkipped_news_cons fun isLeft _ => aboveX i isLeft))
            rw [isWritten, Option.bind_some]
            dsimp only
            rw [next a otherA x aDone aTodo isA]
            exact result
          · rename_i notKept
            obtain ⟨changed', s', lists', free', done', rest', isLoop, wrote, compared,
                ended⟩ := ih s lists free done rest (aDone ++ [x]) aTodo bDone
                (y :: bTodo) changed focus isA₁ isB increasingA₁ increasingB
                (by rw [List.length_cons]; omega)
            have isMerge : op.merge (contents s (x :: aTodo)) (contents s (y :: bTodo)) =
                op.merge (contents s aTodo) (contents s (y :: bTodo)) := by
              simp [ThreeOp.merge, mergeWith, less, kept, notKept]
            rw [nextX, isMerge]
            exact ⟨changed', s', lists', free', done', rest', isLoop,
              wrote.pass fun i => isSkipped_cons_of_lt less increasingB, compared, ended⟩
        · rename_i notLess
          split
          · rename_i greater
            split
            · rename_i keeps
              obtain ⟨changed₁, z, t, isWritten, next, result⟩ :=
                keep (s.indx y) (s.bits y) aDone (x :: aTodo) (bDone ++ [y]) bTodo isA isB₁
                  increasingA increasingB₁ (by rw [List.length_cons]; omega)
                  (by simp [ThreeOp.merge, mergeWith, notLess, greater, kept, keeps])
                  (fun i => (isSkipped_comm.trans ((isSkipped_cons_of_lt greater
                    increasingA).trans isSkipped_comm)).trans
                      (isSkipped_news_cons fun _ isRight => aboveY i isRight))
              rw [isWritten, Option.bind_some]
              dsimp only
              rw [next b otherB y bDone bTodo isB]
              exact result
            · rename_i notKept
              obtain ⟨changed', s', lists', free', done', rest', isLoop, wrote, compared,
                  ended⟩ := ih s lists free done rest aDone (x :: aTodo) (bDone ++ [y])
                  bTodo changed focus isA isB₁ increasingA increasingB₁
                  (by rw [List.length_cons]; omega)
              have isMerge : op.merge (contents s (x :: aTodo)) (contents s (y :: bTodo)) =
                  op.merge (contents s (x :: aTodo)) (contents s bTodo) := by
                simp [ThreeOp.merge, mergeWith, notLess, greater, kept, notKept]
              rw [nextY, isMerge]
              refine ⟨changed', s', lists', free', done', rest', isLoop,
                wrote.pass fun i => ?_, compared, ended⟩
              exact isSkipped_comm.trans ((isSkipped_cons_of_lt greater increasingA).trans
                isSkipped_comm)
          · rename_i notGreater
            have sameIndx : s.indx x = s.indx y := by omega
            obtain ⟨changed₁, z, t, lists₁, free₁, isWritten, one, compares⟩ :=
              writes (s.indx x) (op.combine (s.bits x) (s.bits y))
            have isBits : t.bits z = op.combine (s.bits x) (s.bits y) :=
              (Prod.mk.inj (List.cons.inj one.isRest).1).2
            have nextX' : t.next x = aTodo.head? :=
              next_of_list one.focus.linked ((one.changes.sameLists a otherA).trans isA)
            have nextY' : t.next y = bTodo.head? :=
              next_of_list one.focus.linked ((one.changes.sameLists b otherB).trans isB)
            rw [isWritten, Option.bind_some]
            dsimp only
            rw [isBits, nextX', nextY']
            split
            · rename_i empty
              have isMerge : op.merge (contents s (x :: aTodo)) (contents s (y :: bTodo)) =
                  op.merge (contents s aTodo) (contents s bTodo) := by
                simp [ThreeOp.merge, mergeWith, notLess, notGreater, ThreeOp.join, empty]
              obtain ⟨changed', s', lists', free', done', rest', isLoop, wrote, -, -⟩ :=
                continues one done (z :: rest.tail) (aDone ++ [x]) aTodo (bDone ++ [y]) bTodo
                  changed₁ rfl isA₁ isB₁ increasingA₁ increasingB₁ (by omega)
              rw [isMerge]
              refine ⟨changed', s', lists', free', done', rest', isLoop,
                wrote.skip one (fun i => ?_) ?_, fun _ noSkips => ?_, fun noSkips => ?_⟩
              · rw [contents_cons, contents_cons, hasKey_cons, hasKey_cons, ← sameIndx]
                constructor
                · rintro ⟨rfl | isLeft, isRight⟩
                  · exact Or.inl rfl
                  · obtain rfl | isRight := isRight
                    · exact Or.inl rfl
                    · exact Or.inr ⟨isLeft, isRight⟩
                · rintro (rfl | ⟨isLeft, isRight⟩)
                  · exact ⟨Or.inl rfl, Or.inl rfl⟩
                  · exact ⟨Or.inr isLeft, Or.inr isRight⟩
              · exact lt_mergeWith increasingA₁ increasingB₁
                  (List.pairwise_cons.mp increasingA).1
                  (sameIndx ▸ (List.pairwise_cons.mp increasingB).1)
              · rw [empty.1] at noSkips
                cases noSkips
              · rw [empty.1] at noSkips
                cases noSkips
            · rename_i nonempty
              have isMerge : op.merge (contents s (x :: aTodo)) (contents s (y :: bTodo)) =
                  (s.indx x, op.combine (s.bits x) (s.bits y)) ::
                    op.merge (contents s aTodo) (contents s bTodo) := by
                simp [ThreeOp.merge, mergeWith, notLess, notGreater, ThreeOp.join, nonempty]
              refine keepOne one compares (aDone ++ [x]) aTodo (bDone ++ [y]) bTodo isA₁ isB₁
                increasingA₁ increasingB₁ (by omega) isMerge fun i => ?_
              rw [← isSkipped_news_cons fun isLeft _ => aboveX i isLeft]
              unfold IsSkipped
              rw [contents_cons, contents_cons, hasKey_cons, hasKey_cons]
              constructor
              · rintro ⟨isLeft, isRight, later⟩
                have after := later _ List.mem_cons_self
                dsimp only at after
                exact ⟨isLeft.resolve_left (by omega), isRight.resolve_left (by omega), later⟩
              · rintro ⟨isLeft, isRight, later⟩
                exact ⟨Or.inr isLeft, Or.inr isRight, later⟩

end GccCil.Gcc.Bitmap
