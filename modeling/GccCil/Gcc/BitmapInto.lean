import GccCil.Gcc.BitmapHeap

/-!
# The loops of the operations on two bitmaps

A loop goes through the lists of both bitmaps at once.  What it leaves of the
first list is the merge of the two.
-/

namespace GccCil.Gcc.Bitmap

open Lib

variable {β : Type} {wordBits : Nat}

def contents (s : Store β wordBits) (l : List Nat) : List (Nat × Bits wordBits) :=
  l.map fun x => (s.indx x, s.bits x)

@[simp] theorem contents_nil (s : Store β wordBits) : contents s [] = [] := rfl

@[simp] theorem contents_cons (s : Store β wordBits) (x : Nat) (l : List Nat) :
    contents s (x :: l) = (s.indx x, s.bits x) :: contents s l := rfl

@[simp] theorem contents_append (s : Store β wordBits) (l m : List Nat) :
    contents s (l ++ m) = contents s l ++ contents s m := List.map_append

variable {s s' t : Store β wordBits} {lists lists' : β → List Nat} {free : List (List Nat)} {a b : β}

theorem contents_congr {l : List Nat} (indx : ∀ x ∈ l, s'.indx x = s.indx x)
    (bits : ∀ x ∈ l, s'.bits x = s.bits x) : contents s' l = contents s l := by
  apply List.map_congr_left
  intro x member
  rw [indx x member, bits x member]

structure OnlyChanges (s s' : Store β wordBits) (lists lists' : β → List Nat) (a : β) : Prop where
  sameLists : ∀ c, c ≠ a → lists' c = lists c
  sameIndx : ∀ c, c ≠ a → ∀ x ∈ lists c, s'.indx x = s.indx x
  sameBits : ∀ c, c ≠ a → ∀ x ∈ lists c, s'.bits x = s.bits x
  sameCurrent : ∀ c, c ≠ a → s'.current c = s.current c
  sameHeadIndx : ∀ c, c ≠ a → s'.headIndx c = s.headIndx c
  used : s.used ≤ s'.used

namespace OnlyChanges

theorem refl : OnlyChanges s s lists lists a :=
  ⟨fun _ _ => rfl, fun _ _ _ _ => rfl, fun _ _ _ _ => rfl, fun _ _ => rfl, fun _ _ => rfl,
    Nat.le_refl _⟩

theorem trans {lists'' : β → List Nat} (first : OnlyChanges s t lists lists' a)
    (second : OnlyChanges t s' lists' lists'' a) : OnlyChanges s s' lists lists'' a where
  sameLists := fun c other => (second.sameLists c other).trans (first.sameLists c other)
  sameIndx := fun c other x member =>
    (second.sameIndx c other x (by rwa [first.sameLists c other])).trans
      (first.sameIndx c other x member)
  sameBits := fun c other x member =>
    (second.sameBits c other x (by rwa [first.sameLists c other])).trans
      (first.sameBits c other x member)
  sameCurrent := fun c other => (second.sameCurrent c other).trans (first.sameCurrent c other)
  sameHeadIndx := fun c other => (second.sameHeadIndx c other).trans (first.sameHeadIndx c other)
  used := first.used.trans second.used

theorem contents {c : β} (changes : OnlyChanges s s' lists lists' a) (other : c ≠ a) {l : List Nat}
    (listed : ∀ x ∈ l, x ∈ lists c) : Bitmap.contents s' l = Bitmap.contents s l :=
  contents_congr (fun x member => changes.sameIndx c other x (listed x member))
    fun x member => changes.sameBits c other x (listed x member)

end OnlyChanges

structure Focus (s : Store β wordBits) (lists : β → List Nat) (free : List (List Nat)) (a : β)
    (done todo : List Nat) : Prop where
  linked : Linked s lists free
  isList : lists a = done ++ todo
  looks : Looks s a (lists a)

namespace Focus

variable {done todo : List Nat} {x : Nat}

theorem next (focus : Focus s lists free a done (x :: todo)) : s.next x = todo.head? := by
  have segment := focus.linked.segment a
  rw [focus.isList] at segment
  exact segment.neighbours.2

theorem pass (focus : Focus s lists free a done (x :: todo)) :
    Focus s lists free a (done ++ [x]) todo :=
  ⟨focus.linked, by rw [focus.isList, List.append_cons], focus.looks⟩

theorem nodup (focus : Focus s lists free a done todo) : (done ++ todo).Nodup := by
  rw [← focus.isList]
  exact focus.linked.nodup a

theorem copy [DecidableEq β] (focus : Focus s lists free a done todo) (indx : Nat) (r : Bits wordBits) :
    ∃ x t lists' free', s.eltInsertAfter a done.getLast? = some (x, t) ∧
      (∀ c, ∀ y ∈ lists c, t.indx y = s.indx y ∧ t.bits y = s.bits y) ∧
      Focus ((t.setIndx x indx).setBits x r) lists' free' a (done ++ [x]) todo ∧
      contents ((t.setIndx x indx).setBits x r) (done ++ [x]) = contents s done ++ [(indx, r)] ∧
      contents ((t.setIndx x indx).setBits x r) todo = contents s todo ∧
      OnlyChanges s ((t.setIndx x indx).setBits x r) lists lists' a ∧
      t.current a = some ((s.current a).getD x) := by
  obtain ⟨x, t, free', isInserted, linked, inserted⟩ :=
    eltInsertAfter_spec focus.linked focus.isList focus.looks
  have fresh := inserted.fresh a
  rw [focus.isList, List.mem_append, not_or] at fresh
  have indxSame : ∀ y, y ≠ x → ((t.setIndx x indx).setBits x r).indx y = s.indx y := by
    intro y other
    exact (Function.update_of_ne other _ _).trans (congrFun inserted.indx y)
  have bitsSame : ∀ y, y ≠ x → ((t.setIndx x indx).setBits x r).bits y = s.bits y := by
    intro y other
    exact (Function.update_of_ne other _ _).trans (inserted.bits y other)
  have same : ∀ l : List Nat, x ∉ l →
      contents ((t.setIndx x indx).setBits x r) l = contents s l := by
    intro l absent
    have other : ∀ y ∈ l, y ≠ x := fun y member isX => absent (isX ▸ member)
    exact contents_congr (fun y member => indxSame y (other y member))
      fun y member => bitsSame y (other y member)
  refine ⟨x, t, Function.update lists a (done ++ x :: todo), free', isInserted, ?_, ⟨?_, ?_, ?_⟩,
    ?_, same todo fresh.2, ?_, by rw [inserted.current, Function.update_self]⟩
  · intro c y member
    have notX : y ≠ x := fun isX => inserted.fresh c (isX ▸ member)
    exact ⟨congrFun inserted.indx y, inserted.bits y notX⟩
  · exact linked.frame (fun _ _ => rfl) (fun _ _ => rfl) rfl rfl rfl
  · rw [Function.update_self, List.append_cons]
  · rw [Function.update_self]
    right
    change ∃ c ∈ _, t.current a = some c
    rw [inserted.current, Function.update_self]
    obtain ⟨-, isCurrent⟩ | ⟨c, member, isCurrent⟩ := focus.looks
    · exact ⟨x, by simp, by rw [isCurrent]; rfl⟩
    · refine ⟨c, ?_, by rw [isCurrent]; rfl⟩
      rw [focus.isList] at member
      simp only [List.mem_append, List.mem_cons] at member ⊢
      tauto
  · rw [contents_append, same done fresh.1]
    change contents s done ++ [(Function.update t.indx x indx x, Function.update t.bits x r x)] = _
    rw [Function.update_self, Function.update_self]
  · refine ⟨?_, ?_, ?_, ?_, ?_, inserted.used⟩
    · exact fun c other => Function.update_of_ne other _ _
    · intro c _ y member
      exact indxSame y fun isX => inserted.fresh c (isX ▸ member)
    · intro c _ y member
      exact bitsSame y fun isX => inserted.fresh c (isX ▸ member)
    · intro c other
      change t.current c = _
      rw [inserted.current, Function.update_of_ne other]
    · exact fun c _ => congrFun inserted.headIndx c

theorem release [DecidableEq β] (focus : Focus s lists free a done (x :: todo)) :
    ∃ lists' free', Focus (s.elementFree a x) lists' free' a done todo ∧
      (s.elementFree a x).indx = s.indx ∧ (s.elementFree a x).bits = s.bits ∧
      OnlyChanges s (s.elementFree a x) lists lists' a ∧
      (Fresh s a → Fresh (s.elementFree a x) a) := by
  obtain ⟨free', linked, removed⟩ := elementFree_spec focus.linked focus.isList focus.looks
  refine ⟨Function.update lists a (done ++ todo), free', ⟨linked, Function.update_self _ _ _, ?_⟩,
    removed.indx, removed.bits, ?_,
    removed.fresh⟩
  · rw [Function.update_self]
    exact removed.looks
  · exact ⟨fun c other => Function.update_of_ne other _ _,
      fun _ _ y _ => congrFun removed.indx y, fun _ _ y _ => congrFun removed.bits y,
      fun c other => (removed.others c other).1, fun c other => (removed.others c other).2,
      removed.used.ge⟩

theorem overwrite (focus : Focus s lists free a done (x :: todo)) (indx : Nat)
    (r : Bits wordBits) :
    Focus ((s.setIndx x indx).setBits x r) lists free a done (x :: todo) ∧
      contents ((s.setIndx x indx).setBits x r) done = contents s done ∧
      contents ((s.setIndx x indx).setBits x r) (x :: todo) = (indx, r) :: contents s todo ∧
      OnlyChanges s ((s.setIndx x indx).setBits x r) lists lists a := by
  have fresh := (List.nodup_cons.mp (List.nodup_middle.mp focus.nodup)).1
  rw [List.mem_append, not_or] at fresh
  have same : ∀ l : List Nat, x ∉ l →
      contents ((s.setIndx x indx).setBits x r) l = contents s l := by
    intro l absent
    refine contents_congr (fun y member => ?_) fun y member => ?_
    · exact Function.update_of_ne (show y ≠ x from fun isX => absent (isX ▸ member)) _ _
    · exact Function.update_of_ne (show y ≠ x from fun isX => absent (isX ▸ member)) _ _
  have others : ∀ c, c ≠ a → ∀ y ∈ lists c, y ≠ x := by
    rintro c other y member rfl
    refine focus.linked.apart c a other y member ?_
    rw [focus.isList]
    simp
  refine ⟨⟨focus.linked.frame (fun _ _ => rfl) (fun _ _ => rfl) rfl rfl rfl, focus.isList,
    focus.looks⟩, same done fresh.1, ?_, fun _ _ => rfl, ?_, ?_, fun _ _ => rfl,
    fun _ _ => rfl, Nat.le_refl _⟩
  · rw [contents_cons, same todo fresh.2]
    change (Function.update s.indx x indx x, Function.update s.bits x r x) :: _ = _
    rw [Function.update_self, Function.update_self]
  · exact fun c other y member => Function.update_of_ne (others c other y member) _ _
  · exact fun c other y member => Function.update_of_ne (others c other y member) _ _

theorem write (focus : Focus s lists free a done (x :: todo)) (r : Bits wordBits) :
    Focus (s.setBits x r) lists free a done (x :: todo) ∧
      contents (s.setBits x r) done = contents s done ∧
      contents (s.setBits x r) (x :: todo) = (s.indx x, r) :: contents s todo ∧
      OnlyChanges s (s.setBits x r) lists lists a := by
  have written := focus.overwrite (s.indx x) r
  rwa [show s.setIndx x (s.indx x) = s by rw [Store.setIndx, Function.update_eq_self]] at written

end Focus

def IntoOp.join (op : IntoOp wordBits) (x y : Bits wordBits) : Option (Bits wordBits) :=
  if op.freesZero = true ∧ op.combine x y = zeroBits then none else some (op.combine x y)

def IntoOp.reports (op : IntoOp wordBits) :
    List (Nat × Bits wordBits) → List (Nat × Bits wordBits) → Bool
  | _, [] => false
  | [], _ :: _ => op.keepB
  | (i, x) :: left, (j, y) :: right =>
    if i < j then op.reports left ((j, y) :: right)
    else if j < i then op.keepB || op.reports ((i, x) :: left) right
    else op.changes x y || op.reports left right
  termination_by left right => left.length + right.length

theorem next_of_list {l m : List Nat} {y : Nat} (linked : Linked s lists free)
    (isList : lists b = l ++ y :: m) : s.next y = m.head? := by
  have segment := linked.segment b
  rw [isList] at segment
  exact segment.neighbours.2

structure Shrinks (s s' : Store β wordBits) (a : β) (l l' : List Nat) : Prop where
  sublist : l'.Sublist l
  indx : s'.indx = s.indx
  fresh : Fresh s a → Fresh s' a

theorem Shrinks.refl {l : List Nat} : Shrinks s s a l l := ⟨List.Sublist.refl l, rfl, id⟩

theorem Shrinks.trans {l l' l'' : List Nat} (first : Shrinks s t a l l')
    (second : Shrinks t s' a l' l'') : Shrinks s s' a l l'' :=
  ⟨second.sublist.trans first.sublist, second.indx.trans first.indx, second.fresh ∘ first.fresh⟩

/-- What the loop leaves of the first list is the merge of both. -/
structure Merges [DecidableEq β] (op : IntoOp wordBits) (s s' : Store β wordBits)
    (lists lists' : β → List Nat) (free' : List (List Nat)) (a : β)
    (done todo bTodo done' rest : List Nat) : Prop where
  focus : Focus s' lists' free' a done' rest
  changes : OnlyChanges s s' lists lists' a
  merge : contents s' done' ++ kept op.keepA (contents s' rest) =
    contents s done ++ mergeWith op.keepA op.keepB op.join (contents s todo) (contents s bTodo)
  shrinks : op.keepB = false → Shrinks s s' a (done ++ todo) (done' ++ rest)

theorem intoLoop_spec [DecidableEq β] (op : IntoOp wordBits) (other : a ≠ b) :
    ∀ (fuel : Nat) (s : Store β wordBits) (lists : β → List Nat) (free : List (List Nat))
      (done todo bDone bTodo : List Nat) (changed : Bool),
      Focus s lists free a done todo → lists b = bDone ++ bTodo →
      todo.length + bTodo.length < fuel →
      ∃ s' lists' free' done' rest,
        Store.intoLoop op a fuel done.getLast? todo.head? bTodo.head? changed s =
          some (rest.head?, changed || op.reports (contents s todo) (contents s bTodo), s') ∧
        Merges op s s' lists lists' free' a done todo bTodo done' rest := by
  intro fuel
  induction fuel with
  | zero => exact fun _ _ _ _ _ _ _ _ _ _ enough => absurd enough (Nat.not_lt_zero _)
  | succ fuel ih =>
    intro s lists free done todo bDone bTodo changed focus isB enough
    -- The rest of the loop after a step that leaves `done` and `todo`.
    have continues : ∀ (t : Store β wordBits) (lists₁ : β → List Nat) (free₁ : List (List Nat))
        (done₁ todo₁ bDone₁ bTodo₁ : List Nat) (changed₁ : Bool),
        Focus t lists₁ free₁ a done₁ todo₁ → OnlyChanges s t lists lists₁ a →
        lists b = bDone₁ ++ bTodo₁ → todo₁.length + bTodo₁.length < fuel →
        contents t done₁ ++ mergeWith op.keepA op.keepB op.join (contents t todo₁)
            (contents s bTodo₁) =
          contents s done ++ mergeWith op.keepA op.keepB op.join (contents s todo)
            (contents s bTodo) →
        (changed₁ || op.reports (contents t todo₁) (contents s bTodo₁)) =
          (changed || op.reports (contents s todo) (contents s bTodo)) →
        (op.keepB = false → Shrinks s t a (done ++ todo) (done₁ ++ todo₁)) →
        ∃ s' lists' free' done' rest,
          Store.intoLoop op a fuel done₁.getLast? todo₁.head? bTodo₁.head? changed₁ t =
            some (rest.head?, changed || op.reports (contents s todo) (contents s bTodo), s') ∧
          Merges op s s' lists lists' free' a done todo bTodo done' rest := by
      intro t lists₁ free₁ done₁ todo₁ bDone₁ bTodo₁ changed₁ focus₁ changes isB₁ enough₁ merge
        reports shrinks
      have isB₂ : lists₁ b = bDone₁ ++ bTodo₁ := by
        rw [changes.sameLists b (Ne.symm other), isB₁]
      have sameB : contents t bTodo₁ = contents s bTodo₁ :=
        changes.contents (Ne.symm other) fun x member => by
          rw [isB₁]
          exact List.mem_append_right _ member
      obtain ⟨s', lists', free', done', rest, isLoop, merges⟩ :=
        ih t lists₁ free₁ done₁ todo₁ bDone₁ bTodo₁ changed₁ focus₁ isB₂ enough₁
      refine ⟨s', lists', free', done', rest, ?_, merges.focus, changes.trans merges.changes, ?_,
        ?_⟩
      · rw [isLoop, sameB, reports]
      · rw [merges.merge, sameB, merge]
      · exact fun noB => (shrinks noB).trans (merges.shrinks noB)
    cases bTodo with
    | nil =>
      refine ⟨s, lists, free, done, todo, ?_, focus, OnlyChanges.refl, ?_,
        fun _ => Shrinks.refl⟩
      · rw [contents_nil, IntoOp.reports, Bool.or_false, List.head?_nil, Store.intoLoop]
      · rw [contents_nil, mergeWith_nil_right]
    | cons y bTodo =>
      have yListed : y ∈ lists b := by
        rw [isB]
        simp
      have nextB : ∀ {t : Store β wordBits} {lists₁ free₁},
          Linked t lists₁ free₁ → OnlyChanges s t lists lists₁ a → t.next y = bTodo.head? :=
        fun linked changes => next_of_list linked (changes.sameLists b (Ne.symm other) ▸ isB)
      have isB' : lists b = (bDone ++ [y]) ++ bTodo := by rw [isB, List.append_cons]
      -- The element of the second list is copied.
      have copies : op.keepB = true →
          (mergeWith op.keepA op.keepB op.join (contents s todo) (contents s (y :: bTodo)) =
            (s.indx y, s.bits y) :: mergeWith op.keepA op.keepB op.join (contents s todo)
              (contents s bTodo)) →
          op.reports (contents s todo) (contents s (y :: bTodo)) = true →
          ∃ x t, s.eltInsertAfter a done.getLast? = some (x, t) ∧
            ∃ s' lists' free' done' rest,
              Store.intoLoop op a fuel (some x) todo.head?
                (((t.setIndx x (t.indx y)).setBits x (t.bits y)).next y) true
                ((t.setIndx x (t.indx y)).setBits x (t.bits y)) =
                some (rest.head?, changed ||
                  op.reports (contents s todo) (contents s (y :: bTodo)), s') ∧
              Merges op s s' lists lists' free' a done todo (y :: bTodo) done' rest := by
        intro keeps isMerge isReport
        obtain ⟨x, t, lists₁, free₁, isInserted, same, focus₁, isDone, isTodo, changes, -⟩ :=
          focus.copy (s.indx y) (s.bits y)
        refine ⟨x, t, isInserted, ?_⟩
        rw [(same b y yListed).1, (same b y yListed).2, nextB focus₁.linked changes]
        have last : some x = (done ++ [x]).getLast? := by simp
        have fewer : todo.length + bTodo.length < fuel := by
          rw [List.length_cons] at enough
          omega
        rw [last]
        refine continues _ lists₁ free₁ (done ++ [x]) todo (bDone ++ [y]) bTodo true focus₁
          changes isB' fewer ?_ ?_ fun noB => ?_
        · rw [isDone, isTodo, isMerge]
          simp
        · rw [isReport]
          simp
        · rw [keeps] at noB
          cases noB
      cases todo with
      | nil =>
        rw [List.head?_nil, List.head?_cons, Store.intoLoop]
        split
        · rename_i keeps
          obtain ⟨x, t, isInserted, rest⟩ := copies keeps (by simp [mergeWith, kept, keeps])
            (by simp [IntoOp.reports, keeps])
          rw [isInserted]
          exact rest
        · rename_i notKept
          refine ⟨s, lists, free, done, [], ?_, focus, OnlyChanges.refl, ?_,
            fun _ => Shrinks.refl⟩
          · simp [IntoOp.reports, notKept]
          · simp [mergeWith, kept, notKept]
      | cons x todo =>
        have nextA := focus.next
        have last : some x = (done ++ [x]).getLast? := by simp
        rw [List.length_cons, List.length_cons] at enough
        rw [List.head?_cons, List.head?_cons, Store.intoLoop]
        split
        · rename_i less
          split
          · rename_i keeps
            rw [nextA, last]
            refine continues s lists free (done ++ [x]) todo bDone (y :: bTodo) changed
              focus.pass OnlyChanges.refl isB (by rw [List.length_cons]; omega) ?_ ?_
              fun _ => ?_
            · simp [mergeWith, less, kept, keeps]
            · simp [IntoOp.reports, less]
            · rw [← List.append_cons]
              exact Shrinks.refl
          · rename_i notKept
            obtain ⟨lists₁, free₁, focus₁, sameIndx, sameBits, changes, fresh⟩ :=
              focus.release
            have same : ∀ l, contents (s.elementFree a x) l = contents s l := fun l =>
              contents_congr (fun z _ => congrFun sameIndx z) fun z _ => congrFun sameBits z
            rw [nextA]
            refine continues _ lists₁ free₁ done todo bDone (y :: bTodo) changed focus₁
              changes isB (by rw [List.length_cons]; omega) ?_ ?_
              fun _ => ⟨?_, sameIndx, fresh⟩
            · rw [same, same]
              simp [mergeWith, less, kept, notKept]
            · rw [same]
              simp [IntoOp.reports, less]
            · exact (List.Sublist.refl done).append (List.sublist_cons_self x todo)
        · rename_i notLess
          split
          · rename_i greater
            split
            · rename_i keeps
              obtain ⟨z, t, isInserted, rest⟩ := copies keeps
                (by simp [mergeWith, notLess, greater, kept, keeps])
                (by simp [IntoOp.reports, notLess, greater, keeps])
              rw [isInserted]
              exact rest
            · rename_i notKept
              rw [nextB focus.linked OnlyChanges.refl]
              refine continues s lists free done (x :: todo) (bDone ++ [y]) bTodo changed
                focus OnlyChanges.refl isB' (by rw [List.length_cons]; omega) ?_ ?_
                fun _ => Shrinks.refl
              · simp [mergeWith, notLess, greater, kept, notKept]
              · simp [IntoOp.reports, notLess, greater, notKept]
          · rename_i notGreater
            obtain ⟨focus₁, sameDone, isTodo, changes⟩ :=
              focus.write (op.combine (s.bits x) (s.bits y))
            have sameTodo : contents (s.setBits x (op.combine (s.bits x) (s.bits y))) todo =
                contents s todo := (List.cons.inj isTodo).2
            have written : Shrinks s (s.setBits x (op.combine (s.bits x) (s.bits y))) a
                (done ++ x :: todo) (done ++ x :: todo) := ⟨List.Sublist.refl _, rfl, id⟩
            have reports : op.reports (contents s (x :: todo)) (contents s (y :: bTodo)) =
                (op.changes (s.bits x) (s.bits y) ||
                  op.reports (contents s todo) (contents s bTodo)) := by
              simp [IntoOp.reports, notLess, notGreater]
            have nextY := nextB focus₁.linked changes
            rw [nextA]
            dsimp only
            generalize s.setBits x (op.combine (s.bits x) (s.bits y)) = t at *
            split
            · rename_i empty
              obtain ⟨lists₁, free₁, focus₂, sameIndx, sameBits, more, fresh⟩ :=
                focus₁.release
              have same : ∀ l, contents (t.elementFree a x) l = contents t l := fun l =>
                contents_congr (fun z _ => congrFun sameIndx z) fun z _ => congrFun sameBits z
              rw [nextY]
              refine continues _ lists₁ free₁ done todo (bDone ++ [y]) bTodo _ focus₂
                (changes.trans more) isB' (by omega) ?_ ?_
                fun _ => written.trans ⟨?_, sameIndx, fresh⟩
              · rw [same, same, sameDone, sameTodo]
                simp [mergeWith, notLess, notGreater, IntoOp.join, empty]
              · rw [same, sameTodo, reports, Bool.or_assoc]
              · exact (List.Sublist.refl done).append (List.sublist_cons_self x todo)
            · rename_i nonempty
              have isDone : contents t (done ++ [x]) =
                  contents s done ++ [(s.indx x, op.combine (s.bits x) (s.bits y))] := by
                rw [contents_append, sameDone]
                exact congrArg (contents s done ++ [·]) (List.cons.inj isTodo).1
              rw [nextY, last]
              refine continues t lists free (done ++ [x]) todo (bDone ++ [y]) bTodo _
                focus₁.pass changes isB' (by omega) ?_ ?_ fun _ => ?_
              · rw [isDone, sameTodo]
                simp [mergeWith, notLess, notGreater, IntoOp.join, nonempty]
              · rw [sameTodo, reports, Bool.or_assoc]
              · rw [← List.append_cons]
                exact written

end GccCil.Gcc.Bitmap
