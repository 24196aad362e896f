import GccCil.Gcc.Bitmap
import GccCil.Lib.SortedMerge

/-!
# The lists of elements

Each bitmap is a doubly linked list of elements, and the free list is a list of
lists.  No element is in two of them.  The lemmas say what the operations on
single elements do to the lists.
-/

namespace GccCil.Gcc.Bitmap

open Lib

variable {β : Type} [DecidableEq β] {wordBits : Nat}

/-- The free list: the inner lists are linked by `next`, and their first
elements by `prev`. -/
def FreeList (next prev : Nat → Option Nat) : Option Nat → List (List Nat) → Prop
  | elements, [] => elements = none
  | _, [] :: _ => False
  | elements, (x :: inner) :: outer =>
    elements = some x ∧ Chain next (x :: inner) ∧ FreeList next prev (prev x) outer

structure Loose (lists : β → List Nat) (free : List (List Nat)) (used x : Nat) : Prop where
  notListed : ∀ b, x ∉ lists b
  notFree : x ∉ free.flatten
  allocated : x < used

structure Linked (s : Store β wordBits) (lists : β → List Nat) (free : List (List Nat)) :
    Prop where
  first : ∀ b, s.first b = (lists b).head?
  segment : ∀ b, Segment s.next s.prev none (lists b) none
  freeList : FreeList s.next s.prev s.elements free
  nodup : ∀ b, (lists b).Nodup
  apart : ∀ b c, b ≠ c → ∀ x ∈ lists b, x ∉ lists c
  freeNodup : free.flatten.Nodup
  freeApart : ∀ b, ∀ x ∈ lists b, x ∉ free.flatten
  allocated : ∀ b, ∀ x ∈ lists b, x < s.used
  freeAllocated : ∀ x ∈ free.flatten, x < s.used

def Looks (s : Store β wordBits) (b : β) (l : List Nat) : Prop :=
  (l = [] ∧ s.current b = none) ∨ ∃ c ∈ l, s.current b = some c

def Fresh (s : Store β wordBits) (b : β) : Prop :=
  ∀ c, s.current b = some c → s.headIndx b = s.indx c

variable {s s' : Store β wordBits} {lists : β → List Nat} {free : List (List Nat)} {a : β}

theorem FreeList.congr {next prev next' prev' : Nat → Option Nat} {elements : Option Nat}
    (sameNext : ∀ x ∈ free.flatten, next' x = next x)
    (samePrev : ∀ x ∈ free.flatten, prev' x = prev x)
    (linked : FreeList next prev elements free) : FreeList next' prev' elements free := by
  induction free generalizing elements with
  | nil => exact linked
  | cons inner outer ih =>
    cases inner with
    | nil => exact linked
    | cons x inner =>
      obtain ⟨isFirst, chain, rest⟩ := linked
      rw [List.flatten_cons] at sameNext samePrev
      refine ⟨isFirst, chain.congr fun y member => sameNext y (List.mem_append_left _ member), ?_⟩
      rw [samePrev x (List.mem_append_left _ List.mem_cons_self)]
      exact ih (fun y member => sameNext y (List.mem_append_right _ member))
        (fun y member => samePrev y (List.mem_append_right _ member)) rest

theorem Linked.changeList (linked : Linked s lists free) {l : List Nat}
    (first : s'.first = Function.update s.first a l.head?)
    (segment : Segment s'.next s'.prev none l none) (nodup : l.Nodup)
    (members : ∀ x ∈ l, x ∈ lists a ∨ Loose lists free s.used x)
    (frameNext : ∀ y, y ∉ lists a → y ∉ l → s'.next y = s.next y)
    (framePrev : ∀ y, y ∉ lists a → y ∉ l → s'.prev y = s.prev y)
    (elements : s'.elements = s.elements) (used : s'.used = s.used) :
    Linked s' (Function.update lists a l) free := by
  have notMember : ∀ b, b ≠ a → ∀ x ∈ lists b, x ∉ lists a ∧ x ∉ l := by
    intro b other x member
    refine ⟨linked.apart b a other x member, fun inList => ?_⟩
    obtain old | loose := members x inList
    · exact linked.apart b a other x member old
    · exact loose.notListed b member
  have notFree : ∀ x ∈ free.flatten, x ∉ lists a ∧ x ∉ l := by
    intro x isFree
    refine ⟨fun member => linked.freeApart a x member isFree, fun inList => ?_⟩
    obtain old | loose := members x inList
    · exact linked.freeApart a x old isFree
    · exact loose.notFree isFree
  constructor
  · intro b
    rw [first]
    by_cases same : b = a
    · subst same
      rw [Function.update_self, Function.update_self]
    · rw [Function.update_of_ne same, Function.update_of_ne same, linked.first b]
  · intro b
    by_cases same : b = a
    · subst same
      rw [Function.update_self]
      exact segment
    · rw [Function.update_of_ne same]
      refine (linked.segment b).congr (fun x member => ?_) fun x member => ?_
      · exact frameNext x (notMember b same x member).1 (notMember b same x member).2
      · exact framePrev x (notMember b same x member).1 (notMember b same x member).2
  · rw [elements]
    refine linked.freeList.congr (fun x member => ?_) fun x member => ?_
    · exact frameNext x (notFree x member).1 (notFree x member).2
    · exact framePrev x (notFree x member).1 (notFree x member).2
  · intro b
    by_cases same : b = a
    · subst same
      rw [Function.update_self]
      exact nodup
    · rw [Function.update_of_ne same]
      exact linked.nodup b
  · intro b c other x
    by_cases sameB : b = a
    · subst sameB
      rw [Function.update_self, Function.update_of_ne (Ne.symm other)]
      exact fun inList member => (notMember c (Ne.symm other) x member).2 inList
    · rw [Function.update_of_ne sameB]
      by_cases sameC : c = a
      · subst sameC
        rw [Function.update_self]
        exact fun member => (notMember b sameB x member).2
      · rw [Function.update_of_ne sameC]
        exact linked.apart b c other x
  · exact linked.freeNodup
  · intro b x
    by_cases same : b = a
    · subst same
      rw [Function.update_self]
      exact fun inList isFree => (notFree x isFree).2 inList
    · rw [Function.update_of_ne same]
      exact linked.freeApart b x
  · intro b x
    rw [used]
    by_cases same : b = a
    · subst same
      rw [Function.update_self]
      intro inList
      obtain old | loose := members x inList
      · exact linked.allocated b x old
      · exact loose.allocated
    · rw [Function.update_of_ne same]
      exact linked.allocated b x
  · rw [used]
    exact linked.freeAllocated

omit [DecidableEq β] in
theorem Linked.release (linked : Linked s lists free) {x : Nat} {inner : List Nat}
    (chain : Chain s.next (x :: inner)) (nodup : (x :: inner).Nodup)
    (loose : ∀ y ∈ x :: inner, Loose lists free s.used y) :
    Linked ((s.setPrev (some x) s.elements).setElements (some x)) lists ((x :: inner) :: free) := by
  have notListed : ∀ b, ∀ y ∈ lists b, y ≠ x := by
    rintro b y member rfl
    exact (loose y List.mem_cons_self).notListed b member
  have notFree : ∀ y ∈ free.flatten, y ≠ x := by
    rintro y member rfl
    exact (loose y List.mem_cons_self).notFree member
  constructor
  · exact linked.first
  · intro b
    refine (linked.segment b).congr (fun _ _ => rfl) fun y member => ?_
    exact Function.update_of_ne (notListed b y member) _ _
  · refine ⟨rfl, chain, ?_⟩
    rw [show (Store.setElements (s.setPrev (some x) s.elements) (some x)).prev x = s.elements from
      Function.update_self x _ _]
    refine linked.freeList.congr (fun _ _ => rfl) fun y member => ?_
    exact Function.update_of_ne (notFree y member) _ _
  · exact linked.nodup
  · exact linked.apart
  · rw [List.flatten_cons, List.nodup_append]
    refine ⟨nodup, linked.freeNodup, ?_⟩
    rintro y member z isFree rfl
    exact (loose y member).notFree isFree
  · intro b y member isFree
    rw [List.flatten_cons, List.mem_append] at isFree
    obtain released | isFree := isFree
    · exact (loose y released).notListed b member
    · exact linked.freeApart b y member isFree
  · exact linked.allocated
  · intro y isFree
    rw [List.flatten_cons, List.mem_append] at isFree
    obtain released | isFree := isFree
    · exact (loose y released).allocated
    · exact linked.freeAllocated y isFree

omit [DecidableEq β] in
theorem Linked.frame (linked : Linked s lists free)
    (next : ∀ y, (∃ b, y ∈ lists b) ∨ y ∈ free.flatten → s'.next y = s.next y)
    (prev : ∀ y, (∃ b, y ∈ lists b) ∨ y ∈ free.flatten → s'.prev y = s.prev y)
    (first : s'.first = s.first) (elements : s'.elements = s.elements) (used : s'.used = s.used) :
    Linked s' lists free := by
  constructor
  · rw [first]
    exact linked.first
  · exact fun b => (linked.segment b).congr (fun y member => next y (Or.inl ⟨b, member⟩))
      fun y member => prev y (Or.inl ⟨b, member⟩)
  · rw [elements]
    exact linked.freeList.congr (fun y member => next y (Or.inr member))
      fun y member => prev y (Or.inr member)
  · exact linked.nodup
  · exact linked.apart
  · exact linked.freeNodup
  · exact linked.freeApart
  · rw [used]
    exact linked.allocated
  · rw [used]
    exact linked.freeAllocated

omit [DecidableEq β] in
theorem Loose.ne_of_used {used x : Nat} (loose : Loose lists free used x) {y : Nat}
    (member : (∃ b, y ∈ lists b) ∨ y ∈ free.flatten) : y ≠ x := by
  rintro rfl
  obtain ⟨b, member⟩ | isFree := member
  · exact loose.notListed b member
  · exact loose.notFree isFree

structure Allocated (s s' : Store β wordBits) (lists : β → List Nat) (free : List (List Nat))
    (x : Nat) : Prop where
  linked : Linked s' lists free
  loose : Loose lists free s'.used x
  used : s.used ≤ s'.used
  next : s'.next = s.next
  prev : ∀ b, ∀ y ∈ lists b, s'.prev y = s.prev y
  indx : s'.indx = s.indx
  bits : s'.bits = Function.update s.bits x zeroBits
  first : s'.first = s.first
  current : s'.current = s.current
  headIndx : s'.headIndx = s.headIndx

omit [DecidableEq β] in
theorem elementAllocate_spec (linked : Linked s lists free) :
    ∃ free', Allocated s s.elementAllocate.2 lists free' s.elementAllocate.1 := by
  have freeList := linked.freeList
  cases free with
  | nil =>
    have isEmpty : s.elements = none := freeList
    refine ⟨[], ?_⟩
    have isNew : s.elementAllocate =
        (s.used, { s with used := s.used + 1 }.setBits s.used zeroBits) := by
      unfold Store.elementAllocate
      simp only [isEmpty]
    rw [isNew]
    refine ⟨⟨linked.first, linked.segment, isEmpty, linked.nodup, linked.apart,
      List.nodup_nil, fun _ _ _ => List.not_mem_nil, ?_, nofun⟩, ⟨?_, List.not_mem_nil, ?_⟩,
      Nat.le_succ _, rfl, fun _ _ _ => rfl, rfl, rfl, rfl, rfl, rfl⟩
    · exact fun b y member => Nat.lt_succ_of_lt (linked.allocated b y member)
    · exact fun b member => Nat.lt_irrefl _ (linked.allocated b _ member)
    · exact Nat.lt_succ_self _
  | cons inner outer =>
    cases inner with
    | nil => exact absurd freeList not_false
    | cons x inner =>
      obtain ⟨isFirst, ⟨isNext, chain⟩, rest⟩ := freeList
      have nodup := linked.freeNodup
      have isFree : x ∈ ((x :: inner) :: outer).flatten := by simp
      have notListed : ∀ b, x ∉ lists b := fun b member => linked.freeApart b x member isFree
      have allocated := linked.freeAllocated x isFree
      rw [List.flatten_cons, List.cons_append, List.nodup_cons] at nodup
      have isTaken : s.elementAllocate = (x, (s.takeElement x).setBits x zeroBits) := by
        unfold Store.elementAllocate
        simp only [isFirst]
      rw [isTaken]
      cases inner with
      | nil =>
        refine ⟨outer, ?_⟩
        have taken : s.takeElement x = s.setElements (s.prev x) := by
          rw [Store.takeElement, isNext]
          rfl
        rw [taken]
        refine ⟨⟨linked.first, linked.segment, rest, linked.nodup, linked.apart, nodup.2, ?_,
          linked.allocated, ?_⟩, ⟨notListed, nodup.1, allocated⟩, Nat.le_refl _, rfl,
          fun _ _ _ => rfl, rfl, rfl, rfl, rfl, rfl⟩
        · exact fun b y member isFree =>
            linked.freeApart b y member (List.mem_cons_of_mem _ isFree)
        · exact fun y isFree => linked.freeAllocated y (List.mem_cons_of_mem _ isFree)
      | cons y inner =>
        refine ⟨(y :: inner) :: outer, ?_⟩
        have taken : s.takeElement x =
            (s.setElements (some y)).setPrev (some y) (s.prev x) := by
          rw [Store.takeElement, isNext]
          rfl
        rw [taken]
        have notY : ∀ z, z ∈ outer.flatten → z ≠ y := by
          rintro z member rfl
          have := (List.nodup_append.mp nodup.2).2.2 z List.mem_cons_self z member
          exact this rfl
        have listedNe : ∀ b, ∀ z ∈ lists b, z ≠ y := by
          rintro b z member rfl
          exact linked.freeApart b z member (by simp)
        refine ⟨⟨linked.first, ?_, ⟨rfl, chain, ?_⟩, linked.nodup, linked.apart, nodup.2, ?_,
          linked.allocated, ?_⟩, ⟨notListed, nodup.1, allocated⟩, Nat.le_refl _, rfl, ?_,
          rfl, rfl, rfl, rfl, rfl⟩
        · intro b
          refine (linked.segment b).congr (fun _ _ => rfl) fun z member => ?_
          exact Function.update_of_ne (listedNe b z member) _ _
        · rw [show (((s.setElements (some y)).setPrev (some y) (s.prev x)).setBits x
            zeroBits).prev y = s.prev x from Function.update_self y _ _]
          refine rest.congr (fun _ _ => rfl) fun z member => ?_
          exact Function.update_of_ne (notY z member) _ _
        · exact fun b z member isFree =>
            linked.freeApart b z member (List.mem_cons_of_mem _ isFree)
        · exact fun z isFree => linked.freeAllocated z (List.mem_cons_of_mem _ isFree)
        · exact fun b z member => Function.update_of_ne (listedNe b z member) _ _

structure Inserted (s s' : Store β wordBits) (lists : β → List Nat) (a : β) (x : Nat) : Prop where
  fresh : ∀ b, x ∉ lists b
  used : s.used ≤ s'.used
  indx : s'.indx = s.indx
  bits : ∀ y, y ≠ x → s'.bits y = s.bits y
  current : s'.current = Function.update s.current a (some ((s.current a).getD x))
  headIndx : s'.headIndx = s.headIndx

theorem eltInsertAfter_none (linked : Linked s lists free) :
    ∃ x s' free', s.eltInsertAfter a none = some (x, s') ∧
      Linked s' (Function.update lists a (x :: lists a)) free' ∧ Inserted s s' lists a x := by
  obtain ⟨free', allocated⟩ := elementAllocate_spec linked
  unfold Store.eltInsertAfter
  generalize s.elementAllocate = allocation at allocated
  obtain ⟨x, t⟩ := allocation
  dsimp only at allocated
  have fresh := allocated.loose.notListed
  have isFirst : t.first a = (lists a).head? := allocated.linked.first a
  refine ⟨x, _, free', rfl, ?_, ?_⟩
  · have nodup : (x :: lists a).Nodup := List.nodup_cons.mpr ⟨fresh a, linked.nodup a⟩
    have segment := (allocated.linked.segment a).insert (l := []) (x := x) nodup
    refine allocated.linked.changeList ?_ ?_ nodup ?_ ?_ ?_ ?_ ?_
    · split <;> rfl
    · split
      · simpa [Store.setCurrent, Store.setNext, Store.setPrev, Store.setFirst, isFirst]
          using segment
      · simpa [Store.setCurrent, Store.setNext, Store.setPrev, Store.setFirst, isFirst]
          using segment
    · intro y member
      cases member with
      | head => exact Or.inr allocated.loose
      | tail _ member => exact Or.inl member
    · intro y notOld notNew
      have other : some x ≠ some y := fun same => notNew (by simp [Option.some.inj same])
      split <;> exact setAt_of_ne other
    · intro y notOld notNew
      have other : some x ≠ some y := fun same => notNew (by simp [Option.some.inj same])
      have notFirst : t.first a ≠ some y := fun same => notOld (List.mem_of_head? (isFirst ▸ same))
      split
      · exact (setAt_of_ne other).trans (setAt_of_ne notFirst)
      · exact (setAt_of_ne other).trans (setAt_of_ne notFirst)
    · split <;> rfl
    · split <;> rfl
  · refine ⟨fresh, ?_, ?_, ?_, ?_, ?_⟩
    · split <;> exact allocated.used
    · split <;> exact allocated.indx
    · intro y other
      split <;> exact (congrFun allocated.bits y).trans (Function.update_of_ne other _ _)
    · split
      · rename_i absent
        have absentBefore : s.current a = none := by rw [← allocated.current]; exact absent
        change Function.update t.current a (some x) = _
        rw [allocated.current, absentBefore, Option.getD_none]
      · rename_i present
        change t.current = _
        rw [allocated.current] at present ⊢
        obtain ⟨c, isCurrent⟩ := Option.ne_none_iff_exists'.mp present
        rw [isCurrent, Option.getD_some, ← isCurrent, Function.update_eq_self]
    · split <;> exact allocated.headIndx

theorem eltInsertAfter_some (linked : Linked s lists free) {l m : List Nat} {p : Nat}
    (isList : lists a = l ++ p :: m) (looks : s.current a ≠ none) :
    ∃ x s' free', s.eltInsertAfter a (some p) = some (x, s') ∧
      Linked s' (Function.update lists a (l ++ p :: x :: m)) free' ∧ Inserted s s' lists a x := by
  obtain ⟨free', allocated⟩ := elementAllocate_spec linked
  unfold Store.eltInsertAfter
  generalize s.elementAllocate = allocation at allocated
  obtain ⟨x, t⟩ := allocation
  dsimp only at allocated
  have fresh := allocated.loose.notListed
  have present : t.current a ≠ none := by rwa [allocated.current]
  have segmentBefore := allocated.linked.segment a
  rw [isList] at segmentBefore
  have isNext : t.next p = m.head? := segmentBefore.neighbours.2
  have pMember : p ∈ lists a := by rw [isList]; simp
  have pNe : p ≠ x := by
    rintro rfl
    exact fresh a pMember
  simp only [if_neg present]
  refine ⟨x, _, free', rfl, ?_, ?_⟩
  · have nodup : (l ++ p :: x :: m).Nodup := by
      have old := linked.nodup a
      have freshHere := fresh a
      rw [isList] at old freshHere
      have perm : (l ++ p :: x :: m).Perm (x :: (l ++ p :: m)) := by
        have middle : ((l ++ [p]) ++ x :: m).Perm (x :: ((l ++ [p]) ++ m)) := List.perm_middle
        simpa using middle
      exact perm.nodup_iff.mpr (List.nodup_cons.mpr ⟨freshHere, old⟩)
    have segment : Segment t.next t.prev none ((l ++ [p]) ++ m) none := by simpa using segmentBefore
    have inserted := segment.insert (x := x) (by simpa using nodup)
    rw [List.getLast?_append_cons] at inserted
    refine allocated.linked.changeList ?_ ?_ nodup ?_ ?_ ?_ rfl rfl
    · change t.first = _
      rw [show (l ++ p :: x :: m).head? = (lists a).head? by rw [isList]; cases l <;> rfl,
        ← allocated.linked.first a, Function.update_eq_self]
    · rw [List.append_cons]
      rw [show (Function.update (setAt t.next [p].getLast? (some x)) x m.head?) =
        Function.update (Function.update t.next x (t.next p)) p (some x) by
          rw [isNext]
          exact Function.update_comm pNe _ _ _] at inserted
      simpa [Store.setNext, Store.setPrev, isNext] using inserted
    · intro y member
      by_cases isNew : y = x
      · exact Or.inr (isNew ▸ allocated.loose)
      · left
        rw [isList]
        simp only [List.mem_append, List.mem_cons, isNew, false_or] at member ⊢
        exact member
    · intro y notOld notNew
      have notX : some x ≠ some y := fun same => notNew (by simp [Option.some.inj same])
      have notP : some p ≠ some y := fun same => notOld (Option.some.inj same ▸ pMember)
      exact (setAt_of_ne notP).trans (setAt_of_ne notX)
    · intro y notOld notNew
      have notX : some x ≠ some y := fun same => notNew (by simp [Option.some.inj same])
      have notNext : t.next p ≠ some y := by
        rw [isNext]
        intro same
        apply notOld
        rw [isList]
        simp [List.mem_of_head? same]
      exact (setAt_of_ne notX).trans (setAt_of_ne notNext)
  · refine ⟨fresh, allocated.used, allocated.indx, ?_, ?_, allocated.headIndx⟩
    · intro y other
      exact (congrFun allocated.bits y).trans (Function.update_of_ne other _ _)
    · obtain ⟨c, isCurrent⟩ := Option.ne_none_iff_exists'.mp looks
      change t.current = _
      rw [allocated.current, isCurrent, Option.getD_some, ← isCurrent, Function.update_eq_self]

theorem eltInsertAfter_spec (linked : Linked s lists free) {l m : List Nat}
    (isList : lists a = l ++ m) (looks : Looks s a (lists a)) :
    ∃ x s' free', s.eltInsertAfter a l.getLast? = some (x, s') ∧
      Linked s' (Function.update lists a (l ++ x :: m)) free' ∧ Inserted s s' lists a x := by
  cases l using List.reverseRecOn with
  | nil =>
    have inserted := eltInsertAfter_none (a := a) linked
    rwa [isList] at inserted
  | append_singleton l p =>
    have present : s.current a ≠ none := by
      obtain ⟨isEmpty, -⟩ | ⟨c, -, isCurrent⟩ := looks
      · rw [isList] at isEmpty
        simp at isEmpty
      · rw [isCurrent]
        exact nofun
    have inserted := eltInsertAfter_some linked (l := l) (p := p) (m := m)
      (by rw [isList]; simp) present
    rw [List.getLast?_append_cons]
    simpa using inserted

structure Removed (s s' : Store β wordBits) (a : β) (l : List Nat) : Prop where
  used : s'.used = s.used
  indx : s'.indx = s.indx
  bits : s'.bits = s.bits
  others : ∀ b, b ≠ a → s'.current b = s.current b ∧ s'.headIndx b = s.headIndx b
  looks : Looks s' a l
  fresh : Fresh s a → Fresh s' a

theorem leaveCurrent_spec (u : Store β wordBits) (a : β) (next prev : Option Nat) :
    (u.leaveCurrent a next prev).current = Function.update u.current a (next.or prev) ∧
      (∀ b, b ≠ a → (u.leaveCurrent a next prev).headIndx b = u.headIndx b) ∧
      Fresh (u.leaveCurrent a next prev) a := by
  unfold Store.leaveCurrent
  cases next.or prev with
  | none =>
    refine ⟨rfl, fun _ _ => rfl, ?_⟩
    intro c isCurrent
    change Function.update u.current a none a = some c at isCurrent
    rw [Function.update_self] at isCurrent
    cases isCurrent
  | some y =>
    refine ⟨rfl, fun b other => Function.update_of_ne other _ _, ?_⟩
    intro c isCurrent
    change Function.update u.current a (some y) a = some c at isCurrent
    change Function.update u.headIndx a _ a = u.indx c
    rw [Function.update_self, Option.some.injEq] at isCurrent
    rw [Function.update_self, isCurrent]

theorem leaveCurrent_fields (u : Store β wordBits) (a : β) (next prev : Option Nat) :
    (u.leaveCurrent a next prev).next = u.next ∧ (u.leaveCurrent a next prev).prev = u.prev ∧
      (u.leaveCurrent a next prev).elements = u.elements ∧
      (u.leaveCurrent a next prev).used = u.used ∧ (u.leaveCurrent a next prev).indx = u.indx ∧
      (u.leaveCurrent a next prev).bits = u.bits ∧
      (u.leaveCurrent a next prev).first = u.first := by
  unfold Store.leaveCurrent
  split <;> exact ⟨rfl, rfl, rfl, rfl, rfl, rfl, rfl⟩

omit [DecidableEq β] in
theorem looks_after {s s' : Store β wordBits} {l m : List Nat} {x : Nat}
    (looks : Looks s a (l ++ x :: m))
    (choice : s'.current a = if s.current a = some x then m.head?.or l.getLast? else s.current a) :
    Looks s' a (l ++ m) := by
  unfold Looks
  rw [choice]
  obtain ⟨isEmpty, -⟩ | ⟨c, member, isCurrent⟩ := looks
  · simp at isEmpty
  · by_cases same : c = x
    · subst same
      rw [if_pos isCurrent]
      cases m with
      | cons y m => exact Or.inr ⟨y, by simp, rfl⟩
      | nil =>
        cases isLast : l.getLast? with
        | none =>
          left
          rw [List.getLast?_eq_none_iff.mp isLast]
          exact ⟨rfl, rfl⟩
        | some y => exact Or.inr ⟨y, List.mem_append_left _ (List.mem_of_getLast? isLast), rfl⟩
    · right
      have notX : s.current a ≠ some x := by
        rw [isCurrent]
        exact fun isX => same (Option.some.inj isX)
      refine ⟨c, ?_, ?_⟩
      · simp only [List.mem_append, List.mem_cons] at member ⊢
        tauto
      · rw [if_neg notX, isCurrent]

theorem Linked.unlink (linked : Linked s lists free) {l m : List Nat} {x : Nat}
    (isList : lists a = l ++ x :: m) (next : s'.next = setAt s.next l.getLast? m.head?)
    (prev : s'.prev = setAt s.prev m.head? l.getLast?)
    (first : s'.first = if s.first a = some x then Function.update s.first a m.head? else s.first)
    (elements : s'.elements = s.elements) (used : s'.used = s.used) :
    Linked s' (Function.update lists a (l ++ m)) free ∧
      Loose (Function.update lists a (l ++ m)) free s'.used x := by
  have nodup := linked.nodup a
  have segment := linked.segment a
  have isFirst := linked.first a
  rw [isList] at nodup segment isFirst
  have fresh := (List.nodup_cons.mp (List.nodup_middle.mp nodup)).1
  have member : x ∈ lists a := by
    rw [isList]
    simp
  refine ⟨linked.changeList ?_ ?_ ?_ ?_ ?_ ?_ elements used, ?_, linked.freeApart a x member, ?_⟩
  · rw [first, isFirst]
    cases l with
    | nil => simp
    | cons y l =>
      have other : y ≠ x := fun same => fresh (same ▸ List.mem_cons_self)
      simp only [List.cons_append, List.head?_cons, Option.some.injEq, other, if_false]
      rw [List.cons_append, List.head?_cons] at isFirst
      rw [← isFirst, Function.update_eq_self]
  · rw [next, prev]
    exact segment.erase nodup
  · exact (List.nodup_middle.mp nodup).of_cons
  · intro y member
    left
    rw [isList]
    simp only [List.mem_append, List.mem_cons] at member ⊢
    tauto
  · intro y notOld _
    rw [next]
    apply setAt_of_ne
    intro isLast
    apply notOld
    rw [isList]
    exact List.mem_append_left _ (List.mem_of_getLast? isLast)
  · intro y notOld _
    rw [prev]
    apply setAt_of_ne
    intro isHead
    apply notOld
    rw [isList]
    exact List.mem_append_right _ (List.mem_cons_of_mem _ (List.mem_of_head? isHead))
  · intro b
    by_cases same : b = a
    · subst same
      rw [Function.update_self]
      exact fresh
    · rw [Function.update_of_ne same]
      exact linked.apart a b (Ne.symm same) x member
  · rw [used]
    exact linked.allocated a x member

omit [DecidableEq β] in
theorem Linked.elemToFreelist (linked : Linked s lists free) {x : Nat}
    (loose : Loose lists free s.used x) : Linked (s.elemToFreelist x) lists ([x] :: free) := by
  have cleared : Linked (s.setNext (some x) none) lists free :=
    linked.frame (fun y member => setAt_of_ne fun same =>
      loose.ne_of_used member (Option.some.inj same).symm) (fun _ _ => rfl) rfl rfl rfl
  have chain : Chain (s.setNext (some x) none).next [x] :=
    ⟨setAt_self rfl, trivial⟩
  refine cleared.release chain (List.nodup_singleton x) ?_
  intro y member
  rw [List.mem_singleton.mp member]
  exact loose

theorem elementFree_spec (linked : Linked s lists free) {l m : List Nat} {x : Nat}
    (isList : lists a = l ++ x :: m) (looks : Looks s a (lists a)) :
    ∃ free', Linked (s.elementFree a x) (Function.update lists a (l ++ m)) free' ∧
      Removed s (s.elementFree a x) a (l ++ m) := by
  have segment := linked.segment a
  rw [isList] at segment looks
  obtain ⟨isPrev, isNext⟩ := segment.neighbours
  obtain ⟨u, isU⟩ : ∃ u, (if s.first a = some x then
      ((s.setNext l.getLast? m.head?).setPrev m.head? l.getLast?).setFirst a m.head?
    else (s.setNext l.getLast? m.head?).setPrev m.head? l.getLast?) = u := ⟨_, rfl⟩
  obtain ⟨v, isV⟩ : ∃ v, (if u.current a = some x then u.leaveCurrent a m.head? l.getLast?
    else u) = v := ⟨_, rfl⟩
  have isFree : s.elementFree a x = v.elemToFreelist x := by
    rw [← isV, ← isU, Store.elementFree, isPrev, isNext]
    rfl
  have uFields : u.next = setAt s.next l.getLast? m.head? ∧
      u.prev = setAt s.prev m.head? l.getLast? ∧ u.elements = s.elements ∧ u.used = s.used ∧
      u.first = (if s.first a = some x then Function.update s.first a m.head? else s.first) := by
    rw [← isU]
    split <;> exact ⟨rfl, rfl, rfl, rfl, rfl⟩
  have uData : u.indx = s.indx ∧ u.bits = s.bits ∧ u.current = s.current ∧
      u.headIndx = s.headIndx := by
    rw [← isU]
    split <;> exact ⟨rfl, rfl, rfl, rfl⟩
  obtain ⟨uIndx, uBits, uCurrent, uHeadIndx⟩ := uData
  have vFields : v.next = u.next ∧ v.prev = u.prev ∧ v.elements = u.elements ∧ v.used = u.used ∧
      v.indx = u.indx ∧ v.bits = u.bits ∧ v.first = u.first := by
    rw [← isV]
    split
    · exact leaveCurrent_fields u a _ _
    · exact ⟨rfl, rfl, rfl, rfl, rfl, rfl, rfl⟩
  obtain ⟨vNext, vPrev, vElements, vUsed, vIndx, vBits, vFirst⟩ := vFields
  obtain ⟨uNext, uPrev, uElements, uUsed, uFirst⟩ := uFields
  obtain ⟨unlinked, loose⟩ := linked.unlink isList (vNext.trans uNext) (vPrev.trans uPrev)
    (vFirst.trans uFirst) (vElements.trans uElements) (vUsed.trans uUsed)
  have uFresh : Fresh s a → Fresh u a := by
    intro fresh c isCurrent
    rw [uCurrent] at isCurrent
    rw [uHeadIndx, uIndx, fresh c isCurrent]
  have vCurrent : v.current = if s.current a = some x then
      Function.update s.current a (m.head?.or l.getLast?) else s.current := by
    rw [← isV, uCurrent]
    split
    · rw [(leaveCurrent_spec u a _ _).1, uCurrent]
    · exact uCurrent
  rw [isFree]
  refine ⟨_, unlinked.elemToFreelist loose, vUsed.trans uUsed, vIndx.trans uIndx,
    vBits.trans uBits, ?_, ?_, ?_⟩
  · intro b other
    refine ⟨?_, ?_⟩
    · change v.current b = _
      rw [vCurrent]
      split
      · exact Function.update_of_ne other _ _
      · rfl
    · change v.headIndx b = _
      rw [← uHeadIndx, ← isV]
      split
      · exact (leaveCurrent_spec u a _ _).2.1 b other
      · rfl
  · apply looks_after (s := s) looks
    change v.current a = _
    rw [vCurrent]
    split
    · exact Function.update_self _ _ _
    · rfl
  · intro fresh
    change Fresh v a
    rw [← isV]
    split
    · exact (leaveCurrent_spec u a _ _).2.2
    · exact uFresh fresh

/-- The end of a list is cut off and freed.  The current element is moved if its
index is greater than that of the last element that stays. -/
structure Cut (s s' : Store β wordBits) (a : β) (l m : List Nat) : Prop where
  used : s'.used = s.used
  indx : s'.indx = s.indx
  bits : s'.bits = s.bits
  others : ∀ b, b ≠ a → s'.current b = s.current b ∧ s'.headIndx b = s.headIndx b
  whole : m = [] → s' = s
  emptied : m ≠ [] → l = [] → s'.current a = none
  moved : ∀ p c, m ≠ [] → l.getLast? = some p → s.current a = some c →
    s'.current a = (if s.indx c > s.indx p then some p else some c) ∧
      s'.headIndx a = (if s.indx c > s.indx p then s.indx p else s.headIndx a)

theorem Linked.cut (linked : Linked s lists free) {l m : List Nat} {x : Nat}
    (isList : lists a = l ++ x :: m) (next : s'.next = setAt s.next l.getLast? none)
    (prev : s'.prev = s.prev) (first : s'.first = Function.update s.first a l.head?)
    (elements : s'.elements = s.elements) (used : s'.used = s.used) :
    Linked ((s'.setPrev (some x) s'.elements).setElements (some x)) (Function.update lists a l)
      ((x :: m) :: free) := by
  have nodup := linked.nodup a
  have segment := linked.segment a
  rw [isList] at nodup segment
  obtain ⟨leftNodup, rightNodup, apart⟩ := List.nodup_append.mp nodup
  have memberLeft : ∀ y ∈ l, y ∈ lists a := by
    intro y member
    rw [isList]
    exact List.mem_append_left _ member
  have shorter : Linked s' (Function.update lists a l) free := by
    refine linked.changeList first ?_ leftNodup (fun y member => Or.inl (memberLeft y member)) ?_ ?_
      elements used
    · rw [next, prev]
      exact segment.truncate leftNodup
    · intro y notOld _
      rw [next]
      exact setAt_of_ne fun isLast => notOld (memberLeft y (List.mem_of_getLast? isLast))
    · exact fun y _ _ => congrFun prev y
  refine shorter.release ?_ rightNodup ?_
  · refine (Segment.append_iff.mp segment).2.chain.congr fun y member => ?_
    rw [next]
    apply setAt_of_ne
    exact fun isLast => apart y (List.mem_of_getLast? isLast) y member rfl
  · intro y member
    have listed : y ∈ lists a := by
      rw [isList]
      exact List.mem_append_right _ member
    refine ⟨?_, linked.freeApart a y listed, ?_⟩
    · intro b
      by_cases same : b = a
      · subst same
        rw [Function.update_self]
        exact fun inLeft => apart y inLeft y member rfl
      · rw [Function.update_of_ne same]
        exact linked.apart a b (Ne.symm same) y listed
    · rw [used]
      exact linked.allocated a y listed

theorem eltClearFrom_spec (linked : Linked s lists free) {l m : List Nat}
    (isList : lists a = l ++ m) (looks : Looks s a (lists a)) :
    ∃ s' free', s.eltClearFrom a m.head? = some s' ∧
      Linked s' (Function.update lists a l) free' ∧ Cut s s' a l m := by
  cases m with
  | nil =>
    refine ⟨s, free, rfl, ?_, rfl, rfl, rfl, fun _ _ => ⟨rfl, rfl⟩, fun _ => rfl,
      fun more => absurd rfl more, fun _ _ more => absurd rfl more⟩
    rw [List.append_nil] at isList
    rwa [← isList, Function.update_eq_self]
  | cons x m =>
    have segment := linked.segment a
    rw [isList] at segment
    have isPrev := segment.neighbours.1
    rw [List.head?_cons, Store.eltClearFrom]
    cases l using List.reverseRecOn with
    | nil =>
      simp only [isPrev, List.getLast?_nil]
      refine ⟨_, _, rfl, linked.cut isList rfl rfl rfl rfl rfl, rfl, rfl, rfl, ?_, nofun, ?_,
        nofun⟩
      · intro b other
        exact ⟨Function.update_of_ne other _ _, Function.update_of_ne other _ _⟩
      · exact fun _ _ => Function.update_self _ _ _
    | append_singleton l p =>
      obtain ⟨c, isCurrent⟩ : ∃ c, s.current a = some c := by
        obtain ⟨isEmpty, -⟩ | ⟨c, -, isCurrent⟩ := looks
        · rw [isList] at isEmpty
          simp at isEmpty
        · exact ⟨c, isCurrent⟩
      have isLast : (l ++ [p]).getLast? = some p := by simp
      simp only [isPrev, isLast, isCurrent, Option.map_some]
      have sameFirst : s.first = Function.update s.first a (l ++ [p]).head? := by
        have isFirst := linked.first a
        rw [isList] at isFirst
        have same : (l ++ [p]).head? = (l ++ [p] ++ x :: m).head? := by cases l <;> rfl
        rw [same, ← isFirst, Function.update_eq_self]
      refine ⟨_, _, rfl, linked.cut isList ?_ ?_ ?_ ?_ ?_, ?_, ?_, ?_, ?_, nofun, ?_, ?_⟩
      · rw [isLast]
        split <;> rfl
      · split <;> rfl
      · rw [← sameFirst]
        split <;> rfl
      · split <;> rfl
      · split <;> rfl
      · split <;> rfl
      · split <;> rfl
      · split <;> rfl
      · intro b other
        split
        · exact ⟨Function.update_of_ne other _ _, Function.update_of_ne other _ _⟩
        · exact ⟨rfl, rfl⟩
      · intro _ isEmpty
        simp at isEmpty
      · intro p' c' _ isLast' isCurrent'
        rw [isLast, Option.some.injEq] at isLast'
        rw [isCurrent, Option.some.injEq] at isCurrent'
        subst isLast' isCurrent'
        change (if s.indx c > s.indx p then _ else _ : Store β wordBits).current a = _ ∧
          (if s.indx c > s.indx p then _ else _ : Store β wordBits).headIndx a = _
        split
        · exact ⟨Function.update_self _ _ _, Function.update_self _ _ _⟩
        · exact ⟨isCurrent, rfl⟩

end GccCil.Gcc.Bitmap
