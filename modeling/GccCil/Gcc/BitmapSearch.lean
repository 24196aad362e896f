import GccCil.Gcc.BitmapWords

/-!
# Operations on single bits

The state of all bitmaps between two operations, the search for the element of a
bit, and the operations that read or write one bit.
-/

namespace GccCil.Gcc.Bitmap

open Lib

variable {β : Type} [DecidableEq β] {wordBits : Nat}

/-- All bitmaps are well-formed: the elements are linked, one of a list that is
not empty is the current one, and the indices increase and go with words that
are not all zero. -/
structure Consistent (s : Store β wordBits) (lists : β → List Nat) (free : List (List Nat)) :
    Prop where
  linked : Linked s lists free
  looks : ∀ b, Looks s b (lists b)
  fresh : ∀ b, Fresh s b
  increasing : ∀ b, Increasing (contents s (lists b))
  nonzero : ∀ b, ∀ block ∈ contents s (lists b), block.2 ≠ zeroBits

variable {s s' : Store β wordBits} {lists lists' : β → List Nat} {free free' : List (List Nat)}
  {a : β}

omit [DecidableEq β] in
theorem Consistent.update (consistent : Consistent s lists free) (linked : Linked s' lists' free')
    (changes : OnlyChanges s s' lists lists' a) (looks : Looks s' a (lists' a))
    (fresh : Fresh s' a) (increasing : Increasing (contents s' (lists' a)))
    (nonzero : ∀ block ∈ contents s' (lists' a), block.2 ≠ zeroBits) :
    Consistent s' lists' free' := by
  have others : ∀ b, b ≠ a → contents s' (lists' b) = contents s (lists b) := by
    intro b other
    rw [changes.sameLists b other]
    exact changes.contents other fun _ member => member
  refine ⟨linked, fun b => ?_, fun b => ?_, fun b => ?_, fun b => ?_⟩
  · by_cases same : b = a
    · rwa [same]
    · have before := consistent.looks b
      unfold Looks at before ⊢
      rwa [changes.sameLists b same, changes.sameCurrent b same]
  · by_cases same : b = a
    · rwa [same]
    · intro c isCurrent
      rw [changes.sameCurrent b same] at isCurrent
      have listed : c ∈ lists b := by
        obtain ⟨-, isNone⟩ | ⟨c', member, isCurrent'⟩ := consistent.looks b
        · rw [isNone] at isCurrent
          cases isCurrent
        · rw [isCurrent, Option.some.injEq] at isCurrent'
          rwa [isCurrent']
      rw [changes.sameHeadIndx b same, changes.sameIndx b same c listed,
        consistent.fresh b c isCurrent]
  · by_cases same : b = a
    · rwa [same]
    · rw [others b same]
      exact consistent.increasing b
  · by_cases same : b = a
    · rwa [same]
    · rw [others b same]
      exact consistent.nonzero b

omit [DecidableEq β] in
theorem contents_eq_nil {l : List Nat} : contents s l = [] ↔ l = [] := List.map_eq_nil_iff

omit [DecidableEq β] in
theorem increasing_contents {l : List Nat} (increasing : Increasing (contents s l)) :
    l.Pairwise fun x y => s.indx x < s.indx y := by
  unfold Increasing contents at increasing
  rwa [List.pairwise_map] at increasing

omit [DecidableEq β] in
theorem Linked.length_le (linked : Linked s lists free) (b : β) : (lists b).length ≤ s.used := by
  have subset : lists b ⊆ List.range s.used := by
    intro x member
    exact List.mem_range.mpr (linked.allocated b x member)
  have shorter := (linked.nodup b).subperm subset |>.length_le
  rwa [List.length_range] at shorter

theorem Consistent.lookAt (consistent : Consistent s lists free) {x : Nat} (member : x ∈ lists a) :
    Consistent (s.lookAt a x) lists free ∧ OnlyChanges s (s.lookAt a x) lists lists a := by
  have changes : OnlyChanges s (s.lookAt a x) lists lists a :=
    ⟨fun _ _ => rfl, fun _ _ _ _ => rfl, fun _ _ _ _ => rfl,
      fun c other => Function.update_of_ne other _ _, fun c other => Function.update_of_ne other _ _,
      Nat.le_refl _⟩
  refine ⟨consistent.update ?_ changes ?_ ?_ (consistent.increasing a) (consistent.nonzero a),
    changes⟩
  · exact consistent.linked.frame (fun _ _ => rfl) (fun _ _ => rfl) rfl rfl rfl
  · exact Or.inr ⟨x, member, Function.update_self _ _ _⟩
  · intro c isCurrent
    change Function.update s.current a (some x) a = some c at isCurrent
    change Function.update s.headIndx a (s.indx x) a = s.indx c
    rw [Function.update_self, Option.some.injEq] at isCurrent
    rw [Function.update_self, isCurrent]

omit [DecidableEq β] in
theorem walk_finds (s : Store β wordBits) (indx : Nat) (passes : Nat → Bool)
    {step : Nat → Option Nat} {x : Nat} {path : List Nat}
    (linked : Chain step (x :: path)) (enough : path.length < s.used)
    (stops : ∀ w, s.indx w = indx → passes w = false)
    (ordered : (x :: path).Pairwise fun u v => passes u = false → s.indx v ≠ indx) :
    ∃ y ∈ x :: path, walk step (fun u _ => passes u) s.used x = some y ∧
      ∀ w ∈ x :: path, s.indx w = indx → w = y := by
  obtain ⟨passed, y, rest, isWalk, isPath, passing, stopped⟩ :=
    walk_leaving passes linked enough
  rw [isPath] at ordered ⊢
  refine ⟨y, by simp, isWalk, ?_⟩
  intro w member isIndx
  obtain member | member := List.mem_append.mp member
  · have isPassing := passing w member
    rw [stops w isIndx] at isPassing
    cases isPassing
  · obtain rfl | member := List.mem_cons.mp member
    · rfl
    · have later := (List.pairwise_cons.mp (List.pairwise_append.mp ordered).2.1).1 w member
      exact absurd isIndx (later (stopped (List.ne_nil_of_mem member)))

omit [DecidableEq β] in
theorem nearest_spec (consistent : Consistent s lists free) {current : Nat}
    (isCurrent : s.current a = some current) (indx : Nat) :
    ∃ y ∈ lists a, s.nearest a current indx = some y ∧
      ∀ w ∈ lists a, s.indx w = indx → w = y := by
  have listed : current ∈ lists a := by
    obtain ⟨-, isNone⟩ | ⟨c, member, isSome⟩ := consistent.looks a
    · rw [isNone] at isCurrent
      cases isCurrent
    · rw [isCurrent, Option.some.injEq] at isSome
      rwa [isSome]
  have headIndx := consistent.fresh a current isCurrent
  have short := consistent.linked.length_le a
  have increasing := increasing_contents (consistent.increasing a)
  have segment := consistent.linked.segment a
  have isFirst := consistent.linked.first a
  obtain ⟨before, after, isList⟩ := List.append_of_mem listed
  generalize lists a = l at *
  subst isList
  have parts := List.pairwise_append.mp increasing
  have fromCurrent := List.pairwise_cons.mp parts.2.1
  rw [List.length_append, List.length_cons] at short
  unfold Store.nearest
  split
  · rename_i less
    obtain ⟨y, member, isWalk, only⟩ := walk_finds s indx (fun u => s.indx u < indx)
      (Segment.append_iff.mp segment).2.chain (by omega) (fun w isIndx => by simp [isIndx])
      (parts.2.1.imp fun less stopped isIndx => by
        rw [decide_eq_false_iff_not] at stopped
        omega)
    refine ⟨y, List.mem_append_right _ member, isWalk, fun w listed isIndx => ?_⟩
    obtain early | late := List.mem_append.mp listed
    · have below := parts.2.2 w early current List.mem_cons_self
      omega
    · exact only w late isIndx
  · split
    · have chain : Chain s.prev (current :: before.reverse) := by
        have reversed := (Segment.append_iff.mp
          (show Segment s.next s.prev none ((before ++ [current]) ++ after) none by
            simpa using segment)).1.chain_reverse
        simpa using reversed
      have backwards : (current :: before.reverse).Pairwise fun u v => s.indx v < s.indx u := by
        rw [List.pairwise_cons, List.pairwise_reverse]
        refine ⟨fun u member => ?_, parts.1⟩
        exact parts.2.2 u (List.mem_reverse.mp member) current List.mem_cons_self
      obtain ⟨y, member, isWalk, only⟩ := walk_finds s indx (fun u => s.indx u > indx)
        chain (by rw [List.length_reverse]; omega) (fun w isIndx => by simp [isIndx])
        (backwards.imp fun less stopped isIndx => by
          rw [decide_eq_false_iff_not] at stopped
          omega)
      refine ⟨y, ?_, isWalk, fun w listed isIndx => ?_⟩
      · simp only [List.mem_cons, List.mem_reverse, List.mem_append] at member ⊢
        tauto
      · apply only w _ isIndx
        simp only [List.mem_cons, List.mem_reverse, List.mem_append] at listed ⊢
        obtain early | rfl | late := listed
        · exact Or.inr early
        · exact Or.inl rfl
        · have above := fromCurrent.1 w late
          omega
    · obtain ⟨x, path, isPath⟩ : ∃ x path, before ++ current :: after = x :: path := by
        cases before with
        | nil => exact ⟨_, _, rfl⟩
        | cons x before => exact ⟨_, _, rfl⟩
      have lengths := congrArg List.length isPath
      rw [List.length_append, List.length_cons, List.length_cons] at lengths
      rw [isPath] at segment increasing isFirst ⊢
      rw [isFirst, List.head?_cons, Option.bind_some]
      exact walk_finds s indx (fun u => s.indx u < indx) segment.chain (by omega)
        (fun w isIndx => by simp [isIndx])
        (increasing.imp fun less stopped isIndx => by
          rw [decide_eq_false_iff_not] at stopped
          omega)

structure Searched (s s' : Store β wordBits) (lists : β → List Nat) (free : List (List Nat))
    (a : β) : Prop where
  consistent : Consistent s' lists free
  changes : OnlyChanges s s' lists lists a
  indx : s'.indx = s.indx
  bits : s'.bits = s.bits

def IsFound (s : Store β wordBits) (l : List Nat) (bit : Nat) : Option Nat → Prop
  | some x => x ∈ l ∧ s.indx x = bit / elementAllBits wordBits
  | none => ∀ x ∈ l, s.indx x ≠ bit / elementAllBits wordBits

theorem findBit_spec (consistent : Consistent s lists free) (a : β) (bit : Nat) :
    ∃ ptr s', s.findBit a bit = some (ptr, s') ∧ Searched s s' lists free a ∧
      IsFound s' (lists a) bit ptr := by
  have unchanged : Searched s s lists free a := ⟨consistent, OnlyChanges.refl, rfl, rfl⟩
  unfold Store.findBit
  obtain ⟨isEmpty, isNone⟩ | ⟨current, member, isCurrent⟩ := consistent.looks a
  · refine ⟨none, s, ?_, unchanged, ?_⟩
    · rw [isNone]
    · rw [isEmpty]
      exact fun x absent => absurd absent List.not_mem_nil
  · rw [isCurrent]
    dsimp only
    split
    · rename_i here
      refine ⟨some current, s, rfl, unchanged, member, ?_⟩
      rw [← consistent.fresh a current isCurrent, here]
    · obtain ⟨y, listed, isNearest, only⟩ :=
        nearest_spec consistent isCurrent (bit / elementAllBits wordBits)
      obtain ⟨looked, changes⟩ := consistent.lookAt listed
      have searched : Searched s (s.lookAt a y) lists free a := ⟨looked, changes, rfl, rfl⟩
      rw [isNearest, Option.map_some]
      by_cases same : s.indx y = bit / elementAllBits wordBits
      · refine ⟨some y, s.lookAt a y, ?_, searched, listed, same⟩
        rw [if_neg (not_not.mpr same)]
      · refine ⟨none, s.lookAt a y, ?_, searched, ?_⟩
        · rw [if_pos same]
        · intro x member isIndx
          rw [only x member isIndx] at isIndx
          exact same isIndx

def Updates (s s' : Store β wordBits) (lists : β → List Nat) (a : β)
    (blocks : List (Nat × Bits wordBits)) : Prop :=
  ∃ lists' free', Consistent s' lists' free' ∧ contents s' (lists' a) = blocks ∧
    OnlyChanges s s' lists lists' a

omit [DecidableEq β] in
theorem Searched.updates (searched : Searched s s' lists free a) :
    Updates s s' lists a (contents s (lists a)) := by
  refine ⟨lists, free, searched.consistent, ?_, searched.changes⟩
  exact contents_congr (fun x _ => congrFun searched.indx x) fun x _ => congrFun searched.bits x

theorem Linked.put (linked : Linked s lists free) (before after : List Nat) {x : Nat}
    (isList : lists a = before ++ after) (loose : Loose lists free s.used x)
    (next : s'.next = Function.update (setAt s.next before.getLast? (some x)) x after.head?)
    (prev : s'.prev = Function.update (setAt s.prev after.head? (some x)) x before.getLast?)
    (first : s'.first = Function.update s.first a (before ++ x :: after).head?)
    (elements : s'.elements = s.elements) (used : s'.used = s.used) :
    Linked s' (Function.update lists a (before ++ x :: after)) free := by
  have segment := linked.segment a
  have nodup := linked.nodup a
  have absent := loose.notListed a
  rw [isList] at segment nodup absent
  have nodup' : (before ++ x :: after).Nodup :=
    List.nodup_middle.mpr (List.nodup_cons.mpr ⟨absent, nodup⟩)
  refine linked.changeList first ?_ nodup' ?_ ?_ ?_ elements used
  · rw [next, prev]
    exact segment.insert nodup'
  · intro y member
    rw [isList]
    simp only [List.mem_append, List.mem_cons] at member ⊢
    obtain early | rfl | late := member
    · exact Or.inl (Or.inl early)
    · exact Or.inr loose
    · exact Or.inl (Or.inr late)
  · intro y _ notNew
    rw [List.mem_append, List.mem_cons, not_or, not_or] at notNew
    rw [next, Function.update_of_ne notNew.2.1]
    exact setAt_of_ne fun isLast => notNew.1 (List.mem_of_getLast? isLast)
  · intro y _ notNew
    rw [List.mem_append, List.mem_cons, not_or, not_or] at notNew
    rw [prev, Function.update_of_ne notNew.2.1]
    exact setAt_of_ne fun isHead => notNew.2.2 (List.mem_of_head? isHead)

structure Place (s : Store β wordBits) (l before after : List Nat) (indx : Nat) : Prop where
  isList : l = before ++ after
  below : ∀ u ∈ before, s.indx u < indx
  above : ∀ u ∈ after, indx < s.indx u

omit [DecidableEq β] in
theorem place_backwards {l : List Nat} {current indx : Nat} (listed : current ∈ l)
    (short : l.length ≤ s.used) (segment : Segment s.next s.prev none l none)
    (increasing : l.Pairwise fun x y => s.indx x < s.indx y) (absent : ∀ y ∈ l, s.indx y ≠ indx)
    (less : indx < s.indx current) :
    ∃ before ptr after, walk s.prev (fun _ prev => s.indx prev > indx) s.used current = some ptr ∧
      Place s l before (ptr :: after) indx := by
  obtain ⟨first, later, rfl⟩ := List.append_of_mem listed
  have parts := List.pairwise_append.mp increasing
  rw [List.length_append, List.length_cons] at short
  have chain : Chain s.prev (current :: first.reverse) := by
    have reversed := (Segment.append_iff.mp
      (show Segment s.next s.prev none ((first ++ [current]) ++ later) none by
        simpa using segment)).1.chain_reverse
    simpa using reversed
  obtain ⟨passed, ptr, rest, isWalk, isPath, passing, stopped⟩ :=
    walk_reaching (fun prev => s.indx prev > indx) chain
      (show first.reverse.length < s.used by rw [List.length_reverse]; omega)
  have isFirst : first ++ [current] = rest.reverse ++ ptr :: passed.reverse := by
    have reversed := congrArg List.reverse isPath
    simpa using reversed
  have isWhole : first ++ current :: later = rest.reverse ++ ptr :: (passed.reverse ++ later) := by
    have extended := congrArg (· ++ later) isFirst
    simpa using extended
  refine ⟨rest.reverse, ptr, passed.reverse ++ later, isWalk, isWhole, ?_, ?_⟩
  · intro u member
    cases rest with
    | nil => exact absurd member List.not_mem_nil
    | cons z rest =>
      have listedZ : z ∈ first ++ current :: later := by
        rw [isWhole]
        simp
      have notAbove := stopped z rfl
      rw [decide_eq_false_iff_not] at notAbove
      have notSame := absent z listedZ
      rw [List.mem_reverse] at member
      obtain rfl | member := List.mem_cons.mp member
      · omega
      · rw [isWhole, List.reverse_cons, List.append_assoc] at increasing
        have ordered := (List.pairwise_append.mp increasing).2.2 u (List.mem_reverse.mpr member) z
          (by simp)
        omega
  · intro u member
    by_cases isLater : u ∈ later
    · exact less.trans ((List.pairwise_cons.mp parts.2.1).1 u isLater)
    · have reached : u ∈ passed ++ [ptr] := by
        simp only [List.mem_append, List.mem_cons, List.mem_reverse, List.not_mem_nil] at member ⊢
        tauto
      obtain rfl | isAbove := passing u reached
      · exact less
      · exact of_decide_eq_true isAbove

omit [DecidableEq β] in
theorem place_forwards {l : List Nat} {current indx : Nat} (listed : current ∈ l)
    (short : l.length ≤ s.used) (segment : Segment s.next s.prev none l none)
    (increasing : l.Pairwise fun x y => s.indx x < s.indx y) (absent : ∀ y ∈ l, s.indx y ≠ indx)
    (less : s.indx current < indx) :
    ∃ before ptr after, walk s.next (fun _ next => s.indx next < indx) s.used current = some ptr ∧
      Place s l (before ++ [ptr]) after indx := by
  obtain ⟨first, later, rfl⟩ := List.append_of_mem listed
  have parts := List.pairwise_append.mp increasing
  rw [List.length_append, List.length_cons] at short
  obtain ⟨passed, ptr, rest, isWalk, isPath, passing, stopped⟩ :=
    walk_reaching (fun next => s.indx next < indx)
      (Segment.append_iff.mp segment).2.chain (show later.length < s.used by omega)
  have isWhole : first ++ current :: later = (first ++ passed ++ [ptr]) ++ rest := by
    rw [isPath]
    simp
  refine ⟨first ++ passed, ptr, rest, isWalk, isWhole, ?_, ?_⟩
  · intro u member
    by_cases isFirst : u ∈ first
    · exact (parts.2.2 u isFirst current List.mem_cons_self).trans less
    · have reached : u ∈ passed ++ [ptr] := by
        simp only [List.mem_append, List.mem_cons, List.not_mem_nil] at member ⊢
        tauto
      obtain rfl | isBelow := passing u reached
      · exact less
      · exact of_decide_eq_true isBelow
  · intro u member
    cases rest with
    | nil => exact absurd member List.not_mem_nil
    | cons z rest =>
      have listedZ : z ∈ first ++ current :: later := by
        rw [isWhole]
        simp
      have notBelow := stopped z rfl
      rw [decide_eq_false_iff_not] at notBelow
      have notSame := absent z listedZ
      obtain rfl | member := List.mem_cons.mp member
      · omega
      · rw [isWhole] at increasing
        have ordered := (List.pairwise_cons.mp
          (List.pairwise_append.mp increasing).2.1).1 u member
        omega

theorem elementLink_spec (consistent : Consistent s lists free) {x : Nat}
    (loose : Loose lists free s.used x) (absent : ∀ y ∈ lists a, s.indx y ≠ s.indx x)
    (nonzero : s.bits x ≠ zeroBits) :
    ∃ s' before after, s.elementLink a x = some s' ∧ Place s (lists a) before after (s.indx x) ∧
      Updates s s' lists a (contents s before ++ (s.indx x, s.bits x) :: contents s after) := by
  have segment := consistent.linked.segment a
  have short := consistent.linked.length_le a
  have increasing := increasing_contents (consistent.increasing a)
  have isFirst := consistent.linked.first a
  have notX : ∀ y ∈ lists a, y ≠ x := by
    rintro y member rfl
    exact loose.notListed a member
  -- The links are written; what remains is to look at the element.
  have finish : ∀ (t : Store β wordBits) (before after : List Nat),
      Place s (lists a) before after (s.indx x) →
      t.next = Function.update (setAt s.next before.getLast? (some x)) x after.head? →
      t.prev = Function.update (setAt s.prev after.head? (some x)) x before.getLast? →
      t.first = Function.update s.first a (before ++ x :: after).head? →
      t.elements = s.elements → t.used = s.used → t.indx = s.indx → t.bits = s.bits →
      t.current = s.current → t.headIndx = s.headIndx →
      Updates s ((t.setCurrent a (some x)).setHeadIndx a (s.indx x)) lists a
        (contents s before ++ (s.indx x, s.bits x) :: contents s after) := by
    intro t before after place next prev first elements used indx bits current headIndx
    have linked : Linked ((t.setCurrent a (some x)).setHeadIndx a (s.indx x))
        (Function.update lists a (before ++ x :: after)) free :=
      (consistent.linked.put before after place.isList loose next prev first elements
        used).frame
      (fun _ _ => rfl) (fun _ _ => rfl) rfl rfl rfl
    have same : ∀ l, contents ((t.setCurrent a (some x)).setHeadIndx a (s.indx x)) l =
        contents s l :=
      fun l => contents_congr (fun y _ => congrFun indx y) fun y _ => congrFun bits y
    have isContents : contents ((t.setCurrent a (some x)).setHeadIndx a (s.indx x))
        (Function.update lists a (before ++ x :: after) a) =
          contents s before ++ (s.indx x, s.bits x) :: contents s after := by
      rw [Function.update_self, same, contents_append, contents_cons]
    have changes : OnlyChanges s ((t.setCurrent a (some x)).setHeadIndx a (s.indx x)) lists
        (Function.update lists a (before ++ x :: after)) a := by
      refine ⟨fun c other => Function.update_of_ne other _ _, fun c _ y _ => congrFun indx y,
        fun c _ y _ => congrFun bits y, fun c other => ?_, fun c other => ?_, used.ge⟩
      · exact (Function.update_of_ne other _ _).trans (congrFun current c)
      · exact (Function.update_of_ne other _ _).trans (congrFun headIndx c)
    have before' := consistent.increasing a
    have nonzero' := consistent.nonzero a
    rw [place.isList, contents_append] at before' nonzero'
    refine ⟨_, free, consistent.update linked changes ?_ ?_ ?_ ?_, isContents, changes⟩
    · rw [Function.update_self]
      exact Or.inr ⟨x, by simp, Function.update_self _ _ _⟩
    · intro c isCurrent
      change Function.update t.current a (some x) a = some c at isCurrent
      change Function.update t.headIndx a (s.indx x) a = t.indx c
      rw [Function.update_self, Option.some.injEq] at isCurrent
      rw [Function.update_self, ← isCurrent, indx]
    · rw [isContents]
      obtain ⟨left, right, apart⟩ := List.pairwise_append.mp before'
      apply List.pairwise_append.mpr
      refine ⟨left, List.pairwise_cons.mpr ⟨?_, right⟩, ?_⟩
      · intro block member
        obtain ⟨v, isAfter, rfl⟩ := List.mem_map.mp member
        exact place.above v isAfter
      · intro block isLeft other isRight
        obtain ⟨u, isBefore, rfl⟩ := List.mem_map.mp isLeft
        obtain rfl | isRight := List.mem_cons.mp isRight
        · exact place.below u isBefore
        · exact apart _ isLeft other isRight
    · rw [isContents]
      intro block member
      obtain early | late := List.mem_append.mp member
      · exact nonzero' block (List.mem_append_left _ early)
      · obtain rfl | late := List.mem_cons.mp late
        · exact nonzero
        · exact nonzero' block (List.mem_append_right _ late)
  obtain ⟨isEmpty, isNone⟩ | ⟨current, listed, isCurrent⟩ := consistent.looks a
  · rw [isEmpty, List.head?_nil] at isFirst
    have linked : s.elementLink a x = some
        (((((s.setNext (some x) none).setPrev (some x) none).setFirst a (some x)).setCurrent a
          (some x)).setHeadIndx a (s.indx x)) := by
      unfold Store.elementLink
      rw [isFirst]
      rfl
    refine ⟨_, [], [], linked, ⟨isEmpty, nofun, nofun⟩, ?_⟩
    exact finish _ [] [] ⟨isEmpty, nofun, nofun⟩ rfl rfl rfl rfl rfl rfl rfl rfl rfl
  · obtain ⟨y, rest, isList⟩ := List.exists_cons_of_ne_nil (List.ne_nil_of_mem listed)
    have headIndx := consistent.fresh a current isCurrent
    have isSome : s.first a = some y := by rw [isFirst, isList, List.head?_cons]
    unfold Store.elementLink
    simp only [isSome, isCurrent]
    split
    · rename_i less
      rw [headIndx] at less
      obtain ⟨before, ptr, after, isWalk, place⟩ :=
        place_backwards listed short segment increasing absent less
      have ptrNe : ptr ≠ x := notX ptr (by rw [place.isList]; simp)
      have isPrev : s.prev ptr = before.getLast? := by
        rw [place.isList] at segment
        exact segment.neighbours.1
      rw [isWalk, Option.map_some, Option.map_some, isPrev]
      refine ⟨_, before, ptr :: after, rfl, place, ?_⟩
      apply finish _ before (ptr :: after) place
      · cases before.getLast? <;> rfl
      · rw [List.head?_cons, setAt_some, Function.update_comm ptrNe]
        cases before.getLast? <;> rfl
      · cases before using List.reverseRecOn with
        | nil => rfl
        | append_singleton before z =>
          rw [List.getLast?_append_cons]
          change s.first = _
          rw [place.isList] at isFirst
          have sameHead : (before ++ [z] ++ x :: ptr :: after).head? =
              (before ++ [z] ++ ptr :: after).head? := by cases before <;> rfl
          rw [sameHead, ← isFirst, Function.update_eq_self]
      all_goals cases before.getLast? <;> rfl
    · rename_i notLess
      have different := absent current listed
      obtain ⟨before, ptr, after, isWalk, place⟩ :=
        place_forwards listed short segment increasing absent (show s.indx current < s.indx x by omega)
      have ptrNe : ptr ≠ x := notX ptr (by rw [place.isList]; simp)
      have isNext : s.next ptr = after.head? := by
        rw [place.isList, List.append_assoc] at segment
        exact segment.neighbours.2
      rw [isWalk, Option.map_some, Option.map_some, isNext]
      refine ⟨_, before ++ [ptr], after, rfl, place, ?_⟩
      refine finish _ (before ++ [ptr]) after place ?_ ?_ ?_ rfl rfl rfl rfl rfl rfl
      · rw [List.getLast?_append_cons]
        exact Function.update_comm ptrNe.symm _ _ _
      · rw [List.getLast?_append_cons]
        rfl
      · change s.first = _
        rw [place.isList] at isFirst
        have sameHead : (before ++ [ptr] ++ x :: after).head? =
            (before ++ [ptr] ++ after).head? := by cases before <;> rfl
        rw [sameHead, ← isFirst, Function.update_eq_self]

theorem has_middle {left right : List (Nat × Bits wordBits)} {indx : Nat} {r : Bits wordBits}
    (bit : Nat) : has (left ++ (indx, r) :: right) bit =
      ((indx == bit / elementAllBits wordBits && r.test bit) || has (left ++ right) bit) := by
  simp only [has, List.any_append, List.any_cons]
  rw [Bool.or_left_comm]

theorem not_has_of_ne {l : List (Nat × Bits wordBits)} {bit : Nat}
    (other : ∀ block ∈ l, block.1 ≠ bit / elementAllBits wordBits) : has l bit = false := by
  apply has_of_not_hasKey
  rintro ⟨x, member⟩
  exact other _ member rfl

omit [DecidableEq β] in
theorem Consistent.write (consistent : Consistent s lists free) {before after : List Nat} {x : Nat}
    (isList : lists a = before ++ x :: after) {r : Bits wordBits} (nonzero : r ≠ zeroBits) :
    Updates s (s.setBits x r) lists a (contents s before ++ (s.indx x, r) :: contents s after) := by
  have focus : Focus s lists free a before (x :: after) :=
    ⟨consistent.linked, isList, consistent.looks a⟩
  obtain ⟨written, sameBefore, isRest, changes⟩ := focus.write r
  have isContents : contents (s.setBits x r) (lists a) =
      contents s before ++ (s.indx x, r) :: contents s after := by
    rw [isList, contents_append, sameBefore, isRest]
  have increasing := consistent.increasing a
  have nonzero' := consistent.nonzero a
  rw [isList, contents_append, contents_cons] at increasing nonzero'
  refine ⟨lists, free, consistent.update written.linked changes written.looks (consistent.fresh a)
    ?_ ?_, isContents, changes⟩
  · rw [isContents]
    unfold Increasing at increasing ⊢
    simpa only [List.pairwise_append, List.pairwise_cons, List.mem_cons, forall_eq_or_imp]
      using increasing
  · rw [isContents]
    intro block member
    obtain early | late := List.mem_append.mp member
    · exact nonzero' block (List.mem_append_left _ early)
    · obtain rfl | late := List.mem_cons.mp late
      · exact nonzero
      · exact nonzero' block (List.mem_append_right _ (List.mem_cons_of_mem _ late))

theorem Consistent.remove (consistent : Consistent s lists free) {before after : List Nat} {x : Nat}
    (isList : lists a = before ++ x :: after) (r : Bits wordBits) :
    Updates s ((s.setBits x r).elementFree a x) lists a
      (contents s before ++ contents s after) := by
  have focus : Focus s lists free a before (x :: after) :=
    ⟨consistent.linked, isList, consistent.looks a⟩
  obtain ⟨written, sameBefore, isRest, changes⟩ := focus.write r
  have sameAfter : contents (s.setBits x r) after = contents s after := (List.cons.inj isRest).2
  obtain ⟨lists', free', released, sameIndx, sameBits, more, fresh⟩ := written.release
  have isContents : contents ((s.setBits x r).elementFree a x) (lists' a) =
      contents s before ++ contents s after := by
    rw [released.isList, contents_append, ← sameBefore, ← sameAfter]
    congr 1
    · exact contents_congr (fun z _ => congrFun sameIndx z) fun z _ => congrFun sameBits z
    · exact contents_congr (fun z _ => congrFun sameIndx z) fun z _ => congrFun sameBits z
  have subset : (contents s before ++ contents s after).Sublist (contents s (lists a)) := by
    rw [isList, contents_append, contents_cons]
    exact (List.Sublist.refl _).append (List.sublist_cons_self _ _)
  refine ⟨lists', free', consistent.update released.linked (changes.trans more) released.looks
    (fresh (consistent.fresh a)) ?_ ?_, isContents, changes.trans more⟩
  · rw [isContents]
    exact (consistent.increasing a).sublist subset
  · rw [isContents]
    exact fun block member => consistent.nonzero a block (subset.subset member)

omit [DecidableEq β] in
theorem Updates.after {t : Store β wordBits} {blocks : List (Nat × Bits wordBits)}
    (before : OnlyChanges s t lists lists a) (updates : Updates t s' lists a blocks) :
    Updates s s' lists a blocks := by
  obtain ⟨lists', free', consistent, isContents, changes⟩ := updates
  exact ⟨lists', free', consistent, isContents, before.trans changes⟩

structure Prepared (s s' : Store β wordBits) (lists : β → List Nat) (free : List (List Nat))
    (x indx : Nat) (r : Bits wordBits) : Prop where
  linked : Linked s' lists free
  loose : Loose lists free s'.used x
  used : s.used ≤ s'.used
  sameIndx : ∀ b, ∀ y ∈ lists b, s'.indx y = s.indx y
  sameBits : ∀ b, ∀ y ∈ lists b, s'.bits y = s.bits y
  isIndx : s'.indx x = indx
  isBits : s'.bits x = r
  current : s'.current = s.current
  headIndx : s'.headIndx = s.headIndx

omit [DecidableEq β] in
theorem Allocated.prepare {x : Nat} (allocated : Allocated s s' lists free' x) (indx : Nat)
    (r : Bits wordBits) :
    Prepared s ((s'.setIndx x indx).setBits x r) lists free' x indx r where
  linked := allocated.linked.frame (fun _ _ => rfl) (fun _ _ => rfl) rfl rfl rfl
  loose := allocated.loose
  used := allocated.used
  sameIndx := by
    intro b y member
    have other : y ≠ x := fun isX => allocated.loose.notListed b (isX ▸ member)
    exact (Function.update_of_ne other _ _).trans (congrFun allocated.indx y)
  sameBits := by
    intro b y member
    have other : y ≠ x := fun isX => allocated.loose.notListed b (isX ▸ member)
    have allocatedBits := congrFun allocated.bits y
    rw [Function.update_of_ne other] at allocatedBits
    exact (Function.update_of_ne other _ _).trans allocatedBits
  isIndx := Function.update_self _ _ _
  isBits := Function.update_self _ _ _
  current := allocated.current
  headIndx := allocated.headIndx

section Prepared

variable {x indx : Nat} {r : Bits wordBits}

omit [DecidableEq β] in
theorem Prepared.changes (prepared : Prepared s s' lists free x indx r) (a : β) :
    OnlyChanges s s' lists lists a :=
  ⟨fun _ _ => rfl, fun b _ => prepared.sameIndx b, fun b _ => prepared.sameBits b,
    fun b _ => congrFun prepared.current b, fun b _ => congrFun prepared.headIndx b,
    prepared.used⟩

omit [DecidableEq β] in
theorem Prepared.contents (prepared : Prepared s s' lists free x indx r) (b : β) {l : List Nat}
    (listed : ∀ y ∈ l, y ∈ lists b) : Bitmap.contents s' l = Bitmap.contents s l :=
  contents_congr (fun y member => prepared.sameIndx b y (listed y member))
    fun y member => prepared.sameBits b y (listed y member)

omit [DecidableEq β] in
theorem Prepared.looks (prepared : Prepared s s' lists free x indx r) {l : List Nat}
    (looks : Looks s a l) : Looks s' a l := by
  unfold Looks at looks ⊢
  rwa [prepared.current]

omit [DecidableEq β] in
theorem Prepared.fresh (prepared : Prepared s s' lists free x indx r) (looks : Looks s a (lists a))
    (fresh : Fresh s a) : Fresh s' a := by
  intro c isCurrent
  rw [prepared.current] at isCurrent
  have listed : c ∈ lists a := by
    obtain ⟨-, isNone⟩ | ⟨c', member, isCurrent'⟩ := looks
    · rw [isNone] at isCurrent
      cases isCurrent
    · rw [isCurrent, Option.some.injEq] at isCurrent'
      rwa [isCurrent']
  rw [prepared.sameIndx a c listed, ← fresh c isCurrent, prepared.headIndx]

omit [DecidableEq β] in
theorem Consistent.prepare (consistent : Consistent s lists free)
    (prepared : Prepared s s' lists free' x indx r) : Consistent s' lists free' where
  linked := prepared.linked
  looks := fun b => prepared.looks (consistent.looks b)
  fresh := fun b => prepared.fresh (consistent.looks b) (consistent.fresh b)
  increasing := fun b => by
    rw [prepared.contents b fun _ member => member]
    exact consistent.increasing b
  nonzero := fun b => by
    rw [prepared.contents b fun _ member => member]
    exact consistent.nonzero b

end Prepared

theorem setBit_spec (wide : 0 < wordBits) (consistent : Consistent s lists free) (a : β)
    (bit : Nat) :
    ∃ s' blocks, s.setBit a bit = some s' ∧ Updates s s' lists a blocks ∧
      ∀ other, has blocks other = (decide (other = bit) || has (contents s (lists a)) other) := by
  obtain ⟨ptr, t, isFindBit, searched, found⟩ := findBit_spec consistent a bit
  have same : ∀ l, contents t l = contents s l := fun l =>
    contents_congr (fun x _ => congrFun searched.indx x) fun x _ => congrFun searched.bits x
  unfold Store.setBit
  rw [isFindBit, Option.bind_some]
  cases ptr with
  | some x =>
    obtain ⟨member, isIndx⟩ := found
    obtain ⟨before, after, isList⟩ := List.append_of_mem member
    have isSet : ∀ other, other / elementAllBits wordBits = bit / elementAllBits wordBits →
        ((t.bits x).atWord bit fun word => word ||| bitVal wordBits bit).test other =
          (decide (other = bit) || (t.bits x).test other) :=
      fun other sameElement => test_set wide _ sameElement
    have nonzero : ((t.bits x).atWord bit fun word => word ||| bitVal wordBits bit) ≠
        zeroBits := by
      intro isZero
      have here := isSet bit rfl
      rw [isZero, zeroBits_test, decide_eq_true rfl, Bool.true_or] at here
      cases here
    refine ⟨_, _, rfl, (searched.consistent.write isList nonzero).after searched.changes, ?_⟩
    intro other
    rw [← same, isList, contents_append, contents_cons, has_middle, has_middle, isIndx]
    by_cases sameElement : other / elementAllBits wordBits = bit / elementAllBits wordBits
    · rw [isSet other sameElement, sameElement, beq_self_eq_true, Bool.true_and, Bool.true_and,
        Bool.or_assoc]
    · have different : other ≠ bit := fun isBit => sameElement (by rw [isBit])
      have notHere : (bit / elementAllBits wordBits == other / elementAllBits wordBits) = false :=
        beq_eq_false_iff_ne.mpr (Ne.symm sameElement)
      rw [notHere, Bool.false_and, Bool.false_and, decide_eq_false different]
      rfl
  | none =>
    obtain ⟨free', allocated⟩ := elementAllocate_spec searched.consistent.linked
    dsimp only
    generalize t.elementAllocate = allocation at allocated
    obtain ⟨x, u⟩ := allocation
    dsimp only at allocated ⊢
    have emptyBits : u.bits x = zeroBits := by
      rw [allocated.bits, Function.update_self]
    rw [show (u.setIndx x (bit / elementAllBits wordBits)).bits x = zeroBits from emptyBits]
    have isNew : ∀ other, other / elementAllBits wordBits = bit / elementAllBits wordBits →
        ((zeroBits : Bits wordBits).atWord bit fun _ => bitVal wordBits bit).test other =
          decide (other = bit) := fun other sameElement => test_new wide sameElement
    generalize (zeroBits : Bits wordBits).atWord bit (fun _ => bitVal wordBits bit) = r at isNew ⊢
    have nonzero : r ≠ zeroBits := by
      intro isZero
      have here := isNew bit rfl
      rw [isZero, zeroBits_test, decide_eq_true rfl] at here
      cases here
    have prepared := allocated.prepare (bit / elementAllBits wordBits) r
    generalize (u.setIndx x (bit / elementAllBits wordBits)).setBits x r = v at prepared ⊢
    have absent : ∀ y ∈ lists a, v.indx y ≠ v.indx x := by
      intro y member
      rw [prepared.sameIndx a y member, prepared.isIndx]
      exact found y member
    obtain ⟨s', before, after, isLinked, place, updates⟩ :=
      elementLink_spec (searched.consistent.prepare prepared) prepared.loose absent
        (prepared.isBits ▸ nonzero)
    refine ⟨s', contents v before ++ (v.indx x, v.bits x) :: contents v after, isLinked,
      updates.after (searched.changes.trans (prepared.changes a)), ?_⟩
    intro other
    rw [has_middle, prepared.isIndx, prepared.isBits, ← same,
      ← prepared.contents a fun _ member => member, place.isList, contents_append]
    by_cases sameElement : other / elementAllBits wordBits = bit / elementAllBits wordBits
    · rw [isNew other sameElement, sameElement, beq_self_eq_true, Bool.true_and]
    · have different : other ≠ bit := fun isBit => sameElement (by rw [isBit])
      have notHere : (bit / elementAllBits wordBits == other / elementAllBits wordBits) =
          false := beq_eq_false_iff_ne.mpr (Ne.symm sameElement)
      rw [notHere, Bool.false_and, decide_eq_false different]

theorem clearBit_spec (wide : 0 < wordBits) (consistent : Consistent s lists free) (a : β)
    (bit : Nat) :
    ∃ s' blocks, s.clearBit a bit = some s' ∧ Updates s s' lists a blocks ∧
      ∀ other, has blocks other = (!decide (other = bit) && has (contents s (lists a)) other) := by
  obtain ⟨ptr, t, isFindBit, searched, found⟩ := findBit_spec consistent a bit
  have same : ∀ l, contents t l = contents s l := fun l =>
    contents_congr (fun x _ => congrFun searched.indx x) fun x _ => congrFun searched.bits x
  unfold Store.clearBit
  rw [isFindBit, Option.map_some]
  cases ptr with
  | none =>
    refine ⟨t, _, rfl, searched.updates, ?_⟩
    have isUnset : has (contents s (lists a)) bit = false := by
      rw [← same]
      apply not_has_of_ne
      intro block member
      obtain ⟨x, listed, rfl⟩ := List.mem_map.mp member
      exact found x listed
    intro other
    by_cases isBit : other = bit
    · rw [isBit, isUnset, Bool.and_false]
    · rw [decide_eq_false isBit, Bool.not_false, Bool.true_and]
  | some x =>
    obtain ⟨member, isIndx⟩ := found
    obtain ⟨before, after, isList⟩ := List.append_of_mem member
    have isCleared : ∀ other, other / elementAllBits wordBits = bit / elementAllBits wordBits →
        ((t.bits x).atWord bit fun word => word &&& ~~~bitVal wordBits bit).test other =
          (!decide (other = bit) && (t.bits x).test other) :=
      fun other sameElement => test_clear wide _ sameElement
    dsimp only
    generalize ((t.bits x).atWord bit fun word => word &&& ~~~bitVal wordBits bit) = r at *
    have increasing := searched.consistent.increasing a
    rw [isList, contents_append, contents_cons, isIndx] at increasing
    have elsewhere : ∀ block ∈ contents t before ++ contents t after,
        block.1 ≠ bit / elementAllBits wordBits := by
      obtain ⟨-, right, apart⟩ := List.pairwise_append.mp increasing
      intro block member
      obtain early | late := List.mem_append.mp member
      · exact (apart block early _ List.mem_cons_self).ne
      · exact ((List.pairwise_cons.mp right).1 block late).ne'
    have others : ∀ other,
        ((bit / elementAllBits wordBits == other / elementAllBits wordBits && r.test other) ||
            has (contents t before ++ contents t after) other) =
          (!decide (other = bit) && has (contents s (lists a)) other) := by
      intro other
      rw [← same, isList, contents_append, contents_cons, has_middle, isIndx]
      by_cases sameElement : other / elementAllBits wordBits = bit / elementAllBits wordBits
      · have isAbsent : has (contents t before ++ contents t after) other = false :=
          not_has_of_ne fun block member => sameElement ▸ elsewhere block member
        rw [isCleared other sameElement, sameElement, isAbsent, beq_self_eq_true, Bool.true_and,
          Bool.true_and, Bool.or_false, Bool.or_false]
      · have different : other ≠ bit := fun isBit => sameElement (by rw [isBit])
        have notHere : (bit / elementAllBits wordBits == other / elementAllBits wordBits) =
            false := beq_eq_false_iff_ne.mpr (Ne.symm sameElement)
        rw [notHere, Bool.false_and, Bool.false_and, decide_eq_false different, Bool.not_false,
          Bool.true_and]
    split
    · rename_i isZero
      refine ⟨_, _, rfl, (searched.consistent.remove isList r).after searched.changes, ?_⟩
      intro other
      rw [← others, isZero, zeroBits_test, Bool.and_false, Bool.false_or]
    · rename_i nonzero
      refine ⟨_, _, rfl, (searched.consistent.write isList nonzero).after searched.changes, ?_⟩
      intro other
      rw [has_middle, isIndx, others]

theorem bitP_spec (consistent : Consistent s lists free) (a : β) (bit : Nat) :
    ∃ s', s.bitP a bit = some (has (contents s (lists a)) bit, s') ∧
      Updates s s' lists a (contents s (lists a)) := by
  obtain ⟨ptr, t, isFindBit, searched, found⟩ := findBit_spec consistent a bit
  have same : ∀ l, contents t l = contents s l := fun l =>
    contents_congr (fun x _ => congrFun searched.indx x) fun x _ => congrFun searched.bits x
  refine ⟨t, ?_, searched.updates⟩
  unfold Store.bitP
  rw [isFindBit, Option.map_some, ← same]
  cases ptr with
  | none =>
    have isUnset : has (contents t (lists a)) bit = false := by
      apply not_has_of_ne
      intro block member
      obtain ⟨x, listed, rfl⟩ := List.mem_map.mp member
      exact found x listed
    rw [isUnset]
  | some x =>
    obtain ⟨member, isIndx⟩ := found
    rw [has_of_mem (x := t.bits x) (searched.consistent.increasing a)]
    rw [← isIndx]
    exact List.mem_map_of_mem member

end GccCil.Gcc.Bitmap
