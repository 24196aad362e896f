import GccCil.Libcpp.IncludeChains

/-!
# Runs of `linemap_add`

A run is a sequence of calls of `linemap_add` that return, with any reasons, files and
lines.  Between two calls the highest location may be raised.  The maps stay nested in
every run that does not leave the main file by name.
-/

namespace GccCil.Libcpp.SourceLocations

/-- A call of `linemap_add`, with the location that has been reached. -/
structure Call where
  junk : LineMap
  reached : Nat
  request : Request

def LineMaps.add (set : LineMaps) (call : Call) : Option Added :=
  linemapAdd { set with highestLocation := call.reached } call.junk call.request

/-- The calls that keep the maps nested: an index of a map is an `int`, and the main file
is left without a name. -/
structure Allowed (set : LineMaps) (call : Call) : Prop where
  few : set.maps.length ≤ 2 ^ 31
  unnamed : set.depth ≠ 0 → call.request.reason = .leave →
    ∀ map, set.maps[set.maps.length - 1]? = some map → map.isMainFile = true →
      call.request.toFile = none

/-- Calls one after the other, which are `allowed` and leave at least `depth` files open. -/
inductive Run (allowed : LineMaps → Call → Prop) (depth : Nat) : LineMaps → LineMaps → Prop
  | none {set : LineMaps} (deep : depth ≤ set.depth) : Run allowed depth set set
  | add {set mid : LineMaps} {call : Call} {added : Added} (run : Run allowed depth set mid)
      (isAllowed : allowed mid call) (adds : mid.add call = some added)
      (deep : depth ≤ added.set.depth) : Run allowed depth set added.set

section Stacks

variable {set : LineMaps} {stack base : List Nat} {call : Call} {added : Added}

theorem Nested.reach (nested : Nested set stack) (reached : Nat) :
    Nested { set with highestLocation := reached } stack :=
  ⟨nested.earlier, nested.depth, nested.chain⟩

theorem Allowed.not_leavesMain (isAllowed : Allowed set call) (nested : Nested set stack) :
    ¬LeavesMain stack call.request := by
  rintro ⟨isOne, reason, named⟩
  have isOpen : stack ≠ [] := by
    rintro rfl
    cases isOne
  obtain ⟨map, rest, found, rfl, closes⟩ := nested.top isOpen
  rw [List.length_cons, Nat.add_eq_right, List.length_eq_zero_iff] at isOne
  refine named (isAllowed.unnamed ?_ reason map found (closes.isMain_iff.mpr isOne))
  rw [nested.depth]
  exact Nat.succ_ne_zero _

theorem Nested.add (nested : Nested set stack) (isAllowed : Allowed set call)
    (adds : set.add call = some added) :
    Nested added.set (stackAfter set.maps.length call.request stack) ∧
      ∀ i ∈ added.reads, i < set.maps.length := by
  obtain ⟨nested', reads⟩ := (nested.reach call.reached).added isAllowed.few adds
  exact ⟨nested', reads.mpr (isAllowed.not_leavesMain nested)⟩

theorem suffix_tail {top : Nat} {rest : List Nat} (suffix : base <:+ top :: rest)
    (shorter : base.length ≤ rest.length) : base <:+ rest := by
  obtain isWhole | inRest := List.suffix_cons_iff.mp suffix
  · rw [isWhole, List.length_cons] at shorter
    omega
  · exact inRest

theorem suffix_stackAfter (suffix : base <:+ stack) (shorter : base.length < stack.length)
    {used : Nat} {request : Request}
    (shorter' : base.length < (stackAfter used request stack).length) :
    base <:+ stackAfter used request stack := by
  rw [stackAfter] at shorter' ⊢
  cases stack with
  | nil => exact absurd shorter (Nat.not_lt_zero _)
  | cons top rest =>
    rw [if_neg (List.cons_ne_nil top rest)] at shorter' ⊢
    by_cases leavesLast : request.reason = .leave ∧ (top :: rest).length = 1
    · have isEmpty : base = [] := by
        rw [leavesLast.2, Nat.lt_one_iff] at shorter
        exact List.length_eq_zero_iff.mp shorter
      rw [isEmpty]
      exact List.nil_suffix
    · rw [if_neg leavesLast] at shorter' ⊢
      have inRest := suffix_tail suffix (Nat.lt_succ_iff.mp shorter)
      cases reason : request.reason with
      | enter => exact suffix.trans (List.suffix_cons _ _)
      | rename => exact inRest.trans (List.suffix_cons _ _)
      | leave =>
        rw [reason, opened, List.tail_cons, List.length_cons, Nat.lt_succ_iff] at shorter'
        rw [opened, List.tail_cons]
        refine List.IsSuffix.trans ?_ (List.suffix_cons _ _)
        cases rest with
        | nil => exact inRest
        | cons below outer => exact suffix_tail inRest shorter'

theorem Run.nested {depth : Nat} {set' : LineMaps} (run : Run Allowed depth set set')
    (nested : Nested set stack) (suffix : base <:+ stack) (deeper : base.length < depth ∨ base = []) :
    ∃ stack', Nested set' stack' ∧ base <:+ stack' ∧ depth ≤ set'.depth := by
  induction run with
  | none deep => exact ⟨stack, nested, suffix, deep⟩
  | add _ isAllowed adds deep ih =>
    obtain ⟨stack', nested', suffix', deep'⟩ := ih
    obtain ⟨nested'', _⟩ := nested'.add isAllowed adds
    refine ⟨_, nested'', ?_, deep⟩
    obtain deeper | rfl := deeper
    · rw [nested'.depth] at deep'
      rw [nested''.depth] at deep
      exact suffix_stackAfter suffix' (deeper.trans_le deep') (deeper.trans_le deep)
    · exact List.nil_suffix

theorem Nested.exists_chain (nested : Nested set stack) (i : Nat) (isMap : i < set.maps.length) :
    ∃ chain, Chain set.maps i chain := by
  induction i using Nat.strong_induction_on with
  | _ i ih =>
    have found := List.getElem?_eq_getElem isMap
    obtain isMinus | ⟨j, less, from_⟩ := nested.earlier i _ found
    · exact ⟨[i], .main found (by omega)⟩
    · obtain ⟨chain, isChain⟩ := ih j less (less.trans isMap)
      exact ⟨i :: chain, .included found from_ isChain⟩

theorem Chain.containingFiles {i : Nat} {chain : List Nat} (isChain : Chain set.maps i chain)
    (junk : LineMap) {map : LineMap} (found : set.maps[i]? = some map)
    (isIncluded : map.isMainFile = false) :
    ∃ lines, containingFiles set junk chain.length map = some lines := by
  induction isChain generalizing map with
  | main found' isMain =>
    rw [found', Option.some.injEq] at found
    subst found
    rw [LineMap.isMainFile, decide_eq_false_iff_not] at isIncluded
    exact absurd isMain isIncluded
  | included found' from_ chain ih =>
    rw [found', Option.some.injEq] at found
    subst found
    obtain ⟨source, _, foundSource, _⟩ := chain.head
    rw [List.length_cons, SourceLocations.containingFiles, includer_of_from from_,
      element_of_found junk foundSource]
    cases isMain : source.isMainFile with
    | true => exact ⟨_, rfl⟩
    | false =>
      obtain ⟨lines, listed⟩ := ih foundSource isMain
      exact ⟨_, by rw [listed]; rfl⟩

theorem Nested.leave (nested : Nested set stack) (isOpen : stack ≠ []) {enter leave : Call}
    {entered left : Added} {inside : LineMaps} (isEnter : Allowed set enter)
    (enters : enter.request.reason = .enter) (adds : set.add enter = some entered)
    (run : Run Allowed (set.depth + 1) entered.set inside) (level : inside.depth = set.depth + 1)
    (isLeave : Allowed inside leave) (leaves : leave.request.reason = .leave)
    (adds' : inside.add leave = some left) :
    Nested left.set (inside.maps.length :: stack.tail) := by
  obtain ⟨nested₁, _⟩ := nested.add isEnter adds
  have isStack : stackAfter set.maps.length enter.request stack = set.maps.length :: stack := by
    rw [stackAfter, if_neg isOpen, enters, if_neg fun last => by cases last.1]
    rfl
  rw [isStack] at nested₁
  obtain ⟨stack₂, nested₂, suffix, _⟩ := run.nested nested₁ (List.suffix_cons _ stack)
    (.inl (by rw [nested.depth]; exact Nat.lt_succ_self _))
  obtain ⟨nested₃, _⟩ := nested₂.add isLeave adds'
  -- Exactly one file is open in `inside` on top of those of `set`.
  have longer : stack₂.length = stack.length + 1 := by
    rw [← nested₂.depth, level, nested.depth]
  obtain ⟨above, rfl⟩ := suffix
  obtain ⟨top, rfl⟩ : ∃ top, above = [top] := by
    rw [List.length_append, Nat.add_comm, Nat.add_left_cancel_iff] at longer
    exact List.length_eq_one_iff.mp longer
  have several : ¬(leave.request.reason = .leave ∧ ([top] ++ stack).length = 1) := by
    rintro ⟨_, isOne⟩
    rw [longer, Nat.add_eq_right, List.length_eq_zero_iff] at isOne
    exact isOpen isOne
  rw [stackAfter, if_neg several, leaves] at nested₃
  exact nested₃

end Stacks

/-- In every run of calls that are allowed, each map is included from an earlier one, the
chain of including files ends at a map of the main file and can be listed, the depth is the
length of the chain of the last map, only elements that have been filled in are read, and
leaving a file goes back to the chain of the map that was current before it was entered. -/
theorem linemapAdd_nests (set : LineMaps) (run : Run Allowed 0 linemapInit set) :
    (∀ (i : Nat) (map : LineMap), set.maps[i]? = some map →
      map.includedFrom = -1 ∨ ∃ j : Nat, j < i ∧ map.includedFrom = (j : Int)) ∧
    (∀ i < set.maps.length, ∃ chain, Chain set.maps i chain) ∧
    (∀ (i : Nat) (map junk : LineMap), set.maps[i]? = some map → map.isMainFile = false →
      ∃ rounds lines, containingFiles set junk rounds map = some lines) ∧
    (set.depth ≠ 0 →
      ∃ chain, Chain set.maps (set.maps.length - 1) chain ∧ set.depth = chain.length) ∧
    (∀ call added, Allowed set call → set.add call = some added →
      ∀ i ∈ added.reads, i < set.maps.length) ∧
    ∀ enter entered inside leave left current outer,
      set.depth ≠ 0 → Chain set.maps (set.maps.length - 1) (current :: outer) →
      Allowed set enter → enter.request.reason = .enter → set.add enter = some entered →
      Run Allowed (set.depth + 1) entered.set inside → inside.depth = set.depth + 1 →
      Allowed inside leave → leave.request.reason = .leave → inside.add leave = some left →
      left.set.depth = set.depth ∧
        ∃ last, Chain left.set.maps (left.set.maps.length - 1) (last :: outer) := by
  obtain ⟨stack, nested, _⟩ := run.nested nested_init List.nil_suffix (.inr rfl)
  have isOpen (hasDepth : set.depth ≠ 0) : stack ≠ [] := by
    rintro rfl
    exact hasDepth nested.depth
  refine ⟨nested.earlier, nested.exists_chain, ?_, ?_, ?_, ?_⟩
  · intro i map junk found isIncluded
    obtain ⟨chain, isChain⟩ := nested.exists_chain i (List.getElem?_eq_some_iff.mp found).1
    exact ⟨_, isChain.containingFiles junk found isIncluded⟩
  · intro hasDepth
    exact ⟨stack, nested.chain (isOpen hasDepth), nested.depth⟩
  · intro call added isAllowed adds
    exact (nested.add isAllowed adds).2
  · intro enter entered inside leave left current outer hasDepth isChain isEnter enters adds
      run' level isLeave leaves adds'
    have isStack := (nested.chain (isOpen hasDepth)).unique isChain
    have nested' := nested.leave (isOpen hasDepth) isEnter enters adds run' level isLeave leaves adds'
    rw [isStack, List.tail_cons] at nested'
    refine ⟨?_, _, nested'.chain (List.cons_ne_nil _ _)⟩
    rw [nested'.depth, nested.depth, isStack, List.length_cons, List.length_cons]

section MainFile

/-- An element that is not used, whose start is `start`. -/
def unusedMap (start : Nat) : LineMap := ⟨none, 0, start, 0, .enter, 0, 0⟩

/-- Entering the main file `a.c`. -/
def enterMain : Call := ⟨unusedMap 0, 0, ⟨.enter, 0, some "a.c", 1⟩⟩

def mainSet : LineMaps := ⟨[⟨some "a.c", 1, 1, -1, .enter, 0, 0⟩], 0, 1, 1, 1, 0⟩

theorem enterMain_adds : linemapInit.add enterMain = some ⟨mainSet, some 0, []⟩ := rfl

/-- Entering a header from the main file, and leaving it. -/
def enterHeader : Call := ⟨unusedMap 0, 2, ⟨.enter, 0, some "b.h", 1⟩⟩

def leaveHeader : Call := ⟨unusedMap 0, 4, ⟨.leave, 0, none, 0⟩⟩

theorem linemapAdd_nests_mainSet :
    ∃ left, Run Allowed 0 linemapInit left ∧ left.maps.length = 3 ∧
      ∃ chain, Chain left.maps 2 chain ∧ 1 = chain.length := by
  have isAllowed : Allowed linemapInit enterMain := ⟨Nat.zero_le _, fun isOpen => absurd rfl isOpen⟩
  have main : Run Allowed 0 linemapInit mainSet :=
    .add (.none (Nat.zero_le _)) isAllowed enterMain_adds (Nat.zero_le _)
  have header : Run Allowed 0 linemapInit _ :=
    .add main ⟨by decide, fun _ reason => by cases reason⟩
      (show mainSet.add enterHeader = some _ from rfl) (Nat.zero_le _)
  have left : Run Allowed 0 linemapInit _ :=
    .add header ⟨by decide, fun _ _ _ _ _ => rfl⟩
      (show LineMaps.add _ leaveHeader = some _ from rfl) (Nat.zero_le _)
  exact ⟨_, left, rfl, (linemapAdd_nests _ left).2.2.2.1 (by decide)⟩

/-- Leaving the main file by a name reads the start of the element that has not been filled
in, and the line of the new map depends on it. -/
theorem linemapAdd_leaves_main :
    Run (fun _ _ => True) 0 linemapInit mainSet ∧
    ∃ leave leave' : Call, leave = { leave' with junk := unusedMap 9 } ∧
    ∃ added added', mainSet.add leave = some added ∧ mainSet.add leave' = some added' ∧
      (∃ i ∈ added.reads, ¬i < mainSet.maps.length) ∧
      added.set.maps.map LineMap.toLine = [1, 9] ∧ added'.set.maps.map LineMap.toLine = [1, 3] := by
  refine ⟨.add (.none (Nat.zero_le _)) trivial enterMain_adds (Nat.zero_le _),
    ⟨unusedMap 9, 5, ⟨.leave, 0, some "b.h", 1⟩⟩, ⟨unusedMap 3, 5, ⟨.leave, 0, some "b.h", 1⟩⟩, rfl,
    _, _, rfl, rfl, ⟨1, by decide, by decide⟩, by decide, by decide⟩

end MainFile

end GccCil.Libcpp.SourceLocations
