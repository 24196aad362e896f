import GccCil.Libcpp.SourceLocations

/-!
# Chains of including files

Each line map names the map that its file was included from, by an earlier index, so
that the chain of a map ends at a map of the main file.  The depth of the set is the
length of the chain of its last map.  What a call does to that chain is described on
a stack: entering a file pushes a map, a change of the name replaces the top, and
leaving a file pops it and replaces the map below.
-/

namespace GccCil.Libcpp.SourceLocations

open GccCil.Lib

theorem element_of_found {set : LineMaps} {i : Nat} {map : LineMap} (junk : LineMap)
    (found : set.maps[i]? = some map) : set.element junk i = map := by
  rw [LineMaps.element, List.getD_eq_getElem?_getD, found, Option.getD_some]

theorem found_append {maps extra : List LineMap} {i : Nat} {map : LineMap}
    (found : maps[i]? = some map) : (maps ++ extra)[i]? = some map := by
  rw [List.getElem?_append_left (List.getElem?_eq_some_iff.mp found).1, found]

/-- The maps from one to its main file, along `INCLUDED_FROM`. -/
inductive Chain (maps : List LineMap) : Nat → List Nat → Prop
  | main {i : Nat} {map : LineMap} (found : maps[i]? = some map) (isMain : map.includedFrom < 0) :
      Chain maps i [i]
  | included {i j : Nat} {map : LineMap} {rest : List Nat} (found : maps[i]? = some map)
      (from_ : map.includedFrom = j) (chain : Chain maps j rest) : Chain maps i (i :: rest)

namespace Chain

variable {maps extra : List LineMap} {i : Nat} {stack : List Nat}

theorem append (chain : Chain maps i stack) : Chain (maps ++ extra) i stack := by
  induction chain with
  | main found isMain => exact .main (found_append found) isMain
  | included found from_ _ ih =>
    exact .included (found_append found) from_ ih

theorem head (chain : Chain maps i stack) :
    ∃ map rest, maps[i]? = some map ∧ stack = i :: rest ∧
      (rest = [] ∧ map.includedFrom < 0 ∨
        ∃ j : Nat, map.includedFrom = j ∧ Chain maps j rest) := by
  cases chain with
  | main found isMain => exact ⟨_, [], found, rfl, .inl ⟨rfl, isMain⟩⟩
  | included found from_ chain => exact ⟨_, _, found, rfl, .inr ⟨_, from_, chain⟩⟩

theorem lt_length (chain : Chain maps i stack) : i < maps.length := by
  obtain ⟨_, _, found, _⟩ := chain.head
  exact (List.getElem?_eq_some_iff.mp found).1

theorem ne_nil (chain : Chain maps i stack) : stack ≠ [] := by
  obtain ⟨_, _, _, rfl, _⟩ := chain.head
  exact List.cons_ne_nil _ _

theorem unique (chain : Chain maps i stack) {other : List Nat} (chain' : Chain maps i other) :
    stack = other := by
  induction chain generalizing other with
  | main found isMain =>
    obtain ⟨map, rest, found', rfl, ⟨rfl, _⟩ | ⟨j, from_, _⟩⟩ := chain'.head
    · rfl
    · rw [found, Option.some.injEq] at found'
      subst found'
      omega
  | included found from_ _ ih =>
    obtain ⟨map, rest, found', rfl, ⟨_, isMain⟩ | ⟨j, from', rest'⟩⟩ := chain'.head
    · rw [found, Option.some.injEq] at found'
      subst found'
      omega
    · rw [found, Option.some.injEq] at found'
      subst found'
      rw [from_, Int.natCast_inj] at from'
      subst from'
      rw [ih rest']

end Chain

def opened (used : Nat) (reason : LcReason) (stack : List Nat) : List Nat :=
  match reason with
  | .enter => used :: stack
  | .rename => used :: stack.tail
  | .leave => used :: stack.tail.tail

def stackAfter (used : Nat) (request : Request) (stack : List Nat) : List Nat :=
  if stack = [] then [used]
  else if request.reason = .leave ∧ stack.length = 1 then
    if request.toFile = none then [] else [used]
  else opened used request.reason stack

def LeavesMain (stack : List Nat) (request : Request) : Prop :=
  stack.length = 1 ∧ request.reason = .leave ∧ request.toFile ≠ none

/-- The invariant of a set with the open maps `stack`. -/
structure Nested (set : LineMaps) (stack : List Nat) : Prop where
  earlier : ∀ i map, set.maps[i]? = some map →
    map.includedFrom = -1 ∨ ∃ j : Nat, j < i ∧ map.includedFrom = (j : Int)
  depth : set.depth = stack.length
  chain : stack ≠ [] → Chain set.maps (set.maps.length - 1) stack

theorem nested_init : Nested linemapInit [] where
  earlier := by
    intro i map found
    simp [linemapInit] at found
  depth := rfl
  chain := fun isOpen => absurd rfl isOpen

section Step

variable {set : LineMaps} {stack rest : List Nat} {map : LineMap}

/-- Where a new map can be included from, so that the maps `rest` follow it. -/
def Closes (maps : List LineMap) (includedFrom : Int) (rest : List Nat) : Prop :=
  rest = [] ∧ includedFrom = -1 ∨ ∃ j : Nat, includedFrom = j ∧ Chain maps j rest

theorem Nested.push (nested : Nested set stack) (closes : Closes set.maps map.includedFrom rest)
    {set' : LineMaps} (maps : set'.maps = set.maps ++ [map]) (depth : set'.depth = rest.length + 1) :
    Nested set' (set.maps.length :: rest) where
  earlier := by
    intro i other found
    rw [maps] at found
    by_cases inside : i < set.maps.length
    · rw [List.getElem?_append_left inside] at found
      exact nested.earlier i other found
    · rw [List.getElem?_append_right (not_lt.mp inside)] at found
      obtain ⟨_, isMap⟩ := List.getElem?_eq_some_iff.mp found
      rw [List.getElem_singleton] at isMap
      subst isMap
      obtain ⟨_, isMain⟩ | ⟨j, from_, chain⟩ := closes
      · exact .inl isMain
      · exact .inr ⟨j, chain.lt_length.trans_le (not_lt.mp inside), from_⟩
  depth := depth
  chain := by
    intro _
    have last : set'.maps.length - 1 = set.maps.length := by
      rw [maps, List.length_append, List.length_singleton, Nat.add_sub_cancel]
    have found : set'.maps[set.maps.length]? = some map := by
      rw [maps, List.getElem?_append_right (le_refl _), Nat.sub_self]
      rfl
    rw [last]
    obtain ⟨rfl, isMain⟩ | ⟨j, from_, chain⟩ := closes
    · exact .main found (by omega)
    · exact .included found from_ (maps ▸ chain.append)

theorem Nested.closes (nested : Nested set stack) {i : Nat} {chained : List Nat}
    (chain : Chain set.maps i chained) :
    ∃ map rest, set.maps[i]? = some map ∧ chained = i :: rest ∧
      Closes set.maps map.includedFrom rest := by
  obtain ⟨map, rest, found, isStack, ⟨isRest, isMain⟩ | included⟩ := chain.head
  · refine ⟨map, rest, found, isStack, .inl ⟨isRest, ?_⟩⟩
    obtain isMinus | ⟨j, _, from_⟩ := nested.earlier i map found
    · exact isMinus
    · omega
  · exact ⟨map, rest, found, isStack, .inr included⟩

theorem Closes.isMain_iff {maps : List LineMap} (closes : Closes maps map.includedFrom rest) :
    map.isMainFile = true ↔ rest = [] := by
  rw [LineMap.isMainFile, decide_eq_true_iff]
  obtain ⟨isRest, isMain⟩ | ⟨j, from_, chain⟩ := closes
  · exact iff_of_true (by omega) isRest
  · exact iff_of_false (by omega) chain.ne_nil

theorem Nested.top (nested : Nested set stack) (isOpen : stack ≠ []) :
    ∃ map rest, set.maps[set.maps.length - 1]? = some map ∧
      stack = (set.maps.length - 1) :: rest ∧ Closes set.maps map.includedFrom rest :=
  nested.closes (nested.chain isOpen)

theorem Nested.length_pos (nested : Nested set stack) (isOpen : stack ≠ []) :
    0 < set.maps.length :=
  Nat.zero_lt_of_lt (nested.chain isOpen).lt_length

theorem includer_of_from {j : Nat} (from_ : map.includedFrom = j) : map.includer = j := by
  rw [LineMap.includer, from_, Int.toNat_natCast]

def includedFromAfter (set : LineMaps) (junk : LineMap) (reason : LcReason) : Int :=
  let previous := set.element junk (set.maps.length - 1)
  match reason with
  | .enter => if set.depth = 0 then -1 else wrap false 32 (set.maps.length - 1 : Nat)
  | .rename => previous.includedFrom
  | .leave => (set.element junk previous.includer).includedFrom

def depthAfter (depth : Nat) (reason : LcReason) : Nat :=
  match reason with
  | .enter => depth + 1
  | .rename => depth
  | .leave => depth - 1

theorem fillIn_filled (set : LineMaps) (junk : LineMap) (startLocation : Nat) (request : Request)
    (reads : List Nat) :
    ∃ map, (fillIn set junk startLocation request reads).set.maps = set.maps ++ [map] ∧
      map.includedFrom = includedFromAfter set junk request.reason ∧
      (fillIn set junk startLocation request reads).set.depth =
        depthAfter set.depth request.reason := by
  refine ⟨⟨request.toFile, request.toLine, startLocation,
    includedFromAfter set junk request.reason, request.reason, request.sysp % 2 ^ 8, 0⟩, ?_, rfl, ?_⟩
  all_goals cases reason : request.reason <;>
    simp only [fillIn, reason, includedFromAfter, depthAfter]

theorem fillIn_reads (set : LineMaps) (junk : LineMap) (startLocation : Nat) (request : Request)
    (reads : List Nat) :
    (fillIn set junk startLocation request reads).reads = reads ++
      match request.reason with
      | .enter => []
      | .rename => [set.maps.length - 1]
      | .leave => [set.maps.length - 1, (set.element junk (set.maps.length - 1)).includer] := by
  cases reason : request.reason <;> simp only [fillIn, reason, List.append_nil]

theorem Nested.fillIn (nested : Nested set stack) (few : set.maps.length ≤ 2 ^ 31)
    (junk : LineMap) (startLocation : Nat) (request : Request) (reads : List Nat)
    (isOpen : stack = [] → request.reason = .enter)
    (isIncluded : request.reason = .leave → stack.length ≠ 1) :
    Nested (fillIn set junk startLocation request reads).set
      (opened set.maps.length request.reason stack) := by
  obtain ⟨map, maps, from_, depth⟩ := fillIn_filled set junk startLocation request reads
  cases reason : request.reason with
  | enter =>
    rw [reason] at from_ depth
    refine nested.push ?_ maps (depth.trans (congrArg (· + 1) nested.depth))
    rw [from_, includedFromAfter]
    by_cases isEmpty : stack = []
    · refine .inl ⟨isEmpty, if_pos ?_⟩
      rw [nested.depth, isEmpty, List.length_nil]
    · refine .inr ⟨set.maps.length - 1, ?_, nested.chain isEmpty⟩
      have hasDepth : set.depth ≠ 0 := by
        rw [nested.depth]
        exact fun none => isEmpty (List.length_eq_zero_iff.mp none)
      rw [if_neg hasDepth]
      refine wrap_eq_of_inRange ((inRange_signed 32 _).mpr ?_)
      omega
  | rename =>
    rw [reason] at from_ depth
    have notEmpty : stack ≠ [] := fun isEmpty => by cases reason.symm.trans (isOpen isEmpty)
    obtain ⟨previous, rest, found, rfl, closes⟩ := nested.top notEmpty
    refine nested.push ?_ maps (depth.trans nested.depth)
    rwa [from_, includedFromAfter, element_of_found junk found]
  | leave =>
    rw [reason] at from_ depth
    have notEmpty : stack ≠ [] := fun isEmpty => by cases reason.symm.trans (isOpen isEmpty)
    obtain ⟨previous, rest, found, rfl, ⟨rfl, _⟩ | ⟨j, previousFrom, chain⟩⟩ := nested.top notEmpty
    · exact absurd rfl (isIncluded reason)
    · obtain ⟨below, outer, foundBelow, rfl, closes⟩ := nested.closes chain
      refine nested.push ?_ maps (depth.trans ?_)
      · rwa [from_, includedFromAfter, element_of_found junk found,
          includer_of_from previousFrom, element_of_found junk foundBelow]
      · rw [depthAfter, nested.depth]
        rfl

theorem Nested.fillIn_reads (nested : Nested set stack) (junk : LineMap) (startLocation : Nat)
    (request : Request) (reads : List Nat) (isOpen : stack = [] → request.reason = .enter)
    (isIncluded : request.reason = .leave → stack.length ≠ 1) :
    (∀ i ∈ (SourceLocations.fillIn set junk startLocation request reads).reads,
      i < set.maps.length) ↔ ∀ i ∈ reads, i < set.maps.length := by
  rw [SourceLocations.fillIn_reads, List.forall_mem_append]
  refine and_iff_left_of_imp fun _ => ?_
  cases reason : request.reason with
  | enter => exact fun i none => absurd none List.not_mem_nil
  | rename =>
    have notEmpty : stack ≠ [] := fun isEmpty => by cases reason.symm.trans (isOpen isEmpty)
    have := nested.length_pos notEmpty
    rw [List.forall_mem_singleton]
    omega
  | leave =>
    have notEmpty : stack ≠ [] := fun isEmpty => by cases reason.symm.trans (isOpen isEmpty)
    obtain ⟨previous, rest, found, rfl, ⟨rfl, _⟩ | ⟨j, from_, chain⟩⟩ := nested.top notEmpty
    · exact absurd rfl (isIncluded reason)
    · have := nested.length_pos notEmpty
      have := chain.lt_length
      rw [List.forall_mem_cons, List.forall_mem_singleton, element_of_found junk found,
        includer_of_from from_]
      omega

/-- The ways in which a call returns.  `reads` are what it reads before the next map is
filled in. -/
inductive Returns (set : LineMaps) (junk : LineMap) (request : Request) : Added → Prop
  | opens (isClosed : set.depth = 0) (startLocation : Nat) (request' : Request) (reads : List Nat)
      (reason : request'.reason = .enter)
      (early : ∀ i ∈ reads, i < set.maps.length) :
      Returns set junk request (fillIn set junk startLocation request' reads)
  | asks (isOpen : set.depth ≠ 0) (startLocation : Nat) (request' : Request) (reads : List Nat)
      (stays : request.reason ≠ .leave) (reason : request'.reason = request.reason)
      (early : ∀ i ∈ reads, i < set.maps.length) :
      Returns set junk request (fillIn set junk startLocation request' reads)
  | closes (isOpen : set.depth ≠ 0) (reads : List Nat) (reason : request.reason = .leave)
      (isMain : (set.element junk (set.maps.length - 1)).isMainFile)
      (unnamed : request.toFile = none)
      (early : ∀ i ∈ reads, i < set.maps.length ∨ i = set.maps.length - 1) :
      Returns set junk request ⟨{ set with depth := set.depth - 1 }, none, reads⟩
  | renames (isOpen : set.depth ≠ 0) (startLocation : Nat) (request' : Request) (reads : List Nat)
      (reason : request.reason = .leave)
      (isMain : (set.element junk (set.maps.length - 1)).isMainFile)
      (named : request.toFile ≠ none) (reason' : request'.reason = .rename)
      (late : set.maps.length ∈ reads) :
      Returns set junk request (fillIn set junk startLocation request' reads)
  | leaves (isOpen : set.depth ≠ 0) (startLocation : Nat) (request' : Request) (reads : List Nat)
      (reason : request.reason = .leave)
      (isIncluded : (set.element junk (set.maps.length - 1)).isMainFile = false)
      (reason' : request'.reason = .leave)
      (early : ∀ i ∈ reads, i < set.maps.length ∨ i = set.maps.length - 1 ∨
        i ≤ (set.element junk (set.maps.length - 1)).includer + 1) :
      Returns set junk request (fillIn set junk startLocation request' reads)

theorem linemapAdd_returns {junk : LineMap} {request : Request} {added : Added}
    (adds : linemapAdd set junk request = some added) : Returns set junk request added := by
  have first : ∀ i ∈ (if set.maps.length ≠ 0 then [set.maps.length - 1] else []),
      i < set.maps.length := by
    by_cases none : set.maps.length = 0
    · simp [none]
    · simp only [if_pos (show set.maps.length ≠ 0 from none), List.forall_mem_singleton]
      omega
  have unnamed_iff : (if request.toFile = some "" then some "<stdin>" else request.toFile) = none ↔
      request.toFile = none := by
    by_cases isStdin : request.toFile = some "" <;> simp [isStdin]
  rw [linemapAdd] at adds
  dsimp only at adds
  generalize (if set.maps.length ≠ 0 then [set.maps.length - 1] else []) = reads at first adds
  generalize (if request.toFile = some "" then some "<stdin>" else request.toFile) = toFile
    at unnamed_iff adds
  generalize addUnsigned set.highestLocation 1 = startLocation at adds
  by_cases aborts : set.maps.length ≠ 0 ∧
      startLocation < (set.element junk (set.maps.length - 1)).startLocation
  · rw [if_pos aborts] at adds
    cases adds
  rw [if_neg aborts] at adds
  by_cases isClosed : set.depth = 0
  · rw [if_pos isClosed, Option.some.injEq] at adds
    exact adds ▸ .opens isClosed _ _ _ rfl first
  rw [if_neg isClosed] at adds
  cases reason : request.reason with
  | enter =>
    simp only [reason, Option.some.injEq] at adds
    exact adds ▸ .asks isClosed _ _ _ (by rw [reason]; decide) reason.symm first
  | rename =>
    simp only [reason, Option.some.injEq] at adds
    exact adds ▸ .asks isClosed _ _ _ (by rw [reason]; decide) reason.symm first
  | leave =>
    simp only [reason] at adds
    by_cases isMain : (set.element junk (set.maps.length - 1)).isMainFile = true
    · rw [if_pos isMain] at adds
      cases toFile with
      | none =>
        rw [Option.some.injEq] at adds
        refine adds ▸ .closes isClosed _ reason isMain (unnamed_iff.mp rfl) ?_
        simp only [List.forall_mem_append, List.forall_mem_singleton, or_true, and_true]
        exact fun i read => .inl (first i read)
      | some name =>
        rw [Option.some.injEq] at adds
        refine adds ▸ .renames isClosed _ _ _ reason isMain ?_ rfl ?_
        · exact fun unnamed => Option.some_ne_none name (unnamed_iff.mpr unnamed)
        · simp
    · rw [if_neg isMain] at adds
      rw [Bool.not_eq_true] at isMain
      set includer := (set.element junk (set.maps.length - 1)).includer
      have early : ∀ i ∈ reads ++ [set.maps.length - 1] ++ [includer, includer + 1],
          i < set.maps.length ∨ i = set.maps.length - 1 ∨ i ≤ includer + 1 := by
        intro i read
        simp only [List.mem_append, List.mem_cons, List.not_mem_nil, or_false] at read
        obtain (read | read) | read | read := read
        · exact .inl (first i read)
        · exact .inr (.inl read)
        · omega
        · omega
      cases toFile with
      | none =>
        simp only [Option.some.injEq] at adds
        exact adds ▸ .leaves isClosed _ _ _ reason isMain rfl early
      | some name =>
        cases left : (set.element junk includer).toFile with
        | none =>
          simp only [left] at adds
          cases adds
        | some file =>
          simp only [left] at adds
          by_cases differs : file ≠ name
          · rw [if_pos differs, Option.some.injEq] at adds
            exact adds ▸ .leaves isClosed _ _ _ reason isMain rfl early
          · rw [if_neg differs, Option.some.injEq] at adds
            refine adds ▸ .leaves isClosed _ _ _ reason isMain rfl fun i read => ?_
            refine early i (List.mem_append.mpr ?_)
            simp only [List.mem_append, List.mem_cons, List.not_mem_nil, or_false] at read ⊢
            tauto

theorem Nested.added (nested : Nested set stack) (few : set.maps.length ≤ 2 ^ 31)
    {junk : LineMap} {request : Request} {added : Added}
    (adds : linemapAdd set junk request = some added) :
    Nested added.set (stackAfter set.maps.length request stack) ∧
      ((∀ i ∈ added.reads, i < set.maps.length) ↔ ¬LeavesMain stack request) := by
  have isOpen_iff : set.depth ≠ 0 ↔ stack ≠ [] := by
    rw [nested.depth, ne_eq, List.length_eq_zero_iff]
  have isMain_iff (isOpen : stack ≠ []) :
      (set.element junk (set.maps.length - 1)).isMainFile = true ↔ stack.length = 1 := by
    obtain ⟨map, rest, found, rfl, closes⟩ := nested.top isOpen
    rw [element_of_found junk found, closes.isMain_iff, List.length_cons, Nat.add_eq_right,
      List.length_eq_zero_iff]
  cases linemapAdd_returns adds with
  | opens isClosed startLocation request' reads reason early =>
    have isEmpty : stack = [] := by
      by_contra isOpen
      exact isOpen_iff.mpr isOpen isClosed
    have notLeave : request'.reason = .leave → stack.length ≠ 1 :=
      fun leave => by cases reason.symm.trans leave
    have filled := nested.fillIn few junk startLocation request' reads (fun _ => reason) notLeave
    have reads := nested.fillIn_reads junk startLocation request' reads (fun _ => reason) notLeave
    rw [stackAfter, if_pos isEmpty]
    rw [reason, opened, isEmpty] at filled
    refine ⟨filled, iff_of_true (reads.mpr early) fun leaves => ?_⟩
    rw [LeavesMain, isEmpty] at leaves
    exact absurd leaves.1 (by decide)
  | asks isOpen startLocation request' reads stays reason early =>
    have isOpen := isOpen_iff.mp isOpen
    have notLeave : request'.reason = .leave → stack.length ≠ 1 :=
      fun leave => absurd (reason ▸ leave) stays
    have filled := nested.fillIn few junk startLocation request' reads
      (fun isEmpty => absurd isEmpty isOpen) notLeave
    have reads := nested.fillIn_reads junk startLocation request' reads
      (fun isEmpty => absurd isEmpty isOpen) notLeave
    rw [stackAfter, if_neg isOpen, if_neg fun leaves => stays leaves.1, ← reason]
    exact ⟨filled, iff_of_true (reads.mpr early) fun leaves => stays leaves.2.1⟩
  | closes isOpen reads reason isMain unnamed early =>
    have isOpen := isOpen_iff.mp isOpen
    have isOne := (isMain_iff isOpen).mp isMain
    have positive := nested.length_pos isOpen
    rw [stackAfter, if_neg isOpen, if_pos ⟨reason, isOne⟩, if_pos unnamed]
    refine ⟨⟨nested.earlier, ?_, fun isEmpty => absurd rfl isEmpty⟩, ?_⟩
    · rw [nested.depth, isOne, List.length_nil]
    · refine iff_of_true (fun i read => ?_) fun leaves => leaves.2.2 unnamed
      have := early i read
      omega
  | renames isOpen startLocation request' reads reason isMain named reason' late =>
    have isOpen := isOpen_iff.mp isOpen
    have isOne := (isMain_iff isOpen).mp isMain
    have notLeave : request'.reason = .leave → stack.length ≠ 1 :=
      fun leave => by cases reason'.symm.trans leave
    have filled := nested.fillIn few junk startLocation request' reads
      (fun isEmpty => absurd isEmpty isOpen) notLeave
    have reads := nested.fillIn_reads junk startLocation request' reads
      (fun isEmpty => absurd isEmpty isOpen) notLeave
    obtain ⟨top, isStack⟩ := List.length_eq_one_iff.mp isOne
    rw [stackAfter, if_neg isOpen, if_pos ⟨reason, isOne⟩, if_neg named]
    rw [reason', opened, isStack, List.tail_cons] at filled
    refine ⟨filled, iff_of_false (fun early => ?_) (not_not.mpr ⟨isOne, reason, named⟩)⟩
    exact lt_irrefl _ (reads.mp early _ late)
  | leaves isOpen startLocation request' reads reason isIncluded reason' early =>
    have isOpen := isOpen_iff.mp isOpen
    have notOne : stack.length ≠ 1 := by
      intro isOne
      rw [(isMain_iff isOpen).mpr isOne] at isIncluded
      cases isIncluded
    have filled := nested.fillIn few junk startLocation request' reads
      (fun isEmpty => absurd isEmpty isOpen) (fun _ => notOne)
    have reads := nested.fillIn_reads junk startLocation request' reads
      (fun isEmpty => absurd isEmpty isOpen) (fun _ => notOne)
    rw [stackAfter, if_neg isOpen, if_neg fun leaves => notOne leaves.2, reason, ← reason']
    refine ⟨filled, iff_of_true (reads.mpr fun i read => ?_) fun leaves => notOne leaves.1⟩
    have positive := nested.length_pos isOpen
    have before : (set.element junk (set.maps.length - 1)).includer < set.maps.length - 1 := by
      obtain ⟨map, rest, found, rfl, ⟨rfl, _⟩ | ⟨j, from_, chain⟩⟩ := nested.top isOpen
      · exact absurd rfl notOne
      · obtain isMinus | ⟨k, less, from'⟩ := nested.earlier _ map found
        · omega
        · rw [element_of_found junk found, includer_of_from from']
          exact less
    have := early i read
    omega

end Step

end GccCil.Libcpp.SourceLocations
