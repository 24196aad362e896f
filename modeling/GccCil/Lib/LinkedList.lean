import Mathlib.Data.List.Induction
import Mathlib.Logic.Function.Basic

/-!
# Doubly linked lists

Lists of addresses that two maps, `next` and `prev`, link in both directions.
An operation writes a few entries of the maps.  Each lemma says which list the
maps link afterwards.
-/

namespace GccCil.Lib

variable {α β : Type}

def setAt [DecidableEq α] (map : α → β) (address : Option α) (value : β) : α → β :=
  match address with
  | some x => Function.update map x value
  | none => map

section SetAt

variable [DecidableEq α]

@[simp] theorem setAt_none (map : α → β) (value : β) : setAt map none value = map := rfl

@[simp] theorem setAt_some (map : α → β) (x : α) (value : β) :
    setAt map (some x) value = Function.update map x value := rfl

theorem setAt_of_ne {map : α → β} {address : Option α} {value : β} {x : α}
    (other : address ≠ some x) : setAt map address value x = map x := by
  cases address with
  | none => rfl
  | some y => exact Function.update_of_ne (fun same => other (by rw [same])) _ _

theorem setAt_self {map : α → β} {address : Option α} {value : β} {x : α}
    (same : address = some x) : setAt map address value x = value := by
  rw [same, setAt_some, Function.update_self]

end SetAt

variable (next prev : α → Option α)

def Segment : Option α → List α → Option α → Prop
  | _, [], _ => True
  | before, x :: rest, after =>
    prev x = before ∧ next x = rest.head?.or after ∧ Segment (some x) rest after

def Chain : List α → Prop
  | [] => True
  | x :: rest => next x = rest.head? ∧ Chain rest

variable {next prev} {next' prev' : α → Option α}

theorem head?_append_or (l m : List α) : (l ++ m).head? = l.head?.or m.head? := by
  cases l <;> rfl

theorem Segment.append_iff {before after : Option α} {l m : List α} :
    Segment next prev before (l ++ m) after ↔
      Segment next prev before l (m.head?.or after) ∧
        Segment next prev (l.getLast?.or before) m after := by
  induction l generalizing before with
  | nil => simp [Segment]
  | cons x l ih =>
    have last : (x :: l).getLast?.or before = l.getLast?.or (some x) := by
      cases l with
      | nil => rfl
      | cons y l => simp [List.getLast?_cons]
    rw [List.cons_append, Segment, Segment, ih, head?_append_or, Option.or_assoc,
      last]
    simp only [and_assoc]

theorem Segment.congr {before after : Option α} {l : List α}
    (sameNext : ∀ x ∈ l, next' x = next x) (samePrev : ∀ x ∈ l, prev' x = prev x)
    (linked : Segment next prev before l after) : Segment next' prev' before l after := by
  induction l generalizing before with
  | nil => trivial
  | cons x l ih =>
    obtain ⟨isPrev, isNext, rest⟩ := linked
    refine ⟨?_, ?_, ?_⟩
    · rw [samePrev x List.mem_cons_self, isPrev]
    · rw [sameNext x List.mem_cons_self, isNext]
    · exact ih (fun y member => sameNext y (List.mem_cons_of_mem _ member))
        (fun y member => samePrev y (List.mem_cons_of_mem _ member)) rest

theorem Segment.chain {before : Option α} {l : List α}
    (linked : Segment next prev before l none) : Chain next l := by
  induction l generalizing before with
  | nil => trivial
  | cons x l ih =>
    obtain ⟨-, isNext, rest⟩ := linked
    exact ⟨by rw [isNext, Option.or_none], ih rest⟩

theorem Chain.congr {l : List α} (sameNext : ∀ x ∈ l, next' x = next x)
    (linked : Chain next l) : Chain next' l := by
  induction l with
  | nil => trivial
  | cons x l ih =>
    exact ⟨by rw [sameNext x List.mem_cons_self, linked.1],
      ih (fun y member => sameNext y (List.mem_cons_of_mem _ member)) linked.2⟩

theorem Chain.suffix {l m : List α} (linked : Chain next (l ++ m)) : Chain next m := by
  induction l with
  | nil => exact linked
  | cons x l ih => exact ih linked.2

theorem Chain.unique {l m : List α} (left : Chain next l) (right : Chain next m)
    (same : l.head? = m.head?) : l = m := by
  induction l generalizing m with
  | nil => exact (List.head?_eq_none_iff.mp same.symm).symm
  | cons x l ih =>
    cases m with
    | nil => cases same
    | cons y m =>
      obtain rfl : x = y := Option.some.inj same
      rw [ih left.2 right.2 (left.1.symm.trans right.1)]

theorem Segment.neighbours {l m : List α} {x : α}
    (linked : Segment next prev none (l ++ x :: m) none) :
    prev x = l.getLast? ∧ next x = m.head? := by
  obtain ⟨-, isPrev, isNext, -⟩ := Segment.append_iff.mp linked
  rw [Option.or_none] at isPrev isNext
  exact ⟨isPrev, isNext⟩

section Updates

variable [DecidableEq α]

theorem Chain.cut {l m : List α} (nodup : l.Nodup) (linked : Chain next (l ++ m)) :
    Chain (setAt next l.getLast? none) l := by
  induction l with
  | nil => trivial
  | cons x l ih =>
    obtain ⟨isNext, rest⟩ := linked
    obtain ⟨fresh, nodup⟩ := List.nodup_cons.mp nodup
    cases l with
    | nil => exact ⟨by simp, trivial⟩
    | cons y l =>
      have last : (x :: y :: l).getLast? = (y :: l).getLast? := by simp [List.getLast?_cons]
      rw [last]
      refine ⟨?_, ih nodup rest⟩
      rw [setAt_of_ne, isNext]
      · rfl
      · exact fun isLast => fresh (List.mem_of_getLast? isLast)

theorem Segment.setLast {before after : Option α} {l : List α} (nodup : l.Nodup)
    (value : Option α) (linked : Segment next prev before l after) :
    Segment (setAt next l.getLast? value) prev before l value := by
  induction l generalizing before with
  | nil => trivial
  | cons x l ih =>
    obtain ⟨isPrev, isNext, rest⟩ := linked
    obtain ⟨fresh, nodup⟩ := List.nodup_cons.mp nodup
    cases l with
    | nil => exact ⟨isPrev, by simp, trivial⟩
    | cons y l =>
      have last : (x :: y :: l).getLast? = (y :: l).getLast? := by simp [List.getLast?_cons]
      rw [last]
      refine ⟨isPrev, ?_, ih nodup rest⟩
      rw [setAt_of_ne, isNext]
      · rfl
      · exact fun isLast => fresh (List.mem_of_getLast? isLast)

theorem Segment.setFirst {before after : Option α} {l : List α} (nodup : l.Nodup)
    (value : Option α) (linked : Segment next prev before l after) :
    Segment next (setAt prev l.head? value) value l after := by
  cases l with
  | nil => trivial
  | cons x l =>
    obtain ⟨-, isNext, rest⟩ := linked
    refine ⟨by simp, isNext, rest.congr (fun _ _ => rfl) ?_⟩
    intro y member
    rw [List.head?_cons, setAt_some, Function.update_of_ne]
    rintro rfl
    exact (List.nodup_cons.mp nodup).1 member

theorem Segment.erase {l m : List α} {x : α} (nodup : (l ++ x :: m).Nodup)
    (linked : Segment next prev none (l ++ x :: m) none) :
    Segment (setAt next l.getLast? m.head?) (setAt prev m.head? l.getLast?) none (l ++ m) none := by
  obtain ⟨left, -, -, right⟩ := Segment.append_iff.mp linked
  obtain ⟨leftNodup, rightNodup, apart⟩ := List.nodup_append.mp nodup
  rw [Segment.append_iff]
  refine ⟨?_, ?_⟩
  · rw [Option.or_none]
    refine (left.setLast leftNodup m.head?).congr (fun _ _ => rfl) fun y member => ?_
    apply setAt_of_ne
    intro isFirst
    exact apart y member y (List.mem_cons_of_mem _ (List.mem_of_head? isFirst)) rfl
  · rw [Option.or_none]
    refine (right.setFirst (List.nodup_cons.mp rightNodup).2 l.getLast?).congr (fun y member => ?_)
      fun _ _ => rfl
    apply setAt_of_ne
    intro isLast
    exact apart y (List.mem_of_getLast? isLast) y (List.mem_cons_of_mem _ member) rfl

theorem Segment.insert {l m : List α} {x : α} (nodup : (l ++ x :: m).Nodup)
    (linked : Segment next prev none (l ++ m) none) :
    Segment (Function.update (setAt next l.getLast? (some x)) x m.head?)
      (Function.update (setAt prev m.head? (some x)) x l.getLast?) none (l ++ x :: m) none := by
  obtain ⟨left, right⟩ := Segment.append_iff.mp linked
  obtain ⟨leftNodup, rightNodup, apart⟩ := List.nodup_append.mp nodup
  obtain ⟨fresh, rightNodup⟩ := List.nodup_cons.mp rightNodup
  rw [Option.or_none] at left right
  rw [Segment.append_iff]
  refine ⟨?_, ?_, ?_, ?_⟩
  · rw [List.head?_cons, Option.or_none]
    refine (left.setLast leftNodup (some x)).congr (fun y member => ?_) fun y member => ?_
    · apply Function.update_of_ne
      rintro rfl
      exact apart y member y List.mem_cons_self rfl
    · rw [Function.update_of_ne, setAt_of_ne]
      · intro isFirst
        exact apart y member y (List.mem_cons_of_mem _ (List.mem_of_head? isFirst)) rfl
      · rintro rfl
        exact apart y member y List.mem_cons_self rfl
  · rw [Function.update_self, Option.or_none]
  · rw [Function.update_self, Option.or_none]
  · refine (right.setFirst rightNodup (some x)).congr (fun y member => ?_) fun y member => ?_
    · rw [Function.update_of_ne, setAt_of_ne]
      · intro isLast
        exact apart y (List.mem_of_getLast? isLast) y (List.mem_cons_of_mem _ member) rfl
      · rintro rfl
        exact fresh member
    · apply Function.update_of_ne
      rintro rfl
      exact fresh member

theorem Segment.truncate {l m : List α} (nodup : l.Nodup)
    (linked : Segment next prev none (l ++ m) none) :
    Segment (setAt next l.getLast? none) prev none l none :=
  (Segment.append_iff.mp linked).1.setLast nodup none

end Updates

def walk (step : α → Option α) (goes : α → α → Bool) : Nat → α → Option α
  | 0, _ => none
  | fuel + 1, x =>
    match step x with
    | none => some x
    | some y => if goes x y then walk step goes fuel y else some x

/-- The walk along a path ends at an element that all tests before allow to
reach, and that is the last one or has a failing test. -/
theorem walk_spec {step : α → Option α} {goes : α → α → Bool} {x : α} {path : List α} {fuel : Nat}
    (linked : Chain step (x :: path)) (enough : path.length < fuel) :
    ∃ passed y rest, walk step goes fuel x = some y ∧ x :: path = passed ++ y :: rest ∧
      (passed ++ [y]).IsChain (fun u v => goes u v) ∧
      ∀ z, rest.head? = some z → goes y z = false := by
  induction path generalizing x fuel with
  | nil =>
    obtain ⟨fuel, rfl⟩ : ∃ more, fuel = more + 1 := ⟨fuel - 1, by omega⟩
    have isLast : step x = none := linked.1
    refine ⟨[], x, [], ?_, rfl, by simp, nofun⟩
    rw [walk, isLast]
  | cons y path ih =>
    obtain ⟨fuel, rfl⟩ : ∃ more, fuel = more + 1 := ⟨fuel - 1, by omega⟩
    obtain ⟨isNext, rest⟩ := linked
    rw [List.head?_cons] at isNext
    rw [List.length_cons] at enough
    by_cases allowed : goes x y = true
    · obtain ⟨passed, z, remaining, isWalk, isPath, tests, stops⟩ :=
        ih rest (Nat.lt_of_succ_lt_succ enough)
      refine ⟨x :: passed, z, remaining, ?_, ?_, ?_, stops⟩
      · rw [walk, isNext]
        simp only [allowed, if_true, isWalk]
      · rw [isPath]
        rfl
      · cases passed with
        | nil =>
          simp only [List.nil_append, List.cons.injEq] at isPath
          obtain ⟨rfl, -⟩ := isPath
          simpa using allowed
        | cons w passed =>
          simp only [List.cons_append, List.cons.injEq] at isPath
          obtain ⟨rfl, -⟩ := isPath
          simp only [List.cons_append, List.isChain_cons_cons]
          exact ⟨allowed, tests⟩
    · refine ⟨[], x, y :: path, ?_, rfl, by simp, ?_⟩
      · rw [walk, isNext]
        simp only [allowed, if_false, Bool.false_eq_true]
      · rintro z ⟨⟩
        simpa using allowed

theorem walk_leaving {step : α → Option α} (passes : α → Bool) {x : α} {path : List α} {fuel : Nat}
    (linked : Chain step (x :: path)) (enough : path.length < fuel) :
    ∃ passed y rest, walk step (fun u _ => passes u) fuel x = some y ∧
      x :: path = passed ++ y :: rest ∧ (∀ u ∈ passed, passes u = true) ∧
      (rest ≠ [] → passes y = false) := by
  obtain ⟨passed, y, rest, isWalk, isPath, tests, stops⟩ := walk_spec linked enough
  refine ⟨passed, y, rest, isWalk, isPath, ?_, ?_⟩
  · clear isWalk isPath stops
    induction passed with
    | nil => exact fun _ absent => absurd absent List.not_mem_nil
    | cons u passed ih =>
      have both : passes u = true ∧ (passed ++ [y]).IsChain fun u _ => passes u = true := by
        cases passed with
        | nil => exact ⟨(List.isChain_cons_cons.mp tests).1, .singleton y⟩
        | cons v passed => exact List.isChain_cons_cons.mp tests
      intro v member
      obtain rfl | member := List.mem_cons.mp member
      · exact both.1
      · exact ih both.2 v member
  · intro more
    obtain ⟨z, rest, rfl⟩ := List.exists_cons_of_ne_nil more
    exact stops z rfl

theorem walk_reaching {step : α → Option α} (passes : α → Bool) {x : α} {path : List α} {fuel : Nat}
    (linked : Chain step (x :: path)) (enough : path.length < fuel) :
    ∃ passed y rest, walk step (fun _ v => passes v) fuel x = some y ∧
      x :: path = passed ++ y :: rest ∧ (∀ u ∈ passed ++ [y], u = x ∨ passes u = true) ∧
      ∀ z, rest.head? = some z → passes z = false := by
  obtain ⟨passed, y, rest, isWalk, isPath, tests, stops⟩ := walk_spec linked enough
  refine ⟨passed, y, rest, isWalk, isPath, ?_, stops⟩
  have reached : ∀ l : List α, l.IsChain (fun _ v => passes v = true) → ∀ u, l.head? = some u →
      ∀ v ∈ l, v = u ∨ passes v = true := by
    intro l
    induction l with
    | nil => exact fun _ _ _ _ absent => absurd absent List.not_mem_nil
    | cons w l ih =>
      rintro chain u ⟨⟩ v member
      obtain rfl | member := List.mem_cons.mp member
      · exact Or.inl rfl
      · cases l with
        | nil => exact absurd member List.not_mem_nil
        | cons w' l =>
          obtain ⟨first, chain⟩ := List.isChain_cons_cons.mp chain
          obtain rfl | passing := ih chain w' rfl v member
          · exact Or.inr first
          · exact Or.inr passing
  refine reached _ tests x ?_
  have isHead := congrArg List.head? isPath
  rw [head?_append_or, List.head?_cons] at isHead
  rw [head?_append_or, isHead]
  rfl

theorem Segment.chain_reverse {after : Option α} {l : List α}
    (linked : Segment next prev none l after) : Chain prev l.reverse := by
  induction l using List.reverseRecOn generalizing after with
  | nil => trivial
  | append_singleton l x ih =>
    obtain ⟨left, isPrev, -⟩ := Segment.append_iff.mp linked
    rw [List.reverse_append, List.reverse_singleton, List.singleton_append]
    refine ⟨?_, ih left⟩
    rw [isPrev, Option.or_none, List.head?_reverse]

end GccCil.Lib
