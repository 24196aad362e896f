import Mathlib.Data.List.Basic

/-!
# Compare-and-jump code

Straight-line code that ends in jumps.  A jump goes to a label of the caller or
to a numbered test label of the code itself.  An emitter hands out fresh test
labels and appends instructions.  `Delivers` says where the emitted code goes
for a state, when falling off its end goes to a default label; one rule for
each way to put emitters together derives it.
-/

namespace GccCil.Lib.JumpCode

/-- The target of a jump: a label of the caller or a test label. -/
inductive Target (Label : Type) where
  | code (label : Label)
  | test (number : Nat)
  deriving DecidableEq, Repr

inductive Insn (Test Label : Type) where
  | jump (target : Target Label)
  | jumpIf (test : Test) (target : Target Label)
  | label (number : Nat)
  deriving DecidableEq, Repr

variable {State Test Label : Type}

def placed : List (Insn Test Label) → List Nat
  | [] => []
  | .label number :: rest => number :: placed rest
  | .jump _ :: rest => placed rest
  | .jumpIf _ _ :: rest => placed rest

def afterLabel (number : Nat) : List (Insn Test Label) → Option (List (Insn Test Label))
  | [] => none
  | .label other :: rest => if other = number then some rest else afterLabel number rest
  | .jump _ :: rest => afterLabel number rest
  | .jumpIf _ _ :: rest => afterLabel number rest

/-- Run a program from the instructions `rest` on.  The result is the label of
the caller that is reached. -/
def run (holds : Test → State → Bool) (program : List (Insn Test Label)) (state : State) :
    Nat → List (Insn Test Label) → Option Label
  | 0, _ => none
  | _ + 1, [] => none
  | fuel + 1, .label _ :: rest => run holds program state fuel rest
  | _ + 1, .jump (.code label) :: _ => some label
  | fuel + 1, .jump (.test number) :: _ =>
    (afterLabel number program).bind (run holds program state fuel)
  | fuel + 1, .jumpIf test (.code label) :: rest =>
    if holds test state then some label else run holds program state fuel rest
  | fuel + 1, .jumpIf test (.test number) :: rest =>
    if holds test state then (afterLabel number program).bind (run holds program state fuel)
    else run holds program state fuel rest

theorem run_view {View : Type} (holds : Test → View → Bool) (view : State → View)
    (program : List (Insn Test Label)) (state : State) (fuel : Nat) (rest : List (Insn Test Label)) :
    run (fun test state => holds test (view state)) program state fuel rest =
      run holds program (view state) fuel rest := by
  induction fuel generalizing rest with
  | zero => rfl
  | succ fuel ih =>
    have same := funext ih
    cases rest with
    | nil => rfl
    | cons insn rest =>
      cases insn with
      | label number => exact ih rest
      | jump target =>
        cases target with
        | code label => rfl
        | test number => simp only [run, same]
      | jumpIf test target =>
        cases target with
        | code label => simp only [run, same]
        | test number => simp only [run, same]

@[simp] theorem placed_append (before after : List (Insn Test Label)) :
    placed (before ++ after) = placed before ++ placed after := by
  induction before with
  | nil => rfl
  | cons insn rest ih =>
    cases insn with
    | label number => simp [placed, ih]
    | jump target => simpa [placed] using ih
    | jumpIf test target => simpa [placed] using ih

theorem afterLabel_append {number : Nat} {before after : List (Insn Test Label)}
    (fresh : number ∉ placed before) :
    afterLabel number (before ++ .label number :: after) = some after := by
  induction before with
  | nil => simp [afterLabel]
  | cons insn rest ih =>
    cases insn with
    | label other =>
      rw [placed, List.mem_cons, not_or] at fresh
      rw [List.cons_append, afterLabel, if_neg (Ne.symm fresh.1)]
      exact ih fresh.2
    | jump target => exact ih fresh
    | jumpIf test target => exact ih fresh

/-- Each run from `rest` with a step for every instruction ends at the label. -/
def Leads (holds : Test → State → Bool) (program : List (Insn Test Label)) (state : State)
    (rest : List (Insn Test Label)) (label : Label) : Prop :=
  ∀ fuel, rest.length ≤ fuel → run holds program state fuel rest = some label

section Leads

variable {holds : Test → State → Bool} {program rest : List (Insn Test Label)} {state : State}
  {final : Label}

theorem Leads.jump (label : Label) (rest : List (Insn Test Label)) :
    Leads holds program state (.jump (.code label) :: rest) label := by
  intro fuel enough
  cases fuel with
  | zero => cases enough
  | succ fuel => rfl

theorem Leads.taken {test : Test} (true_ : holds test state = true) (label : Label)
    (rest : List (Insn Test Label)) :
    Leads holds program state (.jumpIf test (.code label) :: rest) label := by
  intro fuel enough
  cases fuel with
  | zero => cases enough
  | succ fuel => rw [run, if_pos true_]

theorem Leads.notTaken {test : Test} (false_ : holds test state = false) (target : Target Label)
    (leads : Leads holds program state rest final) :
    Leads holds program state (.jumpIf test target :: rest) final := by
  have continues : ¬ holds test state = true := by rw [false_]; exact Bool.false_ne_true
  intro fuel enough
  cases fuel with
  | zero => cases enough
  | succ fuel =>
    have later := leads fuel (Nat.le_of_succ_le_succ enough)
    cases target with
    | code other => rwa [run, if_neg continues]
    | test number => rwa [run, if_neg continues]

theorem Leads.takenForward {test : Test} {number : Nat} {behind : List (Insn Test Label)}
    (true_ : holds test state = true) (found : afterLabel number program = some behind)
    (forward : behind.length ≤ rest.length) (leads : Leads holds program state behind final) :
    Leads holds program state (.jumpIf test (.test number) :: rest) final := by
  intro fuel enough
  cases fuel with
  | zero => cases enough
  | succ fuel =>
    rw [run, if_pos true_, found, Option.bind_some]
    exact leads fuel (Nat.le_trans forward (Nat.le_of_succ_le_succ enough))

end Leads

/-- An emitter takes the next free test label, and returns its code and the
next label that is free behind it. -/
def Emitter (Test Label : Type) : Type := Nat → Option (List (Insn Test Label) × Nat)

namespace Emitter

def nothing : Emitter Test Label := fun next => some ([], next)

def emit (insn : Insn Test Label) : Emitter Test Label := fun next => some ([insn], next)

instance : Append (Emitter Test Label) where
  append first second := fun next =>
    (first next).bind fun emitted =>
      (second emitted.2).map fun emitted' => (emitted.1 ++ emitted'.1, emitted'.2)

def withTestLabel (body : Nat → Emitter Test Label) : Emitter Test Label :=
  fun next => body next (next + 1)

def choose (condition : Option Bool) (yes no : Emitter Test Label) : Emitter Test Label :=
  fun next => condition.bind fun decided => (if decided then yes else no) next

theorem append_apply (first second : Emitter Test Label) (next : Nat) :
    (first ++ second) next = (first next).bind fun emitted =>
      (second emitted.2).map fun emitted' => (emitted.1 ++ emitted'.1, emitted'.2) := rfl

theorem append_eq_some {first second : Emitter Test Label} {next middle last : Nat}
    {before after : List (Insn Test Label)} (emitsFirst : first next = some (before, middle))
    (emitsSecond : second middle = some (after, last)) :
    (first ++ second) next = some (before ++ after, last) := by
  rw [append_apply, emitsFirst, Option.bind_some, emitsSecond, Option.map_some]

theorem nothing_append (second : Emitter Test Label) : nothing ++ second = second := by
  funext next
  rw [append_apply, nothing, Option.bind_some]
  cases second next with
  | none => rfl
  | some emitted => simp

theorem append_nothing (first : Emitter Test Label) : first ++ nothing = first := by
  funext next
  rw [append_apply]
  cases first next with
  | none => rfl
  | some emitted => simp [nothing]

@[simp] theorem choose_some (decided : Bool) (yes no : Emitter Test Label) :
    choose (some decided) yes no = if decided then yes else no := rfl

end Emitter

open Emitter

/-- The emitter succeeds, its labels are fresh, and its code takes every state of
the condition to its target whenever falling off the end leads to the default. -/
def Delivers (holds : Test → State → Bool) (default : Label) (emitter : Emitter Test Label)
    (condition : State → Prop) (target : State → Label) : Prop :=
  ∀ next, ∃ code last, emitter next = some (code, last) ∧ next ≤ last ∧
    (∀ number ∈ placed code, next ≤ number ∧ number < last) ∧
    ∀ before after state, condition state → (∀ number ∈ placed before, number < next) →
      Leads holds (before ++ (code ++ after)) state after default →
      Leads holds (before ++ (code ++ after)) state (code ++ after) (target state)

section Delivers

variable {holds : Test → State → Bool} {default : Label} {emitter : Emitter Test Label}
  {condition : State → Prop} {target : State → Label}

theorem Delivers.mono {weaker : State → Prop} {same : State → Label}
    (delivers : Delivers holds default emitter condition target)
    (implies : ∀ state, weaker state → condition state)
    (equal : ∀ state, weaker state → target state = same state) :
    Delivers holds default emitter weaker same := by
  intro next
  obtain ⟨code, last, emits, le, labels, leads⟩ := delivers next
  refine ⟨code, last, emits, le, labels, fun before after state holds' fresh falls => ?_⟩
  rw [← equal state holds']
  exact leads before after state (implies state holds') fresh falls

theorem Delivers.nothing (condition : State → Prop) :
    Delivers holds default (.nothing : Emitter Test Label) condition (fun _ => default) := by
  intro next
  refine ⟨[], next, rfl, Nat.le_refl next, by simp [placed], ?_⟩
  intro before after state _ _ falls
  exact falls

theorem Delivers.jump (condition : State → Prop) (label : Label) :
    Delivers holds default (emit (.jump (.code label))) condition (fun _ => label) := by
  intro next
  refine ⟨[.jump (.code label)], next, rfl, Nat.le_refl next, by simp [placed], ?_⟩
  intro before after state _ _ _
  exact Leads.jump label after

/-- A conditional jump to a label of the caller in front of other code. -/
theorem Delivers.jumpIf (test : Test) (label : Label)
    (delivers : Delivers holds default emitter
      (fun state => condition state ∧ holds test state = false) target) :
    Delivers holds default (emit (.jumpIf test (.code label)) ++ emitter) condition
      (fun state => if holds test state then label else target state) := by
  intro next
  obtain ⟨code, last, emits, le, labels, leads⟩ := delivers next
  have emitted : (emit (.jumpIf test (.code label)) ++ emitter) next =
      some ([.jumpIf test (.code label)] ++ code, last) := append_eq_some rfl emits
  refine ⟨.jumpIf test (.code label) :: code, last, emitted, le, labels, ?_⟩
  intro before after state meets fresh falls
  rw [List.cons_append] at falls ⊢
  dsimp only
  cases decided : holds test state with
  | true => exact Leads.taken decided label _
  | false =>
    apply Leads.notTaken decided
    have later := leads (before ++ [.jumpIf test (.code label)]) after state ⟨meets, decided⟩
    simp only [placed_append, placed, List.append_nil, List.append_assoc, List.cons_append,
      List.nil_append] at later
    exact later fresh falls

/-- A test sends one part of the states behind a test label; the code in front of
that label is closed by a jump to the default. -/
theorem Delivers.split {first second : Emitter Test Label} {firstTarget secondTarget : State → Label}
    (test : Test)
    (deliversFirst : Delivers holds default first
      (fun state => condition state ∧ holds test state = false) firstTarget)
    (deliversSecond : Delivers holds default second
      (fun state => condition state ∧ holds test state = true) secondTarget) :
    Delivers holds default
      (withTestLabel fun number => emit (.jumpIf test (.test number)) ++
        (first ++ (emit (.jump (.code default)) ++ (emit (.label number) ++ second)))) condition
      (fun state => if holds test state then secondTarget state else firstTarget state) := by
  intro next
  obtain ⟨code, middle, emits, le, labels, leads⟩ := deliversFirst (next + 1)
  obtain ⟨code', last, emits', le', labels', leads'⟩ := deliversSecond middle
  refine ⟨[.jumpIf test (.test next)] ++ (code ++ ([.jump (.code default)] ++
    ([.label next] ++ code'))), last, append_eq_some rfl (append_eq_some emits
      (append_eq_some rfl (append_eq_some rfl emits'))), by omega, ?_, ?_⟩
  · intro number isPlaced
    simp only [placed_append, placed, List.nil_append, List.mem_append, List.mem_cons,
      List.not_mem_nil, or_false] at isPlaced
    rcases isPlaced with inFirst | rfl | inSecond
    · have bounds := labels number inFirst
      omega
    · omega
    · have bounds := labels' number inSecond
      omega
  intro before after state meets fresh falls
  simp only [List.append_assoc, List.cons_append, List.nil_append] at falls ⊢
  cases decided : holds test state with
  | false =>
    apply Leads.notTaken decided
    have later := leads (before ++ [.jumpIf test (.test next)])
      (.jump (.code default) :: .label next :: (code' ++ after)) state ⟨meets, decided⟩
    simp only [placed_append, placed, List.append_nil, List.append_assoc, List.cons_append,
      List.nil_append] at later
    exact later (fun number isPlaced => Nat.lt_succ_of_lt (fresh number isPlaced))
      (Leads.jump default _)
  | true =>
    have found : afterLabel next (before ++ (.jumpIf test (.test next) ::
        (code ++ .jump (.code default) :: .label next :: (code' ++ after)))) =
        some (code' ++ after) := by
      have regroup : before ++ (.jumpIf test (.test next) ::
          (code ++ .jump (.code default) :: .label next :: (code' ++ after))) =
          (before ++ (.jumpIf test (.test next) :: (code ++ [.jump (.code default)]))) ++
            .label next :: (code' ++ after) := by simp
      rw [regroup]
      apply afterLabel_append
      simp only [placed_append, placed, List.append_nil, List.mem_append, not_or]
      exact ⟨fun isPlaced => absurd (fresh next isPlaced) (Nat.lt_irrefl _),
        fun isPlaced => absurd (labels next isPlaced).1 (by omega)⟩
    refine Leads.takenForward decided found (by simp; omega) ?_
    have later := leads' (before ++ (.jumpIf test (.test next) ::
      (code ++ [.jump (.code default), .label next]))) after state ⟨meets, decided⟩
    simp only [placed_append, placed, List.append_assoc, List.cons_append, List.nil_append,
      List.mem_append, List.mem_singleton] at later
    refine later (fun number isPlaced => ?_) falls
    rcases isPlaced with inBefore | inFirst | rfl
    · have bound := fresh number inBefore
      omega
    · exact (labels number inFirst).2
    · omega

end Delivers

end GccCil.Lib.JumpCode
