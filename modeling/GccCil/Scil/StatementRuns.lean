import GccCil.Scil.LabelPruning

/-!
# Runs of a method body

The statements of a method with their labels, gotos and returns, run one after the other.
Straight-line statements run as before, and a body runs in the same way when the labels that no
goto refers to are removed from it.
-/

namespace GccCil.Scil

open Relation

inductive Point where
  | before (rest : List Stmt) (memory : Memory)
  | returned (result : Option Int) (memory : Memory)

def fromLabel (target : Nat) : List Stmt → Option (List Stmt)
  | [] => none
  | stmt :: rest =>
    if stmt.label? = some target then some (stmt :: rest) else fromLabel target rest

/-- One statement of a body; a goto goes on at its label.  Calls are not run. -/
def Point.step (body : List Stmt) : Point → Option Point
  | .returned _ _ | .before [] _ => none
  | .before (stmt :: rest) memory =>
    match stmt with
    | .goto target => (fromLabel target body).map (Point.before · memory)
    | .condGoto condition onTrue target =>
      (condition.eval memory).bind fun x =>
        if decide (x ≠ 0) = onTrue then (fromLabel target body).map (Point.before · memory)
        else some (.before rest memory)
    | .return_ none => some (.returned none memory)
    | .return_ (some result) =>
      (result.eval memory).map fun x => .returned (some x) memory
    | .modify variable_ value => ((Stmt.modify variable_ value).exec memory).map (.before rest)
    | .expr _ => none
    | .label _ => some (.before rest memory)

def Runs (body : List Stmt) : Point → Point → Prop :=
  ReflTransGen fun point next => point.step body = some next

variable {body : List Stmt}

theorem Point.step_exec {stmt : Stmt} {rest : List Stmt} {memory memory' : Memory}
    (executed : stmt.exec memory = some memory') :
    (Point.before (stmt :: rest) memory).step body = some (.before rest memory') := by
  cases stmt with
  | modify variable_ value => simp only [step, executed, Option.map_some]
  | label programCounter =>
    cases executed
    rfl
  | _ => cases executed

theorem Runs.straight {stmts rest : List Stmt} {memory memory' : Memory}
    (executed : execStmts memory stmts = some memory') :
    Runs body (.before (stmts ++ rest) memory) (.before rest memory') := by
  induction stmts generalizing memory with
  | nil =>
    cases executed
    exact .refl
  | cons stmt stmts ih =>
    obtain ⟨next, first, others⟩ := Option.bind_eq_some_iff.mp executed
    exact .head (Point.step_exec first) (ih others)

theorem fromLabel_suffix {target : Nat} {stmts rest : List Stmt}
    (found : fromLabel target stmts = some rest) : rest <:+ stmts := by
  induction stmts with
  | nil => cases found
  | cons stmt stmts ih =>
    rw [fromLabel] at found
    split at found
    case isTrue =>
      cases found
      exact List.suffix_refl _
    case isFalse => exact (ih found).trans (List.suffix_cons stmt stmts)

theorem fromLabel_append {target : Nat} {stmts rest : List Stmt}
    (unlabelled : target ∉ stmts.filterMap Stmt.label?) :
    fromLabel target (stmts ++ rest) = fromLabel target rest := by
  induction stmts with
  | nil => rfl
  | cons stmt stmts ih =>
    rw [List.filterMap_cons] at unlabelled
    rw [List.cons_append, fromLabel, if_neg, ih]
    · intro later
      refine unlabelled ?_
      cases stmt.label? with
      | none => exact later
      | some label => exact List.mem_cons_of_mem _ later
    · intro here
      simp [here] at unlabelled

theorem fromLabel_removeLabels {forcedLabel : Nat → Bool} {target : Nat}
    (forced : forcedLabel target = true) (stmts : List Stmt) :
    fromLabel target (removeLabels forcedLabel stmts) =
      (fromLabel target stmts).map (removeLabels forcedLabel) := by
  induction stmts with
  | nil => rfl
  | cons stmt stmts ih =>
    rw [fromLabel]
    cases label : stmt.label? with
    | none =>
      rw [if_neg nofun, ← ih]
      simp [removeLabels, label, fromLabel]
    | some programCounter =>
      by_cases here : programCounter = target
      · subst here
        simp [removeLabels, label, forced, fromLabel]
      · rw [if_neg (by simpa using here), ← ih]
        cases kept : forcedLabel programCounter with
        | false => simp [removeLabels, label, kept]
        | true => simp [removeLabels, label, kept, fromLabel, here]

def Point.pruned (forcedLabel : Nat → Bool) : Point → Point
  | .before rest memory => .before (removeLabels forcedLabel rest) memory
  | .returned result memory => .returned result memory

/-- The statements that are left are the last ones of the body. -/
def Point.Within (body : List Stmt) : Point → Prop
  | .before rest _ => rest <:+ body
  | .returned _ _ => True

theorem jump_pruned {forcedLabel : Nat → Bool} {target : Nat} {memory : Memory} {next : Point}
    (forced : forcedLabel target = true)
    (jumps : (fromLabel target body).map (Point.before · memory) = some next) :
    next.Within body ∧
      (fromLabel target (removeLabels forcedLabel body)).map (Point.before · memory) =
        some (next.pruned forcedLabel) := by
  obtain ⟨rest, found, rfl⟩ := Option.map_eq_some_iff.mp jumps
  refine ⟨fromLabel_suffix found, ?_⟩
  rw [fromLabel_removeLabels forced, found]
  rfl

theorem Point.step_kept {forcedLabel : Nat → Bool} {stmt : Stmt} {rest : List Stmt}
    {memory : Memory} {next : Point}
    (forced : ∀ target ∈ stmt.target?, forcedLabel target = true) (later : rest <:+ body)
    (stepped : (Point.before (stmt :: rest) memory).step body = some next) :
    next.Within body ∧ (Point.before (stmt :: removeLabels forcedLabel rest) memory).step
      (removeLabels forcedLabel body) = some (next.pruned forcedLabel) := by
  cases stmt with
  | goto target => exact jump_pruned (forced target rfl) stepped
  | condGoto condition onTrue target =>
    obtain ⟨x, value, branch⟩ := Option.bind_eq_some_iff.mp stepped
    simp only [step, value, Option.bind_some]
    split at branch
    case isTrue taken =>
      rw [if_pos taken]
      exact jump_pruned (forced target rfl) branch
    case isFalse notTaken =>
      cases branch
      exact ⟨later, if_neg notTaken⟩
  | return_ result =>
    cases result with
    | none =>
      cases stepped
      exact ⟨trivial, rfl⟩
    | some result =>
      obtain ⟨x, value, rfl⟩ := Option.map_eq_some_iff.mp stepped
      exact ⟨trivial, Option.map_eq_some_iff.mpr ⟨x, value, rfl⟩⟩
  | modify variable_ value =>
    obtain ⟨memory', executed, rfl⟩ := Option.map_eq_some_iff.mp stepped
    exact ⟨later, Point.step_exec executed⟩
  | expr value => cases stepped
  | label programCounter =>
    cases stepped
    exact ⟨later, rfl⟩

theorem Point.step_pruned {forcedLabel : Nat → Bool}
    (forced : ∀ target ∈ body.filterMap Stmt.target?, forcedLabel target = true)
    {point next : Point} (within : point.Within body) (stepped : point.step body = some next) :
    next.Within body ∧ Runs (removeLabels forcedLabel body) (point.pruned forcedLabel)
      (next.pruned forcedLabel) := by
  rcases point with ⟨_ | ⟨stmt, rest⟩, memory⟩ | ⟨result, memory⟩
  · cases stepped
  · have later : rest <:+ body := (List.suffix_cons stmt rest).trans within
    obtain ⟨inside, steps⟩ := step_kept (fun target isTarget => forced target
      (List.mem_filterMap.mpr ⟨stmt, within.subset List.mem_cons_self, isTarget⟩)) later stepped
    refine ⟨inside, ?_⟩
    cases label : stmt.label? with
    | none =>
      simp only [pruned, removeLabels, label]
      exact .single steps
    | some programCounter =>
      simp only [pruned, removeLabels, label]
      split
      case isTrue => exact .single steps
      case isFalse =>
        obtain rfl : next = .before rest memory := by
          cases stmt with
          | label programCounter =>
            cases stepped
            rfl
          | _ => cases label
        exact .refl
  · cases stepped

theorem Runs.pruned {forcedLabel : Nat → Bool}
    (forced : ∀ target ∈ body.filterMap Stmt.target?, forcedLabel target = true)
    {point last : Point} (runs : Runs body point last) (within : point.Within body) :
    Runs (removeLabels forcedLabel body) (point.pruned forcedLabel) (last.pruned forcedLabel) := by
  induction runs using ReflTransGen.head_induction_on with
  | refl => exact .refl
  | head step _ ih =>
    obtain ⟨inside, stepPruned⟩ := Point.step_pruned forced within step
    exact stepPruned.trans (ih inside)

end GccCil.Scil
