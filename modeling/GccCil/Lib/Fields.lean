import Mathlib.Data.List.Basic

/-!
# Fields of a list

A list whose elements may be separators has the maximal runs of other elements as its
fields; separators in a row, at the front or at the end make no field.
-/

namespace GccCil.Lib

variable {α : Type*} {sep : α → Bool}

def fields (sep : α → Bool) (l : List α) : List (List α) :=
  (l.splitOnP sep).filter fun run => !run.isEmpty

@[simp]
theorem fields_nil : fields sep [] = [] := by
  rw [fields, List.splitOnP_nil]
  rfl

theorem fields_append_sep (run rest : List α) {x : α} (isSep : sep x = true) :
    fields sep (run ++ x :: rest) = fields sep run ++ fields sep rest := by
  rw [fields, fields, fields, List.splitOnP_append_cons run rest isSep, List.filter_append]

theorem fields_cons_sep (rest : List α) {x : α} (isSep : sep x = true) :
    fields sep (x :: rest) = fields sep rest := by
  have split := fields_append_sep [] rest isSep
  rwa [List.nil_append, fields_nil, List.nil_append] at split

theorem fields_of_forall {run : List α} (notEmpty : run ≠ [])
    (noSep : ∀ x ∈ run, sep x = false) : fields sep run = [run] := by
  rw [fields, List.splitOnP_eq_singleton noSep, List.filter_singleton]
  cases run with
  | nil => exact absurd rfl notEmpty
  | cons x rest => rfl

theorem fields_append_of_seps {seps : List α} (rest : List α)
    (areSeps : ∀ x ∈ seps, sep x = true) : fields sep (seps ++ rest) = fields sep rest := by
  induction seps with
  | nil => rfl
  | cons x others ih =>
    rw [List.cons_append, fields_cons_sep _ (areSeps x List.mem_cons_self)]
    exact ih fun y inOthers => areSeps y (List.mem_cons_of_mem x inOthers)

theorem mem_of_mem_fields {l run : List α} (field : run ∈ fields sep l) {x : α} (inRun : x ∈ run) :
    x ∈ l := by
  have split : ∀ run ∈ l.splitOnP sep, ∀ x ∈ run, x ∈ l := by
    clear field inRun
    induction l with
    | nil =>
      intro run member x inRun
      rw [List.splitOnP_nil, List.mem_singleton] at member
      rwa [member] at inRun
    | cons y rest ih =>
      intro run member x inRun
      rw [List.splitOnP_cons_eq_if_modifyHead] at member
      split at member
      · rcases List.mem_cons.mp member with rfl | later
        · exact absurd inRun List.not_mem_nil
        · exact List.mem_cons_of_mem y (ih run later x inRun)
      · cases parts : rest.splitOnP sep with
        | nil => exact absurd parts (List.splitOnP_ne_nil sep rest)
        | cons first others =>
          rw [parts, List.modifyHead_cons] at member
          rcases List.mem_cons.mp member with rfl | later
          · refine (List.mem_cons.mp inRun).elim (fun same => same ▸ List.mem_cons_self) ?_
            intro inFirst
            exact List.mem_cons_of_mem y
              (ih first (parts ▸ List.mem_cons_self) x inFirst)
          · exact List.mem_cons_of_mem y
              (ih run (parts ▸ List.mem_cons_of_mem first later) x inRun)
  exact split run (List.mem_filter.mp field).1 x inRun

end GccCil.Lib
