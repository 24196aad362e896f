import GccCil.Scil.Mangle
import GccCil.Scil.StackMerging
import GccCil.Scil.StackVariables

/-!
# Label pruning

Every instruction gets a label, and `scil_complete_method_def` removes the
labels that no branch has forced.  The identifier of a label is made of the
mangled name of its method and the offset, and what it carries is never reset;
so methods with one mangled name share their labels.
-/

namespace GccCil.Scil

open Mangle

/-- `scil_get_label_id` for the label at the offset; `write_method` writes what
`scil_mangle_method` writes after `_Z`. -/
def scilGetLabelId (method : MangledMethod) (programCounter : Nat) : List Char :=
  let name := "_L$".toList ++ Nat.toDigits 16 programCounter
  "_ZZ".toList ++ method.assemblerName.drop 2 ++ Nat.toDigits 10 name.length ++ name ++ ['E']

theorem not_mem_toDigits (number : Nat) : '_' ∉ Nat.toDigits 16 number := by
  induction number using Nat.strong_induction_on with
  | _ number ih =>
    rw [Nat.toDigits_eq_if (by decide)]
    split
    case isTrue => simp
    case isFalse => simp [ih (number / 16) (by omega)]

theorem append_underscore_inj {left right leftEnd rightEnd : List Char}
    (leftLast : '_' ∉ leftEnd) (rightLast : '_' ∉ rightEnd)
    (same : left ++ '_' :: leftEnd = right ++ '_' :: rightEnd) :
    left = right ∧ leftEnd = rightEnd := by
  rcases List.append_eq_append_iff.mp same with ⟨rest, rfl, ends⟩ | ⟨rest, rfl, ends⟩
  · cases rest with
    | nil => simpa using ends
    | cons head rest =>
      rw [(List.cons.inj ends).2] at leftLast
      simp at leftLast
  · cases rest with
    | nil => simpa [eq_comm] using ends
    | cons head rest =>
      rw [(List.cons.inj ends).2] at rightLast
      simp at rightLast

/-- An identifier belongs to one mangled name and one offset. -/
theorem scilGetLabelId_eq_iff (left right : MangledMethod) (leftCounter rightCounter : Nat) :
    scilGetLabelId left leftCounter = scilGetLabelId right rightCounter ↔
      left.assemblerName = right.assemblerName ∧ leftCounter = rightCounter := by
  have last : ∀ number, '_' ∉ 'L' :: '$' :: (Nat.toDigits 16 number ++ ['E']) := by
    intro number
    simp [not_mem_toDigits]
  constructor
  · intro same
    simp only [scilGetLabelId, List.append_assoc, List.append_cancel_left_eq] at same
    rw [← List.append_assoc, ← List.append_assoc (right.assemblerName.drop 2)] at same
    -- The last underscore is the one of the name of the label.
    obtain ⟨sameName, sameLabel⟩ := append_underscore_inj (last _) (last _) same
    have sameDigits := List.append_cancel_right (List.cons.inj (List.cons.inj sameLabel).2).2
    obtain rfl := Lib.toDigits_injective (by decide) (by decide) sameDigits
    rw [left.begins, List.append_cancel_right sameName, ← right.begins]
    exact ⟨rfl, rfl⟩
  · rintro ⟨sameName, rfl⟩
    rw [scilGetLabelId, scilGetLabelId, sameName]

structure Definition where
  decl : MangledMethod
  method : Method
  body : Body

/-- What one translation leaves for the next: `SCIL_DECL_DATA` and `FORCED_LABEL`
of the labels, found by the mangled name and the offset, and the counter of
`scil_add_stack_variable`. -/
structure Session where
  labelData : List Char → Nat → LabelData
  forcedLabel : List Char → Nat → Bool
  nextIndex : Nat

def Session.start (nextIndex : Nat) : Session where
  labelData := fun _ _ => .null
  forcedLabel := fun _ _ => false
  nextIndex := nextIndex

def scilStartMethodDef (definition : Definition) (session : Session) : State :=
  startState definition.method session.nextIndex
    (session.labelData definition.decl.assemblerName)
    (session.forcedLabel definition.decl.assemblerName)

/-- The loop of `scil_complete_method_def`. -/
def removeLabels (forcedLabel : Nat → Bool) : List Stmt → List Stmt
  | [] => []
  | stmt :: rest =>
    match stmt.label? with
    | some programCounter =>
      if forcedLabel programCounter then stmt :: removeLabels forcedLabel rest
      else removeLabels forcedLabel rest
    | none => stmt :: removeLabels forcedLabel rest

structure Translation where
  appended : List Stmt
  completed : List Stmt

def translateMethod (definition : Definition) (session : Session) :
    Option (Translation × Session) := do
  let state ← parseInstructions definition.method definition.body.instructions
    (scilStartMethodDef definition session)
  let name := definition.decl.assemblerName
  return ({ appended := state.body, completed := removeLabels state.forcedLabel state.body },
    { labelData := Function.update session.labelData name state.labelData
      forcedLabel := Function.update session.forcedLabel name state.forcedLabel
      nextIndex := state.typedStacks.nextIndex })

/-- The methods in the order in which `parse_method` is called for them. -/
def translateMethods : List Definition → Session → Option (List Translation)
  | [], _ => some []
  | definition :: rest, session => do
      let (translation, session) ← translateMethod definition session
      return translation :: (← translateMethods rest session)

/-- Labels and gotos belong together, and the other statements are those that
were appended. -/
structure Pruned (translation : Translation) : Prop where
  declared : ∀ target ∈ translation.completed.filterMap Stmt.target?,
    (translation.completed.filterMap Stmt.label?).count target = 1
  referred : ∀ programCounter ∈ translation.completed.filterMap Stmt.label?,
    programCounter ∈ translation.completed.filterMap Stmt.target?
  others : translation.completed.filter (fun stmt => stmt.label?.isNone) =
    translation.appended.filter (fun stmt => stmt.label?.isNone)

structure Quiet (before after : State) : Prop where
  body : ∃ stmts, after.body = before.body ++ stmts ∧ stmts.filterMap Stmt.label? = [] ∧
    stmts.filterMap Stmt.target? = []
  forcedLabel : after.forcedLabel = before.forcedLabel

theorem Quiet.of_eq {before after : State} (sameBody : after.body = before.body)
    (sameForced : after.forcedLabel = before.forcedLabel) : Quiet before after :=
  ⟨⟨[], by simp [sameBody], rfl, rfl⟩, sameForced⟩

theorem straight_quiet : Straight Quiet where
  refl _ := Quiet.of_eq rfl rfl
  trans := by
    rintro _ _ _ ⟨⟨first, firstBody, firstLabels, firstTargets⟩, firstForced⟩
      ⟨⟨second, secondBody, secondLabels, secondTargets⟩, secondForced⟩
    refine ⟨⟨first ++ second, ?_, ?_, ?_⟩, secondForced.trans firstForced⟩
    · rw [secondBody, firstBody, List.append_assoc]
    · rw [List.filterMap_append, firstLabels, secondLabels, List.append_nil]
    · rw [List.filterMap_append, firstTargets, secondTargets, List.append_nil]
  allocates returned := by
    obtain ⟨-, rfl⟩ := scilGetStackVariable_eq_some returned
    exact Quiet.of_eq rfl rfl
  pushes _ := Quiet.of_eq rfl rfl
  pops := by
    intro entry state state' popped
    cases entries : state.stack.entries with
    | nil => simp [scilStackPop, entries] at popped
    | cons top rest =>
      rw [scilStackPop_cons entries] at popped
      cases popped
      exact Quiet.of_eq rfl rfl
  emits stmt state noTarget noLabel := by
    refine ⟨⟨[stmt], rfl, ?_, ?_⟩, rfl⟩
    · simp [noLabel]
    · simp [noTarget]

/-- What instructions append to the body: the labels of their offsets and the
gotos of their branches, whose targets are forced. -/
structure Emitted (offsets targets : List Nat) (before after : State) : Prop where
  body : ∃ stmts, after.body = before.body ++ stmts ∧ stmts.filterMap Stmt.label? = offsets ∧
    stmts.filterMap Stmt.target? = targets
  forcedLabel : ∀ offset, after.forcedLabel offset = true ↔
    before.forcedLabel offset = true ∨ offset ∈ targets

theorem Emitted.trans {offsets targets offsets' targets' : List Nat} {first second third : State}
    (before : Emitted offsets targets first second)
    (after : Emitted offsets' targets' second third) :
    Emitted (offsets ++ offsets') (targets ++ targets') first third := by
  obtain ⟨⟨stmts, body, labels, gotos⟩, forced⟩ := before
  obtain ⟨⟨stmts', body', labels', gotos'⟩, forced'⟩ := after
  refine ⟨⟨stmts ++ stmts', ?_, ?_, ?_⟩, ?_⟩
  · rw [body', body, List.append_assoc]
  · rw [List.filterMap_append, labels, labels']
  · rw [List.filterMap_append, gotos, gotos']
  · intro offset
    rw [forced', forced, List.mem_append, or_assoc]

theorem emitted_setLabel (offset : Nat) (state : State) :
    Emitted [offset] [] state (scilSetLabel offset state) := by
  refine ⟨⟨[.label offset], scilSetLabel_body offset state, rfl, rfl⟩, ?_⟩
  have kept : (scilSetLabel offset state).forcedLabel = state.forcedLabel := by
    unfold scilSetLabel
    split <;> rfl
  simp [kept]

theorem emitted_execute {method : Method} {instr : Instr} {state after : State}
    (executed : execute method instr state = some after) :
    Emitted [] instr.target?.toList state after := by
  cases branches : instr.target? with
  | none =>
    obtain ⟨body, forced⟩ := straight_quiet.executePlain method branches state after executed
    exact ⟨body, by simp [show after.forcedLabel = state.forcedLabel from forced]⟩
  | some target =>
    obtain ⟨before, stmt, quiet, hasTarget, noLabel, ends⟩ :=
      straight_quiet.executeBranch method branches executed
    have forcedGoto : ∀ offset, (instrGoto target before).forcedLabel offset = true ↔
        before.forcedLabel offset = true ∨ offset = target := by
      intro offset
      have updated : (instrGoto target before).forcedLabel =
          Function.update before.forcedLabel target true := by
        simp only [instrGoto]
        split <;> rfl
      rw [updated, Function.update_apply]
      split <;> simp [*]
    have appended : after.body = before.body ++ [stmt] ∧
        after.forcedLabel = (instrGoto target before).forcedLabel := by
      rcases ends with rfl | rfl <;> simp [scilAppendStmt, scilClearStack]
    obtain ⟨⟨stmts, body, labels, gotos⟩, forced⟩ := quiet
    refine ⟨⟨stmts ++ [stmt], ?_, ?_, ?_⟩, ?_⟩
    · rw [appended.1, body, List.append_assoc]
    · simp [labels, noLabel]
    · simp [gotos, hasTarget]
    · intro offset
      rw [appended.2, forcedGoto, forced, Option.toList_some, List.mem_singleton]

def targets (instructions : List (Nat × Instr)) : List Nat :=
  instructions.filterMap fun entry => entry.2.target?

theorem emitted_parseInstructions {method : Method} {instructions : List (Nat × Instr)}
    {state final : State} (parsed : parseInstructions method instructions state = some final) :
    Emitted (instructions.map Prod.fst) (targets instructions) state final := by
  induction instructions generalizing state with
  | nil =>
    cases parsed
    exact ⟨⟨[], by simp, rfl, rfl⟩, by simp [targets]⟩
  | cons entry rest ih =>
    obtain ⟨offset, instr⟩ := entry
    obtain ⟨next, executed, last⟩ := Option.bind_eq_some_iff.mp parsed
    have steps := ((emitted_setLabel offset state).trans (emitted_execute executed)).trans
      (ih last)
    have same : targets ((offset, instr) :: rest) = instr.target?.toList ++ targets rest := by
      cases branches : instr.target? <;> simp [targets, branches]
    rw [same]
    exact steps

theorem Body.targets_iff (body : Body) (offset : Nat) :
    body.Targets offset ↔ offset ∈ targets body.instructions := by
  simp [Body.Targets, targets]

theorem labels_removeLabels (forcedLabel : Nat → Bool) (stmts : List Stmt) :
    (removeLabels forcedLabel stmts).filterMap Stmt.label? =
      (stmts.filterMap Stmt.label?).filter forcedLabel := by
  induction stmts with
  | nil => rfl
  | cons stmt rest ih =>
    cases label : stmt.label? with
    | none => simp [removeLabels, label, ih]
    | some programCounter =>
      cases forced : forcedLabel programCounter <;>
        simp [removeLabels, label, forced, ih]

theorem filterMap_removeLabels {α : Type} (forcedLabel : Nat → Bool) (stmts : List Stmt)
    (keep : Stmt → Option α) (noLabel : ∀ stmt, stmt.label?.isSome → keep stmt = none) :
    (removeLabels forcedLabel stmts).filterMap keep = stmts.filterMap keep := by
  induction stmts with
  | nil => rfl
  | cons stmt rest ih =>
    cases label : stmt.label? with
    | none => simp [removeLabels, label, List.filterMap_cons, ih]
    | some programCounter =>
      have dropped := noLabel stmt (by simp [label])
      cases forced : forcedLabel programCounter <;>
        simp [removeLabels, label, forced, dropped, ih]

theorem targets_removeLabels (forcedLabel : Nat → Bool) (stmts : List Stmt) :
    (removeLabels forcedLabel stmts).filterMap Stmt.target? = stmts.filterMap Stmt.target? := by
  apply filterMap_removeLabels
  intro stmt isLabel
  cases stmt <;> first | rfl | cases isLabel

theorem others_removeLabels (forcedLabel : Nat → Bool) (stmts : List Stmt) :
    (removeLabels forcedLabel stmts).filter (fun stmt => stmt.label?.isNone) =
      stmts.filter (fun stmt => stmt.label?.isNone) := by
  rw [← List.filterMap_eq_filter]
  apply filterMap_removeLabels
  intro stmt isLabel
  cases label : stmt.label? with
  | none => simp [label] at isLabel
  | some programCounter => simp [Option.guard, label]

/-- One method: its labels are pruned exactly when every label that was forced
before the translation is a target in this method. -/
theorem translateMethod_spec {definition : Definition} {session session' : Session}
    {translation : Translation}
    (translated : translateMethod definition session = some (translation, session')) :
    (Pruned translation ↔
        ∀ offset ∈ definition.body.instructions.map Prod.fst,
          session.forcedLabel definition.decl.assemblerName offset = true →
            definition.body.Targets offset) ∧
      ∀ name offset, session'.forcedLabel name offset = true ↔
        session.forcedLabel name offset = true ∨
          definition.decl.assemblerName = name ∧ definition.body.Targets offset := by
  obtain ⟨state, parsed, result⟩ := Option.bind_eq_some_iff.mp translated
  cases result
  obtain ⟨⟨stmts, body, labels, gotos⟩, forced⟩ := emitted_parseInstructions parsed
  have sameBody : state.body = stmts := by
    rw [body]
    rfl
  have forcedBefore : ∀ offset, state.forcedLabel offset = true ↔
      session.forcedLabel definition.decl.assemblerName offset = true ∨
        definition.body.Targets offset := by
    intro offset
    rw [forced, Body.targets_iff]
    rfl
  refine ⟨⟨?_, ?_⟩, ?_⟩
  · rintro ⟨-, referred, -⟩ offset isOffset earlier
    have kept := referred offset (by
      rw [labels_removeLabels, sameBody, labels]
      exact List.mem_filter.mpr ⟨isOffset, (forcedBefore offset).mpr (.inl earlier)⟩)
    rw [targets_removeLabels, sameBody, gotos] at kept
    exact (definition.body.targets_iff offset).mpr kept
  · intro onlyTargets
    refine ⟨?_, ?_, others_removeLabels _ _⟩
    · intro target isTarget
      rw [targets_removeLabels, sameBody, gotos] at isTarget
      have targeted := (definition.body.targets_iff target).mpr isTarget
      have ⟨entry, inBody, branches⟩ := targeted
      have isOffset := definition.body.targetsExist entry inBody target branches
      have distinct : (definition.body.instructions.map Prod.fst).Nodup :=
        definition.body.increasing.imp (fun below => Nat.ne_of_lt below)
      rw [labels_removeLabels, sameBody, labels,
        List.count_filter ((forcedBefore target).mpr (.inr targeted))]
      exact List.count_eq_one_of_mem distinct isOffset
    · intro offset remains
      rw [labels_removeLabels, sameBody, labels] at remains
      obtain ⟨isOffset, isForced⟩ := List.mem_filter.mp remains
      rw [targets_removeLabels, sameBody, gotos]
      apply (definition.body.targets_iff offset).mp
      rcases (forcedBefore offset).mp isForced with earlier | targeted
      · exact onlyTargets offset isOffset earlier
      · exact targeted
  · intro name offset
    by_cases same : name = definition.decl.assemblerName
    · subst same
      simp [forcedBefore]
    · have different : ¬ definition.decl.assemblerName = name := fun equal => same equal.symm
      simp [Function.update_of_ne same, different]

theorem translateMethods_spec {definitions : List Definition} {session : Session}
    {translations : List Translation}
    (run : translateMethods definitions session = some translations) {index : Nat}
    {definition : Definition} {translation : Translation}
    (defined : definitions[index]? = some definition)
    (translated : translations[index]? = some translation) :
    Pruned translation ↔
      ∀ offset ∈ definition.body.instructions.map Prod.fst,
        (session.forcedLabel definition.decl.assemblerName offset = true ∨
          ∃ earlier ∈ definitions.take index,
            earlier.decl.assemblerName = definition.decl.assemblerName ∧
              earlier.body.Targets offset) →
          definition.body.Targets offset := by
  induction definitions generalizing session translations index with
  | nil => simp at defined
  | cons first rest ih =>
    obtain ⟨⟨head, session'⟩, step, others⟩ := Option.bind_eq_some_iff.mp run
    obtain ⟨tail, run', result⟩ := Option.bind_eq_some_iff.mp others
    cases result
    obtain ⟨pruned, forced⟩ := translateMethod_spec step
    cases index with
    | zero =>
      cases defined
      cases translated
      simpa using pruned
    | succ index =>
      rw [ih run' defined translated]
      simp only [forced, List.take_succ_cons, List.exists_mem_cons_iff, or_assoc]

/-- In a run over methods, the labels of a method are pruned exactly when no
earlier method of the same mangled name branches to an offset of this one that
this one does not branch to itself. -/
theorem translateMethods_pruned_iff {definitions : List Definition} {nextIndex : Nat}
    {translations : List Translation}
    (run : translateMethods definitions (Session.start nextIndex) = some translations)
    {index : Nat} {definition : Definition} {translation : Translation}
    (defined : definitions[index]? = some definition)
    (translated : translations[index]? = some translation) :
    Pruned translation ↔
      ∀ earlier ∈ definitions.take index,
        earlier.decl.assemblerName = definition.decl.assemblerName →
          ∀ offset ∈ definition.body.instructions.map Prod.fst,
            earlier.body.Targets offset → definition.body.Targets offset := by
  rw [translateMethods_spec run defined translated]
  constructor
  · intro onlyTargets earlier before sameName offset isOffset targeted
    exact onlyTargets offset isOffset (.inr ⟨earlier, before, sameName, targeted⟩)
  · rintro onlyTargets offset isOffset (never | ⟨earlier, before, sameName, targeted⟩)
    · cases never
    · exact onlyTargets earlier before sameName offset isOffset targeted

/-- The stacks of a method merge exactly when its body is verifiable with the
types of the stack variables, unless an earlier method of the same mangled name
has left its stack at an offset of this one. -/
theorem merges_iff_trackedVerifiable (definition : Definition) (session : Session)
    (noStack : definition.body.NoSavedStack (session.labelData definition.decl.assemblerName)) :
    Merges definition.method (scilStartMethodDef definition session) definition.body ↔
      TrackedVerifiable definition.method (session.labelData definition.decl.assemblerName)
        definition.body :=
  ⟨fun merges => merges.trackedVerifiable noStack,
    fun verifiable => verifiable.merges noStack session.nextIndex _⟩

/-- `br` to the next instruction. -/
def branching : Body where
  instructions := [(0, .br 2), (2, .ret)]
  increasing := by decide
  targetsExist := by decide

def branchless : Body where
  instructions := [(0, .nop), (2, .ret)]
  increasing := by decide
  targetsExist := by decide

/-- A definition of a static method of the class `[M]C`. -/
def staticDefinition (name : Name) (body : Body) : Definition where
  decl := staticMangled name
  method := oneLocal
  body := body

/-- A second method `f`, which branches forward to an offset that the first one
has marked. -/
theorem merges_iff_trackedVerifiable_marked :
    ∃ translation session,
      translateMethod (staticDefinition ⟨['f'], by decide⟩ branchless) (Session.start 0) =
        some (translation, session) ∧
      session.labelData (staticMangled ⟨['f'], by decide⟩).assemblerName 2 = .marker ∧
      Merges oneLocal (scilStartMethodDef (staticDefinition ⟨['f'], by decide⟩ branching) session)
        branching := by
  refine ⟨_, _, rfl, rfl, (merges_iff_trackedVerifiable
    (staticDefinition ⟨['f'], by decide⟩ branching) _ ?_).mpr ⟨fun _ => [], ?_, ?_⟩⟩
  · intro entry inBody stack saved
    simp only [staticDefinition, branching, List.mem_cons, List.not_mem_nil, or_false] at inBody
    rcases inBody with rfl | rfl <;> cases saved
  · simp [staticDefinition, branching, Flows, stackEffect, effect, Instr.target?,
      Instr.fallsThrough, oneLocal]
  · simp [staticDefinition, branching, SinglePass, stackEffect, effect, Instr.target?,
      Instr.remaining, oneLocal]

/-- Methods `f` and `g`, of which `f` branches. -/
theorem translateMethods_pruned_iff_distinct :
    ∃ first second,
      translateMethods
          [staticDefinition ⟨['f'], by decide⟩ branching,
            staticDefinition ⟨['g'], by decide⟩ branchless] (Session.start 0) =
        some [first, second] ∧
      Pruned second := by
  obtain ⟨first, second, run⟩ : ∃ first second, translateMethods
      [staticDefinition ⟨['f'], by decide⟩ branching,
        staticDefinition ⟨['g'], by decide⟩ branchless] (Session.start 0) =
      some [first, second] := ⟨_, _, rfl⟩
  have here : [staticDefinition ⟨['f'], by decide⟩ branching,
      staticDefinition ⟨['g'], by decide⟩ branchless][1]? =
        some (staticDefinition ⟨['g'], by decide⟩ branchless) := rfl
  have result : [first, second][1]? = some second := rfl
  refine ⟨first, second, run, (translateMethods_pruned_iff run here result).mpr ?_⟩
  intro earlier before sameName
  obtain rfl := List.mem_singleton.mp before
  exact absurd sameName (by decide)

/-- Two methods `f`, which differ in their return types: the label that the first
one branches to stays in the second one. -/
theorem translateMethods_shared_label :
    ∃ first second,
      translateMethods
          [staticDefinition ⟨['f'], by decide⟩ branching,
            staticDefinition ⟨['f'], by decide⟩ branchless] (Session.start 0) =
        some [first, second] ∧
      2 ∈ second.completed.filterMap Stmt.label? ∧ second.completed.filterMap Stmt.target? = [] ∧
      ¬ Pruned second := by
  have remains : 2 ∈ (removeLabels (Function.update (fun _ => false) 2 true)
      [.label 0, .label 2, .return_ none]).filterMap Stmt.label? := by
    rw [labels_removeLabels]
    decide
  refine ⟨_, _, rfl, remains, rfl, ?_⟩
  intro pruned
  cases pruned.referred 2 remains

end GccCil.Scil
