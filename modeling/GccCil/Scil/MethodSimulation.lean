import GccCil.Scil.InstructionRuns
import GccCil.Scil.NarrowUnsigned
import GccCil.Scil.StatementRuns

/-!
# Whole methods

The statements of a method run as the ECMA-335 machine does.  At every offset the stack of the
machine is in the variables that the translation installs there, whichever way the offset was
reached; a branch arrives at its label with them, and a return has the value that the machine
returns.  This holds for every run whose steps fit the types of the stack variables, and also
after the labels that no branch refers to have been removed.
-/

namespace GccCil.Scil

open GccCil.Lib Relation

theorem trace_append {method : Method} {first second : List (Nat × Instr)}
    {within marked : Nat → Prop} {targeted passed : List Nat} {state : State} {steps : List Step}
    (scanned : Scanned method within marked targeted passed state)
    (inside : ∀ entry ∈ first, within entry.1)
    (traced : trace method (first ++ second) state = some steps) :
    ∃ mid targeted' passed' stepsFirst stepsSecond,
      parseInstructions method first state = some mid ∧
      Scanned method within marked targeted' passed' mid ∧
      trace method second mid = some stepsSecond ∧ steps = stepsFirst ++ stepsSecond := by
  induction first generalizing targeted passed state steps with
  | nil => exact ⟨state, targeted, passed, [], steps, rfl, scanned, traced, rfl⟩
  | cons entry first ih =>
    rcases entry with ⟨offset, instr⟩
    simp only [List.cons_append, trace, Option.bind_eq_bind, Option.bind_eq_some_iff] at traced
    obtain ⟨left, executed, steps', tail, stepsEq⟩ := traced
    have turn := scanned.step (inside (offset, instr) List.mem_cons_self) instr
    rw [executed] at turn
    obtain ⟨outgoing, -, before, next, -, -, -, rfl⟩ := rel_some_left turn
    obtain ⟨mid, targeted', passed', stepsFirst, stepsSecond, parsed, scanned', traced', rfl⟩ :=
      ih (next.leave instr)
        (fun entry later => inside entry (List.mem_cons_of_mem _ later)) tail
    cases stepsEq
    refine ⟨mid, targeted', passed', _, stepsSecond, ?_, scanned', traced',
      (List.cons_append).symm⟩
    simp only [parseInstructions, executed, Option.bind_eq_bind, Option.bind_some, parsed]

/-- The stack with which control leaves an instruction; `br` clears it after the jump. -/
def Instr.outgoing (instr : Instr) (labelled left : List Decl) : List Decl :=
  match instr with
  | .br _ => labelled
  | _ => left

/-- The translation of a body that is verifiable with the types of the stack variables.  It ends
in `final`, and all stacks are made of the variables of `owner`. -/
structure Translated (method : Method) (start : State) (body : Body) (types : Nat → List Ty) where
  final : State
  owner : TypedStacks
  steps : List Step
  parsed : parseInstructions method body.instructions start = some final
  traced : trace method body.instructions start = some steps
  typed : ∀ step ∈ steps, step.installed.map Decl.type = types step.offset
  owned : ∀ step ∈ steps, owner.Owns step.installed ∧ owner.Owns step.outgoing ∧
    stackEffect method step.instr (step.installed.map Decl.type) =
      some (step.outgoing.map Decl.type)
  flows : Flows (stackEffect method) types body.instructions
  empty : start.body = []
  scanned : ∃ marked, Scanned method (· ∈ body.instructions.map Prod.fst) marked [] [] start

theorem exists_translated {method : Method} (nextIndex : Nat) {labelData : Nat → LabelData}
    (forcedLabel : Nat → Bool) {body : Body} (noStack : body.NoSavedStack labelData)
    {types : Nat → List Ty} (flows : Flows (stackEffect method) types body.instructions)
    (singlePass : SinglePass (stackEffect method) (labelData · = .marker) types [] []
      body.instructions) :
    Nonempty (Translated method (startState method nextIndex labelData forcedLabel) body
      types) := by
  have scanned := start_scanned method nextIndex forcedLabel noStack
  obtain ⟨steps, traced, typed⟩ :=
    trace_of_flows scanned body.ahead (noStack.savedTypes types) flows singlePass
  obtain ⟨owner, -, owned⟩ := trace_owned scanned body.ahead.inside traced
  have ends := trace_isSome method body.instructions
    (startState method nextIndex labelData forcedLabel)
  rw [traced, Option.isSome_some] at ends
  obtain ⟨final, parsed⟩ := Option.isSome_iff_exists.mp ends.symm
  exact ⟨⟨final, owner, steps, parsed, traced, typed, owned, flows, rfl, _, scanned⟩⟩

section Simulation

variable {method : Method} {parameters locals : Nat} {start : State} {body : Body}
  {types : Nat → List Ty} {translated : Translated method start body types}
  {first rest : List (Nat × Instr)} {offset : Nat} {instr : Instr}

/-- One turn of the loop: the states around the instruction, and the statements that it and the
later turns emit. -/
structure Turn (translated : Translated method start body types)
    (first : List (Nat × Instr)) (offset : Nat) (instr : Instr) (rest : List (Nat × Instr)) where
  mid : State
  left : State
  own : List Stmt
  later : List Stmt
  split : body.instructions = first ++ (offset, instr) :: rest
  parsed : parseInstructions method first start = some mid
  scanned : ∃ within marked targeted passed,
    Scanned method within marked targeted passed (scilSetLabel offset mid)
  executed : execute method instr (scilSetLabel offset mid) = some left
  isOwn : left.body = (scilSetLabel offset mid).body ++ own
  isLater : translated.final.body = left.body ++ later
  isStep : ⟨offset, instr, (scilSetLabel offset mid).stack.entries,
    instr.outgoing (scilSetLabel offset mid).stack.entries left.stack.entries⟩ ∈ translated.steps

theorem Translated.turn (translated : Translated method start body types)
    (split : body.instructions = first ++ (offset, instr) :: rest) :
    Nonempty (Turn translated first offset instr rest) := by
  have traced := translated.traced
  have parsed := translated.parsed
  obtain ⟨marked, started⟩ := translated.scanned
  have inside : ∀ entry ∈ first ++ (offset, instr) :: rest,
      entry.1 ∈ body.instructions.map Prod.fst := by
    rw [← split]
    exact fun _ => List.mem_map_of_mem
  rw [split] at traced parsed
  obtain ⟨mid, targeted, passed, stepsFirst, stepsSecond, parsedFirst, scanned, traced', isSteps⟩ :=
    trace_append started (fun entry earlier => inside entry (List.mem_append_left _ earlier)) traced
  simp only [trace, Option.bind_eq_bind, Option.bind_eq_some_iff] at traced'
  obtain ⟨left, executed, steps, -, stepsEq⟩ := traced'
  rw [parseInstructions_append, parsedFirst, Option.bind_some] at parsed
  simp only [parseInstructions, executed, Option.bind_eq_bind, Option.bind_some] at parsed
  obtain ⟨⟨own, isOwn, -, -⟩, -⟩ := emitted_execute executed
  obtain ⟨⟨later, isLater, -, -⟩, -⟩ := emitted_parseInstructions parsed
  refine ⟨⟨mid, left, own, later, split, parsedFirst,
    ⟨_, _, _, _, scanned.setLabel (inside (offset, instr) (by simp))⟩, executed, isOwn, isLater,
    ?_⟩⟩
  rw [isSteps]
  refine List.mem_append_right stepsFirst ?_
  cases instr <;> cases stepsEq <;> exact List.mem_cons_self

theorem fromOffset_append {target : Nat} (others : target ∉ first.map Prod.fst) :
    fromOffset target (first ++ (target, instr) :: rest) = some ((target, instr) :: rest) := by
  induction first with
  | nil => simp [fromOffset]
  | cons entry first ih =>
    rw [List.map_cons, List.mem_cons, not_or] at others
    rw [List.cons_append, fromOffset, if_neg (Ne.symm others.1), ih others.2]

namespace Turn

variable (turn : Turn translated first offset instr rest)

abbrev labelled : State := scilSetLabel offset turn.mid

theorem wellFormed : turn.labelled.WellFormed := by
  obtain ⟨_, _, _, _, scanned⟩ := turn.scanned
  exact scanned.wellFormed

theorem size : turn.labelled.size = method.maxStack := by
  obtain ⟨_, _, _, _, scanned⟩ := turn.scanned
  exact scanned.size

theorem typed : turn.labelled.types = types offset := translated.typed _ turn.isStep

theorem effect : stackEffect method instr turn.labelled.types =
    some ((instr.outgoing turn.labelled.stack.entries turn.left.stack.entries).map Decl.type) :=
  (translated.owned _ turn.isStep).2.2

theorem emitted : translated.final.body =
    turn.mid.body ++ .label offset :: (turn.own ++ turn.later) := by
  rw [turn.isLater, turn.isOwn, scilSetLabel_body, List.append_assoc, List.append_assoc]
  rfl

theorem outgoing_eq (fallsThrough : instr.fallsThrough = true) :
    instr.outgoing turn.labelled.stack.entries turn.left.stack.entries =
      turn.left.stack.entries := by
  cases instr <;> first | rfl | cases fallsThrough

end Turn

/-- A site of the machine and a point of the emitted statements.  Before an instruction the stack
is in the variables with the types of its offset. -/
inductive Follows (translated : Translated method start body types) (parameters locals : Nat) :
    Site → Point → Prop
  | before {first rest : List (Nat × Instr)} {activation : Activation} {mid : State}
      {stmts : List Stmt} {memory : Memory} {entries : List Decl}
      (split : body.instructions = first ++ rest)
      (parsed : parseInstructions method first start = some mid)
      (emitted : translated.final.body = mid.body ++ stmts)
      (represents : Represents parameters locals entries memory activation)
      (owns : translated.owner.Owns entries)
      (typed : ∀ entry ∈ rest.head?, entries.map Decl.type = types entry.1) :
      Follows translated parameters locals (.before rest activation) (.before stmts memory)
  | returned {result : Option (BitVec 32)} {activation : Activation} {memory : Memory}
      {entries : List Decl} (represents : Represents parameters locals entries memory activation) :
      Follows translated parameters locals (.returned result activation)
        (.returned (result.map BitVec.toInt) memory)

variable {activation : Activation} {memory : Memory}

namespace Turn

variable (turn : Turn translated first offset instr rest)

theorem jump {target : Nat} (isTarget : instr.target? = some target)
    (represents : Represents parameters locals
      (instr.outgoing turn.labelled.stack.entries turn.left.stack.entries) memory activation) :
    ∃ rest stmts, fromOffset target body.instructions = some rest ∧
      fromLabel target translated.final.body = some stmts ∧
      Follows translated parameters locals (.before rest activation) (.before stmts memory) := by
  have membership : (offset, instr) ∈ body.instructions := by
    rw [turn.split]
    exact List.mem_append_right first List.mem_cons_self
  have typesTarget :=
    translated.flows.of_mem membership (turn.typed ▸ turn.effect) target isTarget
  obtain ⟨⟨label, reached⟩, inBody, rfl⟩ :=
    List.mem_map.mp (body.targetsExist _ membership target isTarget)
  obtain ⟨before, rest, split⟩ := List.append_of_mem inBody
  obtain ⟨arrival⟩ := translated.turn split
  have others : label ∉ before.map Prod.fst := by
    have increasing := body.increasing
    rw [split, List.map_append, List.pairwise_append] at increasing
    intro earlier
    exact lt_irrefl _ (increasing.2.2 _ earlier label (by simp))
  obtain ⟨⟨stmts, emitted, labels, -⟩, -⟩ := emitted_parseInstructions arrival.parsed
  have isBody : arrival.mid.body = stmts := by rw [emitted, translated.empty, List.nil_append]
  refine ⟨_, .label label :: (arrival.own ++ arrival.later), ?_, ?_,
    .before split arrival.parsed arrival.emitted represents
      (translated.owned _ turn.isStep).2.1 ?_⟩
  · rw [split, fromOffset_append others]
  · rw [arrival.emitted, fromLabel_append (by rwa [isBody, labels])]
    exact if_pos rfl
  · rintro entry ⟨⟩
    exact typesTarget.symm

theorem falls (fallsThrough : instr.fallsThrough = true)
    (represents : Represents parameters locals turn.left.stack.entries memory activation) :
    Follows translated parameters locals (.before rest activation)
      (.before turn.later memory) := by
  have isOutgoing := turn.outgoing_eq fallsThrough
  have owns := (translated.owned _ turn.isStep).2.1
  rw [isOutgoing] at owns
  have split : body.instructions = (first ++ [(offset, instr)]) ++ rest := by
    rw [turn.split, List.append_assoc]
    rfl
  refine .before split ?_ turn.isLater represents owns ?_
  · rw [parseInstructions_append, turn.parsed, Option.bind_some, parseInstructions_singleton]
    exact turn.executed
  · intro next isHead
    have adjacent : [(offset, instr), next] <:+: body.instructions := by
      cases rest with
      | nil => cases isHead
      | cons entry rest =>
        cases isHead
        exact ⟨first, rest, by rw [turn.split]; simp⟩
    rw [← isOutgoing]
    exact (translated.flows.of_infix adjacent fallsThrough (turn.typed ▸ turn.effect)).symm

theorem runs (fallsThrough : instr.fallsThrough = true)
    (leaves : Leaves parameters locals turn.labelled turn.left memory activation) :
    ∃ point, Runs translated.final.body (.before (turn.own ++ turn.later) memory) point ∧
      Follows translated parameters locals (.before rest activation) point := by
  obtain ⟨stmts, memory', isOwn, executed, represents⟩ := leaves
  obtain rfl := List.append_cancel_left (turn.isOwn.symm.trans isOwn)
  exact ⟨_, .straight executed, turn.falls fallsThrough represents⟩

theorem branches {target : Nat} (isTarget : instr.target? = some target)
    (fallsThrough : instr.fallsThrough = true)
    (represents : Represents parameters locals turn.left.stack.entries memory activation)
    {condition : Expr} {x : Int} (evaluated : condition.eval memory = some x) {onTrue taken : Bool}
    (decides : decide (x ≠ 0) = onTrue ↔ taken = true) {next : Site}
    (branches : branchOn body.instructions rest taken target activation = some next) :
    ∃ point, (Point.before (.condGoto condition onTrue target :: turn.later) memory).step
        translated.final.body = some point ∧
      Follows translated parameters locals next point := by
  rw [branchOn] at branches
  simp only [Point.step, evaluated, Option.bind_some]
  by_cases isTaken : taken = true
  · rw [if_pos isTaken] at branches
    rw [if_pos (decides.mpr isTaken)]
    obtain ⟨_, stmts, found, label, follows⟩ := turn.jump isTarget
      (by rwa [turn.outgoing_eq fallsThrough])
    rw [found, Option.map_some, Option.some.injEq] at branches
    subst branches
    exact ⟨_, by rw [label, Option.map_some], follows⟩
  · rw [if_neg isTaken] at branches
    rw [if_neg (fun decided => isTaken (decides.mp decided))]
    cases branches
    exact ⟨_, rfl, turn.falls fallsThrough represents⟩

end Turn

theorem room_of_binaryEffect {α : Type} {size : Nat} {result : α → α → Option α}
    {type1 type2 : α} {rest out : List α}
    (defined : binaryEffect size result (type2 :: type1 :: rest) = some out) :
    rest.length < size := by
  obtain ⟨type, -, pushed⟩ := Option.bind_eq_some_iff.mp defined
  rw [pushType] at pushed
  split at pushed
  case isTrue room => exact room
  case isFalse => cases pushed

theorem Represents.room {entries : List Decl} {memory : Memory} {activation : Activation}
    (represents : Represents parameters locals entries memory activation) {x y : BitVec 32}
    {rest : List (BitVec 32)} (stack : activation.machine.stack = y :: x :: rest)
    {result : Ty → Ty → Option Ty} {out : List Ty}
    (defined : binaryEffect method.maxStack result (entries.map Decl.type) = some out) :
    rest.length < method.maxStack := by
  obtain ⟨entry2, below2, -, rfl, -, represents2⟩ := represents.top stack
  obtain ⟨entry1, below1, -, rfl, -, represents1⟩ := represents2.top (x := x) rfl
  have sameLength := represents1.stack.length_eq
  have room := room_of_binaryEffect defined
  rw [List.length_map, sameLength] at room
  exact room

theorem fitsInstr_branch {target : Target} {comparison : Comparison} {label : Nat} {types : List Ty}
    {machine : Machine} :
    FitsInstr target (.branch comparison label) types machine ↔
      FitsInstr target (.compare comparison) types machine := by
  rcases machine with ⟨stack, values⟩
  rcases types with _ | ⟨type, types⟩
  · rfl
  · cases type <;> rcases stack with _ | ⟨y, _ | ⟨x, stack⟩⟩ <;> rfl

theorem condition_of_comparison (holds : Bool) :
    IntType.bool.Holds (if holds then 1 else 0 : BitVec 32).toInt ∧
      (decide ((if holds then 1 else 0 : BitVec 32).toInt ≠ 0) = true ↔ holds = true) := by
  cases holds <;> decide

theorem Turn.follows (turn : Turn translated first offset instr rest)
    (isInt32 : IsInt32Method method parameters locals)
    (represents : Represents parameters locals turn.labelled.stack.entries memory activation)
    (fits : FitsInstr method.target instr turn.labelled.types activation.machine) {next : Site}
    (stepped : (Site.before ((offset, instr) :: rest) activation).step method body.instructions =
      some next) :
    ∃ point, Runs translated.final.body (.before (turn.own ++ turn.later) memory) point ∧
      Follows translated parameters locals next point := by
  have executed := turn.executed
  have owned := turn.isOwn
  cases instr with
  | nop =>
    cases stepped
    have same : turn.labelled = turn.left := Option.some.inj executed
    exact turn.runs rfl ⟨[], memory, by rw [List.append_nil, same], rfl, same ▸ represents⟩
  | ldarg index =>
    simp only [Site.step, Option.bind_eq_bind, Option.bind_eq_some_iff] at stepped
    obtain ⟨x, present, machine, pushed, isNext⟩ := stepped
    cases isNext
    obtain ⟨room, rfl⟩ := Machine.push_eq_some pushed
    have bound : index < parameters := by
      rw [← represents.argumentCount]
      exact (List.getElem?_eq_some_iff.mp present).1
    simp only [execute, isInt32.getElem?_parameters bound] at executed
    exact turn.runs rfl (represents.pushed turn.wellFormed turn.size room present executed)
  | starg index =>
    cases stack : activation.machine.stack with
    | nil => simp [Site.step, stack, Machine.step] at stepped
    | cons x stack' =>
      simp only [Site.step, stack] at stepped
      split at stepped
      case isFalse => cases stepped
      case isTrue bound =>
        cases stepped
        rw [represents.argumentCount] at bound
        simp only [execute, isInt32.getElem?_parameters bound] at executed
        exact turn.runs rfl (represents.starg turn.wellFormed stack executed)
  | br target =>
    simp only [Site.step, branchOn, if_pos] at stepped
    obtain ⟨_, stmts, found, label, follows⟩ := turn.jump rfl represents
    rw [found] at stepped
    cases stepped
    have goto : turn.own = [.goto target] := by
      refine List.append_cancel_left (owned.symm.trans ?_)
      rw [← Option.some.inj executed]
      simp [scilInstrBranch, scilClearStack, scilAppendStmt]
    rw [goto]
    exact ⟨_, .single (by simp [Point.step, label]), follows⟩
  | brtrue target =>
    cases stack : activation.machine.stack with
    | nil => simp [Site.step, stack, Machine.step] at stepped
    | cons x stack' =>
      simp only [Site.step, stack] at stepped
      simp only [FitsInstr, stack] at fits
      obtain ⟨condition, isGoto, value, represents'⟩ := represents.branches stack fits executed
      obtain ⟨point, moves, follows⟩ := turn.branches rfl rfl represents' value
        (decide_eq_true_iff.trans ((toInt_ne_zero_iff x).trans decide_eq_true_iff.symm))
        stepped
      rw [List.append_cancel_left (owned.symm.trans isGoto)]
      exact ⟨point, .single moves, follows⟩
  | brfalse target =>
    cases stack : activation.machine.stack with
    | nil => simp [Site.step, stack, Machine.step] at stepped
    | cons x stack' =>
      simp only [Site.step, stack] at stepped
      simp only [FitsInstr, stack] at fits
      obtain ⟨condition, isGoto, value, represents'⟩ := represents.branches stack fits executed
      obtain ⟨point, moves, follows⟩ := turn.branches rfl rfl represents' value
        (decide_eq_false_iff_not.trans ((not_congr (toInt_ne_zero_iff x)).trans
          (not_not.trans decide_eq_true_iff.symm))) stepped
      rw [List.append_cancel_left (owned.symm.trans isGoto)]
      exact ⟨point, .single moves, follows⟩
  | branch comparison target =>
    rcases stack : activation.machine.stack with _ | ⟨y, _ | ⟨x, stack'⟩⟩
    · simp [Site.step, stack, Machine.step] at stepped
    · simp [Site.step, stack, Machine.step] at stepped
    · simp only [Site.step, stack] at stepped
      obtain ⟨compared, comparing, branching⟩ := Option.bind_eq_some_iff.mp executed
      obtain ⟨_, defined, -⟩ := Option.bind_eq_some_iff.mp turn.effect
      obtain ⟨stmts, memory', isCompared, runs, represents'⟩ :=
        represents.compares turn.wellFormed turn.size stack (represents.room stack defined)
          (fitsInstr_branch.mp fits) comparing
      obtain ⟨isBool, decides⟩ := condition_of_comparison (int32Compare comparison x y)
      obtain ⟨condition, isGoto, value, left'⟩ := represents'.branches rfl isBool branching
      obtain ⟨point, moves, follows⟩ := turn.branches rfl rfl left' value decides stepped
      rw [isCompared, List.append_assoc] at isGoto
      rw [List.append_cancel_left (owned.symm.trans isGoto), List.append_assoc]
      exact ⟨point, (Runs.straight runs).tail moves, follows⟩
  | compare comparison =>
    rcases stack : activation.machine.stack with _ | ⟨y, _ | ⟨x, stack'⟩⟩
    · simp [Site.step, stack, Machine.step] at stepped
    · simp [Site.step, stack, Machine.step] at stepped
    · simp only [Site.step, stack] at stepped
      cases stepped
      exact turn.runs rfl (represents.compares turn.wellFormed turn.size stack
        (represents.room stack turn.effect) fits executed)
  | ret =>
    obtain ⟨nothing, value⟩ := represents.returns turn.wellFormed isInt32.result executed
    simp only [Site.step] at stepped
    split at stepped
    case h_1 isNone isNil =>
      cases stepped
      rw [List.append_cancel_left (owned.symm.trans (nothing isNone isNil))]
      exact ⟨_, .single rfl, .returned represents⟩
    case h_2 result x isSome isSingle =>
      cases stepped
      obtain ⟨expr, isReturn, evaluated⟩ := value result x isSome isSingle
      rw [List.append_cancel_left (owned.symm.trans isReturn)]
      exact ⟨_, .single (by simp [Point.step, evaluated]), .returned represents⟩
    case h_3 => cases stepped
  | _ =>
    simp only [Site.step, Option.map_eq_some_iff] at stepped
    obtain ⟨machine, moves, rfl⟩ := stepped
    exact turn.runs rfl
      (represents.straight turn.wellFormed turn.size isInt32.locals moves fits executed)

theorem Follows.step (isInt32 : IsInt32Method method parameters locals) {site next : Site}
    {point : Point} (follows : Follows translated parameters locals site point)
    (fits : site.Fits method.target types)
    (stepped : site.step method body.instructions = some next) :
    ∃ point', Runs translated.final.body point point' ∧
      Follows translated parameters locals next point' := by
  cases follows with
  | returned represents => cases stepped
  | @before first rest activation mid stmts memory entries split parsed emitted represents owns typed =>
    rcases rest with _ | ⟨⟨offset, instr⟩, rest⟩
    · cases stepped
    obtain ⟨turn⟩ := translated.turn split
    cases parsed.symm.trans turn.parsed
    obtain rfl := owns.eq_of_types (translated.owned _ turn.isStep).1
      ((typed _ rfl).trans turn.typed.symm)
    obtain rfl := List.append_cancel_left (emitted.symm.trans turn.emitted)
    obtain ⟨point', runs, follows⟩ :=
      turn.follows isInt32 represents (turn.typed.symm ▸ fits) stepped
    -- The label runs to nothing.
    exact ⟨point', .head rfl runs, follows⟩

theorem Follows.runs (isInt32 : IsInt32Method method parameters locals) {site next : Site}
    {point : Point} (follows : Follows translated parameters locals site point)
    (runs : FittingRuns method types body.instructions site next) :
    ∃ point', Runs translated.final.body point point' ∧
      Follows translated parameters locals next point' := by
  induction runs with
  | refl => exact ⟨point, .refl, follows⟩
  | tail _ step ih =>
    obtain ⟨mid, runsMid, followsMid⟩ := ih
    obtain ⟨point', runs', follows'⟩ := followsMid.step isInt32 step.1 step.2
    exact ⟨point', runsMid.trans runs', follows'⟩

/-- What a caller sees: the variables of the method, and what it returns. -/
def Shows : Site → Point → Prop
  | .before _ activation, .before _ memory =>
    LocalsAgree memory activation.machine ∧
      ∀ index x, activation.arguments[index]? = some x →
        memory.value (int32Parameter index) = x.toInt
  | .returned result activation, .returned value memory =>
    LocalsAgree memory activation.machine ∧ value = result.map BitVec.toInt
  | .before _ _, .returned _ _ | .returned _ _, .before _ _ => False

theorem Follows.shows {site : Site} {point : Point} {forcedLabel : Nat → Bool}
    (follows : Follows translated parameters locals site point) :
    Shows site (point.pruned forcedLabel) := by
  cases follows with
  | before split parsed emitted represents owns typed =>
    exact ⟨represents.locals, represents.arguments⟩
  | returned represents => exact ⟨represents.locals, rfl⟩

end Simulation

/-- The completed statements of a method follow every run of the machine whose steps fit: they
come to the same branches, leave the same variables and return the same value.  No earlier method
of the same mangled name has left its stack at an offset of this one. -/
theorem translateMethod_simulates (definition : Definition) (session : Session)
    (noStack : definition.body.NoSavedStack (session.labelData definition.decl.assemblerName))
    (parameters locals : Nat) (isInt32 : IsInt32Method definition.method parameters locals)
    (types : Nat → List Ty)
    (flows : Flows (stackEffect definition.method) types definition.body.instructions)
    (singlePass : SinglePass (stackEffect definition.method)
      (session.labelData definition.decl.assemblerName · = .marker) types [] []
      definition.body.instructions)
    (start : Memory) (activation : Activation)
    (represents : Represents parameters locals [] start activation) :
    ∃ translation session',
      translateMethod definition session = some (translation, session') ∧
      ∀ site, FittingRuns definition.method types definition.body.instructions
          (.before definition.body.instructions activation) site →
        ∃ point, Runs translation.completed (.before translation.completed start) point ∧
          Shows site point := by
  obtain ⟨translated⟩ := exists_translated session.nextIndex
    (session.forcedLabel definition.decl.assemblerName) noStack flows singlePass
  refine ⟨_, _, Option.bind_eq_some_iff.mpr ⟨translated.final, translated.parsed, rfl⟩,
    fun site runs => ?_⟩
  have follows : Follows translated parameters locals
      (.before definition.body.instructions activation) (.before translated.final.body start) := by
    refine .before (List.nil_append _).symm rfl rfl represents trivial fun entry isHead => ?_
    cases instructions : definition.body.instructions with
    | nil => simp [instructions] at isHead
    | cons first rest =>
      rw [instructions] at isHead singlePass
      cases isHead
      exact (singlePass.1 (.inl List.not_mem_nil)).symm
  obtain ⟨point, runsTo, follows'⟩ := follows.runs isInt32 runs
  obtain ⟨⟨stmts, body, -, gotos⟩, forced⟩ := emitted_parseInstructions translated.parsed
  have isForced : ∀ target ∈ translated.final.body.filterMap Stmt.target?,
      translated.final.forcedLabel target = true := by
    intro target isTarget
    rw [body, translated.empty, List.nil_append, gotos] at isTarget
    exact (forced target).mpr (.inr isTarget)
  exact ⟨point.pruned translated.final.forcedLabel,
    runsTo.pruned isForced (List.suffix_refl _), follows'.shows⟩

/-- `while (parameter0) ; return parameter0;`. -/
def waiting : Definition where
  decl := Mangle.staticMangled ⟨['f'], by decide⟩
  method := { target := target32, parameters := [int32Parameter 0], locals := []
              result := some { kind := .result, index := 0, type := .int .int32 }, maxStack := 8 }
  body := { instructions := [(0, .ldarg 0), (1, .brtrue 0), (3, .ldarg 0), (4, .ret)]
            increasing := by decide
            targetsExist := by decide }

def waitingTypes (offset : Nat) : List Ty :=
  if offset = 1 ∨ offset = 4 then [.int .int32] else []

theorem translateMethod_simulates_waiting :
    ∃ translation session,
      translateMethod waiting (Session.start 0) = some (translation, session) ∧
      ∀ site, FittingRuns waiting.method waitingTypes waiting.body.instructions
          (.before waiting.body.instructions ⟨[1], [], []⟩) site →
        ∃ point, Runs translation.completed
          (.before translation.completed (zeroMemory.set (int32Parameter 0) 1)) point ∧
          Shows site point := by
  refine translateMethod_simulates waiting (Session.start 0) (fun _ _ _ => nofun) 1 0
    ⟨rfl, rfl, by rintro result ⟨⟩; rfl⟩ waitingTypes ?_ ?_ _ _ ⟨.nil, rfl, nofun, rfl, ?_⟩
  · simp [waiting, Flows, stackEffect, effect, Instr.target?, Instr.fallsThrough, pushType,
      popType, trackedTyping, waitingTypes, stackType, getStack, StackClass.type, int32Parameter]
  · simp [waiting, SinglePass, stackEffect, effect, Instr.target?, Instr.remaining, pushType,
      popType, trackedTyping, waitingTypes, stackType, getStack, StackClass.type, int32Parameter]
  · rintro (_ | index) x present
    · cases present
      rfl
    · simp at present

end GccCil.Scil
