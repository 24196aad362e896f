import GccCil.Scil.StackEffect

/-!
# Merging of stacks at labels

The translation keeps one stack per label: the first branch to a label saves
its stack, `scilSetLabel` installs it, and nothing is merged.  The stacks that
meet at a label agree exactly when the body is verifiable with the types of the
stack variables in place of the ECMA-335 types, where an `int8` and an `int32`
are different.
-/

namespace GccCil.Scil

open GccCil.Lib

def Instr.fallsThrough : Instr → Bool
  | .br _ | .ret => false
  | _ => true

structure Body where
  instructions : List (Nat × Instr)
  increasing : (instructions.map Prod.fst).Pairwise (· < ·)
  targetsExist : ∀ entry ∈ instructions, ∀ target ∈ entry.2.target?,
    target ∈ instructions.map Prod.fst

def Body.Targets (body : Body) (offset : Nat) : Prop :=
  ∃ entry ∈ body.instructions, entry.2.target? = some offset

section Verification

variable {α : Type}

/-- What is left on the stack for the next instruction of the text; after an
unconditional branch the stack is taken to be empty. -/
def Instr.remaining (instr : Instr) (outgoing : List α) : List α :=
  match instr with
  | .br _ => []
  | _ => outgoing

/-- Every path into an offset leaves the types assigned to it. -/
def Flows (effect : Instr → List α → Option (List α)) (types : Nat → List α) :
    List (Nat × Instr) → Prop
  | [] => True
  | (offset, instr) :: rest =>
    (∃ outgoing, effect instr (types offset) = some outgoing ∧
      (∀ target ∈ instr.target?, types target = outgoing) ∧
      (instr.fallsThrough = true → ∀ next ∈ rest.head?, types next.1 = outgoing)) ∧
    Flows effect types rest

/-- The types can be inferred in a single pass over the text: an instruction
that no earlier branch targets has the stack that the text leaves before it, and
so has one whose label is `marked` from the start. -/
def SinglePass (effect : Instr → List α → Option (List α)) (marked : Nat → Prop)
    (types : Nat → List α) : List Nat → List α → List (Nat × Instr) → Prop
  | _, _, [] => True
  | targeted, current, (offset, instr) :: rest =>
    (offset ∉ targeted ∨ marked offset → types offset = current) ∧
    ∀ outgoing, effect instr (types offset) = some outgoing →
      SinglePass effect marked types (instr.target?.toList ++ targeted)
        (instr.remaining outgoing) rest

/-- The offsets can be given stack types that all paths and the single pass
agree on. -/
def Body.Consistent (effect : Instr → List α → Option (List α)) (marked : Nat → Prop)
    (body : Body) : Prop :=
  ∃ types : Nat → List α,
    Flows effect types body.instructions ∧ SinglePass effect marked types [] [] body.instructions

end Verification

/-- The ECMA-335 stack types; native integers count as integers of their size. -/
inductive EcmaType where
  | int32 | int64 | float | address
  | valuetype (id : Nat)
  deriving DecidableEq, Repr

/-- Integers of at most 32 bits are `int32` on the stack. -/
def Ty.ecma : Ty → EcmaType
  | .int .int64 | .int .uint64 => .int64
  | .int _ => .int32
  | .float32 | .float64 => .float
  | .pointer => .address
  | .record id => .valuetype id

def EcmaType.isInteger : EcmaType → Bool
  | .int32 | .int64 => true
  | _ => false

def EcmaType.isNumeric : EcmaType → Bool
  | .int32 | .int64 | .float => true
  | _ => false

/-- The operand tables of partition III for verifiable code. -/
def ecmaTyping : StackTyping EcmaType where
  entry := Ty.ecma
  longConstant _ := .int64
  unary
    | .negate, type => if type.isNumeric then some type else none
    | .bitNot, type => if type.isInteger then some type else none
  operator operator type1 type2 :=
    match operator with
    | .add | .sub | .mul | .div =>
      if type1 = type2 ∧ type1.isNumeric then some type1 else none
    | .divUn | .remUn | .and | .or | .xor =>
      if type1 = type2 ∧ type1.isInteger then some type1 else none
    | .shl | .shr | .shrUn => if type2 = .int32 ∧ type1.isInteger then some type1 else none
  compare _ type1 type2 :=
    if type1 = type2 ∧ (type1.isNumeric ∨ type1 = .address) then some .int32 else none

/-- Every offset is reached with the same ECMA-335 types along every path. -/
def Verifiable (method : Method) (body : Body) : Prop :=
  body.Consistent (effect ecmaTyping method) fun _ => False

/-- The body is verifiable with the types of the stack variables.  A label that
is marked before the translation starts never gets the stack of a branch. -/
def TrackedVerifiable (method : Method) (labelData : Nat → LabelData) (body : Body) : Prop :=
  body.Consistent (stackEffect method) fun offset => labelData offset = .marker

/-- One instruction of the translation: the stack that the code after its
label reads, and the stack with which control leaves it. -/
structure Step where
  offset : Nat
  instr : Instr
  installed : List Decl
  outgoing : List Decl

/-- The loop of `parse_method`, recording the stacks.  `br` clears the stack
after the jump; every other instruction leaves with the stack it ends with. -/
def trace (method : Method) : List (Nat × Instr) → State → Option (List Step)
  | [], _ => some []
  | (offset, instr) :: rest, state => do
      let labelled := scilSetLabel offset state
      let left ← execute method instr labelled
      let outgoing := match instr with
        | .br _ => labelled.stack.entries
        | _ => left.stack.entries
      let steps ← trace method rest left
      return ⟨offset, instr, labelled.stack.entries, outgoing⟩ :: steps

theorem trace_isSome (method : Method) (instructions : List (Nat × Instr)) (state : State) :
    (trace method instructions state).isSome =
      (parseInstructions method instructions state).isSome := by
  induction instructions generalizing state with
  | nil => rfl
  | cons entry rest ih =>
    rcases entry with ⟨offset, instr⟩
    simp only [trace, parseInstructions]
    cases execute method instr (scilSetLabel offset state) with
    | none => rfl
    | some left =>
      simp only [Option.bind_eq_bind, Option.bind_some, ← ih left]
      cases trace method rest left <;> rfl

/-- The stack merging of a method body: it is translated, and every
predecessor of a branch target stored its values in the variables that the
code after the label reads. -/
def Merges (method : Method) (start : State) (body : Body) : Prop :=
  ∃ steps,
    trace method body.instructions start = some steps ∧
    ∀ step ∈ steps, body.Targets step.offset →
      (∀ source ∈ steps, source.instr.target? = some step.offset →
        source.outgoing = step.installed) ∧
      (∀ source, [source, step] <:+: steps → source.instr.fallsThrough = true →
        source.outgoing = step.installed)

/-- The state in which the translation of a method starts.  The labels hold what
earlier methods of the same mangled name have left there, and `nextIndex` counts
the stack variables of the methods before. -/
def startState (method : Method) (nextIndex : Nat) (labelData : Nat → LabelData)
    (forcedLabel : Nat → Bool) : State :=
  { State.initial method.maxStack nextIndex with
    labelData := labelData
    forcedLabel := forcedLabel }

/-- No earlier method has left a stack at an offset of the body. -/
def Body.NoSavedStack (body : Body) (labelData : Nat → LabelData) : Prop :=
  ∀ entry ∈ body.instructions, ∀ stack, labelData entry.1 ≠ .saved stack

/-- The state of the pass after the labels `passed` were set and branches to
the labels `targeted` were seen.  Of the labels `within`, the ones `marked` had
their mark from the start. -/
structure Scanned (method : Method) (within marked : Nat → Prop) (targeted passed : List Nat)
    (state : State) : Prop where
  wellFormed : state.WellFormed
  size : state.size = method.maxStack
  saved : ∀ label, within label → ∀ stack, state.labelData label = .saved stack →
    stack.topIndex = stack.entries.length ∧ state.typedStacks.Owns stack.entries
  null : ∀ label, within label →
    (state.labelData label = .null ↔ label ∉ targeted ∧ label ∉ passed ∧ ¬ marked label)
  marker : ∀ label, within label → state.labelData label = .marker →
    label ∈ passed ∨ marked label
  marked : ∀ label, marked label → state.labelData label = .marker

theorem start_scanned (method : Method) (nextIndex : Nat) {labelData : Nat → LabelData}
    (forcedLabel : Nat → Bool) {body : Body} (noStack : body.NoSavedStack labelData) :
    Scanned method (· ∈ body.instructions.map Prod.fst) (labelData · = .marker) [] []
      (startState method nextIndex labelData forcedLabel) := by
  have unsaved : ∀ label ∈ body.instructions.map Prod.fst, ∀ stack,
      labelData label ≠ .saved stack := by
    intro label isOffset stack
    obtain ⟨entry, inBody, rfl⟩ := List.mem_map.mp isOffset
    exact noStack entry inBody stack
  refine ⟨⟨TypedStacks.initial_wellFormed nextIndex, rfl, trivial⟩, rfl, ?_, ?_,
    fun _ _ => .inr, fun _ => id⟩
  · intro label isOffset stack saved
    exact absurd saved (unsaved label isOffset stack)
  · intro label isOffset
    change labelData label = .null ↔ _
    cases data : labelData label with
    | saved stack => exact absurd data (unsaved label isOffset stack)
    | null => simp
    | marker => simp

@[simp]
theorem leave_typedStacks (instr : Instr) (state : State) :
    (leave instr state).typedStacks = state.typedStacks := by
  cases instr <;> simp [leave, scilClearStack]

@[simp]
theorem leave_size (instr : Instr) (state : State) : (leave instr state).size = state.size := by
  cases instr <;> simp [leave, scilClearStack]

theorem leave_entries (instr : Instr) (state : State) :
    (leave instr state).stack.entries = instr.remaining state.stack.entries := by
  cases instr <;> simp [leave, scilClearStack, Instr.remaining]

theorem leave_topIndex {state : State} (instr : Instr)
    (topIndex : state.stack.topIndex = state.stack.entries.length) :
    (leave instr state).stack.topIndex = (leave instr state).stack.entries.length := by
  cases instr <;> simp [leave, scilClearStack, topIndex]

theorem leave_labelData (instr : Instr) (state : State) (label : Nat) :
    (leave instr state).labelData label =
      if instr.target? = some label ∧ state.labelData label = .null then .saved state.stack
      else state.labelData label := by
  have goto : ∀ target, (instrGoto target state).labelData label =
      if some target = some label ∧ state.labelData label = .null then .saved state.stack
      else state.labelData label := by
    intro target
    rw [instrGoto_labelData]
    by_cases same : label = target
    · simp [same]
    · simp [same, Ne.symm same]
  cases instr with
  | br target => exact goto target
  | brfalse target => exact goto target
  | brtrue target => exact goto target
  | branch comparison target => exact goto target
  | _ => simp [leave, Instr.target?]

section Pass

variable {method : Method} {within marked : Nat → Prop} {targeted passed : List Nat}
  {state : State}

theorem Scanned.setLabel (scanned : Scanned method within marked targeted passed state)
    {offset : Nat} (inside : within offset) :
    Scanned method within marked targeted (offset :: passed) (scilSetLabel offset state) := by
  obtain ⟨⟨typedStacks, topIndex, owns⟩, size, saved, null, marker, marks⟩ := scanned
  have installed : (scilSetLabel offset state).stack.topIndex =
        (scilSetLabel offset state).stack.entries.length ∧
      state.typedStacks.Owns (scilSetLabel offset state).stack.entries := by
    rw [scilSetLabel_stack]
    split
    case h_1 stack data => exact saved offset inside stack data
    case h_2 => exact ⟨topIndex, owns⟩
  refine ⟨⟨by simpa using typedStacks, installed.1, by simpa using installed.2⟩,
    by simpa using size, ?_, ?_, ?_, ?_⟩
  · intro label isOffset stack entry
    rw [scilSetLabel_labelData] at entry
    rw [scilSetLabel_typedStacks]
    split at entry
    case isTrue => contradiction
    case isFalse => exact saved label isOffset stack entry
  · intro label isOffset
    rw [scilSetLabel_labelData, List.mem_cons, not_or]
    split
    case isTrue here => simp [here.1]
    case isFalse elsewhere =>
      rw [null label isOffset]
      refine ⟨fun absent => ⟨absent.1, ⟨?_, absent.2.1⟩, absent.2.2⟩,
        fun absent => ⟨absent.1, absent.2.1.2, absent.2.2⟩⟩
      rintro rfl
      exact elsewhere ⟨rfl, (null _ inside).mpr absent⟩
  · intro label isOffset isMarker
    rw [scilSetLabel_labelData] at isMarker
    split at isMarker
    case isTrue here => simp [here.1]
    case isFalse => exact (marker label isOffset isMarker).imp (List.mem_cons_of_mem _) id
  · intro label isMarked
    rw [scilSetLabel_labelData]
    split
    case isTrue => rfl
    case isFalse => exact marks label isMarked

theorem Scanned.leave (scanned : Scanned method within marked targeted passed state)
    (instr : Instr) :
    Scanned method within marked (instr.target?.toList ++ targeted) passed
      (leave instr state) := by
  obtain ⟨⟨typedStacks, topIndex, owns⟩, size, saved, null, marker, marks⟩ := scanned
  refine ⟨⟨by simpa using typedStacks, leave_topIndex instr topIndex, ?_⟩,
    by simpa using size, ?_, ?_, ?_, ?_⟩
  · rw [leave_entries, leave_typedStacks]
    cases instr <;> first | exact owns | trivial
  · intro label isOffset stack entry
    rw [leave_labelData] at entry
    rw [leave_typedStacks]
    split at entry
    case isTrue =>
      cases entry
      exact ⟨topIndex, owns⟩
    case isFalse => exact saved label isOffset stack entry
  · intro label isOffset
    rw [leave_labelData]
    split
    case isTrue here => simp [here.1]
    case isFalse elsewhere =>
      rw [null label isOffset, List.mem_append, not_or, and_assoc]
      refine ⟨fun absent => ⟨?_, absent⟩, fun absent => absent.2⟩
      intro membership
      refine elsewhere ⟨by simpa [eq_comm] using membership, (null _ isOffset).mpr absent⟩
  · intro label isOffset isMarker
    rw [leave_labelData] at isMarker
    split at isMarker
    case isTrue => contradiction
    case isFalse => exact marker label isOffset isMarker
  · intro label isMarked
    have isMarker := marks label isMarked
    rw [leave_labelData, isMarker]
    simp

/-- One turn of the loop: the instruction is translated exactly when its effect
is defined on the installed types, and `before` is the state at its end. -/
theorem Scanned.step (scanned : Scanned method within marked targeted passed state)
    {offset : Nat} (inside : within offset) (instr : Instr) :
    Option.Rel (fun left outgoing => ∃ before,
        Scanned method within marked targeted (offset :: passed) before ∧
        state.typedStacks.Extends before.typedStacks ∧
        before.labelData = (scilSetLabel offset state).labelData ∧
        before.types = outgoing ∧ left = Scil.leave instr before)
      (execute method instr (scilSetLabel offset state))
      (stackEffect method instr (scilSetLabel offset state).types) := by
  have labelled := scanned.setLabel inside
  have tracks := tracks_self labelled.wellFormed
  rw [labelled.size, scilSetLabel_typedStacks] at tracks
  refine rel_mono (execute_spec instr tracks) ?_
  rintro left outgoing ⟨before, ⟨wellFormed, later, size, labels, types⟩, rfl⟩
  refine ⟨before, ⟨wellFormed, size, ?_, ?_, ?_, ?_⟩, later, labels, types, rfl⟩
  · intro label isOffset stack saved
    obtain ⟨topIndex, owns⟩ := labelled.saved label isOffset stack (labels ▸ saved)
    exact ⟨topIndex, (scilSetLabel_typedStacks offset state ▸ owns).extend later⟩
  · rw [labels]
    exact labelled.null
  · rw [labels]
    exact labelled.marker
  · rw [labels]
    exact labelled.marked

theorem br_entries {target offset : Nat} {before : State}
    (scanned : Scanned method within marked targeted passed state) (inside : within offset)
    (wellFormed : before.WellFormed)
    (later : state.typedStacks.Extends before.typedStacks)
    (effect : stackEffect method (.br target) (scilSetLabel offset state).types =
      some before.types) :
    before.stack.entries = (scilSetLabel offset state).stack.entries := by
  have owns := (scanned.setLabel inside).wellFormed.owns
  rw [scilSetLabel_typedStacks] at owns
  refine wellFormed.owns.eq_of_types (owns.extend later) ?_
  exact (Option.some.inj effect).symm

theorem trace_cons (scanned : Scanned method within marked targeted passed state) {offset : Nat}
    (inside : within offset) {instr : Instr} {rest : List (Nat × Instr)} {steps : List Step}
    (traced : trace method ((offset, instr) :: rest) state = some steps) :
    ∃ before steps', Scanned method within marked targeted (offset :: passed) before ∧
      state.typedStacks.Extends before.typedStacks ∧
      before.labelData = (scilSetLabel offset state).labelData ∧
      stackEffect method instr (scilSetLabel offset state).types = some before.types ∧
      trace method rest (Scil.leave instr before) = some steps' ∧
      steps = ⟨offset, instr, (scilSetLabel offset state).stack.entries,
        before.stack.entries⟩ :: steps' := by
  simp only [trace, Option.bind_eq_bind, Option.bind_eq_some_iff] at traced
  obtain ⟨left, executed, steps', tail, stepsEq⟩ := traced
  have turn := scanned.step inside instr
  rw [executed] at turn
  obtain ⟨outgoing, effect, before, next, later, labels, rfl, rfl⟩ := rel_some_left turn
  refine ⟨before, steps', next, later, labels, effect, tail, ?_⟩
  cases stepsEq
  cases instr with
  | br target =>
    simp only [List.cons.injEq, Step.mk.injEq, true_and, and_true]
    exact (br_entries scanned inside next.wellFormed later effect).symm
  | _ => simp [leave_entries, Instr.remaining]

theorem trace_owned {instructions : List (Nat × Instr)} {steps : List Step}
    (scanned : Scanned method within marked targeted passed state)
    (inside : ∀ entry ∈ instructions, within entry.1)
    (traced : trace method instructions state = some steps) :
    ∃ final : TypedStacks, state.typedStacks.Extends final ∧ ∀ step ∈ steps,
      final.Owns step.installed ∧ final.Owns step.outgoing ∧
      stackEffect method step.instr (step.installed.map Decl.type) =
        some (step.outgoing.map Decl.type) := by
  induction instructions generalizing targeted passed state steps with
  | nil =>
    cases traced
    exact ⟨state.typedStacks, TypedStacks.Extends.refl _, by simp⟩
  | cons entry rest ih =>
    have here := inside entry List.mem_cons_self
    obtain ⟨before, steps', next, later, -, effect, tail, rfl⟩ := trace_cons scanned here traced
    obtain ⟨final, extension, owned⟩ := ih (next.leave entry.2)
      (fun entry inRest => inside entry (List.mem_cons_of_mem _ inRest)) tail
    rw [leave_typedStacks] at extension
    refine ⟨final, later.trans extension, ?_⟩
    intro step membership
    rcases List.mem_cons.mp membership with rfl | inRest
    · have installed := (scanned.setLabel here).wellFormed.owns
      rw [scilSetLabel_typedStacks] at installed
      exact ⟨installed.extend (later.trans extension),
        next.wellFormed.owns.extend extension, effect⟩
    · exact owned step inRest

theorem trace_instructions {instructions : List (Nat × Instr)} {steps : List Step}
    (traced : trace method instructions state = some steps) :
    steps.map (fun step => (step.offset, step.instr)) = instructions := by
  induction instructions generalizing state steps with
  | nil =>
    cases traced
    rfl
  | cons entry rest ih =>
    simp only [trace, Option.bind_eq_bind, Option.bind_eq_some_iff] at traced
    obtain ⟨left, -, steps', tail, stepsEq⟩ := traced
    cases stepsEq
    rw [List.map_cons, ih tail]

/-- An offset that no earlier branch targets, or whose label is `marked`, gets
the stack that the text leaves before it. -/
def Linked (marked : Nat → Prop) : List Nat → List Decl → List Step → Prop
  | _, _, [] => True
  | targeted, current, step :: rest =>
    (step.offset ∉ targeted ∨ marked step.offset → step.installed = current) ∧
    Linked marked (step.instr.target?.toList ++ targeted)
      (step.instr.remaining step.outgoing) rest

structure Ahead (within : Nat → Prop) (passed : List Nat) (instructions : List (Nat × Instr)) :
    Prop where
  increasing : (instructions.map Prod.fst).Pairwise (· < ·)
  inside : ∀ entry ∈ instructions, within entry.1
  fresh : ∀ entry ∈ instructions, entry.1 ∉ passed

theorem Ahead.tail {offset : Nat} {instr : Instr} {rest : List (Nat × Instr)}
    (ahead : Ahead within passed ((offset, instr) :: rest)) :
    Ahead within (offset :: passed) rest := by
  obtain ⟨increasing, inside, fresh⟩ := ahead
  rw [List.map_cons, List.pairwise_cons] at increasing
  refine ⟨increasing.2, fun entry inRest => inside entry (List.mem_cons_of_mem _ inRest), ?_⟩
  intro entry membership inPassed
  rcases List.mem_cons.mp inPassed with same | older
  · have := increasing.1 entry.1 (List.mem_map_of_mem membership)
    omega
  · exact fresh entry (List.mem_cons_of_mem _ membership) older

theorem Scanned.installed (scanned : Scanned method within marked targeted passed state)
    {offset : Nat} (inside : within offset) (fresh : offset ∉ passed) :
    (offset ∈ targeted → ¬ marked offset → ∃ stack, state.labelData offset = .saved stack ∧
      (scilSetLabel offset state).stack = stack) ∧
    (offset ∉ targeted ∨ marked offset → (scilSetLabel offset state).stack = state.stack) := by
  have stackEq := scilSetLabel_stack offset state
  cases data : state.labelData offset with
  | saved stack =>
    rw [data] at stackEq
    refine ⟨fun _ _ => ⟨stack, rfl, stackEq⟩, ?_⟩
    have unmarked : ¬ marked offset := by
      intro isMarked
      have := scanned.marked offset isMarked
      rw [data] at this
      contradiction
    rintro (untargeted | isMarked)
    · have := (scanned.null offset inside).mpr ⟨untargeted, fresh, unmarked⟩
      rw [data] at this
      contradiction
    · exact absurd isMarked unmarked
  | marker =>
    rw [data] at stackEq
    have isMarked := (scanned.marker offset inside data).resolve_left fresh
    exact ⟨fun _ unmarked => absurd isMarked unmarked, fun _ => stackEq⟩
  | null =>
    rw [data] at stackEq
    exact ⟨fun inTargeted => absurd inTargeted ((scanned.null offset inside).mp data).1,
      fun _ => stackEq⟩

theorem trace_linked {instructions : List (Nat × Instr)} {steps : List Step}
    (scanned : Scanned method within marked targeted passed state)
    (ahead : Ahead within passed instructions)
    (traced : trace method instructions state = some steps) :
    Linked marked targeted state.stack.entries steps := by
  induction instructions generalizing targeted passed state steps with
  | nil =>
    cases traced
    trivial
  | cons entry rest ih =>
    have inside := ahead.inside entry List.mem_cons_self
    obtain ⟨before, steps', next, -, -, -, tail, rfl⟩ := trace_cons scanned inside traced
    have linked := ih (next.leave entry.2) ahead.tail tail
    rw [leave_entries] at linked
    refine ⟨fun unsaved => ?_, linked⟩
    have fresh := ahead.fresh entry List.mem_cons_self
    exact congrArg Stack.entries ((scanned.installed inside fresh).2 unsaved)

/-- A consistent typing keeps the translation from crashing, and every
installed stack has the types assigned to its offset. -/
theorem trace_of_flows {types : Nat → List Ty} {instructions : List (Nat × Instr)}
    (scanned : Scanned method within marked targeted passed state)
    (ahead : Ahead within passed instructions)
    (savedTypes : ∀ label, within label → ∀ stack, state.labelData label = .saved stack →
      stack.entries.map Decl.type = types label)
    (flows : Flows (stackEffect method) types instructions)
    (singlePass : SinglePass (stackEffect method) marked types targeted state.types
      instructions) :
    ∃ steps, trace method instructions state = some steps ∧
      ∀ step ∈ steps, step.installed.map Decl.type = types step.offset := by
  induction instructions generalizing targeted passed state with
  | nil => exact ⟨[], rfl, by simp⟩
  | cons entry rest ih =>
    rcases entry with ⟨offset, instr⟩
    obtain ⟨⟨outgoing, effect, toTarget, -⟩, flowsRest⟩ := flows
    have inside := ahead.inside (offset, instr) List.mem_cons_self
    have installed := scanned.installed inside (ahead.fresh (offset, instr) List.mem_cons_self)
    have installedTypes : (scilSetLabel offset state).types = types offset := by
      by_cases unsaved : offset ∉ targeted ∨ marked offset
      · rw [State.types, installed.2 unsaved]
        exact (singlePass.1 unsaved).symm
      · rw [not_or, not_not] at unsaved
        obtain ⟨stack, data, stackEq⟩ := installed.1 unsaved.1 unsaved.2
        rw [State.types, stackEq]
        exact savedTypes offset inside stack data
    have turn := scanned.step inside instr
    rw [installedTypes, effect] at turn
    obtain ⟨left, executed, before, next, -, labels, outgoingTypes, rfl⟩ :=
      rel_some_right turn
    obtain ⟨steps, traced, typed⟩ := ih (next.leave instr) ahead.tail
      (by
        intro label isOffset stack entry
        rw [leave_labelData] at entry
        split at entry
        case isTrue here =>
          cases entry
          exact outgoingTypes.trans (toTarget label here.1).symm
        case isFalse =>
          rw [labels, scilSetLabel_labelData] at entry
          split at entry
          case isTrue => contradiction
          case isFalse => exact savedTypes label isOffset stack entry)
      flowsRest
      (by
        have remaining : (Scil.leave instr before).types = instr.remaining outgoing := by
          rw [State.types, leave_entries, ← outgoingTypes]
          cases instr <;> rfl
        rw [remaining]
        exact singlePass.2 outgoing effect)
    simp only [trace, executed, traced, Option.bind_eq_bind, Option.bind_some, pure,
      Option.some.injEq, exists_eq_left']
    intro step membership
    rcases List.mem_cons.mp membership with rfl | inRest
    · exact installedTypes
    · exact typed step inRest

end Pass

section Typing

variable {α : Type} {effect : Instr → List α → Option (List α)} {types : Nat → List α}

theorem Flows.of_mem {instructions : List (Nat × Instr)}
    (flows : Flows effect types instructions) {offset : Nat} {instr : Instr}
    (membership : (offset, instr) ∈ instructions) {outgoing : List α}
    (outgoingEq : effect instr (types offset) = some outgoing) :
    ∀ target ∈ instr.target?, types target = outgoing := by
  induction instructions with
  | nil => simp at membership
  | cons entry rest ih =>
    rcases List.mem_cons.mp membership with rfl | inRest
    · obtain ⟨⟨outgoing', effectEq, toTarget, -⟩, -⟩ := flows
      obtain rfl := Option.some.inj (effectEq.symm.trans outgoingEq)
      exact toTarget
    · exact ih flows.2 inRest

theorem Flows.of_infix {instructions : List (Nat × Instr)}
    (flows : Flows effect types instructions) {offset : Nat} {instr : Instr}
    {next : Nat × Instr} (adjacent : [(offset, instr), next] <:+: instructions)
    (fallsThrough : instr.fallsThrough = true) {outgoing : List α}
    (outgoingEq : effect instr (types offset) = some outgoing) : types next.1 = outgoing := by
  induction instructions with
  | nil => simp at adjacent
  | cons entry rest ih =>
    rcases List.infix_cons_iff.mp adjacent with here | later
    · obtain ⟨suffix, equality⟩ := here
      obtain ⟨rfl, rfl⟩ := List.cons.inj equality
      obtain ⟨⟨outgoing', effectEq, -, toNext⟩, -⟩ := flows
      obtain rfl := Option.some.inj (effectEq.symm.trans outgoingEq)
      exact toNext fallsThrough next (by simp)
    · exact ih flows.2 later

end Typing

section Converse

variable {method : Method} {marked : Nat → Prop} {types : Nat → List Ty} {steps : List Step}

theorem flows_of_steps
    (effects : ∀ step ∈ steps,
      stackEffect method step.instr (types step.offset) = some (step.outgoing.map Decl.type))
    (toTarget : ∀ step ∈ steps, ∀ target ∈ step.instr.target?,
      types target = step.outgoing.map Decl.type)
    (toNext : ∀ source step, [source, step] <:+: steps → source.instr.fallsThrough = true →
      types step.offset = source.outgoing.map Decl.type) :
    Flows (stackEffect method) types (steps.map fun step => (step.offset, step.instr)) := by
  induction steps with
  | nil => trivial
  | cons step rest ih =>
    refine ⟨⟨_, effects step List.mem_cons_self, toTarget step List.mem_cons_self, ?_⟩, ?_⟩
    · intro fallsThrough next isNext
      cases rest with
      | nil => simp at isNext
      | cons step' rest' =>
        cases isNext
        exact toNext step step' ⟨[], rest', rfl⟩ fallsThrough
    · refine ih (fun step' inRest => effects step' ?_)
        (fun step' inRest => toTarget step' ?_) (fun source step' adjacent => ?_)
      · exact List.mem_cons_of_mem _ inRest
      · exact List.mem_cons_of_mem _ inRest
      · exact toNext source step' (List.infix_cons_iff.mpr (.inr adjacent))

theorem singlePass_of_linked {targeted : List Nat} {current : List Decl}
    (installed : ∀ step ∈ steps, types step.offset = step.installed.map Decl.type)
    (effects : ∀ step ∈ steps,
      stackEffect method step.instr (types step.offset) = some (step.outgoing.map Decl.type))
    (linked : Linked marked targeted current steps) :
    SinglePass (stackEffect method) marked types targeted (current.map Decl.type)
      (steps.map fun step => (step.offset, step.instr)) := by
  induction steps generalizing targeted current with
  | nil => trivial
  | cons step rest ih =>
    refine ⟨fun unsaved => ?_, fun outgoing outgoingEq => ?_⟩
    · rw [installed step List.mem_cons_self, linked.1 unsaved]
    · rw [effects step List.mem_cons_self] at outgoingEq
      cases outgoingEq
      have tail := ih
        (fun step' inRest => installed step' (List.mem_cons_of_mem _ inRest))
        (fun step' inRest => effects step' (List.mem_cons_of_mem _ inRest)) linked.2
      have remaining : (step.instr.remaining step.outgoing).map Decl.type =
          step.instr.remaining (step.outgoing.map Decl.type) := by
        cases step.instr <;> rfl
      rwa [remaining] at tail

theorem Linked.adjacent {targeted : List Nat} {current : List Decl}
    (linked : Linked marked targeted current steps) {source step : Step}
    (pair : [source, step] <:+: steps) :
    step.installed = source.instr.remaining source.outgoing ∨ step.offset ∈ targeted ∨
      ∃ branch ∈ steps, branch.instr.target? = some step.offset := by
  induction steps generalizing targeted current with
  | nil => simp at pair
  | cons first rest ih =>
    rcases List.infix_cons_iff.mp pair with ⟨suffix, equality⟩ | later
    · obtain ⟨rfl, rfl⟩ := List.cons.inj equality
      by_cases inTargeted : step.offset ∈ source.instr.target?.toList ++ targeted
      · rcases List.mem_append.mp inTargeted with own | older
        · exact .inr (.inr ⟨source, List.mem_cons_self, by simpa using own⟩)
        · exact .inr (.inl older)
      · exact .inl (linked.2.1 (.inl inTargeted))
    · rcases ih linked.2 later with handed | inTargeted | ⟨branch, inRest, jump⟩
      · exact .inl handed
      · rcases List.mem_append.mp inTargeted with own | older
        · exact .inr (.inr ⟨first, List.mem_cons_self, by simpa using own⟩)
        · exact .inr (.inl older)
      · exact .inr (.inr ⟨branch, List.mem_cons_of_mem _ inRest, jump⟩)

end Converse

theorem Body.ahead (body : Body) :
    Ahead (· ∈ body.instructions.map Prod.fst) [] body.instructions :=
  ⟨body.increasing, fun _ => List.mem_map_of_mem, by simp⟩

theorem Body.NoSavedStack.savedTypes {body : Body} {labelData : Nat → LabelData}
    (noStack : body.NoSavedStack labelData) (types : Nat → List Ty) :
    ∀ label ∈ body.instructions.map Prod.fst, ∀ stack, labelData label = .saved stack →
      stack.entries.map Decl.type = types label := by
  intro label isOffset stack saved
  obtain ⟨entry, inBody, rfl⟩ := List.mem_map.mp isOffset
  exact absurd saved (noStack entry inBody stack)

theorem TrackedVerifiable.merges {method : Method} {labelData : Nat → LabelData} {body : Body}
    (verifiable : TrackedVerifiable method labelData body)
    (noStack : body.NoSavedStack labelData) (nextIndex : Nat) (forcedLabel : Nat → Bool) :
    Merges method (startState method nextIndex labelData forcedLabel) body := by
  obtain ⟨types, flows, singlePass⟩ := verifiable
  have scanned := start_scanned method nextIndex forcedLabel noStack
  obtain ⟨steps, traced, typed⟩ :=
    trace_of_flows scanned body.ahead (noStack.savedTypes types) flows singlePass
  obtain ⟨final, -, owned⟩ := trace_owned scanned body.ahead.inside traced
  have instructions := trace_instructions traced
  have effects : ∀ step ∈ steps, stackEffect method step.instr (types step.offset) =
      some (step.outgoing.map Decl.type) := by
    intro step membership
    rw [← typed step membership]
    exact (owned step membership).2.2
  refine ⟨steps, traced, fun step membership _ => ⟨?_, ?_⟩⟩
  · intro source inSteps jump
    refine (owned source inSteps).2.1.eq_of_types (owned step membership).1 ?_
    have inBody : (source.offset, source.instr) ∈ body.instructions :=
      instructions ▸ List.mem_map_of_mem inSteps
    rw [typed step membership]
    exact (flows.of_mem inBody (effects source inSteps) step.offset jump).symm
  · intro source adjacent fallsThrough
    have inSteps : source ∈ steps := adjacent.subset (by simp)
    refine (owned source inSteps).2.1.eq_of_types (owned step membership).1 ?_
    have inBody : [(source.offset, source.instr), (step.offset, step.instr)] <:+:
        body.instructions := by
      rw [← instructions]
      exact adjacent.map fun step => (step.offset, step.instr)
    rw [typed step membership]
    exact (flows.of_infix inBody fallsThrough (effects source inSteps)).symm

def installedTypes (steps : List Step) (offset : Nat) : List Ty :=
  match steps.find? (fun step => step.offset = offset) with
  | some step => step.installed.map Decl.type
  | none => []

theorem installedTypes_of_mem {steps : List Step}
    (increasing : (steps.map Step.offset).Pairwise (· < ·)) {step : Step}
    (membership : step ∈ steps) :
    installedTypes steps step.offset = step.installed.map Decl.type := by
  induction steps with
  | nil => simp at membership
  | cons first rest ih =>
    rw [List.map_cons, List.pairwise_cons] at increasing
    rcases List.mem_cons.mp membership with rfl | inRest
    · simp [installedTypes]
    · have later := increasing.1 _ (List.mem_map_of_mem inRest)
      have different : ¬ first.offset = step.offset := by omega
      rw [← ih increasing.2 inRest]
      simp [installedTypes, different]

theorem Merges.trackedVerifiable {method : Method} {labelData : Nat → LabelData} {body : Body}
    {nextIndex : Nat} {forcedLabel : Nat → Bool} (noStack : body.NoSavedStack labelData)
    (merges : Merges method (startState method nextIndex labelData forcedLabel) body) :
    TrackedVerifiable method labelData body := by
  obtain ⟨steps, traced, agree⟩ := merges
  have scanned := start_scanned method nextIndex forcedLabel noStack
  obtain ⟨final, -, owned⟩ := trace_owned scanned body.ahead.inside traced
  have instructions := trace_instructions traced
  have linked := trace_linked scanned body.ahead traced
  have offsets : steps.map Step.offset = body.instructions.map Prod.fst := by
    rw [← instructions, List.map_map]
    rfl
  have installed : ∀ step ∈ steps,
      installedTypes steps step.offset = step.installed.map Decl.type :=
    fun step membership => installedTypes_of_mem (offsets ▸ body.increasing) membership
  have effects : ∀ step ∈ steps,
      stackEffect method step.instr (installedTypes steps step.offset) =
        some (step.outgoing.map Decl.type) := by
    intro step membership
    rw [installed step membership]
    exact (owned step membership).2.2
  have inBody : ∀ step ∈ steps, (step.offset, step.instr) ∈ body.instructions :=
    fun step membership => instructions ▸ List.mem_map_of_mem membership
  refine ⟨installedTypes steps, ?_, ?_⟩
  · rw [← instructions]
    refine flows_of_steps effects ?_ ?_
    · intro source inSteps target jump
      have exists_ := body.targetsExist _ (inBody source inSteps) target jump
      rw [← offsets] at exists_
      obtain ⟨step, membership, rfl⟩ := List.mem_map.mp exists_
      rw [installed step membership,
        (agree step membership ⟨_, inBody source inSteps, jump⟩).1 source inSteps jump]
    · intro source step adjacent fallsThrough
      have membership : step ∈ steps := adjacent.subset (by simp)
      rw [installed step membership]
      rcases linked.adjacent adjacent with handed | impossible | ⟨branch, inSteps, jump⟩
      · rw [handed]
        cases instr : source.instr <;> simp_all [Instr.remaining, Instr.fallsThrough]
      · simp at impossible
      · rw [(agree step membership ⟨_, inBody branch inSteps, jump⟩).2 source adjacent
          fallsThrough]
  · rw [← instructions]
    exact singlePass_of_linked installed effects linked

theorem pushType_eq_some {α : Type} {size : Nat} {type : α} {types pushed : List α}
    (defined : pushType size type types = some pushed) : pushed = type :: types := by
  unfold pushType at defined
  split at defined
  · exact (Option.some.inj defined).symm
  · contradiction

/-- `local0 = local0 != 0 ? 1000 : 1`. -/
def conditionalConstant : Body where
  instructions :=
    [(0, .ldloc 0), (1, .brtrue 6), (3, .ldcI4Short 1), (4, .br 11), (6, .ldcI4 1000),
      (11, .stloc 0), (12, .ret)]
  increasing := by decide
  targetsExist := by decide

/-- `L: local0` is stored from an `int8` variable on one path and from an
`int16` variable on the other. -/
theorem conditionalConstant_not_merges :
    Verifiable oneLocal conditionalConstant ∧
      ¬ Merges oneLocal (State.initial oneLocal.maxStack 0) conditionalConstant := by
  constructor
  · refine ⟨fun offset => if offset = 1 ∨ offset = 4 ∨ offset = 11 then [.int32] else [],
      ?_, ?_⟩
    · simp [conditionalConstant, Flows, effect, oneLocal, Instr.target?, Instr.fallsThrough,
        pushType, popType, ecmaTyping, Ty.ecma, ldcI4Type]
    · simp [conditionalConstant, SinglePass, effect, oneLocal, Instr.target?, Instr.remaining,
        pushType, popType, ecmaTyping, Ty.ecma, ldcI4Type]
  · intro merges
    have noStack : conditionalConstant.NoSavedStack fun _ => .null := by
      intro entry inBody stack saved
      cases saved
    have started : Merges oneLocal (startState oneLocal 0 (fun _ => .null) fun _ => false)
      conditionalConstant := merges
    obtain ⟨types, flows, -⟩ := started.trackedVerifiable noStack
    obtain ⟨-, -, ⟨narrow, narrowPushed, -, narrowNext⟩, ⟨jumped, jump, toLabel, -⟩,
      ⟨wide, widePushed, -, wideNext⟩, -⟩ := flows
    have narrowTop : narrow = .int .int8 :: types 3 := pushType_eq_some narrowPushed
    have wideTop : wide = .int .int16 :: types 6 := pushType_eq_some widePushed
    have atJump : types 4 = narrow := narrowNext rfl (4, .br 11) rfl
    have fromJump : types 11 = jumped := toLabel 11 rfl
    have fromText : types 11 = wide := wideNext rfl (11, .stloc 0) rfl
    have unchanged : types 4 = jumped := Option.some.inj jump
    rw [← atJump, unchanged, ← fromJump, fromText, wideTop] at narrowTop
    simp at narrowTop

end GccCil.Scil
