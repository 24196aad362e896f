import Mathlib.Data.Nat.Digits.Lemmas
import Mathlib.Data.List.Count
import GccCil.Cil.SwitchTranslation

/-!
# Branch labels of the gcc/cil front end

A branch refers to the label named after its destination.  The scan places that
label when it comes to the destination, provided that the compile-time stack is
empty there.  This stack is the one of a walk from the first byte to the last,
whatever path the program takes; its height is computed here from the list of
instructions.
-/

namespace GccCil.Cil.BodyScan

def upperHexValue (char : Char) : Nat :=
  if char.toNat < 58 then char.toNat - 48 else char.toNat - 55

theorem upperHexValue_digit : ∀ digit < 16, upperHexValue (upperHexDigit digit) = digit := by
  decide

theorem map_upperHexDigit (digits : List Nat) (small : ∀ digit ∈ digits, digit < 16) :
    (digits.map upperHexDigit).map upperHexValue = digits := by
  induction digits with
  | nil => rfl
  | cons digit rest ih =>
    rw [List.map_cons, List.map_cons, upperHexValue_digit digit (small digit (by simp)),
      ih fun other listed => small other (by simp [listed])]

theorem ofDigits_formatHex (value : Nat) :
    Nat.ofDigits 16 ((formatHex value).reverse.map upperHexValue) = value := by
  unfold formatHex
  dsimp only
  rw [List.reverse_reverse, map_upperHexDigit, Nat.ofDigits_append_replicate_zero,
    Nat.ofDigits_digits]
  intro digit listed
  rcases List.mem_append.mp listed with inDigits | padding
  · exact Nat.digits_lt_base (by decide) inDigits
  · rw [List.eq_of_mem_replicate padding]
    decide

theorem formatHex_injective : Function.Injective formatHex := by
  intro first second equal
  rw [← ofDigits_formatHex first, equal, ofDigits_formatHex]

def labelNameAt (offset : Nat) : Identifier := 'L' :: '_' :: formatHex offset

theorem labelNameAt_injective : Function.Injective labelNameAt := by
  intro first second equal
  exact formatHex_injective (by simpa [labelNameAt] using equal)

theorem getLabelName_eq {w : Nat} (offset : BitVec w) :
    getLabelName offset = labelNameAt offset.toNat := rfl

section

variable {Node : Type} {w : Nat}

def Stmt.placed : Stmt Node → Option LabelDecl
  | .labelExpr label => some label
  | _ => none

/-- The label that a `GOTO_EXPR` of the statement refers to. -/
def Stmt.gotoLabels : Stmt Node → List LabelDecl
  | .gotoExpr label => [label]
  | .condExpr _ whenTrue whenFalse => whenTrue.toList ++ whenFalse.toList
  | _ => []

/-- The labels of `state` are known to `after` under the same names. -/
def KeepsLabels (state after : ParseState Node) : Prop :=
  ∀ name decl, state.labelDecl name = some decl → after.labelDecl name = some decl

/-- From `state` to `after` the body has grown by statements that place the
labels `labels` and go to the labels `gotos`. -/
structure Adds (state after : ParseState Node) (labels gotos : List Identifier) : Prop where
  keeps : KeepsLabels state after
  body : ∃ added, after.body = state.body ++ added ∧
    (added.filterMap Stmt.placed).map some = labels.map after.labelDecl ∧
    (added.flatMap Stmt.gotoLabels).map some = gotos.map after.labelDecl

theorem KeepsLabels.map {state after : ParseState Node} (keeps : KeepsLabels state after)
    {decls : List LabelDecl} {names : List Identifier}
    (declared : decls.map some = names.map state.labelDecl) :
    decls.map some = names.map after.labelDecl := by
  rw [declared]
  apply List.map_congr_left
  intro name listed
  have isDeclared : state.labelDecl name ∈ decls.map some := by
    rw [declared]
    exact List.mem_map_of_mem listed
  obtain ⟨decl, _, equal⟩ := List.mem_map.mp isDeclared
  rw [← equal, keeps name decl equal.symm]

theorem Adds.refl (state : ParseState Node) : Adds state state [] [] :=
  ⟨fun _ _ declared => declared, [], by simp, rfl, rfl⟩

theorem Adds.trans {state middle after : ParseState Node}
    {labels gotos labels' gotos' : List Identifier} (first : Adds state middle labels gotos)
    (second : Adds middle after labels' gotos') :
    Adds state after (labels ++ labels') (gotos ++ gotos') := by
  obtain ⟨keeps, added, body, labelsEq, gotosEq⟩ := first
  obtain ⟨keeps', added', body', labelsEq', gotosEq'⟩ := second
  refine ⟨fun name decl declared => keeps' name decl (keeps name decl declared),
    added ++ added', ?_, ?_, ?_⟩
  · rw [body', body, List.append_assoc]
  · rw [List.filterMap_append, List.map_append, List.map_append, labelsEq',
      keeps'.map labelsEq]
  · rw [List.flatMap_append, List.map_append, List.map_append, gotosEq',
      keeps'.map gotosEq]

theorem Adds.of_eq {state after : ParseState Node} (body : after.body = state.body)
    (labelDecl : after.labelDecl = state.labelDecl) : Adds state after [] [] :=
  ⟨fun name decl declared => by rw [labelDecl, declared], [], by simp [body], rfl, rfl⟩

theorem Adds.append_trees (state : ParseState Node) (stack : List (Option Node))
    (trees : List Node) :
    Adds state { state with stack := stack, body := state.body ++ trees.map .tree } [] [] := by
  refine ⟨fun _ _ declared => declared, trees.map .tree, rfl, ?_, ?_⟩
  · simp [List.filterMap_map, Function.comp_def, Stmt.placed]
  · simp [List.flatMap_map, Stmt.gotoLabels]

theorem lookupLabel_spec (labelName : Identifier) (state : ParseState Node) :
    (lookupLabel labelName state).2.labelDecl labelName =
        some (lookupLabel labelName state).1 ∧
      KeepsLabels state (lookupLabel labelName state).2 ∧
      (lookupLabel labelName state).2.body = state.body ∧
      (lookupLabel labelName state).2.stack = state.stack := by
  unfold lookupLabel
  cases found : state.labelDecl labelName with
  | some decl => exact ⟨found, fun _ _ declared => declared, rfl, rfl⟩
  | none =>
    refine ⟨by simp, ?_, rfl, rfl⟩
    intro name decl declared
    dsimp only
    rw [if_neg, declared]
    rintro rfl
    rw [found] at declared
    cases declared

def LabelsNamed (state : ParseState Node) : Prop :=
  ∀ name decl, state.labelDecl name = some decl → decl.name = some name

theorem lookupLabel_named {state : ParseState Node} (named : LabelsNamed state)
    (labelName : Identifier) : LabelsNamed (lookupLabel labelName state).2 := by
  unfold lookupLabel
  cases found : state.labelDecl labelName with
  | some decl => exact named
  | none =>
    intro name decl declared
    dsimp only at declared
    split at declared
    · rename_i same
      cases declared
      rw [same]
    · exact named name decl declared

theorem makeLabel_stack (labelName : Identifier) (state : ParseState Node) :
    (makeLabel labelName state).stack = state.stack := by
  unfold makeLabel
  split
  · exact (lookupLabel_spec labelName state).2.2.2
  · rfl

theorem makeLabel_adds (labelName : Identifier) (state : ParseState Node) :
    Adds state (makeLabel labelName state)
      (if state.stack.length = 0 then [labelName] else []) [] := by
  unfold makeLabel
  split
  · obtain ⟨declared, keeps, body, _⟩ := lookupLabel_spec labelName state
    refine ⟨keeps, [.labelExpr (lookupLabel labelName state).1], ?_, ?_, rfl⟩
    · simp [appendStmt, body]
    · simp [Stmt.placed, appendStmt, declared]
  · exact .refl state

theorem makeLabel_named {state : ParseState Node} (named : LabelsNamed state)
    (labelName : Identifier) : LabelsNamed (makeLabel labelName state) := by
  unfold makeLabel
  split
  · exact lookupLabel_named named labelName
  · exact named

theorem Adds.goto (labelName : Identifier) (state : ParseState Node) {after : ParseState Node}
    (stmt : Stmt Node) (goesTo : stmt.gotoLabels = [(lookupLabel labelName state).1])
    (placesNone : stmt.placed = none) (body : after.body = state.body ++ [stmt])
    (labelDecl : after.labelDecl = (lookupLabel labelName state).2.labelDecl) :
    Adds state after [] [labelName] := by
  obtain ⟨declared, keeps, _, _⟩ := lookupLabel_spec labelName state
  refine ⟨fun name decl known => ?_, [stmt], body, ?_, ?_⟩
  · rw [labelDecl]
    exact keeps name decl known
  · simp [placesNone]
  · simp [goesTo, labelDecl, declared]

theorem stackPop_stack {convertItem : Node → Option Node} {state after : ParseState Node}
    {node : Option Node} (pop : stackPop convertItem state = some (node, after)) :
    after.stack = state.stack.tail := by
  unfold stackPop at pop
  split at pop
  · rename_i empty
    cases pop
    rw [empty]
    rfl
  · rename_i rest stack
    cases pop
    rw [stack]
    rfl
  · rename_i stack
    obtain ⟨node, _, equal⟩ := Option.map_eq_some_iff.mp pop
    cases equal
    rw [stack]
    rfl

variable (frontEnd : FrontEnd Node)

/-- The height of the compile-time stack after an instruction that the scan
found at the height `height`. -/
def heightAfter (operand : Bytes) (operation : Operation) (height : Nat) : Nat :=
  match operation with
  | .br _ | .conv _ => height
  | .brfalse _ | .brtrue _ | .switch => height - 1
  | .branchComparison .. => height - 2
  | operation =>
    match stackUse frontEnd operand operation with
    | some use => height - use.pops + use.pushes
    | none => height

/-- Whether a branch has its short form; `none` for other instructions. -/
def Operation.branchForm : Operation → Option Bool
  | .br short | .brfalse short | .brtrue short | .branchComparison short _ _ => some short
  | _ => none

variable {frontEnd}

structure Translated (frontEnd : FrontEnd Node) (operation : Operation) (operand : Bytes)
    (state after : ParseState Node) (gotos : List Identifier) : Prop where
  height : after.stack.length = heightAfter frontEnd operand operation state.stack.length
  adds : Adds state after [] gotos
  named : LabelsNamed state → LabelsNamed after

theorem makeBranchUnconditional_translated (short : Bool) (operand : Bytes)
    (labelName : Identifier) (state : ParseState Node) :
    Translated frontEnd (.br short) operand state (makeBranchUnconditional labelName state)
      [labelName] := by
  obtain ⟨_, _, body, stack⟩ := lookupLabel_spec labelName state
  refine ⟨?_, .goto labelName state (.gotoExpr (lookupLabel labelName state).1) rfl rfl ?_ rfl,
    fun named => lookupLabel_named named labelName⟩
  · simp [makeBranchUnconditional, appendStmt, stack, heightAfter]
  · simp [makeBranchUnconditional, appendStmt, body]

theorem popBranch_translated {operation : Operation} {operand : Bytes} {labelName : Identifier}
    {state popped : ParseState Node} {cond : Option Node} {stmt : Stmt Node}
    {convertItem : Node → Option Node}
    (pops : ∀ height, heightAfter frontEnd operand operation height = height - 1)
    (pop : stackPop convertItem (lookupLabel labelName state).2 = some (cond, popped))
    (goesTo : stmt.gotoLabels = [(lookupLabel labelName state).1]) (placesNone : stmt.placed = none) :
    Translated frontEnd operation operand state (appendStmt stmt popped) [labelName] := by
  obtain ⟨_, _, body, stack⟩ := lookupLabel_spec labelName state
  obtain ⟨sameBody, sameLabels, _⟩ := stackPop_frame pop
  refine ⟨?_, .goto labelName state stmt goesTo placesNone ?_ sameLabels, ?_⟩
  · rw [pops, appendStmt, stackPop_stack pop, stack, List.length_tail]
  · rw [appendStmt, sameBody, body]
  · intro named name decl declared
    rw [appendStmt, sameLabels] at declared
    exact lookupLabel_named named labelName name decl declared

theorem makeBranchOnTrue_translated {short : Bool} {operand : Bytes} {labelName : Identifier}
    {state after : ParseState Node}
    (made : makeBranchOnTrue frontEnd labelName state = some after) :
    Translated frontEnd (.brtrue short) operand state after [labelName] := by
  simp only [makeBranchOnTrue, Option.bind_eq_bind, Option.bind_eq_some_iff, Option.pure_def,
    Option.some.injEq, Prod.exists] at made
  obtain ⟨cond, popped, pop, rfl⟩ := made
  exact popBranch_translated (fun _ => rfl) pop rfl rfl

theorem makeBranchOnFalse_translated {short : Bool} {operand : Bytes} {labelName : Identifier}
    {state after : ParseState Node}
    (made : makeBranchOnFalse frontEnd labelName state = some after) :
    Translated frontEnd (.brfalse short) operand state after [labelName] := by
  simp only [makeBranchOnFalse, Option.bind_eq_bind, Option.bind_eq_some_iff, Option.pure_def,
    Option.some.injEq, Prod.exists] at made
  obtain ⟨cond, popped, pop, rfl⟩ := made
  exact popBranch_translated (fun _ => rfl) pop rfl rfl

theorem makeBranchComparison_translated {short unsignedp : Bool} {condition : Comparison}
    {operand : Bytes} {labelName : Identifier} {state after : ParseState Node}
    (made : makeBranchComparison frontEnd condition labelName unsignedp state = some after) :
    Translated frontEnd (.branchComparison short condition unsignedp) operand state after
      [labelName] := by
  simp only [makeBranchComparison, Option.bind_eq_bind, Option.bind_eq_some_iff, Option.pure_def,
    Option.some.injEq, Prod.exists] at made
  obtain ⟨op2, second, popSecond, op1, first, popFirst, _, _, _, _, tree, _, rfl⟩ := made
  obtain ⟨bodySecond, labelsSecond, _⟩ := stackPop_frame popSecond
  obtain ⟨bodyFirst, labelsFirst, _⟩ := stackPop_frame popFirst
  obtain ⟨_, _, body, stack⟩ := lookupLabel_spec labelName first
  have labels : first.labelDecl = state.labelDecl := labelsFirst.trans labelsSecond
  refine ⟨?_, ?_, ?_⟩
  · rw [appendStmt, stack, stackPop_stack popFirst, stackPop_stack popSecond, List.length_tail,
      List.length_tail]
    rfl
  · exact Adds.trans (.of_eq (bodyFirst.trans bodySecond) labels)
      (.goto labelName first (.condExpr (some tree) (some (lookupLabel labelName first).1) none)
        rfl rfl (by rw [appendStmt, body]) rfl)
  · intro named
    apply lookupLabel_named
    intro name decl declared
    rw [labels] at declared
    exact named name decl declared

theorem makeInstrSwitch_translated {operand : Bytes} {labelNames : Chain}
    {state after : ParseState Node}
    (made : makeInstrSwitch frontEnd labelNames state = some after) :
    Translated frontEnd .switch operand state after [] := by
  simp only [makeInstrSwitch, Option.bind_eq_bind, Option.bind_eq_some_iff, Prod.exists] at made
  obtain ⟨selector, popped, pop, cases, uid, _, built⟩ := made
  obtain ⟨body, labels, _⟩ := stackPop_frame pop
  split at built
  · cases built
  · cases built
    refine ⟨?_, ⟨?_, [.switchExpr selector none (some cases) none], ?_, rfl, rfl⟩, ?_⟩
    · rw [appendStmt, stackPop_stack pop, List.length_tail]
      rfl
    · intro name decl declared
      rw [appendStmt, labels, declared]
    · rw [appendStmt, body]
    · intro named name decl declared
      rw [appendStmt, labels] at declared
      exact named name decl declared

theorem stackConvertTopItem_translated {type : ConvType} {operand : Bytes}
    {state after : ParseState Node}
    (made : stackConvertTopItem frontEnd (.conv type) operand state = some after) :
    Translated frontEnd (.conv type) operand state after [] := by
  unfold stackConvertTopItem at made
  split at made
  · cases made
    exact ⟨rfl, .refl _, id⟩
  · rename_i stack
    split at made
    · cases made
      exact ⟨by rw [stack]; rfl, .of_eq rfl rfl, id⟩
    · cases made

theorem heightAfter_of_stackUse {operand : Bytes} {operation : Operation} {use : StackUse}
    (used : stackUse frontEnd operand operation = some use) (height : Nat) :
    heightAfter frontEnd operand operation height = height - use.pops + use.pushes := by
  cases operation with
  | br => cases used
  | brfalse => cases used
  | brtrue => cases used
  | branchComparison => cases used
  | switch => cases used
  | conv => cases used
  | _ => simp only [heightAfter, used]

theorem translateTrees_translated {operation : Operation} {operand : Bytes}
    {state after : ParseState Node}
    (made : translateTrees frontEnd operation operand state = some after) :
    Translated frontEnd operation operand state after [] := by
  simp only [translateTrees, Option.bind_eq_bind, Option.bind_eq_some_iff] at made
  obtain ⟨use, used, built⟩ := made
  split at built
  · cases built
  · cases built
    refine ⟨?_, .append_trees _ _ _, id⟩
    rw [heightAfter_of_stackUse used]
    simp only [List.length_append, List.length_map, List.length_range, List.length_drop]
    omega

def argLabels (operation : Operation) (arg : Option InstrArg) : List Identifier :=
  match operation.branchForm with
  | some _ => (arg.bind InstrArg.toLabelName).toList
  | none => []

/-- The step lemma: an instruction changes the height as its stack use says,
places no label, and goes to the label of its operand. -/
theorem translate_translated {operation : Operation} {operand : Bytes} {arg : Option InstrArg}
    {state after : ParseState Node}
    (made : translate frontEnd operation operand arg state = some after) :
    Translated frontEnd operation operand state after (argLabels operation arg) := by
  cases operation with
  | br short =>
    simp only [translate, Option.bind_eq_bind, Option.bind_eq_some_iff, Option.pure_def,
      Option.some.injEq] at made
    obtain ⟨value, rfl, labelName, name, rfl⟩ := made
    simp only [argLabels, Operation.branchForm, Option.bind_some, name, Option.toList_some]
    exact makeBranchUnconditional_translated short operand labelName state
  | brfalse short =>
    simp only [translate, Option.bind_eq_bind, Option.bind_eq_some_iff] at made
    obtain ⟨value, rfl, labelName, name, made⟩ := made
    simp only [argLabels, Operation.branchForm, Option.bind_some, name, Option.toList_some]
    exact makeBranchOnFalse_translated made
  | brtrue short =>
    simp only [translate, Option.bind_eq_bind, Option.bind_eq_some_iff] at made
    obtain ⟨value, rfl, labelName, name, made⟩ := made
    simp only [argLabels, Operation.branchForm, Option.bind_some, name, Option.toList_some]
    exact makeBranchOnTrue_translated made
  | branchComparison short condition unsignedp =>
    simp only [translate, Option.bind_eq_bind, Option.bind_eq_some_iff] at made
    obtain ⟨value, rfl, labelName, name, made⟩ := made
    simp only [argLabels, Operation.branchForm, Option.bind_some, name, Option.toList_some]
    exact makeBranchComparison_translated made
  | switch =>
    simp only [translate, Option.bind_eq_bind, Option.bind_eq_some_iff] at made
    obtain ⟨_, _, _, _, made⟩ := made
    exact makeInstrSwitch_translated made
  | conv type => exact stackConvertTopItem_translated made
  | ldc form =>
    simp only [translate, Option.bind_eq_bind, Option.bind_eq_some_iff] at made
    obtain ⟨_, _, made⟩ := made
    exact translateTrees_translated made
  | _ => exact translateTrees_translated made

def operandAt (code : Bytes) : Bytes :=
  if code 0 = 0xFE then (code.advance 1).advance 1 else code.advance 1

/-- The destination of a branch as `parse_instr_arg` computes it. -/
def branchDest (code : Bytes) (offset : BitVec w) (short : Bool) : BitVec w :=
  if short then offset + 2 + (code 1).signExtend w
  else offset + 5 + (ilReadUint32 (code.advance 1)).setWidth w

def FrontEnd.EcmaBranches (frontEnd : FrontEnd Node) : Prop :=
  ∀ opcode operation short, mainOperation opcode = some operation →
    operation.branchForm = some short →
      (frontEnd.ilMainOpcodeTable opcode).args = if short then .shortJump else .longJump

def branchNames (code : Bytes) (offset : BitVec w) (operation : Operation) : List Identifier :=
  match operation.branchForm with
  | some short => [getLabelName (branchDest code offset short)]
  | none => []

/-- The body is the sequence `instrs` of whole instructions from `offset` on. -/
inductive Layout (code : Bytes) (codeLen : Nat) : Nat → List (Nat × Operation) → Prop where
  | done : Layout code codeLen codeLen []
  | instr {offset operation rest} :
      operationAt (code.advance offset) = some operation →
      Layout code codeLen (offset + instrSize (code.advance offset) operation) rest →
      Layout code codeLen offset ((offset, operation) :: rest)

/-- The offsets of the instructions with the height of the compile-time stack
when the scan comes there. -/
def heights (frontEnd : FrontEnd Node) (code : Bytes) :
    Nat → List (Nat × Operation) → List (Nat × Nat)
  | _, [] => []
  | height, (offset, operation) :: rest =>
    (offset, height) ::
      heights frontEnd code
        (heightAfter frontEnd (operandAt (code.advance offset)) operation height) rest

def placedNames (places : List (Nat × Nat)) : List Identifier :=
  (places.filter fun place => place.2 = 0).map fun place => labelNameAt place.1

theorem placedNames_cons (offset height : Nat) (rest : List (Nat × Nat)) :
    placedNames ((offset, height) :: rest) =
      (if height = 0 then [labelNameAt offset] else []) ++ placedNames rest := by
  unfold placedNames
  rw [List.filter_cons]
  by_cases empty : height = 0 <;> simp [empty]

theorem mem_placedNames {offset : Nat} {places : List (Nat × Nat)} :
    labelNameAt offset ∈ placedNames places ↔ (offset, 0) ∈ places := by
  unfold placedNames
  constructor
  · intro listed
    obtain ⟨⟨offset', height⟩, kept, equal⟩ := List.mem_map.mp listed
    obtain ⟨place, empty⟩ := List.mem_filter.mp kept
    have same := labelNameAt_injective equal
    simp only [decide_eq_true_eq] at empty same
    rw [← same, ← empty]
    exact place
  · intro place
    exact List.mem_map.mpr ⟨(offset, 0), List.mem_filter.mpr ⟨place, by simp⟩, rfl⟩

theorem instrSize_pos (code : Bytes) (operation : Operation) : 0 < instrSize code operation := by
  by_cases isSwitch : operation = .switch
  · subst isSwitch
    exact Nat.succ_pos _
  · rw [instrSize_of_ne code isSwitch]
    exact operation.ecmaSize_pos isSwitch

theorem Layout.le {code : Bytes} {codeLen offset : Nat} {instrs : List (Nat × Operation)}
    (layout : Layout code codeLen offset instrs) : offset ≤ codeLen := by
  induction layout with
  | done => exact le_rfl
  | instr _ _ ih => omega

theorem Layout.mem_le {code : Bytes} {codeLen offset : Nat} {instrs : List (Nat × Operation)}
    (layout : Layout code codeLen offset instrs) {instr : Nat × Operation}
    (listed : instr ∈ instrs) : instr.1 + instrSize (code.advance instr.1) instr.2 ≤ codeLen := by
  induction layout with
  | done => cases listed
  | instr found tail ih =>
    rcases List.mem_cons.mp listed with rfl | later
    · exact tail.le
    · exact ih later

theorem Layout.offset_le {code : Bytes} {codeLen offset : Nat} {instrs : List (Nat × Operation)}
    (layout : Layout code codeLen offset instrs) (height : Nat) {place : Nat × Nat}
    (listed : place ∈ heights frontEnd code height instrs) :
    offset ≤ place.1 ∧ place.1 < codeLen := by
  induction layout generalizing height with
  | done => cases listed
  | @instr offset operation rest found tail ih =>
    have positive := instrSize_pos (code.advance offset) operation
    have bound := tail.le
    rcases List.mem_cons.mp listed with rfl | later
    · dsimp only
      omega
    · have := ih _ later
      omega

theorem Layout.nodup_placedNames {code : Bytes} {codeLen offset : Nat}
    {instrs : List (Nat × Operation)} (layout : Layout code codeLen offset instrs) (height : Nat) :
    (placedNames (heights frontEnd code height instrs)).Nodup := by
  induction layout generalizing height with
  | done => exact List.nodup_nil
  | @instr offset operation rest found tail ih =>
    have later := ih
      (heightAfter frontEnd (operandAt (code.advance offset)) operation height)
    rw [heights, placedNames_cons]
    split
    · rw [List.singleton_append, List.nodup_cons, mem_placedNames]
      refine ⟨?_, later⟩
      intro again
      have bound := tail.offset_le _ again
      have positive := instrSize_pos (code.advance offset) operation
      dsimp only at bound
      omega
    · exact later

theorem mem_of_lookup {entries : List (Nat × Operation)} {key : Nat} {operation : Operation}
    (found : entries.lookup key = some operation) : (key, operation) ∈ entries := by
  induction entries with
  | nil => cases found
  | cons entry rest ih =>
    obtain ⟨first, value⟩ := entry
    rw [List.lookup_cons] at found
    split at found
    · rename_i same
      cases found
      rw [beq_iff_eq] at same
      simp [same]
    · exact List.mem_cons_of_mem _ (ih found)

theorem branchForm_prefixed {opcode : Byte} {operation : Operation}
    (found : prefixedOperation opcode = some operation) : operation.branchForm = none := by
  have none_branch : ∀ entry ∈ prefixedOperations, entry.2.branchForm = none := by decide
  exact none_branch _ (mem_of_lookup found)

theorem argLabels_main {code : Bytes} {offset : BitVec w} {operation : Operation}
    (branches : frontEnd.EcmaBranches) (found : mainOperation (code 0) = some operation) :
    argLabels operation
        (parseInstrArg code (frontEnd.ilMainOpcodeTable (code 0)).args offset) =
      branchNames code offset operation := by
  unfold argLabels branchNames
  cases form : operation.branchForm with
  | none => rfl
  | some short =>
    rw [branches _ _ _ found form]
    cases short <;> rfl

theorem parseInstr_translated (branches : frontEnd.EcmaBranches) {code : Bytes}
    {offset isize : BitVec w} {state after : ParseState Node}
    (parsed : parseInstr frontEnd code offset state = some (isize, after)) :
    ∃ operation, mainOperation (code 0) = some operation ∧
      Translated frontEnd operation (code.advance 1) state after
        (branchNames code offset operation) := by
  simp only [parseInstr, Option.bind_eq_bind, Option.bind_eq_some_iff, Option.pure_def,
    Option.some.injEq, Prod.mk.injEq] at parsed
  obtain ⟨operation, found, middle, made, _, rfl⟩ := parsed
  refine ⟨operation, found, ?_⟩
  rw [← argLabels_main branches found]
  exact translate_translated made

theorem parsePrefixedInstr_translated {code : Bytes} {offset isize : BitVec w}
    {state after : ParseState Node}
    (parsed : parsePrefixedInstr frontEnd code state = some (isize, after)) :
    ∃ operation, prefixedOperation (code 1) = some operation ∧
      Translated frontEnd operation ((code.advance 1).advance 1) state after
        (branchNames code offset operation) := by
  simp only [parsePrefixedInstr, Option.bind_eq_bind, Option.bind_eq_some_iff, Option.pure_def,
    Option.some.injEq, Prod.mk.injEq] at parsed
  obtain ⟨operation, found, middle, made, _, rfl⟩ := parsed
  refine ⟨operation, found, ?_⟩
  have noBranch := branchForm_prefixed found
  have none_named : branchNames code offset operation = argLabels operation none := by
    rw [branchNames, argLabels, noBranch]
  rw [none_named]
  exact translate_translated made

/-- One round places the label of its offset if the stack is empty and goes to
the label of the branch. -/
theorem Scan.round_translated (branches : frontEnd.EcmaBranches) {code : Bytes}
    {before after : Scan w Node} (step : before.round frontEnd code = some after) :
    ∃ operation, operationAt (code.advance before.offset.toNat) = some operation ∧
      Translated frontEnd operation (operandAt (code.advance before.offset.toNat))
        (makeLabel (getLabelName before.offset) before.state) after.state
        (branchNames (code.advance before.offset.toNat) before.offset operation) := by
  simp only [Scan.round, Option.bind_eq_bind, Option.bind_eq_some_iff, Prod.exists] at step
  obtain ⟨size, state, parsed, step⟩ := step
  have sameState : after.state = state := by
    generalize (if size = 0 then getSpecialSize (code.advance before.offset.toNat) before.csize
      else size) = isize at step
    split at step
    · cases step
    · cases step
      rfl
  rw [sameState]
  unfold operationAt operandAt
  split at parsed
  · rename_i isPrefix
    rw [if_pos isPrefix, if_pos isPrefix]
    exact parsePrefixedInstr_translated parsed
  · rename_i isMain
    rw [if_neg isMain, if_neg isMain]
    exact parseInstr_translated branches parsed

/-- The run lemma: the scan of a whole body places the labels where the stack is
empty, and goes to the labels of its branches. -/
theorem Layout.run_adds (sizes : frontEnd.EcmaSizes) (branches : frontEnd.EcmaBranches)
    (long : 32 ≤ w) {code : Bytes} {codeLen offset : Nat} {instrs : List (Nat × Operation)}
    (layout : Layout code codeLen offset instrs) (small : codeLen < 2 ^ w)
    {scan final : Scan w Node} (here : scan.offset.toNat = offset)
    (total : scan.offset.toNat + scan.csize.toNat = codeLen)
    (reaches : Scan.Reaches frontEnd code scan final) (done : final.csize = 0) :
    Adds scan.state final.state
        (placedNames (heights frontEnd code scan.state.stack.length instrs))
        (instrs.flatMap fun instr =>
          branchNames (code.advance instr.1) (BitVec.ofNat w instr.1) instr.2) ∧
      (LabelsNamed scan.state → LabelsNamed final.state) := by
  have zero : (0 : BitVec w).toNat = 0 := Nat.zero_mod _
  induction layout generalizing scan with
  | done =>
    rcases reaches.cases_head with rfl | ⟨next, step, _⟩
    · exact ⟨.refl _, id⟩
    · exfalso
      exact step.1 (BitVec.eq_of_toNat_eq (by rw [zero]; omega))
  | @instr offset operation rest found tail ih =>
    have positive := instrSize_pos (code.advance offset) operation
    have bound := tail.le
    rcases reaches.cases_head with rfl | ⟨next, step, onward⟩
    · exfalso
      rw [done, zero] at total
      omega
    · obtain ⟨operation', isize, found', _, offsetEq, csizeEq, size, _⟩ :=
        Scan.round_eq_some sizes long step.2
      obtain ⟨operation'', found'', translated⟩ := Scan.round_translated branches step.2
      rw [here] at found' found'' translated size
      rw [found] at found' found''
      cases found'
      cases found''
      have sized := isize.isLt
      have nextOffset : next.offset.toNat = offset + instrSize (code.advance offset) operation := by
        rw [offsetEq, BitVec.toNat_add, here, size]
        exact Nat.mod_eq_of_lt (by omega)
      have nextTotal : next.offset.toNat + next.csize.toNat = codeLen := by
        rw [nextOffset, csizeEq, BitVec.toNat_sub_of_le (BitVec.le_def.mpr (by omega)), size]
        omega
      obtain ⟨later, named⟩ := ih nextOffset nextTotal onward
      have sameOffset : BitVec.ofNat w offset = scan.offset := by
        rw [← here, BitVec.ofNat_toNat, BitVec.setWidth_eq]
      have labels := makeLabel_adds (getLabelName scan.offset) scan.state
      have stack := makeLabel_stack (getLabelName scan.offset) scan.state
      rw [getLabelName_eq, here] at labels stack translated
      rw [translated.height, stack] at later
      rw [heights, placedNames_cons, List.flatMap_cons, sameOffset]
      refine ⟨?_, fun known => named (translated.named (makeLabel_named known _))⟩
      exact labels.trans (translated.adds.trans later)

/-- Each label that a `GOTO_EXPR` of the body refers to is placed exactly once. -/
def LabelsPlaced (body : List (Stmt Node)) : Prop :=
  ∀ label ∈ body.flatMap Stmt.gotoLabels, (body.filterMap Stmt.placed).count label = 1

theorem count_declared {table : Identifier → Option LabelDecl}
    (named : ∀ name decl, table name = some decl → decl.name = some name)
    {decls : List LabelDecl} {names : List Identifier}
    (declared : decls.map some = names.map table) {label : LabelDecl} {name : Identifier}
    (isLabel : table name = some label) : decls.count label = names.count name := by
  induction decls generalizing names with
  | nil =>
    cases names with
    | nil => rfl
    | cons => cases declared
  | cons decl decls ih =>
    cases names with
    | nil => cases declared
    | cons first names =>
      rw [List.map_cons, List.map_cons, List.cons.injEq] at declared
      obtain ⟨head, tail⟩ := declared
      have same : decl = label ↔ first = name := by
        constructor
        · rintro rfl
          have firstNamed := named first decl head.symm
          rw [named name decl isLabel] at firstNamed
          exact (Option.some.inj firstNamed).symm
        · rintro rfl
          rw [isLabel] at head
          exact Option.some.inj head
      rw [List.count_cons, List.count_cons, ih tail]
      by_cases equal : decl = label
      · rw [if_pos (by simpa using equal), if_pos (by simpa using same.mp equal)]
      · rw [if_neg (by simpa using equal),
          if_neg (by simpa using fun first_eq => equal (same.mpr first_eq))]

/-- The labels of all branches are placed exactly when each destination, as the
front end computes it, is an instruction at which the stack is empty. -/
theorem Layout.labelsPlaced_iff (sizes : frontEnd.EcmaSizes) (branches : frontEnd.EcmaBranches)
    (long : 32 ≤ w) {code : Bytes} {codeLen : BitVec 32} {instrs : List (Nat × Operation)}
    (layout : Layout code codeLen.toNat 0 instrs) {uid : Nat} {final : Scan w Node}
    (reaches : Scan.Reaches frontEnd code (.initial Node codeLen uid) final)
    (done : final.csize = 0) :
    LabelsPlaced final.state.body ↔
      ∀ instr ∈ instrs, ∀ short, instr.2.branchForm = some short →
        ((branchDest (code.advance instr.1) (BitVec.ofNat w instr.1) short).toNat, 0) ∈
          heights frontEnd code 0 instrs := by
  have power : 2 ^ 32 ≤ 2 ^ w := Nat.pow_le_pow_right (by decide) long
  have bound := codeLen.isLt
  have offset : (Scan.initial (w := w) Node codeLen uid).offset.toNat = 0 := Nat.zero_mod _
  have csize : (Scan.initial (w := w) Node codeLen uid).csize.toNat = codeLen.toNat :=
    BitVec.toNat_setWidth_of_le long
  obtain ⟨⟨_, added, body, placed, gotos⟩, named⟩ :=
    layout.run_adds sizes branches long (by omega) offset (by omega) reaches done
  have named := named fun name decl declared => by cases declared
  have nodup : (placedNames (heights frontEnd code 0 instrs)).Nodup := layout.nodup_placedNames 0
  rw [show final.state.body = added from body]
  have known : ∀ name ∈ instrs.flatMap fun instr =>
      branchNames (code.advance instr.1) (BitVec.ofNat w instr.1) instr.2,
      ∃ label, final.state.labelDecl name = some label ∧ label ∈ added.flatMap Stmt.gotoLabels := by
    intro name listed
    have image := List.mem_map_of_mem (f := final.state.labelDecl) listed
    rw [← gotos] at image
    obtain ⟨label, inGotos, equal⟩ := List.mem_map.mp image
    exact ⟨label, equal.symm, inGotos⟩
  have occurs : ∀ name label, final.state.labelDecl name = some label →
      ((added.filterMap Stmt.placed).count label = 1 ↔
        name ∈ placedNames (heights frontEnd code 0 instrs)) := by
    intro name label declared
    rw [count_declared named placed declared]
    constructor
    · intro once
      exact List.count_pos_iff.mp (once ▸ Nat.one_pos)
    · intro listed
      exact List.count_eq_one_of_mem nodup listed
  constructor
  · intro all instr listed short form
    have isName : getLabelName (branchDest (code.advance instr.1) (BitVec.ofNat w instr.1) short) ∈
        instrs.flatMap fun instr =>
          branchNames (code.advance instr.1) (BitVec.ofNat w instr.1) instr.2 := by
      apply List.mem_flatMap.mpr
      exact ⟨instr, listed, by rw [branchNames, form]; exact List.mem_singleton_self _⟩
    obtain ⟨label, declared, inGotos⟩ := known _ isName
    exact mem_placedNames.mp ((occurs _ label declared).mp (all label inGotos))
  · intro condition label inGotos
    have image := List.mem_map_of_mem (f := some) inGotos
    rw [gotos] at image
    obtain ⟨name, isName, declared⟩ := List.mem_map.mp image
    apply (occurs name label declared).mpr
    obtain ⟨instr, listed, isBranch⟩ := List.mem_flatMap.mp isName
    unfold branchNames at isBranch
    cases form : instr.2.branchForm with
    | none =>
      rw [form] at isBranch
      cases isBranch
    | some short =>
      rw [form] at isBranch
      rw [List.mem_singleton.mp isBranch, getLabelName_eq]
      exact mem_placedNames.mpr (condition instr listed short form)

def branchDisplacement (code : Bytes) (short : Bool) : Int :=
  if short then (code 1).toInt else (ilReadUint32 (code.advance 1)).toInt

/-- The target of the branch at `offset` by the standard. -/
def branchTarget (code : Bytes) (offset : Nat) (short : Bool) : Int :=
  offset + (if short then 2 else 5) + branchDisplacement (code.advance offset) short

/-- The destination is right where `parse_instr_arg` reads the displacement
with its sign: in the short form, with 32-bit longs, and in forward branches. -/
def ReadSigned (w : Nat) (code : Bytes) (short : Bool) : Prop :=
  short = true ∨ w = 32 ∨ 0 ≤ branchDisplacement code short

theorem toNat_ofInt_of_nonneg {value : Int} (nonneg : 0 ≤ value) (small : value < 2 ^ w) :
    (BitVec.ofInt w value).toNat = value.toNat := by
  rw [BitVec.toNat_ofInt, Int.emod_eq_of_lt nonneg (by exact_mod_cast small)]

theorem toInt_cases (value : BitVec w) :
    value.toInt = value.toNat ∧ 0 ≤ value.toInt ∨
      value.toInt = value.toNat - 2 ^ w ∧ value.toInt < 0 := by
  have bound : (value.toNat : Int) < 2 ^ w := by exact_mod_cast value.isLt
  rw [BitVec.toInt_eq_toNat_cond]
  split
  · left
    omega
  · right
    push_cast
    omega

theorem branchDest_eq_ofInt {code : Bytes} {offset : Nat} {short : Bool}
    (signed : ReadSigned w (code.advance offset) short) :
    branchDest (code.advance offset) (BitVec.ofNat w offset) short =
      BitVec.ofInt w (branchTarget code offset short) := by
  unfold branchDest branchTarget
  cases short with
  | true =>
    rw [if_pos rfl, if_pos rfl, BitVec.ofInt_add, BitVec.ofInt_add]
    rfl
  | false =>
    rw [if_neg (by simp), if_neg (by simp), BitVec.ofInt_add, BitVec.ofInt_add]
    congr 1
    rcases signed with isShort | rfl | forward
    · cases isShort
    · rw [BitVec.setWidth_eq]
      exact BitVec.ofInt_toInt.symm
    · change 0 ≤ (ilReadUint32 ((code.advance offset).advance 1)).toInt at forward
      change _ = BitVec.ofInt w (ilReadUint32 ((code.advance offset).advance 1)).toInt
      rcases toInt_cases (ilReadUint32 ((code.advance offset).advance 1)) with
        ⟨value, _⟩ | ⟨_, negative⟩
      · rw [value, ← BitVec.ofNat_toNat]
        exact (BitVec.ofInt_natCast ..).symm
      · omega

/-- A backward branch in the long form with longs of more than 32 bits goes past
the end of every body. -/
theorem branchDest_of_backward {code : Bytes} {offset : Nat} {short : Bool} (long : 32 ≤ w)
    (unsigned : ¬ ReadSigned w (code.advance offset) short) (small : offset + 5 ≤ 2 ^ 32)
    (nonneg : 0 ≤ branchTarget code offset short) :
    2 ^ 32 ≤ (branchDest (code.advance offset) (BitVec.ofNat w offset) short).toNat := by
  simp only [ReadSigned, not_or, Bool.not_eq_true, not_le] at unsigned
  obtain ⟨isLong, wide, backward⟩ := unsigned
  subst isLong
  have power : 2 ^ 33 ≤ 2 ^ w := Nat.pow_le_pow_right (by decide) (by omega)
  change (ilReadUint32 ((code.advance offset).advance 1)).toInt < 0 at backward
  change 0 ≤ (offset : Int) + 5 + (ilReadUint32 ((code.advance offset).advance 1)).toInt at nonneg
  unfold branchDest
  rw [if_neg (by simp)]
  generalize ilReadUint32 ((code.advance offset).advance 1) = displacement at *
  have five : (5 : BitVec w).toNat = 5 := toNat_literal 5 (by omega)
  have bound := displacement.isLt
  rcases toInt_cases displacement with ⟨_, forward⟩ | ⟨value, _⟩
  · omega
  · rw [BitVec.toNat_add, BitVec.toNat_add, five, BitVec.toNat_setWidth_of_le long,
      BitVec.toNat_ofNat, Nat.mod_eq_of_lt (show offset < 2 ^ w by omega),
      Nat.mod_eq_of_lt (show offset + 5 < 2 ^ w by omega), Nat.mod_eq_of_lt (by omega)]
    omega

def TargetsAreInstrs (code : Bytes) (instrs : List (Nat × Operation)) : Prop :=
  ∀ instr ∈ instrs, ∀ short, instr.2.branchForm = some short →
    ∃ target ∈ instrs, (target.1 : Int) = branchTarget code instr.1 short

/-- The branch at `instr` finds its label: its displacement is read with its
sign, and the stack of the scan is empty at its target. -/
def FindsLabel (frontEnd : FrontEnd Node) (w : Nat) (code : Bytes)
    (instrs : List (Nat × Operation)) (instr : Nat × Operation) (short : Bool) : Prop :=
  ReadSigned w (code.advance instr.1) short ∧
    ((branchTarget code instr.1 short).toNat, 0) ∈ heights frontEnd code 0 instrs

theorem branchForm_size {operation : Operation} {short : Bool}
    (form : operation.branchForm = some short) : operation.ecmaSize = if short then 2 else 5 := by
  cases operation with
  | br => cases form; rfl
  | brfalse => cases form; rfl
  | brtrue => cases form; rfl
  | branchComparison => cases form; rfl
  | _ => cases form

theorem Layout.finds_iff (long : 32 ≤ w) {code : Bytes} {codeLen : BitVec 32}
    {instrs : List (Nat × Operation)} (layout : Layout code codeLen.toNat 0 instrs)
    (targets : TargetsAreInstrs code instrs) {instr : Nat × Operation} (listed : instr ∈ instrs)
    {short : Bool} (form : instr.2.branchForm = some short) :
    ((branchDest (code.advance instr.1) (BitVec.ofNat w instr.1) short).toNat, 0) ∈
        heights frontEnd code 0 instrs ↔
      FindsLabel frontEnd w code instrs instr short := by
  have power : 2 ^ 32 ≤ 2 ^ w := Nat.pow_le_pow_right (by decide) long
  have bound := codeLen.isLt
  obtain ⟨target, isInstr, equal⟩ := targets instr listed short form
  have targetEnd := layout.mem_le isInstr
  have instrEnd := layout.mem_le listed
  have other : instr.2 ≠ .switch := by
    intro isSwitch
    rw [isSwitch] at form
    cases form
  rw [instrSize_of_ne _ other, branchForm_size form] at instrEnd
  by_cases signed : ReadSigned w (code.advance instr.1) short
  · rw [branchDest_eq_ofInt signed, toNat_ofInt_of_nonneg (by omega)
      (by rw [← equal]; exact_mod_cast (show target.1 < 2 ^ w by omega))]
    exact ⟨fun empty => ⟨signed, empty⟩, fun finds => finds.2⟩
  · constructor
    · intro empty
      have isLong : short = false := by
        cases short with
        | false => rfl
        | true => exact absurd (.inl rfl) signed
      rw [isLong] at instrEnd
      have far := branchDest_of_backward long signed
        (by simp only [Bool.false_eq_true, if_false] at instrEnd; omega) (by omega)
      have near := (layout.offset_le 0 empty).2
      dsimp only at near
      omega
    · intro finds
      exact absurd finds.1 signed

/-- In a whole body whose branch targets are instructions, every `GOTO_EXPR`
refers to a label that is placed exactly once if and only if every branch finds
its label. -/
theorem labelsPlaced_iff_findsLabel (sizes : frontEnd.EcmaSizes)
    (branches : frontEnd.EcmaBranches) (long : 32 ≤ w) {code : Bytes} {codeLen : BitVec 32}
    {instrs : List (Nat × Operation)} (layout : Layout code codeLen.toNat 0 instrs)
    (targets : TargetsAreInstrs code instrs) {uid : Nat} {final : Scan w Node}
    (reaches : Scan.Reaches frontEnd code (.initial Node codeLen uid) final)
    (done : final.csize = 0) :
    LabelsPlaced final.state.body ↔
      ∀ instr ∈ instrs, ∀ short, instr.2.branchForm = some short →
        FindsLabel frontEnd w code instrs instr short := by
  rw [layout.labelsPlaced_iff sizes branches long reaches done]
  constructor
  · intro all instr listed short form
    exact (layout.finds_iff long targets listed form).mp (all instr listed short form)
  · intro all instr listed short form
    exact (layout.finds_iff long targets listed form).mpr (all instr listed short form)

/-- `parse_instructions` for a number of rounds. -/
def Scan.rounds (frontEnd : FrontEnd Node) (code : Bytes) : Nat → Scan w Node → Option (Scan w Node)
  | 0, scan => some scan
  | count + 1, scan =>
    if scan.csize = 0 then none
    else (scan.round frontEnd code).bind (Scan.rounds frontEnd code count)

theorem Scan.reaches_of_rounds {code : Bytes} {count : Nat} {scan after : Scan w Node}
    (result : Scan.rounds frontEnd code count scan = some after) :
    Scan.Reaches frontEnd code scan after := by
  induction count generalizing scan with
  | zero =>
    cases result
    exact .refl
  | succ count ih =>
    rw [Scan.rounds] at result
    split at result
    · cases result
    · rename_i more
      obtain ⟨next, step, onward⟩ := Option.bind_eq_some_iff.mp result
      exact .head ⟨more, step⟩ (ih onward)

def Operation.fallsThrough : Operation → Bool
  | .br _ | .ret => false
  | _ => true

def operandCount (frontEnd : FrontEnd Node) (operand : Bytes) : Operation → Nat
  | .br _ => 0
  | .brfalse _ | .brtrue _ | .switch | .conv _ => 1
  | .branchComparison .. => 2
  | .ret => 0
  | operation => ((stackUse frontEnd operand operation).map StackUse.pops).getD 0

/-- What the verifier asks of the height `depth offset` of the stack at each
instruction: it is the same on all paths, no instruction lacks an operand, and
an instruction that only a later one can reach starts with an empty stack. -/
structure Verifiable (frontEnd : FrontEnd Node) (code : Bytes) (instrs : List (Nat × Operation))
    (returnsValue : Bool) (depth : Nat → Nat) : Prop where
  start : depth 0 = 0
  operands : ∀ instr ∈ instrs,
    operandCount frontEnd (operandAt (code.advance instr.1)) instr.2 ≤ depth instr.1
  follows : ∀ instr ∈ instrs, instr.2.fallsThrough → ∃ next ∈ instrs,
    next.1 = instr.1 + instrSize (code.advance instr.1) instr.2 ∧
    depth next.1 =
      heightAfter frontEnd (operandAt (code.advance instr.1)) instr.2 (depth instr.1)
  branches : ∀ instr ∈ instrs, ∀ short, instr.2.branchForm = some short → ∃ target ∈ instrs,
    (target.1 : Int) = branchTarget code instr.1 short ∧
    depth target.1 =
      heightAfter frontEnd (operandAt (code.advance instr.1)) instr.2 (depth instr.1)
  switches : ∀ instr ∈ instrs, instr.2 = .switch → ∀ item < switchCount (code.advance instr.1),
    ∃ target ∈ instrs,
      (target.1 : Int) = instr.1 + 5 + 4 * switchCount (code.advance instr.1) +
        (ilReadUint32 ((code.advance instr.1).advance (5 + item * 4))).toInt ∧
      depth target.1 = depth instr.1 - 1
  returns : ∀ instr ∈ instrs, instr.2 = .ret → depth instr.1 = if returnsValue then 1 else 0
  unreached : ∀ instr ∈ instrs,
    (∃ before ∈ instrs, before.2.fallsThrough = false ∧
      instr.1 = before.1 + instrSize (code.advance before.1) before.2) →
    (∀ before ∈ instrs, before.1 < instr.1 → ∀ short, before.2.branchForm = some short →
      (instr.1 : Int) ≠ branchTarget code before.1 short) →
    depth instr.1 = 0

end

/-- `return flag ? 1 : 0` as compilers write it: `ldarg.0; brtrue.s 6; ldc.i4.0;
br.s 7; ldc.i4.1; ret`. -/
def conditional : Bytes := .ofList [0x02, 0x2D, 0x03, 0x16, 0x2B, 0x01, 0x17, 0x2A]

def conditionalInstrs : List (Nat × Operation) :=
  [(0, .ldarg 0), (1, .brtrue true), (3, .ldcI4 0), (4, .br true), (6, .ldcI4 1), (7, .ret)]

theorem conditional_layout : Layout conditional 8 0 conditionalInstrs :=
  .instr rfl <| .instr rfl <| .instr rfl <| .instr rfl <| .instr rfl <| .instr rfl .done

theorem conditional_targets : TargetsAreInstrs conditional conditionalInstrs := by
  unfold TargetsAreInstrs
  decide

theorem ecmaFrontEnd_branches : ecmaFrontEnd.EcmaBranches := by
  intro opcode operation short found form
  have args : (ecmaFrontEnd.ilMainOpcodeTable opcode).args = operation.ecmaArgs := by
    simp [ecmaFrontEnd, found]
  rw [args]
  cases operation with
  | br => cases form; rfl
  | brfalse => cases form; rfl
  | brtrue => cases form; rfl
  | branchComparison => cases form; rfl
  | _ => cases form

theorem conditional_verifiable :
    Verifiable ecmaFrontEnd conditional conditionalInstrs true
      (fun offset => if offset ∈ [1, 4, 7] then 1 else 0) where
  start := by decide
  operands := by decide
  follows := by decide
  branches := by decide
  switches := by decide
  returns := by decide
  unreached := by decide

theorem conditional_scanned : ∃ final : Scan 64 Unit,
    Scan.Reaches ecmaFrontEnd conditional (.initial Unit 8 0) final ∧ final.csize = 0 := by
  have rounds : ((Scan.rounds ecmaFrontEnd conditional 6
      (.initial Unit 8 0 : Scan 64 Unit)).map Scan.csize) = some 0 := by decide
  obtain ⟨final, result, done⟩ := Option.map_eq_some_iff.mp rounds
  exact ⟨final, Scan.reaches_of_rounds result, done⟩

/-- The body of the conditional expression is verifiable, and neither of its
branches finds its label. -/
theorem conditional_label_missing :
    ∃ depth, ∃ final : Scan 64 Unit,
      Layout conditional 8 0 conditionalInstrs ∧
      Verifiable ecmaFrontEnd conditional conditionalInstrs true depth ∧
      Scan.Reaches ecmaFrontEnd conditional (.initial Unit 8 0) final ∧ final.csize = 0 ∧
      ¬ LabelsPlaced final.state.body := by
  obtain ⟨final, reaches, done⟩ := conditional_scanned
  refine ⟨_, final, conditional_layout, conditional_verifiable, reaches, done, ?_⟩
  intro placed
  have found := (conditional_layout.labelsPlaced_iff ecmaFrontEnd_sizes ecmaFrontEnd_branches
    (by decide) reaches done).mp placed (1, .brtrue true) (by decide) true rfl
  exact absurd found (by decide)

/-- For the body of the conditional expression the condition fails as well. -/
theorem conditional_not_findsLabel :
    ∃ final : Scan 64 Unit,
      Scan.Reaches ecmaFrontEnd conditional (.initial Unit 8 0) final ∧
      (LabelsPlaced final.state.body ↔
        ∀ instr ∈ conditionalInstrs, ∀ short, instr.2.branchForm = some short →
          FindsLabel ecmaFrontEnd 64 conditional conditionalInstrs instr short) := by
  obtain ⟨final, reaches, done⟩ := conditional_scanned
  exact ⟨final, reaches, labelsPlaced_iff_findsLabel ecmaFrontEnd_sizes ecmaFrontEnd_branches
    (by decide) conditional_layout conditional_targets reaches done⟩

end GccCil.Cil.BodyScan
