import GccCil.Scil.EvalStack

/-!
# The instructions

`scil-instructions.c` and the instruction functions of `scil-pnet.c` that call
it, as functions on the state of the translation.  `none` is a translation
that crashes: a pop from the empty stack, a push above `maxStack`, a type that
the front end is `sorry` about.  Declarations with a memory alias (attributes
of the `Hardware` namespace) are not covered.
-/

namespace GccCil.Scil

def instrPush (type : Ty) (expr : Expr) (state : State) : Option (Stmt × State) := do
  let (stackVar, state) ← scilGetStackVariable type state
  return (.modify (.decl stackVar) (.convert stackVar.type expr), scilStackPush stackVar state)

def popConvert (type : Ty) (state : State) : Option (Expr × State) := do
  let (entry, state) ← scilStackPop state
  return (.convert type (.decl entry), state)

/-- The expression for a field of the object on the stack. -/
def instrResolveField (field : Decl) (state : State) : Option (Expr × State) := do
  let (object, state) ← scilStackPop state
  if object.type = .pointer then
    return (.componentRef (.indirectRef field.context (.convert .pointer (.decl object))) field,
      state)
  else
    return (.componentRef (.decl object) field, state)

/-- The second loop of `instr_pop_parameters`, on the reversed types. -/
def popParameters : List Ty → List Expr → State → Option (List Expr × State)
  | [], arguments, state => some (arguments, state)
  | type :: rest, arguments, state => do
      let (argument, state) ← popConvert type state
      popParameters rest (argument :: arguments) state

def instrPopParameters (parameterTypes : List Ty) (state : State) :
    Option (List Expr × State) :=
  popParameters parameterTypes.reverse [] state

def instrUnop (operation : UnaryCode) (state : State) : Option (Stmt × State) := do
  let (op, state) ← scilStackPop state
  instrPush op.type (.unary operation op.type (.decl op)) state

/-- The operand, converted when it is the narrower one of the two. -/
def widen (target : Target) (type other : Ty) (operand : Expr) : Expr :=
  if type.precision target < other.precision target then .convert other operand else operand

/-- The type of the wider operand; `type1` when the precisions agree. -/
def widerType (target : Target) (type1 type2 : Ty) : Ty :=
  if type1.precision target < type2.precision target then type2 else type1

/-- A binary operation on signed integers or reals, in the bigger type. -/
def instrBinop (target : Target) (operation : BinaryCode) (state : State) :
    Option (Stmt × State) := do
  let (op2, state) ← scilStackPop state
  let (op1, state) ← scilStackPop state
  let type := widerType target op1.type op2.type
  instrPush type (.binary operation type
    (widen target op1.type op2.type (.decl op1))
    (widen target op2.type op1.type (.decl op2))) state

/-- As `instrBinop`, with the type of the result given. -/
def instrBinopTyped (target : Target) (operation : BinaryCode) (type : Ty) (state : State) :
    Option (Stmt × State) := do
  let (op2, state) ← scilStackPop state
  let (op1, state) ← scilStackPop state
  instrPush type (.binary operation type
    (widen target op1.type op2.type (.decl op1))
    (widen target op2.type op1.type (.decl op2))) state

/-- A binary operation on unsigned integers, in the type of the top operand. -/
def instrBinopUn (target : Target) (operation : BinaryCode) (state : State) :
    Option (Stmt × State) := do
  let top ← scilStackTop state
  let type ← scilHookUnsignedType target top.type
  let (op2, state) ← popConvert (.int type) state
  let (op1, state) ← popConvert (.int type) state
  instrPush (.int type) (.binary operation (.int type) op1 op2) state

def instrBinopUnTyped (target : Target) (operation : BinaryCode) (resultType : Ty)
    (state : State) : Option (Stmt × State) := do
  let top ← scilStackTop state
  let type ← scilHookUnsignedType target top.type
  let (op2, state) ← popConvert (.int type) state
  let (op1, state) ← popConvert (.int type) state
  instrPush resultType (.binary operation resultType op1 op2) state

/-- Build a statement and append it, the pattern of the `append_` helpers. -/
def append (build : State → Option (Stmt × State)) (state : State) : Option State := do
  let (stmt, state) ← build state
  return scilAppendStmt stmt state

def appendCompare (target : Target) (code : BinaryCode) (state : State) : Option State :=
  append (instrBinopTyped target code (.int .bool)) state

def appendCompareUn (target : Target) (intCode realCode : BinaryCode) (state : State) :
    Option State := do
  let top ← scilStackTop state
  if top.type.isIntegerType then
    append (instrBinopUnTyped target intCode (.int .bool)) state
  else
    append (instrBinopTyped target realCode (.int .bool)) state

def appendBinopCases (target : Target) (intCode realCode : BinaryCode) (state : State) :
    Option State := do
  let top ← scilStackTop state
  append (instrBinop target (if top.type.isIntegerType then intCode else realCode)) state

def scilSetLabel (programCounter : Nat) (state : State) : State :=
  let state :=
    match state.labelData programCounter with
    | .saved stack => scilSetStack stack state
    | .marker => state
    | .null =>
      { state with labelData := Function.update state.labelData programCounter .marker }
  scilAppendStmt (.label programCounter) state

/-- The effects of `instr_goto`: the label is forced, and the first goto to it
saves the stack. -/
def instrGoto (target : Nat) (state : State) : State :=
  let state := { state with forcedLabel := Function.update state.forcedLabel target true }
  match state.labelData target with
  | .null =>
    { state with
      labelData := Function.update state.labelData target (.saved (scilCopyStack state)) }
  | _ => state

@[simp]
theorem scilSetLabel_typedStacks (offset : Nat) (state : State) :
    (scilSetLabel offset state).typedStacks = state.typedStacks := by
  unfold scilSetLabel
  split <;> rfl

@[simp]
theorem scilSetLabel_size (offset : Nat) (state : State) :
    (scilSetLabel offset state).size = state.size := by
  unfold scilSetLabel
  split <;> rfl

@[simp]
theorem scilSetLabel_body (offset : Nat) (state : State) :
    (scilSetLabel offset state).body = state.body ++ [.label offset] := by
  unfold scilSetLabel
  split <;> rfl

theorem scilSetLabel_stack (offset : Nat) (state : State) :
    (scilSetLabel offset state).stack =
      match state.labelData offset with
      | .saved stack => stack
      | _ => state.stack := by
  unfold scilSetLabel
  split <;> simp_all [scilAppendStmt, scilSetStack]

theorem scilSetLabel_labelData (offset : Nat) (state : State) (label : Nat) :
    (scilSetLabel offset state).labelData label =
      if label = offset ∧ state.labelData offset = .null then .marker
      else state.labelData label := by
  unfold scilSetLabel
  cases data : state.labelData offset with
  | saved stack => simp [scilAppendStmt, scilSetStack]
  | marker => simp [scilAppendStmt]
  | null => simp [scilAppendStmt, Function.update_apply]

theorem instrGoto_labelData (target : Nat) (state : State) (label : Nat) :
    (instrGoto target state).labelData label =
      if label = target ∧ state.labelData target = .null then .saved state.stack
      else state.labelData label := by
  cases data : state.labelData target with
  | null => simp [instrGoto, data, scilCopyStack, Function.update_apply]
  | marker => simp [instrGoto, data]
  | saved stack => simp [instrGoto, data]

@[simp]
theorem instrGoto_typedStacks (target : Nat) (state : State) :
    (instrGoto target state).typedStacks = state.typedStacks := by
  simp only [instrGoto]
  split <;> rfl

@[simp]
theorem instrGoto_size (target : Nat) (state : State) :
    (instrGoto target state).size = state.size := by
  simp only [instrGoto]
  split <;> rfl

@[simp]
theorem instrGoto_stack (target : Nat) (state : State) :
    (instrGoto target state).stack = state.stack := by
  simp only [instrGoto]
  split <;> rfl

@[simp]
theorem instrGoto_body (target : Nat) (state : State) :
    (instrGoto target state).body = state.body := by
  simp only [instrGoto]
  split <;> rfl

def scilInstrBranch (target : Nat) (state : State) : State :=
  scilClearStack (scilAppendStmt (.goto target) (instrGoto target state))

def scilInstrBranchTrue (target : Nat) (state : State) : Option State := do
  let (condition, state) ← popConvert (.int .bool) state
  return scilAppendStmt (.condGoto condition true target) (instrGoto target state)

def scilInstrBranchFalse (target : Nat) (state : State) : Option State := do
  let (condition, state) ← popConvert (.int .bool) state
  return scilAppendStmt (.condGoto condition false target) (instrGoto target state)

def scilInstrPush (variable_ : Expr) (state : State) : Option State := do
  let type ← variable_.type
  append (instrPush type variable_) state

def scilInstrDup (state : State) : Option State := do
  let top ← scilStackTop state
  scilInstrPush (.decl top) state

def scilInstrPop (state : State) : Option State := do
  let (_, state) ← scilStackPop state
  return state

def scilInstrPopInto (variable_ : Decl) (state : State) : Option State := do
  let (value, state) ← popConvert variable_.type state
  return scilAppendStmt (.modify (.decl variable_) value) state

def scilInstrPopIntoField (field : Decl) (state : State) : Option State := do
  let (value, state) ← popConvert field.type state
  let (reference, state) ← instrResolveField field state
  return scilAppendStmt (.modify reference value) state

def scilInstrPushField (field : Decl) (state : State) : Option State := do
  let (reference, state) ← instrResolveField field state
  scilInstrPush reference state

def scilInstrPushAddress (expr : Expr) (state : State) : Option State :=
  append (instrPush .pointer (.addr expr)) state

def scilInstrPushFieldAddress (field : Decl) (state : State) : Option State := do
  let (reference, state) ← instrResolveField field state
  scilInstrPushAddress reference state

def scilInstrPushVirtualMethod (index : Nat) (state : State) : Option State := do
  let (object, state) ← popConvert .pointer state
  scilInstrPush (.vtableSlot object index) state

def scilInstrPushInteger (constant : Int) (type : IntType) (state : State) : Option State :=
  append (instrPush (.int type) (.intCst type constant)) state

def scilInstrPushString (index : Nat) (state : State) : Option State :=
  scilInstrPushAddress (.stringCst index) state

def finishCall (type : Option Ty) (callee : Callee) (arguments : List Expr) (state : State) :
    Option State :=
  match type with
  | none => some (scilAppendStmt (.expr (.call none callee arguments)) state)
  | some type => append (instrPush type (.call (some type) callee arguments)) state

def scilInstrCall (method : Nat) (methodType : MethodType) (state : State) :
    Option State := do
  let (arguments, state) ← instrPopParameters methodType.parameterTypes state
  finishCall methodType.returnType (.method method) arguments state

def scilInstrCallvirt (methodType : MethodType) (index : Nat) (state : State) :
    Option State := do
  let (arguments, state) ← instrPopParameters methodType.parameterTypes state
  finishCall methodType.returnType (.virtualSlot index) arguments state

def scilInstrCallIndirect (methodType : MethodType) (state : State) : Option State := do
  let (arguments, state) ← instrPopParameters methodType.parameterTypes state
  let (callee, state) ← popConvert .pointer state
  finishCall methodType.returnType .indirect (callee :: arguments) state

/-- The first field of `scil_object_type`. -/
def vtableField : Decl where
  kind := .instanceField
  index := 0
  type := .pointer

def scilInstrNewobj (constructor : Nat) (parameterTypes : List Ty) (state : State) :
    Option State := do
  let object := Expr.call (some .pointer) .newobj []
  let vtable := Expr.componentRef (.indirectRef none (.convert .pointer object)) vtableField
  let state := scilAppendStmt (.modify vtable (.vtableAddr constructor)) state
  let (arguments, state) ← instrPopParameters parameterTypes state
  let call := Expr.call none (.method constructor) (object :: arguments)
  scilInstrPush object (scilAppendStmt (.expr call) state)

def scilInstrNewStaticDelegate (state : State) : Option State := do
  let (function, state) ← scilStackPop state
  let (_, state) ← scilStackPop state
  append (instrPush .pointer (.decl function)) state

/-- A value left on the stack is the result; nothing is popped from an empty
stack. -/
def scilInstrRet (result : Option Decl) (state : State) : Option State :=
  if scilStackIsEmpty state then
    some (scilAppendStmt (.return_ none) state)
  else do
    let (value, state) ← scilStackPop state
    return scilAppendStmt
      (.return_ (result.map fun result => .convert result.type (.decl value))) state

def scilInstrConvert (type : Ty) (state : State) : Option State := do
  let (value, state) ← scilStackPop state
  append (instrPush type (.decl value)) state

/-- The comparisons, with the tree codes for integers and reals. -/
inductive Comparison where
  | eq | ge | gt | le | lt | neUn | geUn | gtUn | leUn | ltUn
  deriving DecidableEq, Repr

def Comparison.isUnsigned : Comparison → Bool
  | .neUn | .geUn | .gtUn | .leUn | .ltUn => true
  | _ => false

/-- `scil_instr_compare_*`. -/
def scilInstrCompare (target : Target) (comparison : Comparison) (state : State) :
    Option State :=
  match comparison with
  | .eq => appendCompare target .eq state
  | .gt => appendCompare target .gt state
  | .lt => appendCompare target .lt state
  | .ge => appendCompare target .ge state
  | .le => appendCompare target .le state
  | .gtUn => appendCompareUn target .gt .ungt state
  | .ltUn => appendCompareUn target .lt .unlt state
  | .geUn => appendCompareUn target .ge .unge state
  | .leUn => appendCompareUn target .le .unle state
  | .neUn => appendCompareUn target .ne .ltgt state

/-- The operators that `append_binop`, `append_binop_cases` and
`append_binop_un` translate.  `rem` is not implemented. -/
inductive Operator where
  | add | sub | mul | div | divUn | remUn | and | or | xor | shl | shr | shrUn
  deriving DecidableEq, Repr

def scilInstrOperator (target : Target) (operator : Operator) (state : State) : Option State :=
  match operator with
  | .add => append (instrBinop target .plus) state
  | .sub => append (instrBinop target .minus) state
  | .mul => append (instrBinop target .mult) state
  | .div => appendBinopCases target .truncDiv .rdiv state
  | .divUn => append (instrBinopUn target .truncDiv) state
  | .remUn => append (instrBinopUn target .truncMod) state
  | .and => append (instrBinop target .bitAnd) state
  | .or => append (instrBinop target .bitIor) state
  | .xor => append (instrBinop target .bitXor) state
  | .shl => append (instrBinop target .lshift) state
  | .shr => append (instrBinop target .rshift) state
  | .shrUn => append (instrBinopUn target .rshift) state

/-- The implemented instructions, with their operands resolved.  The short
forms of one instruction function differ in the encoding only; `break` only
prints a notice, as `nop` it leaves the translation alone. -/
inductive Instr where
  | nop
  | ldarg (index : Nat) | ldarga (index : Nat) | starg (index : Nat)
  | ldloc (index : Nat) | ldloca (index : Nat) | stloc (index : Nat)
  | ldnull
  /-- `ldc.i4.m1` to `ldc.i4.8`, pushed as `int8` -/
  | ldcI4Short (constant : Int)
  /-- `ldc.i4.s` with its operand byte -/
  | ldcI4S (byte : Nat)
  | ldcI4 (constant : Int)
  | ldcI8 (constant : Int)
  | dup | pop
  | call (method : Nat) (methodType : MethodType)
  | callvirt (methodType : MethodType) (slot : Nat)
  | callDelegate (methodType : MethodType)
  | ret
  | br (target : Nat) | brfalse (target : Nat) | brtrue (target : Nat)
  | branch (comparison : Comparison) (target : Nat)
  | operator (operator : Operator)
  | neg | not
  | conv (type : Ty)
  | ldstr (index : Nat)
  | newobj (constructor : Nat) (parameterTypes : List Ty)
  | newStaticDelegate
  | ldfld (field : Decl) | ldflda (field : Decl) | stfld (field : Decl)
  | ldsfld (field : Decl) | ldsflda (field : Decl) | stsfld (field : Decl)
  | compare (comparison : Comparison)
  | ldftn (method : Nat)
  | ldvirtftn (slot : Nat)
  deriving DecidableEq, Repr

def Instr.target? : Instr → Option Nat
  | .br target | .brfalse target | .brtrue target | .branch _ target => some target
  | _ => none

structure Method where
  target : Target
  parameters : List Decl
  locals : List Decl
  result : Option Decl
  maxStack : Nat

/-- A method with one `int32` local. -/
def oneLocal : Method where
  target := target32
  parameters := []
  locals := [{ kind := .methodVariable, index := 0, type := .int .int32 }]
  result := none
  maxStack := 8

/-- The type chosen by `instr_ldc_i4`. -/
def ldcI4Type (constant : Int) : IntType :=
  if -128 ≤ constant ∧ constant ≤ 127 then .int8
  else if -32768 ≤ constant ∧ constant ≤ 32767 then .int16
  else .int32

/-- The type chosen by `instr_ldc_i8`. -/
def ldcI8Type (constant : Int) : IntType :=
  if -0x80 ≤ constant ∧ constant ≤ 0x7f then .int8
  else if -0x8000 ≤ constant ∧ constant ≤ 0x7fff then .int16
  -- `-0x80000000` negates an `unsigned int`, so this branch is never taken.
  else if 0x80000000 ≤ constant ∧ constant ≤ 0x7fffffff then .int32
  else .int64

def execute (method : Method) (instr : Instr) (state : State) : Option State :=
  match instr with
  | .nop => some state
  | .ldarg index => do scilInstrPush (.decl (← method.parameters[index]?)) state
  | .ldarga index => do scilInstrPushAddress (.decl (← method.parameters[index]?)) state
  | .starg index => do scilInstrPopInto (← method.parameters[index]?) state
  | .ldloc index => do scilInstrPush (.decl (← method.locals[index]?)) state
  | .ldloca index => do scilInstrPushAddress (.decl (← method.locals[index]?)) state
  | .stloc index => do scilInstrPopInto (← method.locals[index]?) state
  | .ldnull => scilInstrPush .nullPointer state
  | .ldcI4Short constant => scilInstrPushInteger constant .int8 state
  | .ldcI4S byte => scilInstrPushInteger byte .int8 state
  | .ldcI4 constant => scilInstrPushInteger constant (ldcI4Type constant) state
  | .ldcI8 constant => scilInstrPushInteger constant (ldcI8Type constant) state
  | .dup => scilInstrDup state
  | .pop => scilInstrPop state
  | .call callee methodType => scilInstrCall callee methodType state
  | .callvirt methodType slot => scilInstrCallvirt methodType slot state
  | .callDelegate methodType => scilInstrCallIndirect methodType state
  | .ret => scilInstrRet method.result state
  | .br target => some (scilInstrBranch target state)
  | .brfalse target => scilInstrBranchFalse target state
  | .brtrue target => scilInstrBranchTrue target state
  | .branch comparison target => do
      scilInstrBranchTrue target (← scilInstrCompare method.target comparison state)
  | .operator operator => scilInstrOperator method.target operator state
  | .neg => append (instrUnop .negate) state
  | .not => append (instrUnop .bitNot) state
  | .conv type => scilInstrConvert type state
  | .ldstr index => scilInstrPushString index state
  | .newobj constructor parameterTypes => scilInstrNewobj constructor parameterTypes state
  | .newStaticDelegate => scilInstrNewStaticDelegate state
  | .ldfld field => scilInstrPushField field state
  | .ldflda field => scilInstrPushFieldAddress field state
  | .stfld field => scilInstrPopIntoField field state
  | .ldsfld field => scilInstrPush (.decl field) state
  | .ldsflda field => scilInstrPushAddress (.decl field) state
  | .stsfld field => scilInstrPopInto field state
  | .compare comparison => scilInstrCompare method.target comparison state
  | .ldftn callee => scilInstrPushAddress (.methodAddr callee) state
  | .ldvirtftn slot => scilInstrPushVirtualMethod slot state

/-- The loop of `parse_method` over the instructions and their offsets. -/
def parseInstructions (method : Method) : List (Nat × Instr) → State → Option State
  | [], state => some state
  | (offset, instr) :: rest, state => do
      parseInstructions method rest (← execute method instr (scilSetLabel offset state))

end GccCil.Scil
