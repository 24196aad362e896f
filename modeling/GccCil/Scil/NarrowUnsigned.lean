import GccCil.Scil.UnsignedOperations

/-!
# Narrow unsigned values

A `uint8`, `uint16`, `char`, `bool` or `uint32` is copied to a stack variable
of the signed type of its storage size.  Whatever consumes it reads the bits as
a signed number, while ECMA-335 has the zero-extended value on the stack.
-/

namespace GccCil.Scil

open GccCil.Lib

/-- The types whose values the claim of zero extension is about. -/
inductive NarrowType where
  | uint8 | uint16 | char | bool | uint32
  deriving DecidableEq, Repr

def NarrowType.type : NarrowType → IntType
  | .uint8 => .uint8
  | .uint16 => .uint16
  | .char => .char
  | .bool => .bool
  | .uint32 => .uint32

/-- The value on the ECMA-335 stack for the bits `v`: zero-extended when the
type is narrower than 32 bits, else read as an `int32`. -/
def NarrowType.ecmaValue (type : NarrowType) (v : Int) : Int :=
  if type.type.precision < 32 then v else IntType.int32.wrap v

/-- The sign bit of the stack variable is not set by the value. -/
def NarrowType.Faithful (type : NarrowType) (v : Int) : Prop :=
  type = .bool ∨ type = .uint32 ∨ v < 2 ^ (type.type.precision - 1)

inductive Place where
  | argument (index : Nat)
  | local_ (index : Nat)
  | staticField (field : Decl)

namespace Place

def decl (method : Method) : Place → Option Decl
  | .argument index => method.parameters[index]?
  | .local_ index => method.locals[index]?
  | .staticField field => some field

def load : Place → Instr
  | .argument index => .ldarg index
  | .local_ index => .ldloc index
  | .staticField field => .ldsfld field

def store : Place → Instr
  | .argument index => .starg index
  | .local_ index => .stloc index
  | .staticField field => .stsfld field

theorem execute_load {place : Place} {method : Method} {decl : Decl}
    (found : place.decl method = some decl) (state : State) :
    execute method place.load state = append (instrPush decl.type (.decl decl)) state := by
  cases place <;> simp_all [Place.decl, Place.load, execute, scilInstrPush, Expr.type]

theorem execute_store {place : Place} {method : Method} {decl : Decl}
    (found : place.decl method = some decl) (state : State) :
    execute method place.store state = scilInstrPopInto decl state := by
  cases place <;> simp_all [Place.decl, Place.store, execute]

end Place

inductive Source where
  | variable_ (place : Place)
  | field (decl : Decl)
  | conv

namespace Source

def instr (type : NarrowType) : Source → Instr
  | .variable_ place => place.load
  | .field decl => .ldfld decl
  | .conv => .conv (.int type.type)

def below (entries : List Decl) : Source → List Decl
  | .variable_ _ => entries
  | .field _ | .conv => entries.tail

/-- The source has the bits `v` in this state.  There is a `conv.u1`, `conv.u2`
and `conv.u4`, on any integer. -/
def Yields (method : Method) (type : NarrowType) (v : Int) (state : State) (memory : Memory) :
    Source → Prop
  | .variable_ place => ∃ decl, place.decl method = some decl ∧ decl.type = .int type.type ∧
      memory.value decl = type.type.wrap v
  | .field decl => decl.type = .int type.type ∧ ∃ object rest,
      state.stack.entries = object :: rest ∧
      memory.component
        (if object.type = .pointer then memory.value object else memory.address object) decl =
        type.type.wrap v
  | .conv => (type = .uint8 ∨ type = .uint16 ∨ type = .uint32) ∧ ∃ operand rest,
      state.stack.entries = operand :: rest ∧ v = type.type.wrap (memory.value operand)

end Source

/-- The instructions with two operands.  `rem` is not implemented: `scil_instr_rem` leaves the
stack alone and appends an error mark. -/
inductive Operation where
  | operator (operator : Operator)
  | rem
  | compare (comparison : Comparison)
  | branch (comparison : Comparison) (target : Nat)
  deriving DecidableEq, Repr

def Operator.isUnsigned : Operator → Bool
  | .divUn | .remUn | .shrUn => true
  | _ => false

namespace Operation

def instr : Operation → Option Instr
  | .operator kind => some (.operator kind)
  | .rem => none
  | .compare kind => some (.compare kind)
  | .branch kind target => some (.branch kind target)

/-- Both operands are read as unsigned numbers. -/
def isUnsigned : Operation → Bool
  | .operator kind => kind.isUnsigned
  | .rem => false
  | .compare kind | .branch kind _ => kind.isUnsigned

/-- The operand `op`, for an operand on top of the stack of the type `type2`. -/
def operandExpr (operation : Operation) (target : Target) (type2 : TrackedInt)
    (op other : Decl) : Expr :=
  if operation.isUnsigned then .convert (.int type2.unsignedType) (.decl op)
  else widen target op.type other.type (.decl op)

end Operation

/-- What pushes another operand. -/
inductive Other where
  | variable_ (place : Place)
  | ldcI4Short (constant : Int)
  | ldcI4S (byte : Nat)
  | ldcI4 (constant : Int)

namespace Other

def instr : Other → Instr
  | .variable_ place => place.load
  | .ldcI4Short constant => .ldcI4Short constant
  | .ldcI4S byte => .ldcI4S byte
  | .ldcI4 constant => .ldcI4 constant

/-- The type and the expression that are pushed, for an integer. -/
def pushed (method : Method) : Other → Option (IntType × Expr)
  | .variable_ place =>
    (place.decl method).bind fun decl =>
      match decl.type with
      | .int type => some (type, .decl decl)
      | _ => none
  | .ldcI4Short constant => some (.int8, .intCst .int8 constant)
  | .ldcI4S byte => some (.int8, .intCst .int8 byte)
  | .ldcI4 constant => some (ldcI4Type constant, .intCst (ldcI4Type constant) constant)

theorem execute_pushed {other : Other} {method : Method} {type : IntType} {expr : Expr}
    (pushed : other.pushed method = some (type, expr)) (state : State) (memory : Memory) :
    execute method other.instr state = append (instrPush (.int type) expr) state ∧
      ∃ y, expr.eval memory = some y := by
  cases other with
  | variable_ place =>
    obtain ⟨decl, found, integer⟩ := Option.bind_eq_some_iff.mp pushed
    split at integer
    · rename_i declType
      cases integer
      exact ⟨declType ▸ place.execute_load found state, _, rfl⟩
    · cases integer
  | ldcI4Short constant =>
    cases pushed
    exact ⟨rfl, _, rfl⟩
  | ldcI4S byte =>
    cases pushed
    exact ⟨rfl, _, rfl⟩
  | ldcI4 constant =>
    cases pushed
    exact ⟨rfl, _, rfl⟩

end Other

/-- The uses of the value on top of the stack.  It is the first operand when another one is
pushed on top of it, and the second one otherwise. -/
inductive Consumer where
  | store (place : Place)
  | convI4
  | convI8
  | neg
  | not
  | firstOperand (other : Other) (operation : Operation)
  | secondOperand (operation : Operation)

def operandsOf : Stmt → List Expr
  | .modify _ (.convert _ (.binary _ _ left right)) => [left, right]
  | .modify _ (.convert _ (.unary _ _ operand)) => [operand]
  | _ => []

/-- The value of an operand of the operation at the end of the statements; a branch on its result
may follow it. -/
def operandValue (index : Nat) (start : Memory) (body : List Stmt) : Option Int :=
  let body :=
    match body.getLast? with
    | some (.condGoto _ _ _) => body.dropLast
    | _ => body
  do
    let memory ← execStmts start body.dropLast
    (← (operandsOf (← body.getLast?))[index]?).eval memory

namespace Consumer

/-- The instructions; there is none for `rem`. -/
def instrs : Consumer → List Instr
  | .store place => [place.store]
  | .convI4 => [.conv (.int .int32)]
  | .convI8 => [.conv (.int .int64)]
  | .neg => [.neg]
  | .not => [.not]
  | .firstOperand other operation => other.instr :: operation.instr.toList
  | .secondOperand operation => operation.instr.toList

/-- The consumer makes sense for the value: it is stored in a wider variable,
or the other operand is an integer. -/
def Accepts (method : Method) (type : NarrowType) (dups : Nat) (below : List Decl) :
    Consumer → Prop
  | .store place => ∃ decl dest, place.decl method = some decl ∧ decl.type = .int dest ∧
      type.type.precision < dest.precision
  | .convI4 | .convI8 | .neg | .not => True
  | .firstOperand other _ => ∃ pushed, other.pushed method = some pushed
  | .secondOperand _ => dups = 0 → ∃ entry rest, below = entry :: rest ∧
      ∃ other : TrackedInt, entry.type = .int other.type

/-- The value that the emitted statements give the consumer; an error mark has no operands. -/
def observe (method : Method) (start : Memory) (state : State) : Consumer → Option Int
  | .store place => do
      let memory ← execStmts start state.body
      return memory.value (← place.decl method)
  | .convI4 | .convI8 => do
      let memory ← execStmts start state.body
      return memory.value (← scilStackTop state)
  | .neg | .not => operandValue 0 start state.body
  | .firstOperand _ operation =>
    if operation = .rem then none else operandValue 0 start state.body
  | .secondOperand operation =>
    if operation = .rem then none else operandValue 1 start state.body

/-- The value that ECMA-335 gives the consumer; an unsigned operation takes the word as an
unsigned number. -/
def prescribed (method : Method) (type : NarrowType) (v : Int) : Consumer → Option Int
  | .store place =>
    match (place.decl method).map Decl.type with
    | some (.int dest) => some (dest.wrap (type.ecmaValue v))
    | _ => none
  | .convI4 | .convI8 | .neg | .not => some (type.ecmaValue v)
  | .firstOperand _ operation | .secondOperand operation =>
    some (if operation.isUnsigned then v else type.ecmaValue v)

/-- The value reaches the consumer.  An unsigned operation reads it in the width of the operand on
top, which is the other one or itself. -/
def Receives (method : Method) (type : NarrowType) (v : Int) : Consumer → Prop
  | .store _ | .convI4 | .convI8 | .neg | .not => type.Faithful v
  | .firstOperand other operation =>
    operation ≠ .rem ∧
      if operation.isUnsigned then
        ∀ pushed ∈ other.pushed method, v < 2 ^ pushed.1.tracked.type.precision ∧
          (v < 2 ^ (type.type.tracked.type.precision - 1) ∨
            pushed.1.tracked = type.type.tracked)
      else type.Faithful v
  | .secondOperand operation =>
    operation ≠ .rem ∧ (operation.isUnsigned = true ∨ type.Faithful v)

end Consumer

/-- A value of a narrow type on its way from a source to a consumer. -/
structure NarrowUse where
  method : Method
  type : NarrowType
  value : Int
  range : 0 ≤ value ∧ value < 2 ^ type.type.precision
  source : Source
  dups : Nat
  consumer : Consumer
  code : List (Nat × Instr)
  instructions : code.map Prod.snd =
    source.instr type :: (List.replicate dups .dup ++ consumer.instrs)
  state : State
  start : Memory
  memory : Memory
  running : Running start state memory
  size : state.size = method.maxStack
  unsaved : ∀ label stack, state.labelData label ≠ .saved stack
  room : state.stack.entries.length + dups + 2 ≤ method.maxStack
  yields : source.Yields method type value state memory
  accepts : consumer.Accepts method type dups (source.below state.stack.entries)

def NarrowType.stored (type : NarrowType) (v : Int) : Int := type.type.tracked.type.wrap v

/-- The value is in the variable `entry` on top of the stack, over the given
entries. -/
structure OnTop (method : Method) (start : Memory) (type : TrackedInt) (x : Int)
    (below : List Decl) (state : State) (memory : Memory) (entry : Decl) : Prop where
  running : Running start state memory
  size : state.size = method.maxStack
  unsaved : ∀ label stack, state.labelData label ≠ .saved stack
  entries : state.stack.entries = entry :: below
  typeEq : entry.type = .int type.type
  value : memory.value entry = x

section Steps

variable {method : Method} {start memory : Memory} {state : State}

theorem onTop_of_push (running : Running start state memory)
    (size : state.size = method.maxStack)
    (unsaved : ∀ label stack, state.labelData label ≠ .saved stack)
    (room : state.stack.entries.length < method.maxStack) (type : IntType) (expr : Expr)
    {x : Int} (evaluated : expr.eval memory = some x) :
    ∃ state' memory' entry, append (instrPush (.int type) expr) state = some state' ∧
      OnTop method start type.tracked (type.tracked.type.wrap x) state.stack.entries
        state' memory' entry ∧
      ∀ older ∈ state.stack.entries, memory'.value older = memory.value older := by
  have room' : state.stack.topIndex < state.size := by
    rw [running.wellFormed.topIndex, size]
    exact room
  obtain ⟨state', entry, appended, pushed⟩ :=
    append_push running.wellFormed room' (.int type) expr
  refine ⟨state', _, entry, appended, ⟨running.push pushed evaluated, pushed.size.trans size,
    ?_, pushed.entries, ?_, Memory.set_value_self _ _ _⟩, ?_⟩
  · rw [pushed.labelData]
    exact unsaved
  · rw [pushed.typeEq, stackType_int]
  · intro older membership
    exact Memory.set_value_of_ne _ _ (pushed.fresh older membership)

theorem OnTop.setLabel {type : TrackedInt} {x : Int} {below : List Decl} {entry : Decl}
    (onTop : OnTop method start type x below state memory entry) (offset : Nat) :
    OnTop method start type x below (scilSetLabel offset state) memory entry := by
  obtain ⟨running, stackEq, unsaved⟩ := onTop.running.setLabel onTop.unsaved offset
  exact ⟨running, by simpa using onTop.size, unsaved, by rw [stackEq]; exact onTop.entries,
    onTop.typeEq, onTop.value⟩

theorem OnTop.popped {type : TrackedInt} {x : Int} {below : List Decl} {entry : Decl}
    (onTop : OnTop method start type x below state memory entry) :
    scilStackPop state = some (entry, state.popped) ∧
      Running start state.popped memory ∧ state.popped.stack.entries = below :=
  ⟨scilStackPop_cons onTop.entries, onTop.running.popped onTop.entries,
    by simp [State.popped, onTop.entries]⟩

theorem OnTop.dup {type : TrackedInt} {x : Int} {below : List Decl} {entry : Decl}
    (onTop : OnTop method start type x below state memory entry)
    (holds : type.type.Holds x) (room : below.length + 1 < method.maxStack) :
    ∃ state' memory' entry', execute method .dup state = some state' ∧
      OnTop method start type x (entry :: below) state' memory' entry' := by
  have statement : execute method .dup state =
      append (instrPush (.int type.type) (.decl entry)) state := by
    simp [execute, scilInstrDup, scilStackTop, onTop.entries, scilInstrPush, Expr.type,
      onTop.typeEq]
  obtain ⟨state', memory', entry', appended, onTop', -⟩ :=
    onTop_of_push onTop.running onTop.size onTop.unsaved
      (by rw [onTop.entries]; exact room) type.type (.decl entry) (congrArg some onTop.value)
  rw [TrackedInt.tracked_type, IntType.wrap_of_holds holds, onTop.entries] at onTop'
  exact ⟨state', memory', entry', statement.trans appended, onTop'⟩

theorem parseInstructions_singleton (offset : Nat) (instr : Instr) (state : State) :
    parseInstructions method [(offset, instr)] state =
      execute method instr (scilSetLabel offset state) := by
  simp [parseInstructions]

theorem parseInstructions_append (first second : List (Nat × Instr)) (state : State) :
    parseInstructions method (first ++ second) state =
      (parseInstructions method first state).bind (parseInstructions method second) := by
  induction first generalizing state with
  | nil => rfl
  | cons entry rest ih =>
    simp only [List.cons_append, parseInstructions, Option.bind_eq_bind, Option.bind_assoc]
    congr 1
    funext state'
    exact ih state'

theorem OnTop.dups {type : TrackedInt} {x : Int} {below : List Decl} {entry : Decl}
    (onTop : OnTop method start type x below state memory entry)
    (holds : type.type.Holds x) {count : Nat} (room : below.length + count + 1 ≤ method.maxStack)
    {code : List (Nat × Instr)} (instructions : code.map Prod.snd = List.replicate count .dup) :
    ∃ state' memory' entry' below', parseInstructions method code state = some state' ∧
      OnTop method start type x below' state' memory' entry' ∧
      below'.length = below.length + count ∧ (count = 0 → below' = below) ∧
      (count ≠ 0 → ∃ copy rest, below' = copy :: rest ∧ copy.type = .int type.type) := by
  induction count generalizing state memory entry below code with
  | zero =>
    obtain rfl : code = [] := by simpa using instructions
    exact ⟨state, memory, entry, below, rfl, onTop, rfl, fun _ => rfl, fun h => absurd rfl h⟩
  | succ count ih =>
    rw [List.replicate_succ, List.map_eq_cons_iff] at instructions
    obtain ⟨⟨offset, instr⟩, rest, rfl, rfl, instructions⟩ := instructions
    obtain ⟨state₁, memory₁, entry₁, executed, onTop₁⟩ :=
      (onTop.setLabel offset).dup holds (by omega)
    obtain ⟨state', memory', entry', below', parsed, onTop', length, same, copied⟩ :=
      ih onTop₁ (by simp only [List.length_cons]; omega) instructions
    refine ⟨state', memory', entry', below', by simp [parseInstructions, executed, parsed],
      onTop', by rw [length, List.length_cons]; omega, by omega, fun _ => ?_⟩
    by_cases last : count = 0
    · exact ⟨entry, below, same last, onTop.typeEq⟩
    · exact copied last

section Operands

variable {op1 op2 : Decl} {rest : List Decl} {type2 : TrackedInt}

theorem scilInstrOperator_eq (operator : Operator) (target : Target)
    (entries : state.stack.entries = op2 :: op1 :: rest) (type2Eq : op2.type = .int type2.type) :
    ∃ type code, scilInstrOperator target operator state =
      append (instrPush type (.binary code type
        ((Operation.operator operator).operandExpr target type2 op1 op2)
        ((Operation.operator operator).operandExpr target type2 op2 op1)))
        state.popped.popped := by
  have entries1 : state.popped.stack.entries = op1 :: rest := by simp [State.popped, entries]
  have top : scilStackTop state = some op2 := by simp [scilStackTop, entries]
  have integer : op2.type.isIntegerType = true := by
    rw [type2Eq]
    cases type2 <;> rfl
  have signed : ∀ code, append (instrBinop target code) state =
      append (instrPush (widerType target op1.type op2.type)
        (.binary code (widerType target op1.type op2.type)
          (widen target op1.type op2.type (.decl op1))
          (widen target op2.type op1.type (.decl op2)))) state.popped.popped := by
    intro code
    simp [append, instrBinop, scilStackPop_cons entries, scilStackPop_cons entries1]
  have unsigned : ∀ code, append (instrBinopUn target code) state =
      append (instrPush (.int type2.unsignedType) (.binary code (.int type2.unsignedType)
        (.convert (.int type2.unsignedType) (.decl op1))
        (.convert (.int type2.unsignedType) (.decl op2)))) state.popped.popped := by
    intro code
    simp [append, instrBinopUn, top, type2Eq, scilHookUnsignedType_tracked, popConvert,
      scilStackPop_cons entries, scilStackPop_cons entries1]
  cases operator with
  | div =>
    refine ⟨_, .truncDiv, Eq.trans ?_ (signed _)⟩
    simp [scilInstrOperator, appendBinopCases, top, integer]
  | divUn | remUn | shrUn => exact ⟨_, _, unsigned _⟩
  | _ => exact ⟨_, _, signed _⟩

theorem scilInstrCompare_eq (comparison : Comparison) (target : Target)
    (entries : state.stack.entries = op2 :: op1 :: rest) (type2Eq : op2.type = .int type2.type) :
    ∃ code, scilInstrCompare target comparison state =
      append (instrPush (.int .bool) (.binary code (.int .bool)
        ((Operation.compare comparison).operandExpr target type2 op1 op2)
        ((Operation.compare comparison).operandExpr target type2 op2 op1)))
        state.popped.popped := by
  have entries1 : state.popped.stack.entries = op1 :: rest := by simp [State.popped, entries]
  have top : scilStackTop state = some op2 := by simp [scilStackTop, entries]
  have integer : (Ty.int type2.type).isIntegerType = true := by cases type2 <;> rfl
  have signed : ∀ code, appendCompare target code state =
      append (instrPush (.int .bool) (.binary code (.int .bool)
        (widen target op1.type op2.type (.decl op1))
        (widen target op2.type op1.type (.decl op2)))) state.popped.popped := by
    intro code
    simp [appendCompare, append, instrBinopTyped, scilStackPop_cons entries,
      scilStackPop_cons entries1]
  have unsigned : ∀ intCode realCode, appendCompareUn target intCode realCode state =
      append (instrPush (.int .bool) (.binary intCode (.int .bool)
        (.convert (.int type2.unsignedType) (.decl op1))
        (.convert (.int type2.unsignedType) (.decl op2)))) state.popped.popped := by
    intro intCode realCode
    simp [appendCompareUn, append, instrBinopUnTyped, top, type2Eq, integer,
      scilHookUnsignedType_tracked, popConvert, scilStackPop_cons entries,
      scilStackPop_cons entries1]
  cases comparison with
  | neUn | geUn | gtUn | leUn | ltUn => exact ⟨_, unsigned _ _⟩
  | _ => exact ⟨_, signed _⟩

theorem operandValue_push (running : Running start state memory) {state' : State}
    {variable_ : Decl} {type : Ty} {expr : Expr}
    (pushed : Pushed state type expr state' variable_) (index : Nat) :
    operandValue index start state'.body =
      ((operandsOf (.modify (.decl variable_) (.convert (stackType type) expr)))[index]?).bind
        fun operand => operand.eval memory := by
  simp [operandValue, pushed.body, running.executed]

theorem operandValue_branch (index : Nat) (condition : Expr) (onTrue : Bool) (target : Nat)
    (body : List Stmt) {stmt : Stmt} (last : body.getLast? = some stmt)
    (notBranch : ∀ condition onTrue target, stmt ≠ .condGoto condition onTrue target) :
    operandValue index start (body ++ [.condGoto condition onTrue target]) =
      operandValue index start body := by
  have kept : (match body.getLast? with
      | some (.condGoto _ _ _) => body.dropLast
      | _ => body) = body := by
    rw [last]
    split
    · rename_i equal
      exact absurd (Option.some.inj equal) (notBranch _ _ _)
    · rfl
  simp only [operandValue, List.getLast?_append, List.getLast?_singleton, Option.some_or,
    List.dropLast_concat, kept]

theorem Operation.operands {operation : Operation} {instr : Instr}
    (implemented : operation.instr = some instr) (running : Running start state memory)
    (size : state.size = method.maxStack) (entries : state.stack.entries = op2 :: op1 :: rest)
    (room : rest.length < method.maxStack) (type2Eq : op2.type = .int type2.type) :
    ∃ state', execute method instr state = some state' ∧
      operandValue 0 start state'.body =
        (operation.operandExpr method.target type2 op1 op2).eval memory ∧
      operandValue 1 start state'.body =
        (operation.operandExpr method.target type2 op2 op1).eval memory := by
  have entries1 : state.popped.stack.entries = op1 :: rest := by simp [State.popped, entries]
  have running2 := (running.popped entries).popped entries1
  have room2 : state.popped.popped.stack.topIndex < state.popped.popped.size := by
    rw [running2.wellFormed.topIndex]
    simpa [State.popped, entries, size] using room
  have emitted := fun type code => append_push running2.wellFormed room2 type (.binary code type
    (operation.operandExpr method.target type2 op1 op2)
    (operation.operandExpr method.target type2 op2 op1))
  cases operation with
  | rem => cases implemented
  | operator operator =>
    cases implemented
    obtain ⟨type, code, statement⟩ := scilInstrOperator_eq operator method.target entries type2Eq
    obtain ⟨state', variable_, appended, pushed⟩ := emitted type code
    refine ⟨state', statement.trans appended, ?_, ?_⟩
    · rw [operandValue_push running2 pushed]
      rfl
    · rw [operandValue_push running2 pushed]
      rfl
  | compare comparison =>
    cases implemented
    obtain ⟨code, statement⟩ := scilInstrCompare_eq comparison method.target entries type2Eq
    obtain ⟨state', variable_, appended, pushed⟩ := emitted (.int .bool) code
    refine ⟨state', statement.trans appended, ?_, ?_⟩
    · rw [operandValue_push running2 pushed]
      rfl
    · rw [operandValue_push running2 pushed]
      rfl
  | branch comparison target =>
    cases implemented
    obtain ⟨code, statement⟩ := scilInstrCompare_eq comparison method.target entries type2Eq
    obtain ⟨state', variable_, appended, pushed⟩ := emitted (.int .bool) code
    have compared : scilInstrCompare method.target comparison state = some state' :=
      statement.trans appended
    have last : state'.popped.body.getLast? = some (.modify (.decl variable_)
        (.convert (stackType (.int .bool)) (.binary code (.int .bool)
          ((Operation.branch comparison target).operandExpr method.target type2 op1 op2)
          ((Operation.branch comparison target).operandExpr method.target type2 op2 op1)))) := by
      change state'.body.getLast? = _
      rw [pushed.body, List.getLast?_append]
      rfl
    have branched : ∀ index, operandValue index start (state'.popped.body ++
        [.condGoto (.convert (.int .bool) (.decl variable_)) true target]) =
          operandValue index start state'.popped.body := fun index =>
      operandValue_branch index _ _ _ _ last fun _ _ _ equal => by cases equal
    refine ⟨scilAppendStmt (.condGoto (.convert (.int .bool) (.decl variable_)) true target)
      (instrGoto target state'.popped), ?_, ?_, ?_⟩
    · simp [execute, compared, scilInstrBranchTrue, popConvert, scilStackPop_cons pushed.entries]
    · simp only [scilAppendStmt, instrGoto_body, branched]
      change operandValue 0 start state'.body = _
      rw [operandValue_push running2 pushed]
      rfl
    · simp only [scilAppendStmt, instrGoto_body, branched]
      change operandValue 1 start state'.body = _
      rw [operandValue_push running2 pushed]
      rfl

end Operands

/-- The value that a consumer gets from a stack variable of the type that holds `x`. -/
def Consumer.read (method : Method) (type : TrackedInt) (x : Int) : Consumer → Option Int
  | .store place =>
    match (place.decl method).map Decl.type with
    | some (.int dest) => some (dest.wrap x)
    | _ => none
  | .firstOperand other operation =>
    if operation = .rem then none
    else if operation.isUnsigned then
      (other.pushed method).map fun pushed => pushed.1.tracked.unsignedType.wrap x
    else some x
  | .secondOperand operation =>
    if operation = .rem then none
    else if operation.isUnsigned then some (type.unsignedType.wrap x)
    else some x
  | _ => some x

theorem Operation.eval_operandExpr (operation : Operation) {target : Target}
    {type type2 other : TrackedInt} {op otherOp : Decl} {x : Int}
    (opType : op.type = .int type.type) (otherType : otherOp.type = .int other.type)
    (value : memory.value op = x) (holds : type.type.Holds x) :
    (operation.operandExpr target type2 op otherOp).eval memory =
      some (if operation.isUnsigned then type2.unsignedType.wrap x else x) := by
  rw [operandExpr]
  split
  · simp [Expr.eval, value]
  · rw [opType, otherType, eval_widen value holds]

theorem code_singleton {code : List (Nat × Instr)} {instr : Instr}
    (instructions : code.map Prod.snd = [instr]) : ∃ offset, code = [(offset, instr)] := by
  obtain ⟨⟨offset, instr'⟩, rest, rfl, rfl, empty⟩ := List.map_eq_cons_iff.mp instructions
  obtain rfl : rest = [] := by simpa using empty
  exact ⟨offset, rfl⟩

theorem OnTop.convert (wide : TrackedInt) {type : TrackedInt} {x : Int} {below : List Decl}
    {entry : Decl}
    (onTop : OnTop method start type x below state memory entry) (holds : type.type.Holds x)
    (wider : type.type.precision ≤ wide.type.precision)
    (room : below.length + 2 ≤ method.maxStack) (offset : Nat) :
    ∃ state' memory' entry',
      execute method (.conv (.int wide.type)) (scilSetLabel offset state) = some state' ∧
      OnTop method start wide x below state' memory' entry' := by
  have labelled := onTop.setLabel offset
  obtain ⟨popped, running, entries⟩ := labelled.popped
  obtain ⟨state', memory', entry', appended, onTop', -⟩ :=
    onTop_of_push running labelled.size labelled.unsaved (by rw [entries]; omega)
      wide.type (.decl entry) (congrArg some labelled.value)
  rw [TrackedInt.tracked_type, entries,
    IntType.wrap_of_holds (TrackedInt.holds_mono wider holds)] at onTop'
  refine ⟨state', memory', entry', ?_, onTop'⟩
  simp [execute, scilInstrConvert, popped, appended]

theorem OnTop.unary {type : TrackedInt} {x : Int} {below : List Decl} {entry : Decl}
    (onTop : OnTop method start type x below state memory entry)
    (room : below.length + 2 ≤ method.maxStack) (operation : UnaryCode) (offset : Nat) :
    ∃ state', append (instrUnop operation) (scilSetLabel offset state) = some state' ∧
      operandValue 0 start state'.body = some x := by
  have labelled := onTop.setLabel offset
  obtain ⟨popped, running, entries⟩ := labelled.popped
  have room' : (scilSetLabel offset state).popped.stack.topIndex <
      (scilSetLabel offset state).popped.size := by
    rw [running.wellFormed.topIndex, entries]
    exact labelled.size.symm ▸ (by omega)
  obtain ⟨state', variable_, appended, pushed⟩ := append_push running.wellFormed room' entry.type
    (.unary operation entry.type (.decl entry))
  refine ⟨state', ?_, ?_⟩
  · rw [← appended]
    simp [append, instrUnop, popped]
  · rw [operandValue_push running pushed]
    exact congrArg some labelled.value

theorem OnTop.consume {type : NarrowType} {x : Int} {below : List Decl} {entry : Decl}
    (onTop : OnTop method start type.type.tracked x below state memory entry)
    (holds : type.type.tracked.type.Holds x) (room : below.length + 2 ≤ method.maxStack)
    {consumer : Consumer}
    (store : ∀ place, consumer = .store place →
      ∃ decl dest, place.decl method = some decl ∧ decl.type = .int dest)
    (first : ∀ other operation, consumer = .firstOperand other operation →
      ∃ pushed, other.pushed method = some pushed)
    (second : ∀ operation, consumer = .secondOperand operation →
      ∃ entry rest, below = entry :: rest ∧ ∃ other : TrackedInt, entry.type = .int other.type)
    {code : List (Nat × Instr)} (instructions : code.map Prod.snd = consumer.instrs) :
    ∃ state', parseInstructions method code state = some state' ∧
      consumer.observe method start state' = consumer.read method type.type.tracked x := by
  have narrow : type.type.tracked.type.precision ≤ 32 := by cases type <;> decide
  cases consumer with
  | store place =>
    obtain ⟨decl, dest, found, destEq⟩ := store place rfl
    obtain ⟨offset, rfl⟩ := code_singleton instructions
    have labelled := onTop.setLabel offset
    obtain ⟨popped, running, -⟩ := labelled.popped
    have executed : (Stmt.modify (.decl decl) (.convert decl.type (.decl entry))).exec memory =
        some (memory.set decl (dest.wrap x)) := by
      simp [Stmt.exec, destEq, Expr.eval, labelled.value]
    have stored := running.appendStmt executed
    refine ⟨scilAppendStmt (.modify (.decl decl) (.convert decl.type (.decl entry)))
      (scilSetLabel offset state).popped, ?_, ?_⟩
    · simp [parseInstructions, place.execute_store found, scilInstrPopInto, popConvert, popped]
    · simp only [Consumer.observe, stored.executed]
      simp [found, Consumer.read, destEq]
  | convI4 =>
    obtain ⟨offset, rfl⟩ := code_singleton instructions
    obtain ⟨state', memory', entry', executed, onTop'⟩ :=
      onTop.convert .int32 holds narrow room offset
    refine ⟨state', (parseInstructions_singleton ..).trans executed, ?_⟩
    simp [Consumer.observe, onTop'.running.executed, scilStackTop, onTop'.entries,
      onTop'.value, Consumer.read]
  | convI8 =>
    obtain ⟨offset, rfl⟩ := code_singleton instructions
    obtain ⟨state', memory', entry', executed, onTop'⟩ :=
      onTop.convert .int64 holds (narrow.trans (by decide)) room offset
    refine ⟨state', (parseInstructions_singleton ..).trans executed, ?_⟩
    simp [Consumer.observe, onTop'.running.executed, scilStackTop, onTop'.entries,
      onTop'.value, Consumer.read]
  | neg =>
    obtain ⟨offset, rfl⟩ := code_singleton instructions
    obtain ⟨state', executed, operand⟩ := onTop.unary room .negate offset
    exact ⟨state', (parseInstructions_singleton ..).trans executed, operand⟩
  | not =>
    obtain ⟨offset, rfl⟩ := code_singleton instructions
    obtain ⟨state', executed, operand⟩ := onTop.unary room .bitNot offset
    exact ⟨state', (parseInstructions_singleton ..).trans executed, operand⟩
  | firstOperand other operation =>
    obtain ⟨⟨otherType, expr⟩, pushes⟩ := first other operation rfl
    obtain ⟨⟨offset, load⟩, tail, rfl, loadEq, tailEq⟩ := List.map_eq_cons_iff.mp instructions
    obtain rfl : load = other.instr := loadEq
    have labelled := onTop.setLabel offset
    obtain ⟨executes, y, evaluated⟩ := other.execute_pushed pushes (scilSetLabel offset state) memory
    obtain ⟨state₁, memory₁, entry₁, loaded, onTop₁, frame⟩ :=
      onTop_of_push labelled.running labelled.size labelled.unsaved
        (by rw [labelled.entries, List.length_cons]; omega) otherType _ evaluated
    have kept : memory₁.value entry = x :=
      (frame entry (by simp [labelled.entries])).trans labelled.value
    rw [← executes] at loaded
    cases implemented : operation.instr with
    | none =>
      obtain rfl : operation = .rem := by
        cases operation <;> first | rfl | cases implemented
      obtain rfl : tail = [] := List.map_eq_nil_iff.mp tailEq
      exact ⟨state₁, by simp [parseInstructions, loaded], rfl⟩
    | some instr =>
      have notRem : operation ≠ .rem := by
        rintro rfl
        cases implemented
      rw [implemented] at tailEq
      obtain ⟨offset', rfl⟩ := code_singleton tailEq
      have labelled₁ := onTop₁.setLabel offset'
      have entries := labelled₁.entries
      rw [labelled.entries] at entries
      obtain ⟨state', executed, operand, -⟩ := Operation.operands implemented
        labelled₁.running labelled₁.size entries (by omega) labelled₁.typeEq
      refine ⟨state', ?_, ?_⟩
      · simp only [parseInstructions, loaded, Option.bind_eq_bind, Option.bind_some, executed]
      · simp only [Consumer.observe, Consumer.read, if_neg notRem, operand, pushes,
          operation.eval_operandExpr labelled.typeEq labelled₁.typeEq kept holds]
        split <;> rfl
  | secondOperand operation =>
    cases implemented : operation.instr with
    | none =>
      obtain rfl : operation = .rem := by
        cases operation <;> first | rfl | cases implemented
      obtain rfl : code = [] := List.map_eq_nil_iff.mp instructions
      exact ⟨state, rfl, rfl⟩
    | some instr =>
      have notRem : operation ≠ .rem := by
        rintro rfl
        cases implemented
      obtain ⟨other, rest, rfl, otherType, otherTypeEq⟩ := second operation rfl
      rw [Consumer.instrs, implemented] at instructions
      obtain ⟨offset, rfl⟩ := code_singleton instructions
      have labelled := onTop.setLabel offset
      obtain ⟨state', executed, -, operand⟩ := Operation.operands implemented labelled.running
        labelled.size labelled.entries (by simp only [List.length_cons] at room; omega)
        labelled.typeEq
      refine ⟨state', (parseInstructions_singleton ..).trans executed, ?_⟩
      simp only [Consumer.observe, Consumer.read, if_neg notRem, operand,
        operation.eval_operandExpr labelled.typeEq otherTypeEq labelled.value holds]
      split <;> rfl

theorem NarrowType.wrap_type (type : NarrowType) (notBool : type ≠ .bool) (x : Int) :
    type.type.tracked.type.wrap (type.type.wrap x) = type.stored x := by
  have samePrecision : type.type.tracked.type.precision = type.type.precision := by
    cases type <;> first | rfl | contradiction
  exact wrap_wrap_of_le samePrecision.le _ _ x

theorem NarrowType.wrap_type_of_range (type : NarrowType) {v : Int}
    (range : 0 ≤ v ∧ v < 2 ^ type.type.precision) :
    type.type.tracked.type.wrap (type.type.wrap v) = type.stored v := by
  by_cases isBool : type = .bool
  · subst isBool
    have bit : v = 0 ∨ v = 1 := by
      have : v < 2 := range.2
      omega
    rcases bit with rfl | rfl <;> rfl
  · exact type.wrap_type isBool v

theorem Source.onTop {type : NarrowType} {v : Int} {source : Source}
    (range : 0 ≤ v ∧ v < 2 ^ type.type.precision) (running : Running start state memory)
    (size : state.size = method.maxStack)
    (unsaved : ∀ label stack, state.labelData label ≠ .saved stack)
    (room : state.stack.entries.length < method.maxStack)
    (yields : source.Yields method type v state memory) :
    ∃ state' memory' entry, execute method (source.instr type) state = some state' ∧
      OnTop method start type.type.tracked (type.stored v)
        (source.below state.stack.entries) state' memory' entry := by
  cases source with
  | variable_ place =>
    obtain ⟨decl, found, typeEq, value⟩ := yields
    obtain ⟨state', memory', entry, appended, onTop, -⟩ :=
      onTop_of_push running size unsaved room type.type (.decl decl)
        (congrArg some value)
    rw [type.wrap_type_of_range range] at onTop
    rw [← typeEq, ← place.execute_load found] at appended
    exact ⟨state', memory', entry, appended, onTop⟩
  | field decl =>
    obtain ⟨typeEq, object, rest, entries, value⟩ := yields
    have entries' : state.popped.stack.entries = state.stack.entries.tail := rfl
    -- The field is read through a pointer or out of a value type.
    obtain ⟨reference, resolved, referenceType, evaluated⟩ : ∃ reference,
        instrResolveField decl state = some (reference, state.popped) ∧
        reference.type = some decl.type ∧
        reference.eval memory = some (type.type.wrap v) := by
      by_cases pointer : object.type = .pointer
      · rw [if_pos pointer] at value
        refine ⟨_, by simp [instrResolveField, scilStackPop_cons entries, pointer]; rfl,
          rfl, ?_⟩
        simp [Expr.eval, value]
      · rw [if_neg pointer] at value
        refine ⟨_, by simp [instrResolveField, scilStackPop_cons entries, pointer]; rfl,
          rfl, ?_⟩
        simp [Expr.eval, value]
    obtain ⟨state', memory', entry, appended, onTop, -⟩ :=
      onTop_of_push (running.popped entries) size unsaved
        (by rw [entries', List.length_tail]; omega) type.type _ evaluated
    rw [type.wrap_type_of_range range] at onTop
    refine ⟨state', memory', entry, ?_, onTop⟩
    simp [Source.instr, execute, scilInstrPushField, resolved, scilInstrPush, referenceType,
      typeEq, appended]
  | conv =>
    obtain ⟨unsigned, operand, rest, entries, rfl⟩ := yields
    have notBool : type ≠ .bool := by
      rintro rfl
      simp at unsigned
    have entries' : state.popped.stack.entries = state.stack.entries.tail := rfl
    obtain ⟨state', memory', entry, appended, onTop, -⟩ :=
      onTop_of_push (running.popped entries) size unsaved
        (by rw [entries', List.length_tail]; omega) type.type (.decl operand) rfl
    have sameBits : type.stored (type.type.wrap (memory.value operand)) =
        type.type.tracked.type.wrap (memory.value operand) :=
      type.wrap_type notBool (memory.value operand)
    rw [sameBits]
    refine ⟨state', memory', entry, ?_, onTop⟩
    simp [Source.instr, execute, scilInstrConvert, scilStackPop_cons entries, appended]

end Steps

theorem TrackedInt.wrap_of_nonneg {tracked : TrackedInt} {p : Nat}
    (precision : tracked.type.precision = p) {v : Int} (range : 0 ≤ v ∧ v < 2 ^ p) :
    (v < 2 ^ (p - 1) → tracked.type.wrap v = v) ∧
      (¬ v < 2 ^ (p - 1) → tracked.type.wrap v = v - 2 ^ p) := by
  have positive : 0 < p := precision ▸ tracked.type.precision_pos
  have even : (2 : Int) ^ p = 2 * 2 ^ (p - 1) := by
    rw [← pow_succ', Nat.sub_add_cancel positive]
  have holds : ∀ x : Int, -(2 ^ p : Int) ≤ 2 * x → 2 * x < 2 ^ p → tracked.type.Holds x := by
    intro x lower upper
    unfold IntType.Holds
    rw [tracked.unsigned_type, inRange_signed, precision]
    push_cast
    exact ⟨lower, upper⟩
  constructor
  · intro below
    exact IntType.wrap_of_holds (holds v (by omega) (by omega))
  · intro above
    have congruent : tracked.type.wrap v = tracked.type.wrap (v - 2 ^ p) := by
      refine wrap_congr _ ?_
      rw [precision]
      push_cast
      exact Int.modEq_iff_dvd.mpr ⟨-1, by ring⟩
    rw [congruent]
    exact IntType.wrap_of_holds (holds _ (by omega) (by omega))

theorem NarrowType.stored_eq (type : NarrowType) {v : Int}
    (range : 0 ≤ v ∧ v < 2 ^ type.type.precision) :
    (type.Faithful v → type.stored v = type.ecmaValue v) ∧
      (¬ type.Faithful v → type.stored v = type.ecmaValue v - 2 ^ type.type.precision) := by
  by_cases isBool : type = .bool
  · subst isBool
    have bit : v = 0 ∨ v = 1 := by
      have : v < 2 := range.2
      omega
    refine ⟨fun _ => ?_, fun unfaithful => absurd (.inl rfl) unfaithful⟩
    rcases bit with rfl | rfl <;> rfl
  by_cases isWord : type = .uint32
  · subst isWord
    exact ⟨fun _ => rfl, fun unfaithful => absurd (.inr (.inl rfl)) unfaithful⟩
  have precision : type.type.tracked.type.precision = type.type.precision := by
    cases type <;> first | rfl | contradiction
  have prescribed : type.ecmaValue v = v := by
    cases type <;> first | rfl | contradiction
  have reading := TrackedInt.wrap_of_nonneg precision range
  rw [prescribed]
  refine ⟨fun faithful => ?_, fun unfaithful => ?_⟩
  · rcases faithful with same | same | below
    · contradiction
    · contradiction
    · exact reading.1 below
  · exact reading.2 fun below => unfaithful (.inr (.inr below))

theorem NarrowType.wrap_stored_iff (type : NarrowType) {v : Int}
    (range : 0 ≤ v ∧ v < 2 ^ type.type.precision) {dest : IntType}
    (wider : type.type.precision < dest.precision) :
    dest.wrap (type.stored v) = dest.wrap (type.ecmaValue v) ↔ type.Faithful v := by
  obtain ⟨whenFaithful, otherwise_⟩ := type.stored_eq range
  constructor
  · intro equality
    by_contra unfaithful
    rw [otherwise_ unfaithful] at equality
    have congruent := ((wrap_eq_wrap_iff dest.unsigned).mp equality).dvd
    rw [sub_sub_cancel] at congruent
    have divides : 2 ^ dest.precision ∣ 2 ^ type.type.precision := by exact_mod_cast congruent
    exact absurd ((Nat.pow_dvd_pow_iff_le_right (by decide)).mp divides) (by omega)
  · intro faithful
    rw [whenFaithful faithful]

theorem NarrowType.stored_iff (type : NarrowType) {v : Int}
    (range : 0 ≤ v ∧ v < 2 ^ type.type.precision) :
    type.stored v = type.ecmaValue v ↔ type.Faithful v := by
  obtain ⟨whenFaithful, otherwise_⟩ := type.stored_eq range
  refine ⟨fun equality => ?_, whenFaithful⟩
  by_contra unfaithful
  have different := otherwise_ unfaithful
  have positive : (0 : Int) < 2 ^ type.type.precision := by positivity
  omega

theorem TrackedInt.eq_of_precision {a b : TrackedInt}
    (same : a.type.precision = b.type.precision) : a = b := by
  cases a <;> cases b <;> first | rfl | exact absurd same (by decide)

/-- The unsigned type of a width reads the value if it fits, and the sign bit of the stack variable
is clear or that of the width. -/
theorem NarrowType.unsigned_stored_iff (type : NarrowType) {v : Int}
    (range : 0 ≤ v ∧ v < 2 ^ type.type.precision) (other : TrackedInt) :
    other.unsignedType.wrap (type.stored v) = v ↔
      v < 2 ^ other.type.precision ∧
        (v < 2 ^ (type.type.tracked.type.precision - 1) ∨ other = type.type.tracked) := by
  have storage : type.type.precision ≤ type.type.tracked.type.precision := by
    cases type <;> decide
  have below : v < 2 ^ type.type.tracked.type.precision :=
    range.2.trans_le (pow_le_pow_right₀ (by decide) storage)
  obtain ⟨whenClear, whenSet⟩ := TrackedInt.wrap_of_nonneg rfl ⟨range.1, below⟩
  have reads : ∀ x : Int, other.unsignedType.wrap x = x % 2 ^ other.type.precision := by
    intro x
    have unsigned : other.unsignedType.unsigned = true := by cases other <;> rfl
    rw [IntType.wrap, unsigned, wrap_unsigned, other.precision_unsignedType]
    push_cast
    rfl
  have fits : v % 2 ^ other.type.precision = v ↔ v < 2 ^ other.type.precision :=
    ⟨fun same => same ▸ Int.emod_lt_of_pos _ (by positivity), Int.emod_eq_of_lt range.1⟩
  rw [reads, NarrowType.stored]
  by_cases clear : v < 2 ^ (type.type.tracked.type.precision - 1)
  · rw [whenClear clear, fits, and_iff_left (.inl clear)]
  · rw [whenSet clear, or_iff_right clear]
    constructor
    · intro same
      have small : v < 2 ^ other.type.precision := by
        rw [← same]
        exact Int.emod_lt_of_pos _ (by positivity)
      refine ⟨small, ?_⟩
      have divides : (2 : Int) ^ other.type.precision ∣ 2 ^ type.type.tracked.type.precision := by
        have back := Int.emod_add_mul_ediv (v - 2 ^ type.type.tracked.type.precision)
          (2 ^ other.type.precision)
        rw [same] at back
        exact ⟨-((v - 2 ^ type.type.tracked.type.precision) / 2 ^ other.type.precision),
          by linarith⟩
      have notWider : other.type.precision ≤ type.type.tracked.type.precision := by
        have naturals : 2 ^ other.type.precision ∣ 2 ^ type.type.tracked.type.precision := by
          exact_mod_cast divides
        exact (Nat.pow_dvd_pow_iff_le_right (by decide)).mp naturals
      have notNarrower : type.type.tracked.type.precision ≤ other.type.precision := by
        by_contra narrower
        exact clear (small.trans_le (pow_le_pow_right₀ (by decide) (by omega)))
      exact TrackedInt.eq_of_precision (notWider.antisymm notNarrower)
    · rintro ⟨-, rfl⟩
      rw [Int.sub_emod_right, Int.emod_eq_of_lt range.1 below]

/-- A narrow unsigned value is translated for every source, any number of
copies and every consumer but `rem`, and the consumer observes the prescribed value
exactly when it receives it. -/
theorem narrowUse_observes_iff (use : NarrowUse) :
    ∃ state', parseInstructions use.method use.code use.state = some state' ∧
      (use.consumer.observe use.method use.start state' =
          use.consumer.prescribed use.method use.type use.value ↔
        use.consumer.Receives use.method use.type use.value) := by
  obtain ⟨method, type, v, range, source, dups, consumer, code, instructions, state, start,
    memory, running, size, unsaved, room, yields, accepts⟩ := use
  dsimp only
  obtain ⟨⟨offset, instr⟩, tail, rfl, instrEq, tailEq⟩ := List.map_eq_cons_iff.mp instructions
  obtain rfl : instr = source.instr type := instrEq
  obtain ⟨copies, uses, rfl, copiesEq, usesEq⟩ := List.map_eq_append_iff.mp tailEq
  obtain ⟨running', stackEq, unsaved'⟩ := running.setLabel unsaved offset
  have yields' : source.Yields method type v (scilSetLabel offset state) memory := by
    cases source <;> simpa [Source.Yields, stackEq] using yields
  obtain ⟨state₁, memory₁, entry₁, executed, onTop₁⟩ :=
    source.onTop range running' (by simpa using size) unsaved'
      (by rw [stackEq]; omega) yields'
  rw [stackEq] at onTop₁
  have holds : type.type.tracked.type.Holds (type.stored v) := IntType.wrap_holds _ _
  have belowLength : (source.below state.stack.entries).length ≤ state.stack.entries.length := by
    cases source <;> simp [Source.below]
  obtain ⟨state₂, memory₂, entry₂, below₂, parsed, onTop₂, length, same, copied⟩ :=
    onTop₁.dups holds (by omega) copiesEq
  obtain ⟨state', consumed, observed⟩ := onTop₂.consume holds (by omega)
    (by
      rintro place rfl
      obtain ⟨decl, dest, found, destEq, -⟩ := accepts
      exact ⟨decl, dest, found, destEq⟩)
    (by
      rintro other operation rfl
      exact accepts)
    (by
      rintro operation rfl
      by_cases none_ : dups = 0
      · rw [same none_]
        exact accepts none_
      · obtain ⟨copy, rest, rfl, copyType⟩ := copied none_
        exact ⟨copy, rest, rfl, _, copyType⟩)
    usesEq
  refine ⟨state', ?_, ?_⟩
  · simp only [parseInstructions, executed, Option.bind_eq_bind, Option.bind_some,
      parseInstructions_append, parsed, consumed]
  · rw [observed]
    cases consumer with
    | store place =>
      obtain ⟨decl, dest, found, destEq, wider⟩ := accepts
      simpa [Consumer.read, Consumer.prescribed, Consumer.Receives, found, destEq] using
        type.wrap_stored_iff range wider
    | firstOperand other operation =>
      obtain ⟨pushed, pushes⟩ := accepts
      by_cases isRem : operation = .rem
      · simp [Consumer.read, Consumer.prescribed, Consumer.Receives, isRem]
      · by_cases unsigned : operation.isUnsigned = true
        · simpa [Consumer.read, Consumer.prescribed, Consumer.Receives, isRem, unsigned, pushes]
            using type.unsigned_stored_iff range pushed.1.tracked
        · simpa [Consumer.read, Consumer.prescribed, Consumer.Receives, isRem, unsigned]
            using type.stored_iff range
    | secondOperand operation =>
      by_cases isRem : operation = .rem
      · simp [Consumer.read, Consumer.prescribed, Consumer.Receives, isRem]
      · by_cases unsigned : operation.isUnsigned = true
        · have whole := (type.unsigned_stored_iff range type.type.tracked).mpr
            ⟨range.2.trans_le (pow_le_pow_right₀ (by decide) (by cases type <;> decide)),
              .inr rfl⟩
          simp [Consumer.read, Consumer.prescribed, Consumer.Receives, isRem, unsigned, whole]
        · simpa [Consumer.read, Consumer.prescribed, Consumer.Receives, isRem, unsigned]
            using type.stored_iff range
    | _ => simpa [Consumer.read, Consumer.prescribed, Consumer.Receives] using type.stored_iff range

/-- A method with a `uint8` and an `int32` local. -/
def byteAndWord : Method where
  target := target32
  parameters := []
  locals := [{ kind := .methodVariable, index := 0, type := .int .uint8 },
    { kind := .methodVariable, index := 1, type := .int .int32 }]
  result := none
  maxStack := 8

/-- A memory in which the `uint8` local is 200. -/
def byteMemory : Memory :=
  zeroMemory.set { kind := .methodVariable, index := 0, type := .int .uint8 } 200

/-- `ldloc.0; stloc.1` with 200 in the `uint8` local. -/
def byteToWord : NarrowUse where
  method := byteAndWord
  type := .uint8
  value := 200
  range := by decide
  source := .variable_ (.local_ 0)
  dups := 0
  consumer := .store (.local_ 1)
  code := [(0, .ldloc 0), (1, .stloc 1)]
  instructions := rfl
  state := State.initial 8 0
  start := byteMemory
  memory := byteMemory
  running := ⟨State.initial_wellFormed 8 0, rfl⟩
  size := rfl
  unsaved := by simp [State.initial]
  room := by decide
  yields := ⟨_, rfl, rfl, by decide⟩
  accepts := ⟨_, _, rfl, rfl, by decide⟩

/-- The `int32` local is left with -56 and not with 200. -/
theorem byteToWord_sign_extended :
    ((parseInstructions byteToWord.method byteToWord.code byteToWord.state).bind fun state =>
      byteToWord.consumer.observe byteToWord.method byteToWord.start state) = some (-56) ∧
    byteToWord.consumer.prescribed byteToWord.method byteToWord.type byteToWord.value =
      some 200 ∧ ¬ byteToWord.type.Faithful byteToWord.value := by
  refine ⟨by decide, by decide, ?_⟩
  rintro (same | same | below)
  · contradiction
  · contradiction
  · exact absurd below (by decide)

end GccCil.Scil
