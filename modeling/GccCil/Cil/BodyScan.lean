import Mathlib.Data.Nat.Digits.Defs
import Mathlib.Logic.Relation

/-!
# The scan of a method body in the gcc/cil front end

`parse_instructions` walks once over the bytes of a method body.  Before each
instruction it makes a label, then it translates the instruction and goes on by
the size that the opcode table gives.  This file has the walk, the instructions
that `parse_instr` and `parse_prefixed_instr` implement, the labels and the
branches.  What the trees of the other instructions look like, and the metadata
of the image, are a parameter.
-/

namespace GccCil.Cil.BodyScan

abbrev Byte := BitVec 8

/-- Bytes from a pointer on; what lies after the buffer is part of it. -/
abbrev Bytes := Nat → Byte

/-- The pointer `code + count`. -/
def Bytes.advance (code : Bytes) (count : Nat) : Bytes := fun index => code (count + index)

def ilReadUint32 (code : Bytes) : BitVec 32 := code 3 ++ code 2 ++ code 1 ++ code 0

abbrev Identifier := List Char

/-- A digit as `%X` prints it. -/
def upperHexDigit (digit : Nat) : Char :=
  if digit < 10 then Char.ofNat (48 + digit) else Char.ofNat (55 + digit)

/-- `%08lX`. -/
def formatHex (value : Nat) : List Char :=
  let digits := Nat.digits 16 value
  ((digits ++ List.replicate (8 - digits.length) 0).map upperHexDigit).reverse

section

variable {w : Nat}

/-- `get_label_name`; `w` is the number of bits of a `long`. -/
def getLabelName (offset : BitVec w) : Identifier := 'L' :: '_' :: formatHex offset.toNat

end

/-- The argument types of `ILOpcodeInfo` that `parse_instr_arg` tells apart. -/
inductive OpcodeArgs where
  | none
  | int8
  | int32
  | float32
  | float64
  | shortJump
  | longJump
  | switch
  /-- the types for which it reports an error -/
  | other
  deriving DecidableEq, Repr

structure ILOpcodeInfo where
  args : OpcodeArgs
  size : Nat
  deriving DecidableEq, Repr

inductive Comparison where
  | eq | ge | gt | le | lt | ne
  deriving DecidableEq, Repr

/-- The instructions `ldc.i4.s`, `ldc.i4`, `ldc.r4` and `ldc.r8`. -/
inductive ConstantForm where
  | i4s | i4 | r4 | r8
  deriving DecidableEq, Repr

inductive ArithmeticCode where
  | plus | minus | mult | div | bitAnd | bitIor | bitXor
  deriving DecidableEq, Repr

inductive UnaryCode where
  | negate | bitNot
  deriving DecidableEq, Repr

inductive ConvType where
  | int8 | int16 | int32 | int64 | float | double | uint32 | uint64 | uint16 | uint8
  | nativeInt | nativeUint
  deriving DecidableEq, Repr

/-- What the cases of `parse_instr` and `parse_prefixed_instr` do that do not
end in `internal_error`. -/
inductive Operation where
  | nop
  | ldarg (index : Nat)
  | ldloc (index : Nat)
  | stloc (index : Nat)
  | ldargS
  | stargS
  | ldlocS
  | ldlocaS
  | stlocS
  | ldnull
  | ldcI4 (value : Int)
  | ldc (form : ConstantForm)
  | dup
  | pop
  | call
  | callvirt
  | newobj
  | ldstr
  | ldfld
  | stfld
  | ldsfld
  | stsfld
  | newarr
  | ret
  | br (short : Bool)
  | brfalse (short : Bool)
  | brtrue (short : Bool)
  | branchComparison (short : Bool) (condition : Comparison) (unsignedp : Bool)
  | switch
  | arithmetic (code : ArithmeticCode)
  | unary (code : UnaryCode)
  | conv (type : ConvType)
  | ldlen
  | ldelem
  | stelem
  | compare (condition : Comparison)
  | ldftn
  | ldvirtftn
  | initobj
  deriving DecidableEq, Repr

/-- The cases of `parse_instr`, by opcode. -/
def mainOperations : List (Nat × Operation) :=
  [(0x00, .nop),
   (0x02, .ldarg 0), (0x03, .ldarg 1), (0x04, .ldarg 2), (0x05, .ldarg 3),
   (0x06, .ldloc 0), (0x07, .ldloc 1), (0x08, .ldloc 2), (0x09, .ldloc 3),
   (0x0A, .stloc 0), (0x0B, .stloc 1), (0x0C, .stloc 2), (0x0D, .stloc 3),
   (0x0E, .ldargS), (0x10, .stargS), (0x11, .ldlocS), (0x12, .ldlocaS), (0x13, .stlocS),
   (0x14, .ldnull),
   (0x15, .ldcI4 (-1)), (0x16, .ldcI4 0), (0x17, .ldcI4 1), (0x18, .ldcI4 2), (0x19, .ldcI4 3),
   (0x1A, .ldcI4 4), (0x1B, .ldcI4 5), (0x1C, .ldcI4 6), (0x1D, .ldcI4 7), (0x1E, .ldcI4 8),
   (0x1F, .ldc .i4s), (0x20, .ldc .i4), (0x22, .ldc .r4), (0x23, .ldc .r8),
   (0x25, .dup), (0x26, .pop), (0x28, .call), (0x2A, .ret),
   (0x2B, .br true), (0x2C, .brfalse true), (0x2D, .brtrue true),
   (0x2E, .branchComparison true .eq false), (0x2F, .branchComparison true .ge false),
   (0x30, .branchComparison true .gt false), (0x31, .branchComparison true .le false),
   (0x32, .branchComparison true .lt false), (0x33, .branchComparison true .ne true),
   (0x34, .branchComparison true .ge true), (0x35, .branchComparison true .gt true),
   (0x36, .branchComparison true .le true), (0x37, .branchComparison true .lt true),
   (0x38, .br false), (0x39, .brfalse false), (0x3A, .brtrue false),
   (0x3B, .branchComparison false .eq false), (0x3C, .branchComparison false .ge false),
   (0x3D, .branchComparison false .gt false), (0x3E, .branchComparison false .le false),
   (0x3F, .branchComparison false .lt false), (0x40, .branchComparison false .ne true),
   (0x41, .branchComparison false .ge true), (0x42, .branchComparison false .gt true),
   (0x43, .branchComparison false .le true), (0x44, .branchComparison false .lt true),
   (0x45, .switch),
   (0x58, .arithmetic .plus), (0x59, .arithmetic .minus), (0x5A, .arithmetic .mult), (0x5B, .arithmetic .div),
   (0x5F, .arithmetic .bitAnd), (0x60, .arithmetic .bitIor), (0x61, .arithmetic .bitXor),
   (0x65, .unary .negate), (0x66, .unary .bitNot),
   (0x67, .conv .int8), (0x68, .conv .int16), (0x69, .conv .int32), (0x6A, .conv .int64), (0x6B, .conv .float),
   (0x6C, .conv .double), (0x6D, .conv .uint32), (0x6E, .conv .uint64),
   (0x6F, .callvirt), (0x72, .ldstr), (0x73, .newobj),
   (0x7B, .ldfld), (0x7D, .stfld), (0x7E, .ldsfld), (0x80, .stsfld),
   (0x8D, .newarr), (0x8E, .ldlen),
   (0x90, .ldelem), (0x91, .ldelem), (0x92, .ldelem), (0x93, .ldelem), (0x94, .ldelem),
   (0x95, .ldelem), (0x99, .ldelem), (0x9A, .ldelem),
   (0x9C, .stelem), (0x9D, .stelem), (0x9E, .stelem), (0xA1, .stelem), (0xA2, .stelem),
   (0xD1, .conv .uint16), (0xD2, .conv .uint8), (0xD3, .conv .nativeInt), (0xE0, .conv .nativeUint)]

/-- The cases of `parse_prefixed_instr`, by the byte after the prefix. -/
def prefixedOperations : List (Nat × Operation) :=
  [(0x01, .compare .eq), (0x02, .compare .gt), (0x04, .compare .lt),
   (0x06, .ldftn), (0x07, .ldvirtftn), (0x15, .initobj)]

def mainOperation (opcode : Byte) : Option Operation := mainOperations.lookup opcode.toNat

def prefixedOperation (opcode : Byte) : Option Operation := prefixedOperations.lookup opcode.toNat

/-- A `LABEL_DECL`; the number stands for the address of the node. -/
structure LabelDecl where
  uid : Nat
  name : Option Identifier
  deriving DecidableEq, Repr

inductive IntegerType where
  | integerTypeNode
  | uint32TypeNode
  deriving DecidableEq, Repr

structure IntegerCst where
  type : IntegerType
  value : Nat
  deriving DecidableEq, Repr

structure CaseLabelExpr where
  low : IntegerCst
  label : LabelDecl
  deriving DecidableEq, Repr

/-- The trees that a walk over `TREE_CHAIN` meets.  The chain of a node that
`build` has just made is empty. -/
inductive Chain where
  | null
  | treeList (purpose : IntegerCst) (value : Identifier) (chain : Chain)
  | caseLabelExpr (tree : CaseLabelExpr)
  deriving DecidableEq, Repr

inductive Stmt (Node : Type) where
  | labelExpr (label : LabelDecl)
  | gotoExpr (label : LabelDecl)
  /-- a `COND_EXPR` whose branches are a `GOTO_EXPR` or empty -/
  | condExpr (cond : Option Node) (whenTrue whenFalse : Option LabelDecl)
  /-- a `SWITCH_EXPR` with its type and its three operands -/
  | switchExpr (type cond : Option Node)
      (body labels : Option (List (Option CaseLabelExpr)))
  | tree (node : Node)
  deriving DecidableEq

/-- The compile-time stack, top first, `current_function_body`, the labels of
the function and the number of the next node. -/
structure ParseState (Node : Type) where
  stack : List (Option Node)
  body : List (Stmt Node)
  labelDecl : Identifier → Option LabelDecl
  localLabels : List Identifier
  uid : Nat

def ParseState.initial (Node : Type) (uid : Nat) : ParseState Node :=
  ⟨[], [], fun _ => none, [], uid⟩

structure MethodInfo where
  params : Nat
  returnsVoid : Bool
  deriving DecidableEq, Repr

/-- What the opcode tables, the metadata of the image and the tree builders of
the compiler answer. -/
structure FrontEnd (Node : Type) where
  ilMainOpcodeTable : Byte → ILOpcodeInfo
  ilPrefixOpcodeTable : Byte → ILOpcodeInfo
  /-- `ENABLE_ASSERT_CHECKING` -/
  assertChecking : Bool
  ilMethodFromToken : BitVec 32 → Option MethodInfo
  /-- whether the trees can be built from the operand bytes and the nodes
  popped; otherwise the compiler stops with an error -/
  accepts : Operation → Bytes → List (Option Node) → Bool
  /-- the nodes that it pushes, by number -/
  pushed : Operation → Bytes → List (Option Node) → Nat → Option Node
  /-- the statements that it appends -/
  statements : Operation → Bytes → List (Option Node) → List Node
  /-- `convert_item` to `boolean_type_node` -/
  toBoolean : Node → Option Node
  /-- `convert_item` to `uint32_type_node` -/
  toUint32 : Node → Option Node
  /-- the condition of `make_branch_comparison` -/
  comparison : Comparison → Bool → Node → Node → Option Node

section Handlers

variable {Node : Type} {w : Nat}

/-- `stack_pop`; on an empty stack it returns `NULL_TREE`. -/
def stackPop (convertItem : Node → Option Node) (state : ParseState Node) :
    Option (Option Node × ParseState Node) :=
  match state.stack with
  | [] => some (none, state)
  | none :: rest => some (none, { state with stack := rest })
  | some node :: rest =>
    (convertItem node).map fun node => (some node, { state with stack := rest })

def appendStmt (stmt : Stmt Node) (state : ParseState Node) : ParseState Node :=
  { state with body := state.body ++ [stmt] }

def lookupLabel (labelName : Identifier) (state : ParseState Node) :
    LabelDecl × ParseState Node :=
  match state.labelDecl labelName with
  | some labelDecl => (labelDecl, state)
  | none =>
    let labelDecl : LabelDecl := ⟨state.uid, some labelName⟩
    (labelDecl,
      { state with
        labelDecl := fun name => if name = labelName then some labelDecl else state.labelDecl name
        localLabels := labelName :: state.localLabels
        uid := state.uid + 1 })

def makeLabel (labelName : Identifier) (state : ParseState Node) : ParseState Node :=
  if state.stack.length = 0 then
    let (labelDecl, state) := lookupLabel labelName state
    appendStmt (.labelExpr labelDecl) state
  else state

variable (frontEnd : FrontEnd Node)

def makeBranchOnTrue (labelName : Identifier) (state : ParseState Node) :
    Option (ParseState Node) := do
  let (labelDecl, state) := lookupLabel labelName state
  let (cond, state) ← stackPop frontEnd.toBoolean state
  return appendStmt (.condExpr cond (some labelDecl) none) state

def makeBranchOnFalse (labelName : Identifier) (state : ParseState Node) :
    Option (ParseState Node) := do
  let (labelDecl, state) := lookupLabel labelName state
  let (cond, state) ← stackPop frontEnd.toBoolean state
  return appendStmt (.condExpr cond none (some labelDecl)) state

/-- `make_branch_comparison`; it reads the type of both operands, so a null
operand stops the compiler. -/
def makeBranchComparison (condition : Comparison) (labelName : Identifier) (unsignedp : Bool)
    (state : ParseState Node) : Option (ParseState Node) := do
  let (op2, state) ← stackPop some state
  let (op1, state) ← stackPop some state
  let conditionExpr ← frontEnd.comparison condition unsignedp (← op1) (← op2)
  let (labelDecl, state) := lookupLabel labelName state
  return appendStmt (.condExpr (some conditionExpr) (some labelDecl) none) state

def makeBranchUnconditional (labelName : Identifier) (state : ParseState Node) :
    ParseState Node :=
  let (labelDecl, state) := lookupLabel labelName state
  appendStmt (.gotoExpr labelDecl) state

def Chain.treeChain : Chain → Chain
  | .null => .null
  | .treeList _ _ chain => chain
  | .caseLabelExpr _ => .null

def Chain.listLength : Chain → Nat
  | .null => 0
  | .treeList _ _ chain => chain.listLength + 1
  | .caseLabelExpr _ => 1

def Chain.ofList : List (IntegerCst × Identifier) → Chain
  | [] => .null
  | (purpose, value) :: rest => .treeList purpose value (Chain.ofList rest)

/-- The loop of `make_instr_switch` from the value `label` of its variable on,
for at most `fuel` rounds.  The body assigns the variable that the loop walks
with. -/
def fillCases (fuel : Nat) (label : Chain) (index : Nat) (cases : List (Option CaseLabelExpr))
    (uid : Nat) : Option (List (Option CaseLabelExpr) × Nat) :=
  match fuel, label with
  | 0, _ => none
  | _ + 1, .null => some (cases, uid)
  | fuel + 1, .treeList value _ _ =>
    let labelDecl : LabelDecl := ⟨uid, none⟩
    if frontEnd.assertChecking && value.type ≠ .uint32TypeNode then none
    else
      let tree : CaseLabelExpr := ⟨value, labelDecl⟩
      let label := Chain.caseLabelExpr tree
      fillCases fuel label.treeChain (index + 1) (cases.set index (some tree)) (uid + 1)
  -- a `CASE_LABEL_EXPR` has no `TREE_PURPOSE`
  | _ + 1, .caseLabelExpr _ => none

/-- `make_instr_switch`.  The `build` of the source has three arguments after
the code, so it is `build2`: its first argument is the type of the node, the
other two are the operands for the condition and for the body. -/
def makeInstrSwitch (labelNames : Chain) (state : ParseState Node) :
    Option (ParseState Node) := do
  let (selector, state) ← stackPop frontEnd.toUint32 state
  let cases := List.replicate (labelNames.listLength + 1) none
  let (cases, uid) ←
    fillCases frontEnd (labelNames.listLength + 1) labelNames 0 cases state.uid
  -- `gcc_assert (TREE_CODE_LENGTH (code) == 2)`, where the length is 3
  if frontEnd.assertChecking then none
  else some (appendStmt (.switchExpr selector none (some cases) none) { state with uid := uid })

/-- What `parse_instr_arg` returns: a null tree, a constant, an identifier or
the list for a switch. -/
inductive InstrArg where
  | null
  | constant
  | labelName (name : Identifier)
  | labelNames (labels : Chain)
  deriving DecidableEq, Repr

/-- The destination of entry `item` of the switch table. -/
def switchDest (code : Bytes) (offset : BitVec w) (numItems item : Nat) : BitVec w :=
  offset + 5 + BitVec.ofNat w numItems * 4 +
    (ilReadUint32 (code.advance (5 + item * 4))).setWidth w

def parseInstrArg (code : Bytes) (args : OpcodeArgs) (offset : BitVec w) : Option InstrArg :=
  match args with
  | .none => some .null
  | .int8 => some .constant
  | .int32 => some .constant
  | .float32 => some .constant
  | .float64 => some .constant
  | .shortJump => some (.labelName (getLabelName (offset + 2 + (code 1).signExtend w)))
  | .longJump =>
    some (.labelName
      (getLabelName (offset + 5 + (ilReadUint32 (code.advance 1)).setWidth w)))
  | .switch =>
    let numItems := (ilReadUint32 (code.advance 1)).toNat
    some (.labelNames (Chain.ofList ((List.range numItems).map fun item =>
      (⟨.integerTypeNode, item⟩, getLabelName (switchDest code offset numItems item)))))
  | .other => none

def InstrArg.toLabelName : InstrArg → Option Identifier
  | .labelName name => some name
  | _ => none

def InstrArg.toLabelNames : InstrArg → Option Chain
  | .labelNames labels => some labels
  | _ => none

/-- How an instruction uses the stack: the nodes it pops, whether it stops
where one is missing, and the number of nodes it pushes. -/
structure StackUse where
  pops : Nat
  needed : Bool
  pushes : Nat
  deriving DecidableEq, Repr

/-- The stack use of the instructions other than branches and `switch`.  A
handler that pushes a node and pops it again counts it in neither. -/
def stackUse (operand : Bytes) : Operation → Option StackUse
  | .nop => some ⟨0, false, 0⟩
  | .ldarg _ | .ldloc _ | .ldargS | .ldlocS | .ldlocaS | .ldnull | .ldcI4 _ | .ldc _
  | .ldftn | .ldsfld | .ldstr => some ⟨0, false, 1⟩
  | .stloc _ | .stlocS | .stargS | .stsfld => some ⟨1, false, 0⟩
  | .pop => some ⟨1, false, 0⟩
  | .dup => some ⟨1, true, 2⟩
  | .call | .callvirt =>
    (frontEnd.ilMethodFromToken (ilReadUint32 operand)).map fun method =>
      ⟨method.params, true, if method.returnsVoid then 0 else 1⟩
  -- the parameters of a constructor have the new object as their first
  | .newobj =>
    (frontEnd.ilMethodFromToken (ilReadUint32 operand)).map fun method =>
      ⟨method.params - 1, true, 1⟩
  | .newarr => some ⟨1, true, 1⟩
  | .ldfld => some ⟨1, true, 1⟩
  | .stfld => some ⟨2, true, 0⟩
  -- `make_return_value` pops the value if there is one
  | .ret => some ⟨1, false, 0⟩
  | .arithmetic _ | .compare _ => some ⟨2, true, 1⟩
  | .unary _ => some ⟨1, true, 1⟩
  | .ldlen => some ⟨1, true, 1⟩
  | .ldelem => some ⟨2, true, 1⟩
  | .stelem => some ⟨3, true, 0⟩
  | .ldvirtftn => some ⟨1, true, 1⟩
  | .initobj => some ⟨1, true, 0⟩
  | _ => none

def translateTrees (operation : Operation) (operand : Bytes) (state : ParseState Node) :
    Option (ParseState Node) := do
  let use ← stackUse frontEnd operand operation
  let popped := state.stack.take use.pops
  if (use.needed && state.stack.length < use.pops) ||
      !frontEnd.accepts operation operand popped then none
  else
    some { state with
      stack := (List.range use.pushes).map (frontEnd.pushed operation operand popped) ++
        state.stack.drop use.pops
      body := state.body ++ (frontEnd.statements operation operand popped).map .tree }

/-- `stack_convert_top_item`; on an empty stack it does nothing. -/
def stackConvertTopItem (operation : Operation) (operand : Bytes) (state : ParseState Node) :
    Option (ParseState Node) :=
  match state.stack with
  | [] => some state
  | node :: rest =>
    if frontEnd.accepts operation operand [node] then
      some { state with stack := frontEnd.pushed operation operand [node] 0 :: rest }
    else none

def translate (operation : Operation) (operand : Bytes) (arg : Option InstrArg)
    (state : ParseState Node) : Option (ParseState Node) :=
  match operation with
  | .br _ => do
      let labelName ← (← arg).toLabelName
      return makeBranchUnconditional labelName state
  | .brfalse _ => do
      let labelName ← (← arg).toLabelName
      makeBranchOnFalse frontEnd labelName state
  | .brtrue _ => do
      let labelName ← (← arg).toLabelName
      makeBranchOnTrue frontEnd labelName state
  | .branchComparison _ condition unsignedp => do
      let labelName ← (← arg).toLabelName
      makeBranchComparison frontEnd condition labelName unsignedp state
  | .switch => do
      let labelNames ← (← arg).toLabelNames
      makeInstrSwitch frontEnd labelNames state
  | .ldc _ => do
      let _ ← arg
      translateTrees frontEnd operation operand state
  | .conv _ => stackConvertTopItem frontEnd operation operand state
  | _ => translateTrees frontEnd operation operand state

/-- `parse_instr`: the size in the table and the state after the instruction. -/
def parseInstr (code : Bytes) (offset : BitVec w) (state : ParseState Node) :
    Option (BitVec w × ParseState Node) := do
  let opcode := frontEnd.ilMainOpcodeTable (code 0)
  let operation ← mainOperation (code 0)
  let state ←
    translate frontEnd operation (code.advance 1) (parseInstrArg code opcode.args offset) state
  return (BitVec.ofNat w opcode.size, state)

def parsePrefixedInstr (code : Bytes) (state : ParseState Node) :
    Option (BitVec w × ParseState Node) := do
  let code := code.advance 1
  let opcode := frontEnd.ilPrefixOpcodeTable (code 0)
  let operation ← prefixedOperation (code 0)
  let state ← translate frontEnd operation (code.advance 1) none state
  return (BitVec.ofNat w opcode.size, state)

def getSpecialSize (code : Bytes) (csize : BitVec w) : BitVec w :=
  if code 0 = 0x45 then
    if csize < 5 then 0
    else
      let numItems := (ilReadUint32 (code.advance 1)).setWidth w
      if 0x40000000 ≤ numItems || csize - 5 < numItems * 4 then 0 else numItems * 4 + 5
  else 0

/-- The variables of `parse_instructions`; the pointer is `offset` bytes into
the buffer. -/
structure Scan (w : Nat) (Node : Type) where
  offset : BitVec w
  csize : BitVec w
  state : ParseState Node

/-- One round of the loop; `none` where the compiler stops with an error. -/
def Scan.round (code : Bytes) (scan : Scan w Node) : Option (Scan w Node) := do
  let here := code.advance scan.offset.toNat
  let state := makeLabel (getLabelName scan.offset) scan.state
  let (isize, state) ←
    (if here 0 = 0xFE then parsePrefixedInstr frontEnd here state
     else parseInstr frontEnd here scan.offset state)
  let isize := if isize = 0 then getSpecialSize here scan.csize else isize
  if isize = 0 then none
  else some ⟨scan.offset + isize, scan.csize - isize, state⟩

/-- `parse_instructions` goes from one scan to another, before `csize` is zero
at the head of the loop. -/
def Scan.Step (code : Bytes) (before after : Scan w Node) : Prop :=
  before.csize ≠ 0 ∧ before.round frontEnd code = some after

abbrev Scan.Reaches (code : Bytes) : Scan w Node → Scan w Node → Prop :=
  Relation.ReflTransGen (Scan.Step frontEnd code)

/-- The state at the start; `codeLen` is an `ILUInt32`. -/
def Scan.initial (Node : Type) (codeLen : BitVec 32) (uid : Nat) : Scan w Node :=
  ⟨0, codeLen.setWidth w, .initial Node uid⟩

end Handlers

end GccCil.Cil.BodyScan
