import Mathlib.Logic.Function.Basic

/-!
# Straight-line code of the gcc/cil front end

`parse_instr` keeps a compile-time stack of trees.  A load or a call is pushed
as a tree and runs when a later instruction puts the tree into a statement of
the function body.  This file has the translation, the execution of the
statement list it builds, and the stack machine of the CIL standard.
-/

namespace GccCil.Cil.Statements

abbrev Value := BitVec 32

/-- `local_vars[i]` or `formal_params[i]`. -/
inductive Variable where
  | localVar (index : Nat)
  | formalParam (index : Nat)
  deriving DecidableEq, Repr

inductive ArithmeticOp where
  | plus
  | minus
  | mult
  deriving DecidableEq, Repr

def ArithmeticOp.apply : ArithmeticOp → Value → Value → Value
  | .plus, a, b => a + b
  | .minus, a, b => a - b
  | .mult, a, b => a * b

inductive Instr where
  | ldloc (index : Nat)
  | stloc (index : Nat)
  | ldarg (index : Nat)
  | starg (index : Nat)
  | ldcI4 (value : Value)
  | dup
  | pop
  | arithmetic (op : ArithmeticOp)
  /-- a call of `method`, which takes `params` arguments -/
  | call (method params : Nat) (returnsValue : Bool)
  deriving DecidableEq, Repr

inductive Expr where
  | var (x : Variable)
  | const (value : Value)
  | binary (op : ArithmeticOp) (left right : Expr)
  | call (id method : Nat) (args : List Expr)
  | save (id : Nat) (operand : Expr)
  /-- a `COMPOUND_EXPR`: `fold` keeps in it an operand that the value does not need -/
  | compound (first second : Expr)

@[induction_eliminator]
theorem Expr.induct {motive : Expr → Prop} (var : ∀ x, motive (.var x))
    (const : ∀ value, motive (.const value))
    (binary : ∀ op left right, motive left → motive right → motive (.binary op left right))
    (call : ∀ id method args, (∀ arg ∈ args, motive arg) → motive (.call id method args))
    (save : ∀ id operand, motive operand → motive (.save id operand))
    (compound : ∀ first second, motive first → motive second → motive (.compound first second)) :
    ∀ tree, motive tree
  | .var x => var x
  | .const value => const value
  | .binary op left right =>
    binary op left right (Expr.induct var const binary call save compound left)
      (Expr.induct var const binary call save compound right)
  | .call id method args =>
    call id method args fun arg _ => Expr.induct var const binary call save compound arg
  | .save id operand => save id operand (Expr.induct var const binary call save compound operand)
  | .compound first second =>
    compound first second (Expr.induct var const binary call save compound first)
      (Expr.induct var const binary call save compound second)

def Expr.treeInvariant : Expr → Bool
  | .var _ => false
  | .const _ => true
  | .binary _ left right => left.treeInvariant && right.treeInvariant
  | .call _ _ _ => false
  | .save _ _ => true
  | .compound first second => first.treeInvariant && second.treeInvariant

def Expr.treeSideEffects : Expr → Bool
  | .var _ => false
  | .const _ => false
  | .binary _ left right => left.treeSideEffects || right.treeSideEffects
  | .call _ _ _ => true
  | .save _ _ => true
  | .compound first second => first.treeSideEffects || second.treeSideEffects

def Expr.skipSimpleArithmetic : Expr → Expr
  | .binary op left right =>
    if right.treeInvariant then left.skipSimpleArithmetic
    else if left.treeInvariant then right.skipSimpleArithmetic
    else .binary op left right
  | inner => inner

/-- The parts of a tree that are no arithmetic: variables, calls and `SAVE_EXPR`s. -/
def Expr.atoms : Expr → List Expr
  | .const _ => []
  | .binary _ left right => left.atoms ++ right.atoms
  | .compound first second => first.atoms ++ second.atoms
  | atom => [atom]

/-- The value of a tree whose parts have the values `of`. -/
def Expr.value (of : Expr → Value) : Expr → Value
  | .const value => value
  | .binary op left right => op.apply (left.value of) (right.value of)
  | .compound _ second => second.value of
  | atom => of atom

/-- What `fold` does to the trees of `int32` arithmetic: it rearranges the arithmetic over the
parts and may leave out some, and keeps the value.  A negation or a complement is the difference
of a constant and its operand. -/
structure FoldKeeps (fold : Expr → Expr) : Prop where
  atoms : ∀ tree, (fold tree).atoms ⊆ tree.atoms
  value : ∀ tree of, (fold tree).value of = tree.value of

/-- `save_expr`; `id` is the number of the node it may build. -/
def saveExpr (fold : Expr → Expr) (id : Nat) (expr : Expr) : Expr :=
  let t := fold expr
  if t.skipSimpleArithmetic.treeInvariant then t else .save id t

inductive Stmt where
  /-- a `MODIFY_EXPR` -/
  | modify (lvalue : Variable) (value : Expr)
  | expr (tree : Expr)

/-- The compile-time stack, top first, and `current_function_body`; the two
counters give the next tree nodes their numbers. -/
structure ParseState where
  stack : List Expr
  body : List Stmt
  calls : Nat
  saves : Nat

def ParseState.initial : ParseState := ⟨[], [], 0, 0⟩

def stackPush (node : Expr) (state : ParseState) : ParseState :=
  { state with stack := node :: state.stack }

/-- `stack_pop`.  On an empty stack the source goes on with a null tree. -/
def stackPop (state : ParseState) : Option (Expr × ParseState) :=
  match state.stack with
  | [] => none
  | node :: rest => some (node, { state with stack := rest })

def Stmt.treeSideEffects : Stmt → Bool
  | .modify _ _ => true
  | .expr tree => tree.treeSideEffects

def appendToStatementList (stmt : Stmt) (state : ParseState) : ParseState :=
  if stmt.treeSideEffects then { state with body := state.body ++ [stmt] } else state

def makeAssignment (lvalue : Variable) (state : ParseState) : Option ParseState := do
  let (value, state) ← stackPop state
  return appendToStatementList (.modify lvalue value) state

def makeInstrDup (fold : Expr → Expr) (state : ParseState) : Option ParseState := do
  let (node, state) ← stackPop state
  let t := saveExpr fold state.saves node
  return stackPush t (stackPush t { state with saves := state.saves + 1 })

def makeInstrPop (state : ParseState) : Option ParseState := do
  let (node, state) ← stackPop state
  return appendToStatementList (.expr node) state

/-- `make_arithmetic_expr` on two `int32` operands. -/
def makeArithmeticExpr (fold : Expr → Expr) (op : ArithmeticOp) (state : ParseState) :
    Option ParseState := do
  let (right, state) ← stackPop state
  let (left, state) ← stackPop state
  return stackPush (fold (.binary op left right)) state

/-- The loop of `create_function_call` that pops the arguments and chains each
one in front of those popped before. -/
def popArguments : Nat → List Expr → ParseState → Option (List Expr × ParseState)
  | 0, functionArgs, state => some (functionArgs, state)
  | count + 1, functionArgs, state => do
      let (node, state) ← stackPop state
      popArguments count (node :: functionArgs) state

def createFunctionCall (method params : Nat) (state : ParseState) :
    Option (Expr × ParseState) := do
  let (functionArgs, state) ← popArguments params [] state
  return (.call state.calls method functionArgs, { state with calls := state.calls + 1 })

def finishFunctionCall (returnsValue : Bool) (functionCall : Expr) (state : ParseState) :
    ParseState :=
  if returnsValue then stackPush functionCall state
  else appendToStatementList (.expr functionCall) state

/-- `parse_instr`; `fold` is the one of `fold-const.c`. -/
def parseInstr (fold : Expr → Expr) : Instr → ParseState → Option ParseState
  | .ldloc index, state => some (stackPush (.var (.localVar index)) state)
  | .stloc index, state => makeAssignment (.localVar index) state
  | .ldarg index, state => some (stackPush (.var (.formalParam index)) state)
  | .starg index, state => makeAssignment (.formalParam index) state
  | .ldcI4 value, state => some (stackPush (.const value) state)
  | .dup, state => makeInstrDup fold state
  | .pop, state => makeInstrPop state
  | .arithmetic op, state => makeArithmeticExpr fold op state
  | .call method params returnsValue, state => do
      let (functionCall, state) ← createFunctionCall method params state
      return finishFunctionCall returnsValue functionCall state

def parseCode (fold : Expr → Expr) : List Instr → ParseState → Option ParseState
  | [], state => some state
  | instr :: rest, state => (parseInstr fold instr state).bind (parseCode fold rest)

/-- A call that has been made, with the values of its arguments. -/
structure Event where
  method : Nat
  args : List Value
  deriving DecidableEq, Repr

structure Memory where
  vars : Variable → Value
  /-- the temporaries of the resolved `SAVE_EXPR`s -/
  resolved : Nat → Option Value
  trace : List Event

/-- What the called methods return: any function of the calls made so far, the
present one included. -/
abbrev Callees := List Event → Value

section Execution

variable (callees : Callees) (pushArgsReversed : Bool)

mutual

def eval : Expr → Memory → Value × Memory
  | .var x, memory => (memory.vars x, memory)
  | .const value, memory => (value, memory)
  | .binary op left right, memory =>
    let (a, memory) := eval left memory
    let (b, memory) := eval right memory
    (op.apply a b, memory)
  | .call _ method args, memory =>
    let (values, memory) := evalArgs args memory
    let trace := memory.trace ++ [⟨method, values⟩]
    (callees trace, { memory with trace := trace })
  | .save id operand, memory =>
    match memory.resolved id with
    | some value => (value, memory)
    | none =>
      let (value, memory) := eval operand memory
      (value, { memory with resolved := Function.update memory.resolved id (some value) })
  | .compound first second, memory =>
    let (_, memory) := eval first memory
    eval second memory

def evalArgs : List Expr → Memory → List Value × Memory
  | [], memory => ([], memory)
  | arg :: rest, memory =>
    if pushArgsReversed then
      let (values, memory) := evalArgs rest memory
      let (value, memory) := eval arg memory
      (value :: values, memory)
    else
      let (value, memory) := eval arg memory
      let (values, memory) := evalArgs rest memory
      (value :: values, memory)

end

def execStmt : Stmt → Memory → Memory
  | .modify lvalue value, memory =>
    let (v, memory) := eval callees pushArgsReversed value memory
    { memory with vars := Function.update memory.vars lvalue v }
  | .expr tree, memory => (eval callees pushArgsReversed tree memory).2

def execBody (body : List Stmt) (memory : Memory) : Memory :=
  body.foldl (fun memory stmt => execStmt callees pushArgsReversed stmt memory) memory

end Execution

def Memory.initial (vars : Variable → Value) : Memory := ⟨vars, fun _ => none, []⟩

/-- The evaluation stack, top first, the variables and the calls made. -/
structure Machine where
  stack : List Value
  vars : Variable → Value
  trace : List Event

def Machine.initial (vars : Variable → Value) : Machine := ⟨[], vars, []⟩

def Machine.store (x : Variable) (machine : Machine) : Option Machine :=
  match machine.stack with
  | [] => none
  | value :: rest =>
    some { machine with stack := rest, vars := Function.update machine.vars x value }

def Machine.push (value : Value) (machine : Machine) : Machine :=
  { machine with stack := value :: machine.stack }

def Machine.step (callees : Callees) : Instr → Machine → Option Machine
  | .ldloc index, machine => some (machine.push (machine.vars (.localVar index)))
  | .stloc index, machine => machine.store (.localVar index)
  | .ldarg index, machine => some (machine.push (machine.vars (.formalParam index)))
  | .starg index, machine => machine.store (.formalParam index)
  | .ldcI4 value, machine => some (machine.push value)
  | .dup, machine =>
    match machine.stack with
    | [] => none
    | value :: _ => some (machine.push value)
  | .pop, machine =>
    match machine.stack with
    | [] => none
    | _ :: rest => some { machine with stack := rest }
  | .arithmetic op, machine =>
    match machine.stack with
    | b :: a :: rest => some { machine with stack := op.apply a b :: rest }
    | _ => none
  | .call method params returnsValue, machine =>
    if params ≤ machine.stack.length then
      let trace := machine.trace ++ [⟨method, (machine.stack.take params).reverse⟩]
      let rest := machine.stack.drop params
      some { machine with
        stack := if returnsValue then callees trace :: rest else rest
        trace := trace }
    else none

/-- `none` when the code underflows the stack. -/
def Machine.run (callees : Callees) : List Instr → Machine → Option Machine
  | [], machine => some machine
  | instr :: rest, machine => (machine.step callees instr).bind (Machine.run callees rest)

/-- The function body built for `code` does what the stack machine does: from
any values of the variables and whatever the called methods return, the final
variables and the calls made are the same. -/
def Refines (fold : Expr → Expr) (pushArgsReversed : Bool) (code : List Instr) : Prop :=
  ∀ callees vars final, Machine.run callees code (Machine.initial vars) = some final →
    ∃ state, parseCode fold code ParseState.initial = some state ∧
      (execBody callees pushArgsReversed state.body (Memory.initial vars)).vars = final.vars ∧
      (execBody callees pushArgsReversed state.body (Memory.initial vars)).trace = final.trace

end GccCil.Cil.Statements
