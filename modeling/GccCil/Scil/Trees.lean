import GccCil.Scil.Types

/-!
# Trees and their meaning

The expression and statement nodes that `scil-instructions.c` builds, and what
they compute.  An operation is computed in the type it was built with, modulo
`2 ^ TYPE_PRECISION`.  `none` stands for a result that the tree codes leave
undefined (a division by zero, a shift count outside the type: see the comment
on `LSHIFT_EXPR` in `tree.def`) and for values that are not integers.
-/

namespace GccCil.Scil

open GccCil.Lib

inductive DeclKind where
  | stackVariable | methodVariable | parameter | staticField | instanceField | result
  deriving DecidableEq, Repr

/-- A `VAR_DECL`, `PARM_DECL`, `FIELD_DECL` or `RESULT_DECL`; a field has the
class that declares it as its context. -/
structure Decl where
  kind : DeclKind
  index : Nat
  type : Ty
  context : Option Nat := none
  deriving DecidableEq, Repr

inductive UnaryCode where
  | negate | bitNot
  deriving DecidableEq, Repr

inductive BinaryCode where
  | plus | minus | mult | truncDiv | rdiv | truncMod
  | bitAnd | bitIor | bitXor | lshift | rshift
  | eq | ne | lt | le | gt | ge
  | unlt | unle | ungt | unge | ltgt
  deriving DecidableEq, Repr

/-- A method as far as a call needs it: the parameter types include the
implicit instance argument, a `void` result is `none`. -/
structure MethodType where
  parameterTypes : List Ty
  returnType : Option Ty
  deriving DecidableEq, Repr

/-- What a `CALL_EXPR` calls. -/
inductive Callee where
  | method (id : Nat)
  | virtualSlot (slot : Nat)
  | indirect
  | newobj
  deriving DecidableEq, Repr

inductive Expr where
  | decl (decl : Decl)
  | intCst (type : IntType) (value : Int)
  | nullPointer
  | stringCst (index : Nat)
  | convert (type : Ty) (operand : Expr)
  | unary (code : UnaryCode) (type : Ty) (operand : Expr)
  | binary (code : BinaryCode) (type : Ty) (left right : Expr)
  | componentRef (object : Expr) (field : Decl)
  | indirectRef (record : Option Nat) (operand : Expr)
  | addr (operand : Expr)
  | methodAddr (method : Nat)
  | vtableAddr (constructor : Nat)
  | vtableSlot (object : Expr) (slot : Nat)
  | call (type : Option Ty) (callee : Callee) (arguments : List Expr)

/-- `TREE_TYPE`; `none` is `void_type_node`. -/
def Expr.type : Expr → Option Ty
  | .decl declared => some declared.type
  | .intCst type _ => some (.int type)
  | .nullPointer | .stringCst _ | .addr _ | .methodAddr _ | .vtableAddr _
  | .vtableSlot _ _ => some .pointer
  | .convert type _ | .unary _ type _ | .binary _ type _ _ => some type
  | .indirectRef record _ => record.map .record
  | .componentRef _ field => some field.type
  | .call type _ _ => type

inductive Stmt where
  | modify (variable_ : Expr) (value : Expr)
  | expr (value : Expr)
  | label (programCounter : Nat)
  | goto (target : Nat)
  /-- `COND_EXPR` whose only non-empty arm is a goto; `onTrue` tells which. -/
  | condGoto (condition : Expr) (onTrue : Bool) (target : Nat)
  | return_ (result : Option Expr)

/-- The label that a `GOTO_EXPR` of the statement refers to. -/
def Stmt.target? : Stmt → Option Nat
  | .goto target | .condGoto _ _ target => some target
  | _ => none

/-- The label of a `LABEL_EXPR`. -/
def Stmt.label? : Stmt → Option Nat
  | .label programCounter => some programCounter
  | _ => none

/-- The values of variables and of the fields of objects in memory. -/
structure Memory where
  value : Decl → Int
  address : Decl → Int
  component : Int → Decl → Int

def zeroMemory : Memory where
  value := fun _ => 0
  address := fun _ => 0
  component := fun _ _ => 0

namespace Memory

def set (memory : Memory) (decl : Decl) (x : Int) : Memory :=
  { memory with value := Function.update memory.value decl x }

@[simp]
theorem set_value_self (memory : Memory) (decl : Decl) (x : Int) :
    (memory.set decl x).value decl = x := by
  simp [set]

theorem set_value_of_ne (memory : Memory) {decl other : Decl} (x : Int)
    (different : other ≠ decl) : (memory.set decl x).value other = memory.value other := by
  simp [set, different]

end Memory

def truth (condition : Prop) [Decidable condition] : Int := if condition then 1 else 0

def UnaryCode.compute (code : UnaryCode) (type : IntType) (x : Int) : Int :=
  match code with
  | .negate => type.wrap (-x)
  | .bitNot => type.wrap (-x - 1)

/-- A binary operation built with an integer type, on operands of the type it
is applied to. -/
def BinaryCode.compute (code : BinaryCode) (type : IntType) (x y : Int) : Option Int :=
  match code with
  | .plus => some (type.wrap (x + y))
  | .minus => some (type.wrap (x - y))
  | .mult => some (type.wrap (x * y))
  | .truncDiv => if y = 0 then none else some (type.wrap (x.tdiv y))
  | .truncMod => if y = 0 then none else some (type.wrap (x.tmod y))
  | .bitAnd => some (type.wrap (bitwise (fun _ => (· &&& ·)) type.precision x y))
  | .bitIor => some (type.wrap (bitwise (fun _ => (· ||| ·)) type.precision x y))
  | .bitXor => some (type.wrap (bitwise (fun _ => (· ^^^ ·)) type.precision x y))
  | .lshift => if 0 ≤ y ∧ y < type.precision then some (type.wrap (x * 2 ^ y.toNat)) else none
  | .rshift => if 0 ≤ y ∧ y < type.precision then some (type.wrap (x / 2 ^ y.toNat)) else none
  | .eq => some (type.wrap (truth (x = y)))
  | .ne => some (type.wrap (truth (x ≠ y)))
  | .lt => some (type.wrap (truth (x < y)))
  | .le => some (type.wrap (truth (x ≤ y)))
  | .gt => some (type.wrap (truth (x > y)))
  | .ge => some (type.wrap (truth (x ≥ y)))
  | .rdiv | .unlt | .unle | .ungt | .unge | .ltgt => none

def Expr.eval (memory : Memory) : Expr → Option Int
  | .decl declared => some (memory.value declared)
  | .intCst type value => some (type.wrap value)
  | .nullPointer => some 0
  | .convert (.int type) operand => (operand.eval memory).map type.wrap
  | .convert .pointer operand => operand.eval memory
  | .unary code (.int type) operand => (operand.eval memory).map (code.compute type)
  | .binary code (.int type) left right =>
    match left.eval memory, right.eval memory with
    | some x, some y => code.compute type x y
    | _, _ => none
  | .componentRef (.indirectRef _ pointer) field =>
    (pointer.eval memory).map (memory.component · field)
  | .componentRef (.decl object) field => some (memory.component (memory.address object) field)
  | _ => none

def Stmt.exec (memory : Memory) : Stmt → Option Memory
  | .modify (.decl variable_) value => (value.eval memory).map (memory.set variable_)
  | .label _ => some memory
  | _ => none

def execStmts (memory : Memory) : List Stmt → Option Memory
  | [] => some memory
  | stmt :: rest => (stmt.exec memory).bind fun next => execStmts next rest

theorem execStmts_append (memory : Memory) (first second : List Stmt) :
    execStmts memory (first ++ second) =
      (execStmts memory first).bind fun next => execStmts next second := by
  induction first generalizing memory with
  | nil => rfl
  | cons stmt rest ih =>
    simp only [List.cons_append, execStmts]
    cases stmt.exec memory with
    | none => rfl
    | some next => exact ih next

end GccCil.Scil
