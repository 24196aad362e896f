import Mathlib.Logic.Relation
import GccCil.Scil.Int32Arithmetic
import GccCil.Scil.UnsignedOperations

/-!
# The ECMA-335 machine with branches

Methods over `int32` arguments, locals and results, with all branches and comparisons.  A run of
the machine fits its translation when every result fits the type that it is computed in: a
condition is converted to a `bool`, and an unsigned comparison converts the operand below to the
type of the top one.
-/

namespace GccCil.Scil

open Relation GccCil.Lib

/-- The comparisons of `int32` values. -/
def int32Compare (comparison : Comparison) (x y : BitVec 32) : Bool :=
  match comparison with
  | .eq => x = y
  | .ge => x.toInt ≥ y.toInt
  | .gt => x.toInt > y.toInt
  | .le => x.toInt ≤ y.toInt
  | .lt => x.toInt < y.toInt
  | .neUn => x ≠ y
  | .geUn => x.toNat ≥ y.toNat
  | .gtUn => x.toNat > y.toNat
  | .leUn => x.toNat ≤ y.toNat
  | .ltUn => x.toNat < y.toNat

/-- A method that is running: its arguments, its stack and its locals. -/
structure Activation where
  arguments : List (BitVec 32)
  machine : Machine

def Activation.withStack (activation : Activation) (stack : List (BitVec 32)) : Activation :=
  { activation with machine := { activation.machine with stack := stack } }

/-- A site of a run: before the instructions from the program counter on, or behind a return. -/
inductive Site where
  | before (rest : List (Nat × Instr)) (activation : Activation)
  | returned (result : Option (BitVec 32)) (activation : Activation)

def fromOffset (target : Nat) : List (Nat × Instr) → Option (List (Nat × Instr))
  | [] => none
  | entry :: rest => if entry.1 = target then some (entry :: rest) else fromOffset target rest

def branchOn (instructions rest : List (Nat × Instr)) (condition : Bool) (target : Nat)
    (activation : Activation) : Option Site :=
  if condition then (fromOffset target instructions).map (Site.before · activation)
  else some (.before rest activation)

/-- One instruction of a method; a `ret` with values left on the stack is not verifiable. -/
def Site.step (method : Method) (instructions : List (Nat × Instr)) : Site → Option Site
  | .returned _ _ | .before [] _ => none
  | .before ((_, instr) :: rest) activation =>
    match instr, activation.machine.stack with
    | .nop, _ => some (.before rest activation)
    | .ldarg index, _ => do
        let machine ← activation.machine.push method.maxStack (← activation.arguments[index]?)
        return .before rest { activation with machine := machine }
    | .starg index, x :: stack =>
      if index < activation.arguments.length then
        some (.before rest
          { activation.withStack stack with arguments := activation.arguments.set index x })
      else none
    | .br target, _ => branchOn instructions rest true target activation
    | .brtrue target, x :: stack =>
      branchOn instructions rest (x ≠ 0) target (activation.withStack stack)
    | .brfalse target, x :: stack =>
      branchOn instructions rest (x = 0) target (activation.withStack stack)
    | .branch comparison target, y :: x :: stack =>
      branchOn instructions rest (int32Compare comparison x y) target
        (activation.withStack stack)
    | .compare comparison, y :: x :: stack =>
      some (.before rest
        (activation.withStack ((if int32Compare comparison x y then 1 else 0) :: stack)))
    | .ret, stack =>
      match method.result, stack with
      | none, [] => some (.returned none activation)
      | some _, [x] => some (.returned (some x) activation)
      | _, _ => none
    | instr, _ => (activation.machine.step method.maxStack instr).map fun machine =>
      .before rest { activation with machine := machine }

/-- The instruction fits the types of the stack variables, top first. -/
def FitsInstr (target : Target) (instr : Instr) (types : List Ty) (machine : Machine) : Prop :=
  match instr, types, machine.stack with
  | .brtrue _, _, x :: _ | .brfalse _, _, x :: _ => IntType.bool.Holds x.toInt
  | .compare comparison, .int type :: _, _ :: x :: _
  | .branch comparison _, .int type :: _, _ :: x :: _ =>
    comparison.isUnsigned = true → type.Holds x.toInt
  | _, _, _ => FitsStep target instr types machine

def Site.Fits (target : Target) (types : Nat → List Ty) : Site → Prop
  | .before ((offset, instr) :: _) activation =>
    FitsInstr target instr (types offset) activation.machine
  | .before [] _ | .returned _ _ => True

def FittingRuns (method : Method) (types : Nat → List Ty) (instructions : List (Nat × Instr)) :
    Site → Site → Prop :=
  ReflTransGen fun site next =>
    site.Fits method.target types ∧ site.step method instructions = some next

def Comparison.code : Comparison → BinaryCode
  | .eq => .eq
  | .ge | .geUn => .ge
  | .gt | .gtUn => .gt
  | .le | .leUn => .le
  | .lt | .ltUn => .lt
  | .neUn => .ne

theorem compute_truth {condition condition' : Prop} [Decidable condition] [Decidable condition']
    (same : condition ↔ condition') :
    some (IntType.bool.wrap (truth condition)) = some (truth condition') := by
  rw [← truth_congr same]
  rcases truth_eq condition with equality | equality <;> rw [equality] <;> decide

theorem compute_signed {comparison : Comparison} (signed : comparison.isUnsigned = false)
    (x y : BitVec 32) :
    comparison.code.compute .bool x.toInt y.toInt =
      some (truth (int32Compare comparison x y = true)) := by
  cases comparison with
  | eq => exact compute_truth (BitVec.toInt_inj.trans decide_eq_true_iff.symm)
  | ge | gt | le | lt => exact compute_truth decide_eq_true_iff.symm
  | _ => cases signed

theorem unsignedType_lt {type : TrackedInt} (narrow : type.type.precision ≤ 32) {x y : BitVec 32}
    (xHolds : type.type.Holds x.toInt) (yHolds : type.type.Holds y.toInt) :
    type.unsignedType.wrap x.toInt < type.unsignedType.wrap y.toInt ↔ x.toNat < y.toNat := by
  unfold IntType.Holds at xHolds yHolds
  rw [type.unsigned_type] at xHolds yHolds
  rw [type.wrap_unsignedType, type.wrap_unsignedType, Int.ofNat_lt,
    toNat_lt_iff narrow xHolds yHolds, BitVec.ofInt_toInt, BitVec.ofInt_toInt]

theorem compute_unsigned {comparison : Comparison} (unsigned : comparison.isUnsigned = true)
    {type : TrackedInt} (narrow : type.type.precision ≤ 32) {x y : BitVec 32}
    (xHolds : type.type.Holds x.toInt) (yHolds : type.type.Holds y.toInt) :
    comparison.code.compute .bool (type.unsignedType.wrap x.toInt)
        (type.unsignedType.wrap y.toInt) =
      some (truth (int32Compare comparison x y = true)) := by
  have lt := unsignedType_lt narrow xHolds yHolds
  have gt := unsignedType_lt narrow yHolds xHolds
  have le := le_iff_le_iff_lt_iff_lt.mpr gt
  have ge := le_iff_le_iff_lt_iff_lt.mpr lt
  have equal : type.unsignedType.wrap x.toInt = type.unsignedType.wrap y.toInt ↔ x = y := by
    rw [Int.le_antisymm_iff, le, ge, ← Nat.le_antisymm_iff, BitVec.toNat_inj]
  cases comparison with
  | neUn => exact compute_truth ((not_congr equal).trans decide_eq_true_iff.symm)
  | geUn => exact compute_truth (ge.trans decide_eq_true_iff.symm)
  | gtUn => exact compute_truth (gt.trans decide_eq_true_iff.symm)
  | leUn => exact compute_truth (le.trans decide_eq_true_iff.symm)
  | ltUn => exact compute_truth (lt.trans decide_eq_true_iff.symm)
  | _ => cases unsigned

end GccCil.Scil
