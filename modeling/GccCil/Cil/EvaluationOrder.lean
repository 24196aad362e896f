import Mathlib.Data.List.GetD
import GccCil.Cil.Statements

/-!
# Evaluation order of straight-line code

A tree on the compile-time stack stands for a value that the stack machine
already has.  The statement list agrees with the machine as long as every tree
still has that value when it runs: no store passes a tree that reads the
variable, and the calls run in the order in which they stand in the code.
`Timely` says so, and code that is timely is translated correctly.
-/

namespace GccCil.Cil.Statements

/-- What the statements built so far run: the resolved `SAVE_EXPR`s and the
number of calls made. -/
structure Schedule where
  resolved : List Nat
  calls : Nat

def Schedule.initial : Schedule := ⟨[], 0⟩

section

variable (pushArgsReversed : Bool)

mutual

/-- The schedule after the tree has been evaluated, provided that each of its
calls is the next one of the code when its turn comes. -/
def schedule : Expr → Schedule → Option Schedule
  | .var _, before => some before
  | .const _, before => some before
  | .binary _ left right, before => (schedule left before).bind (schedule right)
  | .call id _ args, before =>
    (scheduleArgs args before).bind fun after =>
      if id = after.calls then some { after with calls := after.calls + 1 } else none
  | .save id operand, before =>
    if id ∈ before.resolved then some before
    else (schedule operand before).map fun after =>
      { after with resolved := id :: after.resolved }
  | .compound first second, before => (schedule first before).bind (schedule second)

def scheduleArgs : List Expr → Schedule → Option Schedule
  | [], before => some before
  | arg :: rest, before =>
    if pushArgsReversed then (scheduleArgs rest before).bind (schedule arg)
    else (schedule arg before).bind (scheduleArgs rest)

end

end

mutual

/-- Whether an evaluation of the tree reads `x`. -/
def reads (resolved : List Nat) (x : Variable) : Expr → Bool
  | .var y => y == x
  | .const _ => false
  | .binary _ left right => reads resolved x left || reads resolved x right
  | .call _ _ args => readsArgs resolved x args
  | .save id operand => !decide (id ∈ resolved) && reads resolved x operand
  | .compound first second => reads resolved x first || reads resolved x second

def readsArgs (resolved : List Nat) (x : Variable) : List Expr → Bool
  | [] => false
  | arg :: rest => reads resolved x arg || readsArgs resolved x rest

end

def emitted (stack : List Expr) (calls : Nat) : Instr → Option (Stmt × List Expr)
  | .stloc index => stack.head?.map fun value => (.modify (.localVar index) value, stack.tail)
  | .starg index => stack.head?.map fun value => (.modify (.formalParam index) value, stack.tail)
  | .pop => (stack.head?.filter Expr.treeSideEffects).map fun value => (.expr value, stack.tail)
  | .call method params false =>
    some (.expr (.call calls method (stack.take params).reverse), stack.drop params)
  | _ => none

/-- A statement runs its calls in turn, and if it is a store then none of the
trees that stay on the stack reads the variable. -/
def scheduleStmt (pushArgsReversed : Bool) (stack : List Expr) (before : Schedule) :
    Stmt → Option Schedule
  | .modify lvalue value =>
    (schedule pushArgsReversed value before).filter fun after =>
      stack.all fun tree => !reads after.resolved lvalue tree
  | .expr tree => schedule pushArgsReversed tree before

/-- The condition on one instruction, in the state before it. -/
def scheduleInstr (pushArgsReversed : Bool) (instr : Instr) (state : ParseState)
    (before : Schedule) : Option Schedule :=
  match emitted state.stack state.calls instr with
  | none => some before
  | some (stmt, stack) => scheduleStmt pushArgsReversed stack before stmt

/-- Every instruction meets its condition, and no call is left on the stack
unexecuted. -/
def timelyFrom (fold : Expr → Expr) (pushArgsReversed : Bool) : List Instr → ParseState → Schedule → Bool
  | [], state, before => before.calls == state.calls
  | instr :: rest, state, before =>
    (scheduleInstr pushArgsReversed instr state before).any fun after =>
      (parseInstr fold instr state).all fun next =>
        timelyFrom fold pushArgsReversed rest next after

def Timely (fold : Expr → Expr) (pushArgsReversed : Bool) (code : List Instr) : Prop :=
  timelyFrom fold pushArgsReversed code ParseState.initial Schedule.initial = true

instance (fold : Expr → Expr) (pushArgsReversed : Bool) (code : List Instr) :
    Decidable (Timely fold pushArgsReversed code) :=
  inferInstanceAs (Decidable (_ = true))

/-- What the stack machine has done: its variables, the calls it has made and
the values it has duplicated. -/
structure Past where
  vars : Variable → Value
  made : List Event
  saved : List Value

section Meaning

variable (callees : Callees) (past : Past)

def meaning : Expr → Value
  | .var x => past.vars x
  | .const value => value
  | .binary op left right => op.apply (meaning left) (meaning right)
  | .call id _ _ => callees (past.made.take (id + 1))
  | .save id _ => past.saved.getD id 0
  | .compound _ second => meaning second

variable (resolved : List Nat)

mutual

/-- The calls in the tree are the machine's, with the same arguments, and a
`SAVE_EXPR` has the value of its operand as long as it is not resolved. -/
def Sound : Expr → Prop
  | .var _ => True
  | .const _ => True
  | .binary _ left right => Sound left ∧ Sound right
  | .call id method args =>
    SoundArgs args ∧ past.made[id]? = some ⟨method, args.map (meaning callees past)⟩
  | .save id operand =>
    id < past.saved.length ∧
      (id ∉ resolved →
        Sound operand ∧ past.saved[id]? = some (meaning callees past operand))
  | .compound first second => Sound first ∧ Sound second

def SoundArgs : List Expr → Prop
  | [] => True
  | arg :: rest => Sound arg ∧ SoundArgs rest

end

end Meaning

section Invariance

variable {callees : Callees} {past : Past} {resolved : List Nat}

theorem soundArgs_iff (args : List Expr) :
    SoundArgs callees past resolved args ↔
      ∀ arg ∈ args, Sound callees past resolved arg := by
  induction args with
  | nil => simp [SoundArgs]
  | cons arg rest ih => simp [SoundArgs, ih]

theorem Sound.mono {resolved' : List Nat} {tree : Expr}
    (more : resolved ⊆ resolved') (sound : Sound callees past resolved tree) : Sound callees past resolved' tree := by
  induction tree with
  | var x => exact sound
  | const value => exact sound
  | binary op left right ihLeft ihRight =>
    simp only [Sound] at sound ⊢
    exact ⟨ihLeft sound.1, ihRight sound.2⟩
  | call id method args ih =>
    simp only [Sound, soundArgs_iff] at sound ⊢
    exact ⟨fun arg member => ih arg member (sound.1 arg member), sound.2⟩
  | save id operand ih =>
    simp only [Sound] at sound ⊢
    refine ⟨sound.1, fun unresolved => ?_⟩
    obtain ⟨operandSound, value⟩ := sound.2 fun member => unresolved (more member)
    exact ⟨ih operandSound, value⟩
  | compound first second ihFirst ihSecond =>
    simp only [Sound] at sound ⊢
    exact ⟨ihFirst sound.1, ihSecond sound.2⟩

def Past.extend (past : Past) (calls : List Event) (values : List Value) : Past :=
  ⟨past.vars, past.made ++ calls, past.saved ++ values⟩

theorem meaning_extend {calls : List Event} {values : List Value} {tree : Expr}
    (sound : Sound callees past resolved tree) :
    meaning callees (past.extend calls values) tree = meaning callees past tree := by
  induction tree with
  | var x => rfl
  | const value => rfl
  | binary op left right ihLeft ihRight =>
    simp only [Sound] at sound
    simp only [meaning, ihLeft sound.1, ihRight sound.2]
  | call id method args =>
    simp only [Sound] at sound
    obtain ⟨made, -⟩ := List.getElem?_eq_some_iff.mp sound.2
    simp only [meaning, Past.extend]
    rw [List.take_append_of_le_length made]
  | save id operand =>
    simp only [Sound] at sound
    simp only [meaning, Past.extend]
    rw [List.getD_append _ _ _ _ sound.1]
  | compound first second _ ihSecond =>
    simp only [Sound] at sound
    simp only [meaning, ihSecond sound.2]

theorem Sound.extend {tree : Expr} (calls : List Event) (values : List Value)
    (sound : Sound callees past resolved tree) :
    Sound callees (past.extend calls values) resolved tree := by
  induction tree with
  | var x => exact sound
  | const value => exact sound
  | binary op left right ihLeft ihRight =>
    simp only [Sound] at sound ⊢
    exact ⟨ihLeft sound.1, ihRight sound.2⟩
  | call id method args ih =>
    simp only [Sound, soundArgs_iff] at sound ⊢
    refine ⟨fun arg member => ih arg member (sound.1 arg member), ?_⟩
    have same : args.map (meaning callees (past.extend calls values)) =
        args.map (meaning callees past) :=
      List.map_congr_left fun arg member => meaning_extend (sound.1 arg member)
    obtain ⟨made, -⟩ := List.getElem?_eq_some_iff.mp sound.2
    rw [same, Past.extend, List.getElem?_append_left made]
    exact sound.2
  | save id operand ih =>
    simp only [Sound] at sound ⊢
    have known : id < (past.extend calls values).saved.length := by
      simp only [Past.extend, List.length_append]
      omega
    refine ⟨known, fun unresolved => ?_⟩
    obtain ⟨operandSound, value⟩ := sound.2 unresolved
    refine ⟨ih operandSound, ?_⟩
    rw [meaning_extend operandSound, Past.extend,
      List.getElem?_append_left sound.1]
    exact value
  | compound first second ihFirst ihSecond =>
    simp only [Sound] at sound ⊢
    exact ⟨ihFirst sound.1, ihSecond sound.2⟩

def Past.store (past : Past) (x : Variable) (value : Value) : Past :=
  { past with vars := Function.update past.vars x value }

theorem readsArgs_eq_any (x : Variable) (args : List Expr) :
    readsArgs resolved x args = args.any (reads resolved x) := by
  induction args with
  | nil => rfl
  | cons arg rest ih => simp [readsArgs, ih]

theorem meaning_store {x : Variable} {value : Value} {tree : Expr}
    (unread : reads resolved x tree = false) :
    meaning callees (past.store x value) tree = meaning callees past tree := by
  induction tree with
  | var y =>
    simp only [reads, beq_eq_false_iff_ne] at unread
    exact Function.update_of_ne unread _ _
  | const value => rfl
  | binary op left right ihLeft ihRight =>
    simp only [reads, Bool.or_eq_false_iff] at unread
    simp only [meaning, ihLeft unread.1, ihRight unread.2]
  | call id method args => rfl
  | save id operand => rfl
  | compound first second _ ihSecond =>
    simp only [reads, Bool.or_eq_false_iff] at unread
    simp only [meaning, ihSecond unread.2]

theorem Sound.store {x : Variable} {tree : Expr} (value : Value)
    (unread : reads resolved x tree = false) (sound : Sound callees past resolved tree) :
    Sound callees (past.store x value) resolved tree := by
  induction tree with
  | var y => exact sound
  | const value => exact sound
  | binary op left right ihLeft ihRight =>
    simp only [reads, Bool.or_eq_false_iff] at unread
    simp only [Sound] at sound ⊢
    exact ⟨ihLeft unread.1 sound.1, ihRight unread.2 sound.2⟩
  | call id method args ih =>
    simp only [reads, readsArgs_eq_any, List.any_eq_false, Bool.not_eq_true] at unread
    simp only [Sound, soundArgs_iff] at sound ⊢
    refine ⟨fun arg member => ih arg member (unread arg member) (sound.1 arg member), ?_⟩
    have same : args.map (meaning callees (past.store x value)) =
        args.map (meaning callees past) :=
      List.map_congr_left fun arg member => meaning_store (unread arg member)
    rw [same]
    exact sound.2
  | save id operand ih =>
    simp only [Sound] at sound ⊢
    refine ⟨sound.1, fun unresolved => ?_⟩
    simp only [reads, unresolved, decide_false, Bool.not_false, Bool.true_and] at unread
    obtain ⟨operandSound, saved⟩ := sound.2 unresolved
    refine ⟨ih unread operandSound, ?_⟩
    rw [meaning_store unread]
    exact saved
  | compound first second ihFirst ihSecond =>
    simp only [reads, Bool.or_eq_false_iff] at unread
    simp only [Sound] at sound ⊢
    exact ⟨ihFirst unread.1 sound.1, ihSecond unread.2 sound.2⟩

theorem meaning_eq_value (tree : Expr) :
    meaning callees past tree = tree.value (meaning callees past) := by
  induction tree with
  | binary op left right ihLeft ihRight => rw [meaning, Expr.value, ihLeft, ihRight]
  | compound first second _ ihSecond => rw [meaning, Expr.value, ihSecond]
  | _ => rfl

theorem sound_iff_atoms (tree : Expr) :
    Sound callees past resolved tree ↔ ∀ atom ∈ tree.atoms, Sound callees past resolved atom := by
  induction tree with
  | const value => simp [Expr.atoms, Sound]
  | binary op left right ihLeft ihRight =>
    rw [Sound, Expr.atoms, List.forall_mem_append, ihLeft, ihRight]
  | compound first second ihFirst ihSecond =>
    rw [Sound, Expr.atoms, List.forall_mem_append, ihFirst, ihSecond]
  | _ => simp [Expr.atoms]

/-- A folded tree stands for the same value of the machine. -/
theorem FoldKeeps.sound {fold : Expr → Expr} (keeps : FoldKeeps fold) {tree : Expr}
    (sound : Sound callees past resolved tree) :
    Sound callees past resolved (fold tree) ∧
      meaning callees past (fold tree) = meaning callees past tree := by
  constructor
  · rw [sound_iff_atoms] at sound ⊢
    exact fun atom member => sound atom (keeps.atoms tree member)
  · rw [meaning_eq_value, meaning_eq_value, keeps.value]

end Invariance

def Past.memory (past : Past) (done : Schedule) : Memory :=
  ⟨past.vars, fun id => if id ∈ done.resolved then past.saved[id]? else none,
    past.made.take done.calls⟩

section Evaluation

variable {callees : Callees} {past : Past} {pushArgsReversed : Bool}

/-- A schedule runs nothing that the machine has not done. -/
structure Past.Covers (past : Past) (done : Schedule) : Prop where
  calls_le : done.calls ≤ past.made.length
  resolved_lt : ∀ id ∈ done.resolved, id < past.saved.length

/-- An evaluation takes the memory of one schedule to that of another and
yields `value`. -/
structure Evaluates (past : Past) (before after : Schedule) {α : Type}
    (result : α × Memory) (value : α) : Prop where
  result_eq : result = (value, past.memory after)
  resolved_subset : before.resolved ⊆ after.resolved
  covers : past.Covers before → past.Covers after

theorem Evaluates.seq {α β γ : Type} {before between after : Schedule} {first : α × Memory}
    {second : Memory → β × Memory} {a : α} {b : β} (combine : α → β → γ)
    (left : Evaluates past before between first a)
    (right : Evaluates past between after (second (past.memory between)) b) :
    Evaluates past before after
      (combine first.1 (second first.2).1, (second first.2).2) (combine a b) := by
  refine ⟨?_, fun id member => right.resolved_subset (left.resolved_subset member),
    fun covered => right.covers (left.covers covered)⟩
  rw [left.result_eq, right.result_eq]

theorem evaluates_args {args : List Expr} {before after : Schedule}
    (each : ∀ arg ∈ args, ∀ before after,
      schedule pushArgsReversed arg before = some after →
      Sound callees past before.resolved arg →
      Evaluates past before after
        (eval callees pushArgsReversed arg (past.memory before)) (meaning callees past arg))
    (scheduled : scheduleArgs pushArgsReversed args before = some after)
    (sound : ∀ arg ∈ args, Sound callees past before.resolved arg) :
    Evaluates past before after
      (evalArgs callees pushArgsReversed args (past.memory before))
      (args.map (meaning callees past)) := by
  induction args generalizing before after with
  | nil =>
    obtain rfl : before = after := Option.some.inj scheduled
    exact ⟨rfl, List.Subset.refl _, id⟩
  | cons arg rest ih =>
    have restEach := fun other member => each other (List.mem_cons_of_mem arg member)
    have argEach := each arg List.mem_cons_self
    have argSound := sound arg List.mem_cons_self
    have restSound := fun other member => sound other (List.mem_cons_of_mem arg member)
    cases pushArgsReversed with
    | true =>
      obtain ⟨between, restScheduled, argScheduled⟩ := Option.bind_eq_some_iff.mp scheduled
      have first := ih restEach restScheduled restSound
      have second := argEach _ _ argScheduled (argSound.mono first.resolved_subset)
      exact first.seq (fun values value => value :: values) second
    | false =>
      obtain ⟨between, argScheduled, restScheduled⟩ := Option.bind_eq_some_iff.mp scheduled
      have first := argEach _ _ argScheduled argSound
      have second := ih restEach restScheduled fun other member =>
        (restSound other member).mono first.resolved_subset
      exact first.seq (fun value values => value :: values) second

theorem evaluates (tree : Expr) {before after : Schedule}
    (scheduled : schedule pushArgsReversed tree before = some after)
    (sound : Sound callees past before.resolved tree) :
    Evaluates past before after
      (eval callees pushArgsReversed tree (past.memory before))
      (meaning callees past tree) := by
  induction tree generalizing before after with
  | var x =>
    obtain rfl : before = after := Option.some.inj scheduled
    exact ⟨rfl, List.Subset.refl _, id⟩
  | const value =>
    obtain rfl : before = after := Option.some.inj scheduled
    exact ⟨rfl, List.Subset.refl _, id⟩
  | binary op left right ihLeft ihRight =>
    obtain ⟨between, leftScheduled, rightScheduled⟩ := Option.bind_eq_some_iff.mp scheduled
    simp only [Sound] at sound
    have first := ihLeft leftScheduled sound.1
    have second := ihRight rightScheduled (sound.2.mono first.resolved_subset)
    exact first.seq op.apply second
  | call id method args ih =>
    obtain ⟨between, argsScheduled, inTurn⟩ := Option.bind_eq_some_iff.mp scheduled
    simp only [Sound, soundArgs_iff] at sound
    have first := evaluates_args (fun arg member _ _ => ih arg member) argsScheduled sound.1
    split at inTurn
    · rename_i turn
      obtain rfl := Option.some.inj inTurn
      obtain ⟨made, -⟩ := List.getElem?_eq_some_iff.mp sound.2
      refine ⟨?_, first.resolved_subset, fun covered => ⟨?_, (first.covers covered).resolved_lt⟩⟩
      rotate_left
      · exact turn ▸ made
      -- the memory has the first `id` calls, and this one is the machine's next
      have next : past.made.take (id + 1) = past.made.take between.calls ++
          [⟨method, args.map (meaning callees past)⟩] := by
        rw [List.take_add_one, sound.2, turn]
        rfl
      simp only [eval, first.result_eq]
      simp only [meaning, Past.memory, ← turn, next]
    · cases inTurn
  | save id operand ih =>
    simp only [Sound] at sound
    simp only [schedule] at scheduled
    split at scheduled
    · rename_i resolved
      obtain rfl := Option.some.inj scheduled
      refine ⟨?_, List.Subset.refl _, fun covered => covered⟩
      have stored : (past.memory before).resolved id =
          some (meaning callees past (.save id operand)) := by
        simp [Past.memory, resolved, meaning, sound.1]
      simp only [eval, stored]
    · rename_i unresolved
      obtain ⟨between, operandScheduled, rfl⟩ := Option.map_eq_some_iff.mp scheduled
      obtain ⟨operandSound, saved⟩ := sound.2 unresolved
      have first := ih operandScheduled operandSound
      refine ⟨?_, fun other member => List.mem_cons_of_mem id (first.resolved_subset member),
        fun covered => ⟨(first.covers covered).calls_le, fun other member => ?_⟩⟩
      · have pending : (past.memory before).resolved id = none := if_neg unresolved
        have value : meaning callees past (.save id operand) =
            meaning callees past operand := by
          simp [meaning, List.getD_eq_getElem?_getD, saved]
        simp only [eval, pending, first.result_eq, value]
        refine Prod.ext rfl ?_
        simp only [Past.memory, Memory.mk.injEq, true_and, and_true]
        funext other
        by_cases same : other = id
        · subst same
          simp [saved]
        · simp [same]
      · obtain rfl | before := List.mem_cons.mp member
        · exact sound.1
        · exact (first.covers covered).resolved_lt other before
  | compound first second ihFirst ihSecond =>
    obtain ⟨between, firstScheduled, secondScheduled⟩ := Option.bind_eq_some_iff.mp scheduled
    simp only [Sound] at sound
    have early := ihFirst firstScheduled sound.1
    have late := ihSecond secondScheduled (sound.2.mono early.resolved_subset)
    exact early.seq (fun _ value => value) late

end Evaluation

section Invariant

variable {fold : Expr → Expr} {callees : Callees} {pushArgsReversed : Bool}
  {start : Variable → Value}

/-- The translation state, the statements run so far and the machine agree. -/
structure Agrees (callees : Callees) (pushArgsReversed : Bool) (start : Variable → Value)
    (state : ParseState) (done : Schedule) (past : Past) (stack : List Value) : Prop where
  memory_eq : execBody callees pushArgsReversed state.body (Memory.initial start) =
    past.memory done
  stack_eq : stack = state.stack.map (meaning callees past)
  sound : ∀ tree ∈ state.stack, Sound callees past done.resolved tree
  calls_eq : state.calls = past.made.length
  saves_eq : state.saves = past.saved.length
  covers : past.Covers done

variable {state : ParseState} {done after : Schedule} {past : Past} {stack : List Value}

theorem Agrees.initial (start : Variable → Value) :
    Agrees callees pushArgsReversed start ParseState.initial Schedule.initial
      ⟨start, [], []⟩ [] where
  memory_eq := by simp [ParseState.initial, execBody, Memory.initial, Past.memory,
    Schedule.initial]
  stack_eq := rfl
  sound := by simp [ParseState.initial]
  calls_eq := rfl
  saves_eq := rfl
  covers := ⟨Nat.le_refl 0, by simp [Schedule.initial]⟩

theorem Agrees.push (agrees : Agrees callees pushArgsReversed start state done past stack)
    (tree : Expr) (sound : Sound callees past done.resolved tree) :
    Agrees callees pushArgsReversed start (stackPush tree state) done past
      (meaning callees past tree :: stack) where
  memory_eq := agrees.memory_eq
  stack_eq := by simp [stackPush, agrees.stack_eq]
  sound := by
    intro other member
    obtain rfl | member := List.mem_cons.mp member
    · exact sound
    · exact agrees.sound other member
  calls_eq := agrees.calls_eq
  saves_eq := agrees.saves_eq
  covers := agrees.covers

theorem Agrees.drop (agrees : Agrees callees pushArgsReversed start state done past stack)
    (count : Nat) :
    Agrees callees pushArgsReversed start { state with stack := state.stack.drop count } done
      past (stack.drop count) where
  memory_eq := agrees.memory_eq
  stack_eq := by rw [agrees.stack_eq, List.map_drop]
  sound := fun tree member => agrees.sound tree (List.mem_of_mem_drop member)
  calls_eq := agrees.calls_eq
  saves_eq := agrees.saves_eq
  covers := agrees.covers

theorem Past.memory_extend {calls : List Event} {values : List Value} (covers : past.Covers done) :
    (past.extend calls values).memory done = past.memory done := by
  simp only [Past.memory, Past.extend, Memory.mk.injEq, true_and]
  constructor
  · funext id
    by_cases member : id ∈ done.resolved
    · rw [if_pos member, if_pos member, List.getElem?_append_left (covers.resolved_lt id member)]
    · rw [if_neg member, if_neg member]
  · exact List.take_append_of_le_length covers.calls_le

theorem Agrees.extend (agrees : Agrees callees pushArgsReversed start state done past stack)
    (calls : List Event) (values : List Value) :
    Agrees callees pushArgsReversed start
      { state with calls := state.calls + calls.length, saves := state.saves + values.length }
      done (past.extend calls values) stack where
  memory_eq := by rw [Past.memory_extend agrees.covers]; exact agrees.memory_eq
  stack_eq := by
    rw [agrees.stack_eq]
    exact List.map_congr_left fun tree member => (meaning_extend (agrees.sound tree member)).symm
  sound := fun tree member => (agrees.sound tree member).extend calls values
  calls_eq := by simp [Past.extend, agrees.calls_eq]
  saves_eq := by simp [Past.extend, agrees.saves_eq]
  covers := by
    refine ⟨?_, fun id member => ?_⟩
    · have := agrees.covers.calls_le
      simp only [Past.extend, List.length_append]
      omega
    · have := agrees.covers.resolved_lt id member
      simp only [Past.extend, List.length_append]
      omega

theorem execBody_append (body : List Stmt) (stmt : Stmt) (memory : Memory) :
    execBody callees pushArgsReversed (body ++ [stmt]) memory =
      execStmt callees pushArgsReversed stmt (execBody callees pushArgsReversed body memory) := by
  simp [execBody]

theorem Agrees.expr {tree : Expr}
    (agrees : Agrees callees pushArgsReversed start state done past stack)
    (sound : Sound callees past done.resolved tree)
    (scheduled : schedule pushArgsReversed tree done = some after) :
    Agrees callees pushArgsReversed start { state with body := state.body ++ [.expr tree] } after
      past stack where
  memory_eq := by
    rw [execBody_append, agrees.memory_eq, execStmt, (evaluates tree scheduled sound).result_eq]
  stack_eq := agrees.stack_eq
  sound := fun other member =>
    (agrees.sound other member).mono (evaluates tree scheduled sound).resolved_subset
  calls_eq := agrees.calls_eq
  saves_eq := agrees.saves_eq
  covers := (evaluates tree scheduled sound).covers agrees.covers

theorem Agrees.modify {x : Variable} {tree : Expr}
    (agrees : Agrees callees pushArgsReversed start state done past stack)
    (sound : Sound callees past done.resolved tree)
    (scheduled : schedule pushArgsReversed tree done = some after)
    (unread : ∀ other ∈ state.stack, reads after.resolved x other = false) :
    Agrees callees pushArgsReversed start { state with body := state.body ++ [.modify x tree] }
      after (past.store x (meaning callees past tree)) stack where
  memory_eq := by
    rw [execBody_append, agrees.memory_eq, execStmt, (evaluates tree scheduled sound).result_eq]
    rfl
  stack_eq := by
    rw [agrees.stack_eq]
    exact List.map_congr_left fun other member => (meaning_store (unread other member)).symm
  sound := fun other member =>
    ((agrees.sound other member).mono (evaluates tree scheduled sound).resolved_subset).store _
      (unread other member)
  calls_eq := agrees.calls_eq
  saves_eq := agrees.saves_eq
  covers := by
    have covered := (evaluates tree scheduled sound).covers agrees.covers
    exact ⟨covered.calls_le, covered.resolved_lt⟩

def Past.machine (past : Past) (stack : List Value) : Machine := ⟨stack, past.vars, past.made⟩

/-- An instruction keeps the agreement: the translation goes on and the machine
ends in `machine`. -/
def Advances (callees : Callees) (pushArgsReversed : Bool) (start : Variable → Value)
    (after : Schedule) (parsed : Option ParseState) (machine : Machine) : Prop :=
  ∃ next past stack, parsed = some next ∧ machine = past.machine stack ∧
    Agrees callees pushArgsReversed start next after past stack

theorem Agrees.cons_of_stack_cons {value : Value} {rest : List Value}
    (agrees : Agrees callees pushArgsReversed start state done past (value :: rest)) :
    ∃ tree trees, state.stack = tree :: trees ∧ value = meaning callees past tree ∧
      Sound callees past done.resolved tree := by
  have mapped := agrees.stack_eq
  cases shape : state.stack with
  | nil =>
    rw [shape] at mapped
    cases mapped
  | cons tree trees =>
    rw [shape] at mapped
    obtain ⟨head, -⟩ := List.cons.inj mapped
    exact ⟨tree, trees, rfl, head, agrees.sound tree (by simp [shape])⟩

theorem Agrees.store {x : Variable} {instr : Instr} {machine : Machine}
    (agrees : Agrees callees pushArgsReversed start state done past stack)
    (emits : emitted state.stack state.calls instr =
      state.stack.head?.map fun value => (.modify x value, state.stack.tail))
    (stepped : (past.machine stack).store x = some machine)
    (scheduled : scheduleInstr pushArgsReversed instr state done = some after) :
    Advances callees pushArgsReversed start after (makeAssignment x state) machine := by
  cases stack with
  | nil => cases stepped
  | cons value rest =>
    obtain rfl := Option.some.inj stepped
    obtain ⟨tree, trees, shape, rfl, sound⟩ := agrees.cons_of_stack_cons
    rw [scheduleInstr, emits, shape] at scheduled
    simp only [List.head?_cons, Option.map_some, List.tail_cons, scheduleStmt,
      Option.filter_eq_some_iff, List.all_eq_true, Bool.not_eq_true'] at scheduled
    have popped := agrees.drop 1
    simp only [shape, List.drop_succ_cons, List.drop_zero] at popped
    refine ⟨_, _, _, ?_, rfl, popped.modify sound scheduled.1 scheduled.2⟩
    simp [makeAssignment, stackPop, shape, appendToStatementList, Stmt.treeSideEffects]

theorem saveExpr_sound {resolved : List Nat} {tree : Expr} (keeps : FoldKeeps fold)
    (sound : Sound callees past resolved tree) :
    Sound callees (past.extend [] [meaning callees past tree]) resolved
        (saveExpr fold past.saved.length tree) ∧
      meaning callees (past.extend [] [meaning callees past tree])
        (saveExpr fold past.saved.length tree) = meaning callees past tree := by
  obtain ⟨folded, same⟩ := keeps.sound sound
  rw [← same]
  unfold saveExpr
  dsimp only
  generalize fold tree = t at folded ⊢
  split
  · exact ⟨folded.extend _ _, meaning_extend folded⟩
  · refine ⟨⟨?_, fun _ => ⟨folded.extend _ _, ?_⟩⟩, ?_⟩
    · simp [Past.extend]
    · rw [meaning_extend folded]
      simp [Past.extend]
    · simp [meaning, Past.extend]

theorem Agrees.dup {value : Value} {rest : List Value} (keeps : FoldKeeps fold)
    (agrees : Agrees callees pushArgsReversed start state done past (value :: rest)) :
    Advances callees pushArgsReversed start done (makeInstrDup fold state)
      (past.machine (value :: value :: rest)) := by
  obtain ⟨tree, trees, shape, rfl, sound⟩ := agrees.cons_of_stack_cons
  obtain ⟨savedSound, savedMeaning⟩ := saveExpr_sound keeps sound
  have popped := (agrees.drop 1).extend [] [meaning callees past tree]
  have pushed := (popped.push _ savedSound).push _ savedSound
  refine ⟨_, _, _, ?_, ?_, pushed⟩
  · simp [makeInstrDup, stackPop, shape, agrees.saves_eq, stackPush]
  · rw [savedMeaning]
    simp [Past.machine, Past.extend]

theorem Agrees.pop {value : Value} {rest : List Value}
    (agrees : Agrees callees pushArgsReversed start state done past (value :: rest))
    (scheduled : scheduleInstr pushArgsReversed .pop state done = some after) :
    Advances callees pushArgsReversed start after (makeInstrPop state) (past.machine rest) := by
  obtain ⟨tree, trees, shape, rfl, sound⟩ := agrees.cons_of_stack_cons
  have popped := agrees.drop 1
  by_cases effects : tree.treeSideEffects = true
  · simp only [scheduleInstr, emitted, shape, List.head?_cons, Option.filter_some, effects,
      if_true, Option.map_some, scheduleStmt] at scheduled
    refine ⟨_, _, _, ?_, ?_, popped.expr sound scheduled⟩
    · simp [makeInstrPop, stackPop, shape, appendToStatementList, Stmt.treeSideEffects, effects]
    · rfl
  · simp only [scheduleInstr, emitted, shape, List.head?_cons, Option.filter_some, effects,
      Bool.false_eq_true, if_false, Option.map_none, Option.some.injEq] at scheduled
    subst scheduled
    refine ⟨_, _, _, ?_, ?_, popped⟩
    · simp [makeInstrPop, stackPop, shape, appendToStatementList, Stmt.treeSideEffects, effects]
    · rfl

theorem Agrees.arithmetic {op : ArithmeticOp} {a b : Value} {rest : List Value}
    (keeps : FoldKeeps fold)
    (agrees : Agrees callees pushArgsReversed start state done past (b :: a :: rest)) :
    Advances callees pushArgsReversed start done (makeArithmeticExpr fold op state)
      (past.machine (op.apply a b :: rest)) := by
  obtain ⟨right, trees, shape, rfl, rightSound⟩ := agrees.cons_of_stack_cons
  obtain ⟨left, trees', shape', rfl, leftSound⟩ := (agrees.drop 1).cons_of_stack_cons
  obtain ⟨folded, same⟩ := @FoldKeeps.sound _ _ _ _ keeps (.binary op left right) ⟨leftSound, rightSound⟩
  have pushed := (agrees.drop 2).push (fold (.binary op left right)) folded
  rw [same] at pushed
  simp only [shape, List.drop_succ_cons, List.drop_zero] at shape'
  subst shape'
  refine ⟨_, _, _, ?_, ?_, pushed⟩
  · simp [makeArithmeticExpr, stackPop, shape, stackPush]
  · rfl

theorem popArguments_eq (count : Nat) (functionArgs : List Expr)
    (enough : count ≤ state.stack.length) :
    popArguments count functionArgs state =
      some ((state.stack.take count).reverse ++ functionArgs,
        { state with stack := state.stack.drop count }) := by
  induction count generalizing functionArgs state with
  | zero => simp [popArguments]
  | succ count ih =>
    cases shape : state.stack with
    | nil => simp [shape] at enough
    | cons node rest =>
      simp only [shape, List.length_cons, Nat.add_le_add_iff_right] at enough
      simp only [popArguments, stackPop, shape, Option.bind_eq_bind, Option.bind_some]
      rw [ih _ enough]
      simp

theorem createFunctionCall_eq (method params : Nat) (enough : params ≤ state.stack.length) :
    createFunctionCall method params state =
      some (.call state.calls method (state.stack.take params).reverse,
        { state with stack := state.stack.drop params, calls := state.calls + 1 }) := by
  simp [createFunctionCall, popArguments_eq params [] enough]

theorem Agrees.call_sound (agrees : Agrees callees pushArgsReversed start state done past stack)
    (method params : Nat) :
    Sound callees (past.extend [⟨method, (stack.take params).reverse⟩] []) done.resolved
      (.call state.calls method (state.stack.take params).reverse) := by
  have taken : ∀ tree ∈ (state.stack.take params).reverse,
      Sound callees past done.resolved tree := fun tree member =>
    agrees.sound tree (List.mem_of_mem_take (List.mem_reverse.mp member))
  simp only [Sound, soundArgs_iff]
  refine ⟨fun tree member => (taken tree member).extend _ _, ?_⟩
  have values : (state.stack.take params).reverse.map (meaning callees past) =
      (stack.take params).reverse := by
    rw [agrees.stack_eq, List.map_reverse, List.map_take]
  rw [List.map_congr_left fun tree member => meaning_extend (taken tree member), values]
  simp [Past.extend, agrees.calls_eq]

theorem Agrees.call {method params : Nat} {returnsValue : Bool} {machine : Machine}
    (agrees : Agrees callees pushArgsReversed start state done past stack)
    (stepped : Machine.step callees (.call method params returnsValue) (past.machine stack) =
      some machine)
    (scheduled : scheduleInstr pushArgsReversed (.call method params returnsValue) state done =
      some after) :
    Advances callees pushArgsReversed start after
      (parseInstr fold (.call method params returnsValue) state) machine := by
  simp only [Machine.step] at stepped
  by_cases enough : params ≤ (past.machine stack).stack.length
  · rw [if_pos enough] at stepped
    obtain rfl := Option.some.inj stepped
    have enoughTrees : params ≤ state.stack.length := by
      simpa [Past.machine, agrees.stack_eq] using enough
    have sound := agrees.call_sound method params
    have called := (agrees.drop params).extend [⟨method, (stack.take params).reverse⟩] []
    cases returnsValue with
    | true =>
      obtain rfl := Option.some.inj scheduled
      refine ⟨_, _, _, ?_, ?_, called.push _ sound⟩
      · simp [parseInstr, createFunctionCall_eq method params enoughTrees, finishFunctionCall]
      · have all : ∀ event, (past.made ++ [event]).take (state.calls + 1) =
            past.made ++ [event] := fun event =>
          List.take_of_length_le (by simp [agrees.calls_eq])
        simp [Past.machine, Past.extend, meaning, all]
    | false =>
      refine ⟨_, _, _, ?_, ?_, called.expr sound scheduled⟩
      · simp [parseInstr, createFunctionCall_eq method params enoughTrees, finishFunctionCall,
          appendToStatementList, Stmt.treeSideEffects, Expr.treeSideEffects]
      · simp [Past.machine, Past.extend]
  · rw [if_neg enough] at stepped
    cases stepped

theorem Agrees.step {instr : Instr} {machine : Machine} (keeps : FoldKeeps fold)
    (agrees : Agrees callees pushArgsReversed start state done past stack)
    (stepped : Machine.step callees instr (past.machine stack) = some machine)
    (scheduled : scheduleInstr pushArgsReversed instr state done = some after) :
    Advances callees pushArgsReversed start after (parseInstr fold instr state) machine := by
  cases instr with
  | ldloc index =>
    obtain rfl := Option.some.inj stepped
    obtain rfl := Option.some.inj scheduled
    exact ⟨_, past, _, rfl, rfl, agrees.push (.var (.localVar index)) trivial⟩
  | stloc index => exact agrees.store rfl stepped scheduled
  | ldarg index =>
    obtain rfl := Option.some.inj stepped
    obtain rfl := Option.some.inj scheduled
    exact ⟨_, past, _, rfl, rfl, agrees.push (.var (.formalParam index)) trivial⟩
  | starg index => exact agrees.store rfl stepped scheduled
  | ldcI4 value =>
    obtain rfl := Option.some.inj stepped
    obtain rfl := Option.some.inj scheduled
    exact ⟨_, past, _, rfl, rfl, agrees.push (.const value) trivial⟩
  | dup =>
    obtain rfl := Option.some.inj scheduled
    cases stack with
    | nil => cases stepped
    | cons value rest =>
      obtain rfl := Option.some.inj stepped
      exact agrees.dup keeps
  | pop =>
    cases stack with
    | nil => cases stepped
    | cons value rest =>
      obtain rfl := Option.some.inj stepped
      exact agrees.pop scheduled
  | arithmetic op =>
    obtain rfl := Option.some.inj scheduled
    match stack with
    | [] => cases stepped
    | [_] => cases stepped
    | b :: a :: rest =>
      obtain rfl := Option.some.inj stepped
      exact agrees.arithmetic keeps
  | call method params returnsValue => exact agrees.call stepped scheduled

theorem Agrees.run {code : List Instr} {final : Machine} (keeps : FoldKeeps fold)
    (agrees : Agrees callees pushArgsReversed start state done past stack)
    (ran : Machine.run callees code (past.machine stack) = some final)
    (timely : timelyFrom fold pushArgsReversed code state done = true) :
    ∃ last, parseCode fold code state = some last ∧
      (execBody callees pushArgsReversed last.body (Memory.initial start)).vars = final.vars ∧
      (execBody callees pushArgsReversed last.body (Memory.initial start)).trace =
        final.trace := by
  induction code generalizing state done past stack with
  | nil =>
    obtain rfl := Option.some.inj ran
    have all : done.calls = state.calls := beq_iff_eq.mp timely
    refine ⟨state, rfl, ?_⟩
    rw [agrees.memory_eq]
    simp [Past.memory, Past.machine, all, agrees.calls_eq]
  | cons instr rest ih =>
    obtain ⟨middle, stepped, restRan⟩ := Option.bind_eq_some_iff.mp ran
    obtain ⟨after, scheduled, restTimely⟩ := (Option.any_eq_true _ _).mp timely
    obtain ⟨next, past', stack', parsed, rfl, nextAgrees⟩ := agrees.step keeps stepped scheduled
    obtain ⟨last, restParsed, same⟩ := ih nextAgrees restRan ((Option.all_eq_true _ _).mp restTimely next parsed)
    refine ⟨last, ?_, same⟩
    rw [parseCode, parsed]
    exact restParsed

end Invariant

/-- Timely code that does not underflow the stack is translated to statements
that leave the same variables and make the same calls as the stack machine. -/
theorem refines_of_timely {fold : Expr → Expr} (keeps : FoldKeeps fold) (pushArgsReversed : Bool)
    (code : List Instr) (timely : Timely fold pushArgsReversed code) :
    Refines fold pushArgsReversed code :=
  fun _ vars _ ran => (Agrees.initial vars).run keeps ran timely

/-- `fold` on operands that are constants, where it leaves other trees alone. -/
def foldConstants : Expr → Expr
  | .binary op (.const a) (.const b) => .const (op.apply a b)
  | tree => tree

theorem foldConstants_keeps : FoldKeeps foldConstants := by
  constructor
  · intro tree
    unfold foldConstants
    split
    · exact List.nil_subset _
    · exact List.Subset.refl _
  · intro tree of
    unfold foldConstants
    split
    · rfl
    · rfl

/-- The code of `x0 = x1 = x0 - f (x0 + 3)`, with both values duplicated. -/
theorem call_refines : Timely foldConstants true
      [.ldloc 0, .dup, .ldcI4 3, .arithmetic .plus, .call 7 1 true, .arithmetic .minus, .dup,
        .stloc 1, .stloc 0] ∧
    Refines foldConstants true
      [.ldloc 0, .dup, .ldcI4 3, .arithmetic .plus, .call 7 1 true, .arithmetic .minus, .dup,
        .stloc 1, .stloc 0] :=
  ⟨by decide, refines_of_timely foldConstants_keeps true _ (by decide)⟩

/-- The reassociation of `x * y + a () + b () * z`, which brings the call of `b` to the front. -/
def reassociate : Expr → Expr
  | .binary .plus (.binary .plus first call) (.binary .mult left right) =>
    .binary .plus (.binary .plus first (.binary .mult left right)) call
  | tree => tree

example : ¬ Timely reassociate true
    [.ldloc 0, .ldloc 1, .arithmetic .mult, .call 0 0 true, .arithmetic .plus, .call 1 0 true,
      .ldloc 2, .arithmetic .mult, .arithmetic .plus, .stloc 3] := by decide

/-- The load of local 0 runs after the store to it. -/
theorem staleLoad_not_refines :
    ¬ Refines foldConstants true [.ldloc 0, .ldcI4 1, .stloc 0, .stloc 1] ∧
      ¬ Refines foldConstants false [.ldloc 0, .ldcI4 1, .stloc 0, .stloc 1] := by
  have stale : ∀ pushArgsReversed, ¬ Refines foldConstants pushArgsReversed
      [.ldloc 0, .ldcI4 1, .stloc 0, .stloc 1] := by
    intro pushArgsReversed refines
    obtain ⟨state, parsed, sameVars, -⟩ := refines (fun _ => 0) (fun _ => 0) _ rfl
    obtain rfl := Option.some.inj parsed
    have value : (1 : Value) = 0 := congrFun sameVars (.localVar 1)
    exact absurd value (by decide)
  exact ⟨stale true, stale false⟩

end GccCil.Cil.Statements
