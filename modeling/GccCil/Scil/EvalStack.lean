import GccCil.Scil.Trees

/-!
# The evaluation stack

`scil-evalstack.c`.  A slot of the stack owns one variable for each typed
stack, made on first use; value types share one list of variables per slot.
The invariant says that the entry at depth `i` is the variable that slot `i`
owns for the entry's own type, so a stack is determined by its types.
-/

namespace GccCil.Scil

/-- The typed stacks and the counter of `scil_add_stack_variable`. -/
structure TypedStacks where
  typed : StackClass → Nat → Option Decl
  valuetypes : Nat → List (Ty × Decl)
  nextIndex : Nat

namespace TypedStacks

/-- Before the first instruction; the counter is static and never reset. -/
def initial (nextIndex : Nat) : TypedStacks where
  typed := fun _ _ => none
  valuetypes := fun _ => []
  nextIndex := nextIndex

def find (slots : TypedStacks) : StackClass → Nat → Option Decl
  | .valuetype type, slot =>
    ((slots.valuetypes slot).find? (fun entry => entry.1 = type)).map Prod.snd
  | family, slot => slots.typed family slot

/-- The declaration that `scil_add_stack_variable` makes next. -/
def fresh (slots : TypedStacks) (type : Ty) : Decl where
  kind := .stackVariable
  index := slots.nextIndex
  type := type

/-- Find or make the variable of a slot, as `scil_get_stack_variable` does. -/
def allocate (slots : TypedStacks) (family : StackClass) (slot : Nat) : Decl × TypedStacks :=
  match slots.find family slot with
  | some found => (found, slots)
  | none =>
    match family with
    | .valuetype type =>
      let made := slots.fresh type
      (made,
        { slots with
          valuetypes := Function.update slots.valuetypes slot
            ((type, made) :: slots.valuetypes slot)
          nextIndex := slots.nextIndex + 1 })
    | family =>
      let made := slots.fresh family.type
      (made,
        { slots with
          typed := Function.update slots.typed family
            (Function.update (slots.typed family) slot (some made))
          nextIndex := slots.nextIndex + 1 })

/-- Every variable belongs to one slot and one typed stack and has its type. -/
structure WellFormed (slots : TypedStacks) : Prop where
  registered : ∀ family slot found, slots.find family slot = some found →
    found.kind = .stackVariable ∧ found.type = family.type ∧
      found.index < slots.nextIndex
  injective : ∀ family slot family' slot' found found',
    slots.find family slot = some found → slots.find family' slot' = some found' →
      found.index = found'.index → family = family' ∧ slot = slot'

theorem initial_wellFormed (nextIndex : Nat) : (initial nextIndex).WellFormed := by
  have empty : ∀ family slot, (initial nextIndex).find family slot = none := by
    intro family slot
    cases family <;> rfl
  constructor
  · intro family slot found owned
    simp [empty] at owned
  · intro family slot family' slot' found found' owned
    simp [empty] at owned

/-- `later` owns every variable that `earlier` owns. -/
def Extends (earlier later : TypedStacks) : Prop :=
  ∀ family slot found, earlier.find family slot = some found →
    later.find family slot = some found

theorem Extends.refl (slots : TypedStacks) : slots.Extends slots :=
  fun _ _ _ owned => owned

theorem Extends.trans {first second third : TypedStacks}
    (left : first.Extends second) (right : second.Extends third) : first.Extends third :=
  fun family slot found owned => right family slot found (left family slot found owned)

theorem allocate_of_none {slots : TypedStacks} {family : StackClass} {slot : Nat}
    (absent : slots.find family slot = none) :
    (slots.allocate family slot).1 = slots.fresh family.type ∧
      (slots.allocate family slot).2.nextIndex = slots.nextIndex + 1 ∧
      ∀ family' slot', (slots.allocate family slot).2.find family' slot' =
        if family' = family ∧ slot' = slot then some (slots.fresh family.type)
        else slots.find family' slot' := by
  unfold allocate
  rw [absent]
  cases family with
  | valuetype type =>
    refine ⟨rfl, rfl, ?_⟩
    intro family' slot'
    cases family' with
    | valuetype type' =>
      by_cases sameSlot : slot' = slot
      · subst slot'
        by_cases sameType : type = type'
        · subst type'
          simp [find, StackClass.type]
        · have reversed : ¬ type' = type := fun equality => sameType equality.symm
          simp [find, sameType, reversed]
      · simp [find, sameSlot]
    | _ => simp [find]
  | _ =>
    refine ⟨rfl, rfl, ?_⟩
    intro family' slot'
    cases family' <;> by_cases sameSlot : slot' = slot <;>
      simp [find, sameSlot]

theorem allocate_of_some {slots : TypedStacks} {family : StackClass} {slot : Nat}
    {found : Decl} (present : slots.find family slot = some found) :
    slots.allocate family slot = (found, slots) := by
  unfold allocate
  rw [present]

theorem find_allocate (slots : TypedStacks) (family : StackClass) (slot : Nat) :
    (slots.allocate family slot).2.find family slot =
      some (slots.allocate family slot).1 := by
  cases owned : slots.find family slot with
  | some found => rw [allocate_of_some owned]; exact owned
  | none =>
    obtain ⟨made, -, table⟩ := allocate_of_none owned
    rw [table, made]
    simp

theorem allocate_extends (slots : TypedStacks) (family : StackClass) (slot : Nat) :
    slots.Extends (slots.allocate family slot).2 := by
  cases owned : slots.find family slot with
  | some found => rw [allocate_of_some owned]; exact Extends.refl _
  | none =>
    intro family' slot' found earlier
    rw [(allocate_of_none owned).2.2]
    split
    case isTrue same =>
      obtain ⟨rfl, rfl⟩ := same
      rw [owned] at earlier
      contradiction
    case isFalse => exact earlier

theorem allocate_wellFormed {slots : TypedStacks} (wellFormed : slots.WellFormed)
    (family : StackClass) (slot : Nat) : (slots.allocate family slot).2.WellFormed := by
  cases owned : slots.find family slot with
  | some found => rw [allocate_of_some owned]; exact wellFormed
  | none =>
    obtain ⟨-, counter, table⟩ := allocate_of_none owned
    constructor
    · intro family' slot' found present
      rw [table] at present
      rw [counter]
      split at present
      case isTrue same =>
        cases present
        exact ⟨rfl, by rw [same.1]; rfl, Nat.lt_succ_self _⟩
      case isFalse =>
        obtain ⟨kind, type, older⟩ := wellFormed.registered _ _ _ present
        exact ⟨kind, type, Nat.lt_succ_of_lt older⟩
    · intro family₁ slot₁ family₂ slot₂ found₁ found₂ present₁ present₂ sameIndex
      rw [table] at present₁ present₂
      split at present₁ <;> split at present₂
      case isTrue.isTrue same₁ same₂ =>
        exact ⟨same₁.1.trans same₂.1.symm, same₁.2.trans same₂.2.symm⟩
      case isTrue.isFalse =>
        cases present₁
        have older := (wellFormed.registered _ _ _ present₂).2.2
        exact absurd sameIndex (Nat.ne_of_gt older)
      case isFalse.isTrue =>
        cases present₂
        have older := (wellFormed.registered _ _ _ present₁).2.2
        exact absurd sameIndex (Nat.ne_of_lt older)
      case isFalse.isFalse =>
        exact wellFormed.injective _ _ _ _ _ _ present₁ present₂ sameIndex

/-- A stack whose entry at depth `i` is the variable of slot `i` for the
entry's type. -/
def Owns (slots : TypedStacks) : List Decl → Prop
  | [] => True
  | entry :: rest =>
    slots.find (getStack entry.type) rest.length = some entry ∧ slots.Owns rest

theorem Owns.extend {earlier later : TypedStacks} (extension : earlier.Extends later)
    {entries : List Decl} (owned : earlier.Owns entries) : later.Owns entries := by
  induction entries with
  | nil => trivial
  | cons entry rest ih =>
    exact ⟨extension _ _ _ owned.1, ih owned.2⟩

theorem Owns.eq_of_types {slots : TypedStacks} {first second : List Decl}
    (firstOwned : slots.Owns first) (secondOwned : slots.Owns second)
    (types : first.map Decl.type = second.map Decl.type) : first = second := by
  induction first generalizing second with
  | nil =>
    cases second with
    | nil => rfl
    | cons entry rest => simp at types
  | cons entry rest ih =>
    cases second with
    | nil => simp at types
    | cons entry' rest' =>
      simp only [List.map_cons, List.cons.injEq] at types
      obtain rfl := ih firstOwned.2 secondOwned.2 types.2
      have owner := firstOwned.1
      rw [types.1, secondOwned.1] at owner
      rw [Option.some.inj owner]

/-- Entries at different depths are different slots: an entry of a
shorter stack is never the variable of a higher slot. -/
theorem Owns.ne_of_find {slots : TypedStacks} (wellFormed : slots.WellFormed)
    {entries : List Decl} (owned : slots.Owns entries) {family : StackClass} {slot : Nat}
    {found : Decl} (present : slots.find family slot = some found)
    (above : entries.length ≤ slot) {entry : Decl} (membership : entry ∈ entries) :
    entry ≠ found := by
  induction entries with
  | nil => simp at membership
  | cons head rest ih =>
    rcases List.mem_cons.mp membership with equality | inRest
    · subst entry
      intro same
      subst found
      have sameSlot := (wellFormed.injective _ _ _ _ _ _ owned.1 present rfl).2
      simp only [List.length_cons] at above
      omega
    · exact ih owned.2 (Nat.le_of_succ_le above) inRest

theorem Owns.kind {slots : TypedStacks} (wellFormed : slots.WellFormed)
    {entries : List Decl} (owned : slots.Owns entries) {entry : Decl}
    (membership : entry ∈ entries) : entry.kind = .stackVariable := by
  induction entries with
  | nil => simp at membership
  | cons head rest ih =>
    rcases List.mem_cons.mp membership with rfl | inRest
    · exact (wellFormed.registered _ _ _ owned.1).1
    · exact ih owned.2 inRest

end TypedStacks

/-- `stack_t`. -/
structure Stack where
  topIndex : Nat
  entries : List Decl
  deriving DecidableEq

/-- The data kept at a label: `NULL`, the marker `(void *) 1` or a saved stack. -/
inductive LabelData where
  | null
  | marker
  | saved (stack : Stack)
  deriving DecidableEq

/-- Everything that the translation of one method body changes. -/
structure State where
  /-- the length of the typed stacks, `body.maxStack` -/
  size : Nat
  stack : Stack
  typedStacks : TypedStacks
  labelData : Nat → LabelData
  forcedLabel : Nat → Bool
  body : List Stmt

namespace State

/-- `scil_init_stacks`, for a method with no statement yet. -/
def initial (size nextIndex : Nat) : State where
  size := size
  stack := ⟨0, []⟩
  typedStacks := TypedStacks.initial nextIndex
  labelData := fun _ => .null
  forcedLabel := fun _ => false
  body := []

def types (state : State) : List Ty := state.stack.entries.map Decl.type

/-- The invariant of `stack` and of the typed stacks. -/
structure WellFormed (state : State) : Prop where
  typedStacks : state.typedStacks.WellFormed
  topIndex : state.stack.topIndex = state.stack.entries.length
  owns : state.typedStacks.Owns state.stack.entries

theorem initial_wellFormed (size nextIndex : Nat) : (initial size nextIndex).WellFormed :=
  ⟨TypedStacks.initial_wellFormed nextIndex, rfl, trivial⟩

end State

/-- The variable to push a value of the type into; `none` is an index outside
the typed stacks. -/
def scilGetStackVariable (type : Ty) (state : State) : Option (Decl × State) :=
  if state.stack.topIndex < state.size then
    let (found, slots) := state.typedStacks.allocate (getStack type) state.stack.topIndex
    some (found, { state with typedStacks := slots })
  else none

def scilStackIsEmpty (state : State) : Bool := state.stack.topIndex ≤ 0

def scilClearStack (state : State) : State := { state with stack := ⟨0, []⟩ }

def scilStackPush (stackVariable : Decl) (state : State) : State :=
  { state with
    stack := ⟨state.stack.topIndex + 1, stackVariable :: state.stack.entries⟩ }

/-- `none` is the dereference of the empty list. -/
def scilStackPop (state : State) : Option (Decl × State) :=
  match state.stack.entries with
  | [] => none
  | entry :: rest => some (entry, { state with stack := ⟨state.stack.topIndex - 1, rest⟩ })

def scilStackTop (state : State) : Option Decl := state.stack.entries.head?

def scilCopyStack (state : State) : Stack := state.stack

def scilSetStack (stack : Stack) (state : State) : State := { state with stack := stack }

def scilAppendStmt (stmt : Stmt) (state : State) : State :=
  { state with body := state.body ++ [stmt] }

end GccCil.Scil
