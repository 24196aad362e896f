import Mathlib.Data.Fintype.Card
import GccCil.Scil.VirtualTables

/-!
# The deferred methods

The loop of `cral_parse_file`.  A method is registered together with being
deferred, or it is the entry point; so once no method is deferred, every
registered method has been parsed.  A body is read when the definition of its
method is started, which happens once.  As every pass of the loop starts a
definition or shortens the queue, the loop ends.
-/

namespace GccCil.Scil.Reader

variable {Class Method Field Decl : Type}
  [DecidableEq Class] [DecidableEq Method] [DecidableEq Field] [DecidableEq Decl]

/-- Every registered method was parsed, and no body was read twice. -/
structure Finished (image : Image Class Method Field Decl)
    (final : State Class Method Field Decl) : Prop where
  drained : final.deferred = []
  complete : ∀ method, final.registered method = true → method ∈ final.parsed
  once : (final.translated.map image.decl).Nodup

/-- `cral_parse_file` ends, and has parsed what it registered. -/
def Parses (image : Image Class Method Field Decl) (entry : Option Method) : Prop :=
  ∃ fuel final, cralParseFile image fuel entry = some final ∧ Finished image final

/-- A run of `cral_parse_file` has read the instructions `earlier`, is in this
state, and reads `left` next before it takes another deferred method. -/
inductive Reached (image : Image Class Method Field Decl) (entry : Method) :
    List (Reference Method Field) → State Class Method Field Decl →
      List (Reference Method Field) → Prop where
  | entry : Reached image entry []
      (beginMethod image entry (registerMethod entry (start image))).2
      (beginMethod image entry (registerMethod entry (start image))).1
  | read {earlier left : List (Reference Method Field)} {reference : Reference Method Field}
      {state state' : State Class Method Field Decl}
      (reached : Reached image entry earlier state (reference :: left))
      (returned : instruction image reference state = some state') :
      Reached image entry (earlier ++ [reference]) state' left
  | next {earlier : List (Reference Method Field)} {state : State Class Method Field Decl}
      {method : Method} {rest : List Method} (reached : Reached image entry earlier state [])
      (deferred : state.deferred = method :: rest) :
      Reached image entry earlier (beginMethod image method { state with deferred := rest }).2
        (beginMethod image method { state with deferred := rest }).1

def Known (image : Image Class Method Field Decl) (state : State Class Method Field Decl)
    (method : Method) : Prop :=
  state.registered method = true ∨ image.isStaticDelegate (image.owner method) = false

/-- An instruction that is read in this state finds the trees that it needs. -/
def HasTrees (image : Image Class Method Field Decl) (state : State Class Method Field Decl) :
    Reference Method Field → Prop
  | .call method =>
    (image.isDelegate (image.owner method) = true → image.isDelegateMethod method = true) ∧
      Known image state method
  | .ldftn method => Known image state method
  | .callvirt method =>
    if image.isDelegate (image.owner method) then image.isDelegateMethod method = true
    else Known image state method
  | .ldvirtftn _ => True
  | .newobj constructor =>
    (image.isDelegate (image.owner constructor) = true ∧
        image.isStaticDelegate (image.owner constructor) = true) ∨
      image.dispatches (image.owner constructor) = true
  | .field field =>
    image.isStatic field = true ∨ image.isBuiltin (image.fieldOwner field) = false

/-- Whenever the run asks for a vtable, the base information of the class is
there, and every instruction finds the trees that it needs. -/
def ReadyInRun (image : Image Class Method Field Decl) (entry : Option Method) : Prop :=
  ∀ method, entry = some method → ∀ earlier state reference left,
    Reached image method earlier state (reference :: left) →
      Prepared image earlier reference ∧ HasTrees image state reference

structure Queues (state state' : State Class Method Field Decl) : Prop where
  started : state'.started = state.started
  parsed : state'.parsed = state.parsed
  translated : state'.translated = state.translated
  kept : ∀ method, state.registered method = true → state'.registered method = true
  queued : ∃ added, state'.deferred = state.deferred ++ added ∧
    ∀ method, state'.registered method = true → state.registered method = true ∨ method ∈ added

section Queues

variable {image : Image Class Method Field Decl} {state state' : State Class Method Field Decl}

omit [DecidableEq Class] [DecidableEq Method] [DecidableEq Field] [DecidableEq Decl]

theorem queues_of_same (started : state'.started = state.started)
    (parsed : state'.parsed = state.parsed) (translated : state'.translated = state.translated)
    (deferred : state'.deferred = state.deferred)
    (registered : state'.registered = state.registered) : Queues state state' := by
  refine ⟨started, parsed, translated, fun method known => registered ▸ known, [], ?_, ?_⟩
  · rw [deferred, List.append_nil]
  · intro method known
    exact .inl (registered ▸ known)

theorem Queues.refl (state : State Class Method Field Decl) : Queues state state :=
  queues_of_same rfl rfl rfl rfl rfl

theorem Queues.trans {state'' : State Class Method Field Decl} (first : Queues state state')
    (second : Queues state' state'') : Queues state state'' := by
  obtain ⟨added, deferred, registered⟩ := first.queued
  obtain ⟨more, deferred', registered'⟩ := second.queued
  refine ⟨second.started.trans first.started, second.parsed.trans first.parsed,
    second.translated.trans first.translated,
    fun method known => second.kept method (first.kept method known), added ++ more, ?_, ?_⟩
  · rw [deferred', deferred, List.append_assoc]
  · intro method known
    rcases registered' method known with before | late
    · rcases registered method before with older | early
      · exact .inl older
      · exact .inr (List.mem_append_left _ early)
    · exact .inr (List.mem_append_right _ late)

theorem queues_method [DecidableEq Method] (method : Method)
    (started : state'.started = state.started)
    (parsed : state'.parsed = state.parsed) (translated : state'.translated = state.translated)
    (deferred : state'.deferred = state.deferred ++ [method])
    (registered : state'.registered = Function.update state.registered method true) :
    Queues state state' := by
  refine ⟨started, parsed, translated, ?_, [method], deferred, ?_⟩
  · intro other known
    rw [registered, Function.update_apply]
    split
    · rfl
    · exact known
  intro other known
  rw [registered] at known
  by_cases same : other = method
  · exact .inr (same ▸ List.mem_cons_self)
  · rw [Function.update_of_ne same] at known
    exact .inl known

variable [DecidableEq Class] [DecidableEq Method]

theorem setVirtualMethod_queues {klass : Class} {method : Method}
    (returned : setVirtualMethod image klass method state = some state') :
    Queues state state' := by
  unfold setVirtualMethod at returned
  split at returned
  case isFalse =>
    cases returned
    exact Queues.refl _
  case isTrue =>
    obtain ⟨⟨index, opened⟩, slot, rest⟩ := Option.bind_eq_some_iff.mp returned
    obtain ⟨stored, setSlot, result⟩ := Option.bind_eq_some_iff.mp rest
    cases result
    have same : opened.started = state.started ∧ opened.parsed = state.parsed ∧
        opened.translated = state.translated ∧ opened.deferred = state.deferred ∧
        opened.registered = state.registered := by
      unfold vtableIndex at slot
      split at slot
      case h_1 =>
        cases slot
        exact ⟨rfl, rfl, rfl, rfl, rfl⟩
      case h_2 =>
        obtain ⟨vector, -, pushed⟩ := Option.bind_eq_some_iff.mp slot
        split at pushed
        case isFalse => contradiction
        case isTrue =>
          cases pushed
          exact ⟨rfl, rfl, rfl, rfl, rfl⟩
    obtain ⟨vector, -, set⟩ := Option.bind_eq_some_iff.mp setSlot
    split at set
    case isFalse => contradiction
    case isTrue =>
      cases set
      obtain ⟨started, parsed, translated, deferred, registered⟩ := same
      refine queues_method method started parsed translated ?_ ?_
      · exact congrArg (· ++ [method]) deferred
      · exact congrArg (Function.update · method true) registered

theorem setVtableSlots_queues {klass : Class} {methods : List Method}
    (returned : setVtableSlots image klass methods state = some state') :
    Queues state state' := by
  induction methods generalizing state with
  | nil =>
    cases returned
    exact Queues.refl _
  | cons method rest ih =>
    obtain ⟨state₁, first, others⟩ := Option.bind_eq_some_iff.mp returned
    exact (setVirtualMethod_queues first).trans (ih others)

theorem parseVtable_queues {klass : Class}
    (returned : parseVtable image klass state = some state') : Queues state state' := by
  induction klass using image.parent_induction generalizing state' with
  | step klass ih =>
    rw [parseVtable] at returned
    split at returned
    · cases returned
      exact Queues.refl _
    split at returned
    · contradiction
    split at returned
    · cases returned
      exact Queues.refl _
    have made : ∀ {state₁ : State Class Method Field Decl},
        setVtableSlots image klass (image.methods klass)
          (scilMakeVtable image klass (image.newMethods klass).length state₁) = some state' →
        Queues state₁ state' := by
      intro state₁ filled
      refine Queues.trans ?_ (setVtableSlots_queues filled)
      exact queues_of_same rfl rfl rfl rfl rfl
    dsimp only at returned
    split at returned
    case h_1 above parent =>
      obtain ⟨state₁, based, filled⟩ := Option.bind_eq_some_iff.mp returned
      obtain ⟨state₂, parsed, rfl⟩ := Option.map_eq_some_iff.mp based
      refine (ih above parent parsed).trans ?_
      refine Queues.trans ?_ (made filled)
      exact queues_of_same rfl rfl rfl rfl rfl
    case h_2 => exact made returned

omit [DecidableEq Method] in
theorem parseInstanceFields_queues (image : Image Class Method Field Decl) (klass : Class)
    (state : State Class Method Field Decl) :
    Queues state (parseInstanceFields image klass state) := by
  induction klass using image.parent_induction with
  | step klass ih =>
    rw [parseInstanceFields]
    split
    · exact Queues.refl _
    split
    · split
      case h_1 above parent =>
        exact (ih above parent).trans (queues_of_same rfl rfl rfl rfl rfl)
      case h_2 => exact queues_of_same rfl rfl rfl rfl rfl
    · exact Queues.refl _

omit [DecidableEq Class] in
theorem readToken_queues [DecidableEq Field] (image : Image Class Method Field Decl)
    (reference : Reference Method Field) (state : State Class Method Field Decl) :
    Queues state (readToken image reference state) := by
  have method : ∀ method, Queues state (readMethod image method state) := by
    intro method
    unfold readMethod
    split
    · exact queues_method _ rfl rfl rfl rfl rfl
    · exact Queues.refl _
  cases reference with
  | call called => exact method called
  | ldftn loaded => exact method loaded
  | callvirt called => exact method called
  | ldvirtftn called => exact method called
  | newobj constructor => exact method constructor
  | field field =>
    simp only [readToken]
    split
    · unfold registerStaticField
      split
      · exact queues_method _ rfl rfl rfl rfl rfl
      · exact queues_of_same rfl rfl rfl rfl rfl
    · exact Queues.refl _

theorem readReference_queues [DecidableEq Field] {reference : Reference Method Field}
    (returned : readReference image reference state = some state') : Queues state state' := by
  have token := readToken_queues image reference state
  rw [readReference_eq] at returned
  have fields : Queues state
      (readFields image reference (readToken image reference state)) := by
    unfold readFields
    split
    · exact token.trans (parseInstanceFields_queues image _ _)
    · exact token
  split at returned
  · exact fields.trans (parseVtable_queues returned)
  · cases returned
    exact fields

omit [DecidableEq Class] in
theorem registered_readMethod (image : Image Class Method Field Decl) (method : Method)
    (state : State Class Method Field Decl) :
    (readMethod image method state).registered method = true ↔ Known image state method := by
  unfold readMethod Known
  cases registered : state.registered method <;>
    cases image.isStaticDelegate (image.owner method) <;>
      simp [registered, deferMethod, registerMethod]

omit [DecidableEq Class] [DecidableEq Method] in
theorem HasBase.dispatches {earlier : List (Reference Method Field)} {klass : Class}
    (hasBase : HasBase image earlier klass) : image.dispatches klass = true := by
  rcases hasBase with builtin | ⟨_, _, derived, _, dispatches, inLineage⟩
  · simp [Image.dispatches, image.builtin_dispatches builtin]
  · refine image.forall_lineage (motive := fun other => image.dispatches other = true) ?_
      dispatches inLineage
    intro child above parent _
    simp [Image.dispatches, image.parent_dispatches parent]

/-- Once an instruction was read, the rest of its function goes through exactly if the trees
were or could be there. -/
theorem Reading.emits_iff [DecidableEq Field] {earlier : List (Reference Method Field)}
    {reference : Reference Method Field} (reading : Reading image (earlier ++ [reference]) state')
    (read : readReference image reference state = some state') :
    emits image reference state' = true ↔ HasTrees image state reference := by
  cases reference with
  | call method =>
    cases read
    simp only [emits, HasTrees, Bool.and_eq_true, registered_readMethod]
    cases image.isDelegate (image.owner method) <;> simp
  | ldftn method =>
    cases read
    exact registered_readMethod image method state
  | callvirt method =>
    simp only [readReference] at read
    rw [emits, HasTrees]
    split at read
    case isTrue delegate => simp [delegate]
    case isFalse notDelegate =>
      rw [if_neg notDelegate, if_neg notDelegate, ← registered_readMethod]
      split at read
      case isFalse => cases read; rfl
      case isTrue =>
        refine ⟨fun known => ?_, (parseVtable_queues read).kept method⟩
        by_contra unknown
        have isStatic := unknown
        rw [registered_readMethod, Known, not_or, Bool.not_eq_false] at isStatic
        -- A method without a tree belongs to a static delegate, which has no vtable.
        rw [parseVtable] at read
        simp only [Image.dispatches, isStatic.2, Bool.or_true, Bool.not_true, Bool.not_false,
          if_true] at read
        cases read
        exact unknown known
  | ldvirtftn method => exact iff_of_true rfl trivial
  | newobj constructor =>
    simp only [readReference] at read
    simp only [emits, HasTrees, Bool.or_eq_true, ← Bool.and_eq_true]
    split at read
    case isTrue delegate => simp [delegate]
    case isFalse notDelegate =>
      simp only [notDelegate, false_or, Bool.false_eq_true]
      rw [Bool.and_eq_true, reading.binfo]
      refine ⟨fun both => both.2.dispatches, fun dispatches => ⟨?_, .inr ⟨_,
        List.mem_append_right _ List.mem_cons_self, image.owner constructor, ?_, dispatches,
        image.self_mem_lineage _⟩⟩⟩
      · apply (parseVtable_queues read).kept
        apply (parseInstanceFields_queues image _ _).kept
        rw [registered_readMethod]
        simp only [Image.dispatches, Bool.not_or, Bool.and_eq_true, Bool.not_eq_true'] at dispatches
        exact .inr dispatches.2
      · simp [fieldsOf, notDelegate]
  | field field => simp [emits, HasTrees]

end Queues

structure Pending (image : Image Class Method Field Decl) (state : State Class Method Field Decl) :
    Prop where
  pending : ∀ method, state.registered method = true →
    method ∈ state.parsed ∨ method ∈ state.deferred
  once : (state.translated.map image.decl).Nodup
  begun : ∀ method ∈ state.translated, state.started (image.decl method) = true

section Loop

variable {image : Image Class Method Field Decl} {state state' : State Class Method Field Decl}

omit [DecidableEq Class] [DecidableEq Method] [DecidableEq Field] [DecidableEq Decl] in
theorem Pending.queue (invariant : Pending image state) (queues : Queues state state') :
    Pending image state' := by
  obtain ⟨pending, once, begun⟩ := invariant
  obtain ⟨added, deferred, registered⟩ := queues.queued
  refine ⟨?_, ?_, ?_⟩
  · intro method known
    rw [queues.parsed, deferred]
    rcases registered method known with older | late
    · rcases pending method older with parsed | queued
      · exact .inl parsed
      · exact .inr (List.mem_append_left _ queued)
    · exact .inr (List.mem_append_right _ late)
  · rwa [queues.translated]
  · rwa [queues.translated, queues.started]

omit [DecidableEq Class] [DecidableEq Method] [DecidableEq Field] in
theorem beginMethod_cases (image : Image Class Method Field Decl) (method : Method)
    (state : State Class Method Field Decl) :
    (∃ code translated, state.started (image.decl method) = false ∧
      (translated = state.translated ∨ translated = state.translated ++ [method]) ∧
      beginMethod image method state = (code,
        { state with
          parsed := state.parsed ++ [method]
          started := Function.update state.started (image.decl method) true
          translated := translated })) ∨
      beginMethod image method state = ([], { state with parsed := state.parsed ++ [method] }) := by
  unfold beginMethod scilStartMethodDef
  cases image.isRuntime (image.decl method) with
  | true =>
    right
    cases image.code method <;> rfl
  | false =>
    cases unstarted : state.started (image.decl method) with
    | true =>
      right
      simp only [Bool.or_true, if_true]
      cases image.code method <;> rfl
    | false =>
      left
      simp only [Bool.or_false, Bool.false_eq_true, if_false]
      cases image.code method with
      | none => exact ⟨[], state.translated, trivial, .inl rfl, rfl⟩
      | some code => exact ⟨code, state.translated ++ [method], trivial, .inr rfl, rfl⟩

omit [DecidableEq Class] [DecidableEq Method] [DecidableEq Field] in
theorem Pending.begin {method : Method}
    (pending : ∀ other, state.registered other = true →
      other ∈ state.parsed ∨ other ∈ state.deferred ∨ other = method)
    (once : (state.translated.map image.decl).Nodup)
    (begun : ∀ other ∈ state.translated, state.started (image.decl other) = true) :
    Pending image (beginMethod image method state).2 := by
  have parsed : ∀ other, state.registered other = true →
      other ∈ state.parsed ++ [method] ∨ other ∈ state.deferred := by
    intro other known
    rcases pending other known with before | queued | same
    · exact .inl (List.mem_append_left _ before)
    · exact .inr queued
    · exact .inl (same ▸ List.mem_append_right _ List.mem_cons_self)
  rcases beginMethod_cases image method state with
    ⟨code, translated, unstarted, added, result⟩ | result
  · rw [result]
    have fresh : image.decl method ∉ state.translated.map image.decl := by
      intro member
      obtain ⟨other, translatedOther, same⟩ := List.mem_map.mp member
      have started := begun other translatedOther
      rw [same, unstarted] at started
      contradiction
    refine ⟨parsed, ?_, ?_⟩
    · rcases added with rfl | rfl
      · exact once
      · simp only [List.map_append, List.map_cons, List.map_nil]
        exact List.nodup_append.mpr ⟨once, List.nodup_singleton _, by
          rintro first member second last rfl
          exact fresh (List.mem_singleton.mp last ▸ member)⟩
    · intro other member
      change Function.update state.started (image.decl method) true (image.decl other) = true
      by_cases same : image.decl other = image.decl method
      · rw [same, Function.update_self]
      · rw [Function.update_of_ne same]
        rcases added with rfl | rfl
        · exact begun other member
        · rcases List.mem_append.mp member with older | last
          · exact begun other older
          · exact absurd (congrArg image.decl (List.mem_singleton.mp last)) same
  · rw [result]
    exact ⟨parsed, once, begun⟩

omit [DecidableEq Class] [DecidableEq Method] [DecidableEq Field] in
theorem beginMethod_sameTables (image : Image Class Method Field Decl) (method : Method)
    (state : State Class Method Field Decl) :
    SameTables state (beginMethod image method state).2 := by
  rcases beginMethod_cases image method state with ⟨_, _, -, -, result⟩ | result
  · rw [result]
    exact ⟨rfl, rfl, rfl, rfl⟩
  · rw [result]
    exact ⟨rfl, rfl, rfl, rfl⟩

variable {hierarchy : Hierarchy Class Method Field Decl} {entry : Method}
  {earlier left : List (Reference Method Field)}

omit [DecidableEq Class] [DecidableEq Field] [DecidableEq Decl] in
theorem Reading.congr (reading : Reading image earlier state) (same : SameTables state state') :
    Reading image earlier state' := by
  obtain ⟨⟨right, closed, based, parsed⟩, binfo, made⟩ := reading
  obtain ⟨binfoEq, typeParsedEq, vtableEq, indexEq⟩ := same
  refine ⟨⟨?_, ?_, ?_, ?_⟩, ?_, ?_⟩
  · intro klass vector stored
    rw [vtableEq] at stored
    exact (right klass vector stored).congr vtableEq indexEq
  · rwa [vtableEq]
  · rwa [binfoEq]
  · rwa [typeParsedEq, binfoEq]
  · rwa [binfoEq]
  · rwa [vtableEq]

omit [DecidableEq Decl] in
theorem instruction_eq_some {image : Image Class Method Field Decl}
    {reference : Reference Method Field} {state state' : State Class Method Field Decl} :
    instruction image reference state = some state' ↔
      readReference image reference state = some state' ∧
        emits image reference state' = true := by
  unfold instruction
  cases readReference image reference state with
  | none => simp
  | some read =>
    simp only [Option.bind_eq_bind, Option.bind_some, Option.some.injEq]
    split
    case isTrue emitted =>
      refine ⟨?_, fun same => congrArg some same.1⟩
      rintro ⟨⟩
      exact ⟨rfl, emitted⟩
    case isFalse missing =>
      refine ⟨fun found => (by cases found), ?_⟩
      rintro ⟨rfl, emitted⟩
      exact absurd emitted missing

theorem Reached.invariant (reached : Reached hierarchy.toImage entry earlier state left) :
    Reading hierarchy.toImage earlier state ∧ Pending hierarchy.toImage state := by
  induction reached with
  | entry =>
    refine ⟨?_, ?_⟩
    · refine ((start_reading hierarchy.toImage).congr ?_).congr
        (beginMethod_sameTables hierarchy.toImage entry _)
      exact ⟨rfl, rfl, rfl, rfl⟩
    · apply Pending.begin
      · intro other known
        right
        right
        by_contra different
        change Function.update (fun _ => false) entry true other = true at known
        rw [Function.update_of_ne different] at known
        contradiction
      · exact List.nodup_nil
      · intro other member
        cases member
  | read reached returned ih =>
    obtain ⟨reading, pending⟩ := ih
    obtain ⟨read, -⟩ := instruction_eq_some.mp returned
    obtain ⟨state', again, reading'⟩ := reading.step (reading.prepared read)
    rw [read] at again
    cases again
    exact ⟨reading', pending.queue (readReference_queues read)⟩
  | @next earlier state method rest reached deferred ih =>
    obtain ⟨reading, pending⟩ := ih
    refine ⟨?_, ?_⟩
    · refine (reading.congr ?_).congr (beginMethod_sameTables hierarchy.toImage method _)
      exact ⟨rfl, rfl, rfl, rfl⟩
    · apply Pending.begin
      · intro other known
        rcases pending.pending other known with parsed | queued
        · exact .inl parsed
        · rw [deferred] at queued
          rcases List.mem_cons.mp queued with same | later
          · exact .inr (.inr same)
          · exact .inr (.inl later)
      · exact pending.once
      · exact pending.begun

theorem Reached.finish (ready : ReadyInRun hierarchy.toImage (some entry))
    (reached : Reached hierarchy.toImage entry earlier state left) :
    ∃ earlier' state', instructions hierarchy.toImage left state = some state' ∧
      Reached hierarchy.toImage entry earlier' state' [] ∧ state'.started = state.started := by
  induction left generalizing earlier state with
  | nil => exact ⟨earlier, state, rfl, reached, rfl⟩
  | cons reference rest ih =>
    obtain ⟨prepared, hasTrees⟩ := ready entry rfl earlier state reference rest reached
    obtain ⟨state₁, read, reading₁⟩ := reached.invariant.1.step prepared
    have returned : instruction hierarchy.toImage reference state = some state₁ :=
      instruction_eq_some.mpr ⟨read, (reading₁.emits_iff read).mpr hasTrees⟩
    obtain ⟨earlier', state', others, reached', started⟩ :=
      ih (reached.read returned)
    refine ⟨earlier', state', ?_, reached', ?_⟩
    · rw [instructions, returned]
      exact others
    · rw [started, (readReference_queues read).started]

def unstarted [Fintype Method] (image : Image Class Method Field Decl)
    (state : State Class Method Field Decl) : Finset Method :=
  Finset.univ.filter fun method => state.started (image.decl method) = false

omit [DecidableEq Class] [DecidableEq Method] [DecidableEq Field] in
theorem beginMethod_decreases [Fintype Method] (image : Image Class Method Field Decl)
    (method : Method) (state : State Class Method Field Decl) :
    (unstarted image (beginMethod image method state).2).card < (unstarted image state).card ∨
      beginMethod image method state = ([], { state with parsed := state.parsed ++ [method] }) := by
  rcases beginMethod_cases image method state with ⟨code, translated, fresh, -, result⟩ | result
  · left
    rw [result]
    apply Finset.card_lt_card
    refine ⟨?_, ?_⟩
    · intro other member
      simp only [unstarted, Finset.mem_filter, Finset.mem_univ, true_and] at member ⊢
      by_cases same : image.decl other = image.decl method
      · rw [same]
        exact fresh
      · rwa [Function.update_of_ne same] at member
    · intro subset
      have member : method ∈ unstarted image state := by simp [unstarted, fresh]
      have later := subset member
      simp [unstarted] at later
  · exact .inr result

theorem Reached.drain [Fintype Method]
    (ready : ReadyInRun hierarchy.toImage (some entry))
    (reached : Reached hierarchy.toImage entry earlier state []) :
    ∃ fuel final, parseDeferredMethods hierarchy.toImage fuel state = some final ∧
      Finished hierarchy.toImage final := by
  -- Each pass starts a definition, or leaves a shorter queue.
  induction measure : (unstarted hierarchy.toImage state).card using Nat.strongRecOn
    generalizing earlier state with
  | ind count outerHypothesis =>
    induction queue : state.deferred generalizing earlier state with
    | nil =>
      obtain ⟨-, pending, once, -⟩ := reached.invariant
      refine ⟨0, state, by unfold parseDeferredMethods; rw [queue], queue, ?_, once⟩
      intro method known
      rcases pending method known with parsed | queued
      · exact parsed
      · rw [queue] at queued
        cases queued
    | cons method rest innerHypothesis =>
      have taken := reached.next queue
      have continued : ∃ fuel final,
          ((parseMethod hierarchy.toImage method { state with deferred := rest }).bind
            (parseDeferredMethods hierarchy.toImage fuel)) = some final ∧
          Finished hierarchy.toImage final := by
        obtain ⟨earlier', state', read, reached', started⟩ := taken.finish ready
        unfold parseMethod
        rw [read]
        rcases beginMethod_decreases hierarchy.toImage method { state with deferred := rest } with
          smaller | nothing
        · have later : (unstarted hierarchy.toImage state').card < count := by
            have same : unstarted hierarchy.toImage state' = unstarted hierarchy.toImage
                (beginMethod hierarchy.toImage method { state with deferred := rest }).2 := by
              unfold unstarted
              rw [started]
            rw [same, ← measure]
            exact smaller
          exact outerHypothesis _ later reached' rfl
        · rw [nothing] at read taken
          cases read
          exact innerHypothesis taken measure rfl
      obtain ⟨fuel, final, run, finished⟩ := continued
      refine ⟨fuel + 1, final, ?_, finished⟩
      unfold parseDeferredMethods
      rw [queue]
      exact run

theorem Reached.rest {fuel : Nat} {final : State Class Method Field Decl}
    (run : cralParseFile image fuel (some entry) = some final)
    (reached : Reached image entry earlier state left) :
    ∃ fuel, (instructions image left state).bind (parseDeferredMethods image fuel) =
      some final := by
  induction reached with
  | entry => exact ⟨fuel, run⟩
  | read reached returned ih =>
    obtain ⟨fuel, rest⟩ := ih
    refine ⟨fuel, ?_⟩
    rw [instructions, returned] at rest
    exact rest
  | @next earlier state method queue reached deferred ih =>
    obtain ⟨fuel, rest⟩ := ih
    rw [instructions, Option.bind_some] at rest
    unfold parseDeferredMethods at rest
    rw [deferred] at rest
    cases fuel with
    | zero => contradiction
    | succ fuel => exact ⟨fuel, rest⟩

end Loop

theorem parses_of_readyInRun [Fintype Method] {hierarchy : Hierarchy Class Method Field Decl}
    {entry : Option Method} (ready : ReadyInRun hierarchy.toImage entry) :
    Parses hierarchy.toImage entry := by
  cases entry with
  | none =>
    refine ⟨0, start hierarchy.toImage, rfl, rfl, ?_, List.nodup_nil⟩
    intro method known
    cases known
  | some entry =>
    obtain ⟨earlier, state, read, reached, -⟩ := Reached.entry.finish ready
    obtain ⟨fuel, final, drained, finished⟩ := reached.drain ready
    refine ⟨fuel, final, ?_, finished⟩
    simp only [cralParseFile, parseMethod, read, Option.bind_eq_bind, Option.bind_some]
    exact drained

theorem Parses.readyInRun {hierarchy : Hierarchy Class Method Field Decl}
    {entry : Option Method} (parses : Parses hierarchy.toImage entry) :
    ReadyInRun hierarchy.toImage entry := by
  obtain ⟨fuel, final, run, -⟩ := parses
  rintro method rfl earlier state reference left reached
  obtain ⟨fuel', rest⟩ := reached.rest run
  obtain ⟨state', read, -⟩ := Option.bind_eq_some_iff.mp rest
  obtain ⟨state₁, returned, -⟩ := Option.bind_eq_some_iff.mp read
  obtain ⟨read, emitted⟩ := instruction_eq_some.mp returned
  have reading := reached.invariant.1
  have prepared := reading.prepared read
  obtain ⟨state₂, again, reading₂⟩ := reading.step prepared
  rw [read] at again
  cases again
  exact ⟨prepared, (reading₂.emits_iff read).mp emitted⟩

/-- For every finite program `cral_parse_file` ends with every registered method
parsed and no body read twice, if and only if every instruction of the run finds the
trees that it needs, the base information of the class of a vtable among them. -/
theorem parses_iff_readyInRun [Fintype Method] (hierarchy : Hierarchy Class Method Field Decl)
    (entry : Option Method) :
    Parses hierarchy.toImage entry ↔ ReadyInRun hierarchy.toImage entry :=
  ⟨Parses.readyInRun, parses_of_readyInRun⟩

theorem virtualCall_not_parses : ¬ Parses virtualCall.toImage (some false) := by
  intro parses
  have prepared := parses.readyInRun false rfl [] _ (.callvirt true) [] Reached.entry
  rcases prepared.1 true rfl rfl with builtin | ⟨reference, member, derived, fields, -⟩
  · cases builtin
  · rw [List.nil_append, List.mem_singleton] at member
    subst member
    cases fields

end GccCil.Scil.Reader
