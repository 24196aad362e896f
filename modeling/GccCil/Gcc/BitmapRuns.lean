import GccCil.Gcc.BitmapSets

/-!
# Runs of bitmap operations

Any run of operations on bitmaps that are empty at first answers as sets do, and
leaves all bitmaps well-formed.
-/

namespace GccCil.Gcc.Bitmap

open Lib

variable {β : Type} [DecidableEq β] {wordBits : Nat}

inductive Op (β : Type) where
  | setBit (head : β) (bit : Nat)
  | clearBit (head : β) (bit : Nat)
  | bitP (head : β) (bit : Nat)
  | clear (head : β)
  | copy (target source : β)
  | andInto (a b : β)
  | andComplInto (a b : β)
  | iorInto (a b : β)
  | xorInto (a b : β)

def Op.Valid : Op β → Prop
  | .copy target source => target ≠ source
  | _ => True

namespace Store

def exec (s : Store β wordBits) : Op β → Option (Option Bool × Store β wordBits)
  | .setBit head bit => (s.setBit head bit).map (none, ·)
  | .clearBit head bit => (s.clearBit head bit).map (none, ·)
  | .bitP head bit => (s.bitP head bit).map fun (result, s) => (some result, s)
  | .clear head => (s.clear head).map (none, ·)
  | .copy target source => (s.copy target source).map (none, ·)
  | .andInto a b => (s.andInto a b).map (none, ·)
  | .andComplInto a b => (s.andComplInto a b).map fun (changed, s) => (some changed, s)
  | .iorInto a b => (s.iorInto a b).map fun (changed, s) => (some changed, s)
  | .xorInto a b => (s.xorInto a b).map (none, ·)

def run (s : Store β wordBits) : List (Op β) → Option (List (Option Bool) × Store β wordBits)
  | [] => some ([], s)
  | op :: ops =>
    (s.exec op).bind fun (result, s) => (s.run ops).map fun (results, s) => (result :: results, s)

def initial : Store β wordBits where
  next := fun _ => none
  prev := fun _ => none
  indx := fun _ => 0
  bits := fun _ => zeroBits
  first := fun _ => none
  current := fun _ => none
  headIndx := fun _ => 0
  elements := none
  used := 0

end Store

def Op.apply (sets : β → Set Nat) : Op β → β → Set Nat
  | .setBit head bit => Function.update sets head (insert bit (sets head))
  | .clearBit head bit => Function.update sets head (sets head \ {bit})
  | .bitP _ _ => sets
  | .clear head => Function.update sets head ∅
  | .copy target source => Function.update sets target (sets source)
  | .andInto a b => Function.update sets a (sets a ∩ sets b)
  | .andComplInto a b => Function.update sets a (sets a \ sets b)
  | .iorInto a b => Function.update sets a (sets a ∪ sets b)
  | .xorInto a b => Function.update sets a (sets a \ sets b ∪ sets b \ sets a)

open Classical in
noncomputable def Op.answer (sets : β → Set Nat) (op : Op β) : Option Bool :=
  match op with
  | .bitP head bit => some (decide (bit ∈ sets head))
  | .andComplInto a b => some (decide (sets a \ sets b ≠ sets a))
  | .iorInto a b => some (decide (sets a ∪ sets b ≠ sets a))
  | _ => none

def applyAll (sets : β → Set Nat) : List (Op β) → β → Set Nat
  | [] => sets
  | op :: ops => applyAll (op.apply sets) ops

noncomputable def answers (sets : β → Set Nat) : List (Op β) → List (Option Bool)
  | [] => []
  | op :: ops => op.answer sets :: answers (op.apply sets) ops

def Denotes (s : Store β wordBits) (lists : β → List Nat) (sets : β → Set Nat) : Prop :=
  ∀ b bit, has (contents s (lists b)) bit = true ↔ bit ∈ sets b

variable {s s' : Store β wordBits} {lists : β → List Nat} {free : List (List Nat)}
  {sets : β → Set Nat} {a b : β}

theorem Updates.denotes {blocks : List (Nat × Bits wordBits)}
    (updates : Updates s s' lists a blocks) (denotes : Denotes s lists sets) (set : Set Nat)
    (isSet : ∀ bit, has blocks bit = true ↔ bit ∈ set) :
    ∃ lists' free', Consistent s' lists' free' ∧
      Denotes s' lists' (Function.update sets a set) := by
  obtain ⟨lists', free', consistent, isContents, changes⟩ := updates
  refine ⟨lists', free', consistent, ?_⟩
  intro b bit
  by_cases same : b = a
  · subst same
    rw [isContents, Function.update_self, isSet]
  · rw [Function.update_of_ne same, changes.sameLists b same,
      changes.contents same fun _ member => member, denotes]

omit [DecidableEq β] in
theorem has_merged {op : IntoOp wordBits} {f : Bool → Bool → Bool}
    (computes : Computes op.keepA op.keepB op.join f) (consistent : Consistent s lists free)
    (bit : Nat) : has (merged op s lists a b) bit =
      f (has (contents s (lists a)) bit) (has (contents s (lists b)) bit) :=
  has_mergeWith computes (consistent.increasing a) (consistent.increasing b) bit

omit [DecidableEq β] in
theorem contents_ne_iff (consistent : Consistent s lists free) (denotes : Denotes s lists sets)
    {set : Set Nat} (blocks : List (Nat × Bits wordBits)) (increasing : Increasing blocks)
    (nonzero : ∀ block ∈ blocks, block.2 ≠ zeroBits)
    (isSet : ∀ bit, has blocks bit = true ↔ bit ∈ set) :
    blocks ≠ contents s (lists a) ↔ set ≠ sets a := by
  rw [not_iff_not]
  constructor
  · intro same
    ext bit
    rw [← isSet, same, denotes]
  · intro same
    apply blocks_ext increasing (consistent.increasing a) nonzero (consistent.nonzero a)
    intro bit
    rw [Bool.eq_iff_iff, isSet, same, denotes]

omit [DecidableEq β] in
theorem reports_eq {op : IntoOp wordBits} {set : Set Nat}
    (keeps : op.keepA = true) (nonzero : op.Nonzero) (decides : ∀ x y, op.changes x y = true ↔ op.combine x y ≠ x)
    (consistent : Consistent s lists free) (denotes : Denotes s lists sets)
    (isSet : ∀ bit, has (merged op s lists a b) bit = true ↔ bit ∈ set) :
    op.reports (contents s (lists a)) (contents s (lists b)) = true ↔ set ≠ sets a := by
  rw [reports_iff keeps decides (consistent.increasing a) (consistent.increasing b)
    (consistent.nonzero a)]
  apply contents_ne_iff consistent denotes _ _ _ isSet
  · exact increasing_mergeWith (consistent.increasing a) (consistent.increasing b)
  · exact nonzero_mergeWith nonzero (consistent.increasing a) (consistent.increasing b)
      (consistent.nonzero a) (consistent.nonzero b)

theorem andComplOp_changes (x y : Bits wordBits) :
    (Store.andComplOp : IntoOp wordBits).changes x y = true ↔ Store.andComplOp.combine x y ≠ x := by
  change decide (∃ ix, x ix &&& y ix ≠ 0) = true ↔ _
  rw [decide_eq_true_iff, ne_eq, funext_iff, not_forall]
  refine exists_congr fun ix => not_congr ?_
  change _ ↔ x ix ^^^ (x ix &&& y ix) = x ix
  constructor
  · intro isZero
    rw [isZero]
    exact BitVec.xor_zero
  · intro same
    have cancelled := congrArg (x ix ^^^ ·) same
    simpa [← BitVec.xor_assoc] using cancelled

theorem iorOp_changes (x y : Bits wordBits) :
    (Store.iorOp : IntoOp wordBits).changes x y = true ↔ Store.iorOp.combine x y ≠ x := by
  change decide (∃ ix, x ix ≠ x ix ||| y ix) = true ↔ _
  rw [decide_eq_true_iff, ne_eq, funext_iff, not_forall]
  exact exists_congr fun ix => not_congr eq_comm

theorem Op.exec_spec (wide : 0 < wordBits) (op : Op β) (valid : op.Valid)
    (consistent : Consistent s lists free) (denotes : Denotes s lists sets) :
    ∃ s' lists' free', s.exec op = some (op.answer sets, s') ∧ Consistent s' lists' free' ∧
      Denotes s' lists' (op.apply sets) := by
  have unchanged : ∀ {a : β} {set : Set Nat}, set = sets a →
      Denotes s lists (Function.update sets a set) := by
    rintro a set rfl
    rwa [Function.update_eq_self]
  have noSet : ∀ bit, has ([] : List (Nat × Bits wordBits)) bit = true ↔ bit ∈ (∅ : Set Nat) := by
    simp [has]
  cases op with
  | setBit head bit =>
    obtain ⟨s', blocks, isSet, updates, hasBit⟩ := setBit_spec wide consistent head bit
    obtain ⟨lists', free', consistent', denotes'⟩ := updates.denotes denotes
      (insert bit (sets head)) fun other => by
        rw [hasBit, Bool.or_eq_true, decide_eq_true_iff, denotes]
        rfl
    refine ⟨s', lists', free', ?_, consistent', denotes'⟩
    rw [Store.exec, isSet]
    rfl
  | clearBit head bit =>
    obtain ⟨s', blocks, isCleared, updates, hasBit⟩ := clearBit_spec wide consistent head bit
    obtain ⟨lists', free', consistent', denotes'⟩ := updates.denotes denotes
      (sets head \ {bit}) fun other => by
        rw [hasBit, Bool.and_eq_true, Bool.not_eq_true', decide_eq_false_iff_not, denotes,
          and_comm]
        rfl
    refine ⟨s', lists', free', ?_, consistent', denotes'⟩
    rw [Store.exec, isCleared]
    rfl
  | bitP head bit =>
    obtain ⟨s', isAnswer, updates⟩ := bitP_spec consistent head bit
    obtain ⟨lists', free', consistent', denotes'⟩ := updates.denotes denotes _ (denotes head)
    rw [Function.update_eq_self] at denotes'
    refine ⟨s', lists', free', ?_, consistent', denotes'⟩
    have answer : (Op.bitP head bit).answer sets = some (has (contents s (lists head)) bit) := by
      classical
      rw [Op.answer, Option.some.injEq, Bool.eq_iff_iff, denotes]
      exact decide_eq_true_iff
    rw [Store.exec, isAnswer, answer]
    rfl
  | clear head =>
    obtain ⟨s', isCleared, updates⟩ := clear_spec consistent head
    obtain ⟨lists', free', consistent', denotes'⟩ := updates.denotes denotes _ noSet
    refine ⟨s', lists', free', ?_, consistent', denotes'⟩
    rw [Store.exec, isCleared]
    rfl
  | copy target source =>
    obtain ⟨s', isCopied, updates⟩ := copy_spec consistent (Ne.symm valid)
    obtain ⟨lists', free', consistent', denotes'⟩ := updates.denotes denotes _ (denotes source)
    refine ⟨s', lists', free', ?_, consistent', denotes'⟩
    rw [Store.exec, isCopied]
    rfl
  | andInto a b =>
    by_cases other : a = b
    · subst other
      refine ⟨s, lists, free, ?_, consistent, unchanged (Set.inter_self _)⟩
      rw [Store.exec, Store.andInto, if_pos rfl]
      rfl
    · obtain ⟨s', isAnd, updates⟩ := andInto_spec consistent other
      obtain ⟨lists', free', consistent', denotes'⟩ := updates.denotes denotes
        (sets a ∩ sets b) fun bit => by
          rw [has_merged (andOp_computes wide) consistent, Bool.and_eq_true, denotes, denotes]
          rfl
      refine ⟨s', lists', free', ?_, consistent', denotes'⟩
      rw [Store.exec, isAnd]
      rfl
  | andComplInto a b =>
    have answer : ∀ changed, (changed = true ↔ sets a \ sets b ≠ sets a) →
        some changed = (Op.andComplInto a b).answer sets := by
      intro changed isChange
      rw [Op.answer, Option.some.injEq, Bool.eq_iff_iff, isChange, decide_eq_true_iff]
    by_cases other : a = b
    · subst other
      have isEmpty : sets a \ sets a = ∅ := Set.sdiff_self
      have isFirst := consistent.linked.first a
      have emptied := contents_ne_iff (a := a) consistent denotes [] List.Pairwise.nil
        (fun _ absent => absurd absent List.not_mem_nil) noSet
      rw [ne_comm, ne_eq, contents_eq_nil] at emptied
      by_cases isNone : s.first a = none
      · have noElements : lists a = [] := by
          rwa [isFirst, List.head?_eq_none_iff] at isNone
        have same : ∅ = sets a := not_not.mp fun differs => emptied.mpr differs noElements
        refine ⟨s, lists, free, ?_, consistent, unchanged (isEmpty.trans same)⟩
        rw [Store.exec, Store.andComplInto, if_pos rfl, if_pos isNone, ← answer false]
        · rfl
        · simp [same]
      · obtain ⟨s', isCleared, updates⟩ := clear_spec consistent a
        obtain ⟨lists', free', consistent', denotes'⟩ := updates.denotes denotes _ noSet
        have differs : ∅ ≠ sets a := by
          apply emptied.mp
          rwa [isFirst, List.head?_eq_none_iff] at isNone
        refine ⟨s', lists', free', ?_, consistent', ?_⟩
        · rw [Store.exec, Store.andComplInto, if_pos rfl, if_neg isNone, isCleared, ← answer true]
          · rfl
          · rw [isEmpty]
            exact iff_of_true rfl differs
        · rw [Op.apply, isEmpty]
          exact denotes'
    · obtain ⟨s', isAndCompl, updates⟩ := andComplInto_spec consistent other
      have isSet : ∀ bit, has (merged Store.andComplOp s lists a b) bit = true ↔
          bit ∈ sets a \ sets b := by
        intro bit
        rw [has_merged (andComplOp_computes wide) consistent, Bool.and_eq_true,
          Bool.not_eq_true', Bool.eq_false_iff, ne_eq, denotes, denotes]
        rfl
      obtain ⟨lists', free', consistent', denotes'⟩ := updates.denotes denotes _ isSet
      refine ⟨s', lists', free', ?_, consistent', denotes'⟩
      rw [Store.exec, isAndCompl, ← answer _ (reports_eq rfl
        (IntoOp.nonzero_of_frees rfl) andComplOp_changes consistent denotes isSet)]
      rfl
  | iorInto a b =>
    have answer : ∀ changed, (changed = true ↔ sets a ∪ sets b ≠ sets a) →
        some changed = (Op.iorInto a b).answer sets := by
      intro changed isChange
      rw [Op.answer, Option.some.injEq, Bool.eq_iff_iff, isChange, decide_eq_true_iff]
    by_cases other : a = b
    · subst other
      refine ⟨s, lists, free, ?_, consistent, unchanged (Set.union_self _)⟩
      rw [Store.exec, Store.iorInto, if_pos rfl, ← answer false]
      · rfl
      · simp
    · obtain ⟨s', isIor, updates⟩ := iorInto_spec consistent other
      have isSet : ∀ bit, has (merged Store.iorOp s lists a b) bit = true ↔
          bit ∈ sets a ∪ sets b := by
        intro bit
        rw [has_merged (iorOp_computes wide) consistent, Bool.or_eq_true, denotes, denotes]
        rfl
      obtain ⟨lists', free', consistent', denotes'⟩ := updates.denotes denotes _ isSet
      refine ⟨s', lists', free', ?_, consistent', denotes'⟩
      rw [Store.exec, isIor, ← answer _ (reports_eq rfl iorOp_nonzero
        iorOp_changes consistent denotes isSet)]
      rfl
  | xorInto a b =>
    by_cases other : a = b
    · subst other
      obtain ⟨s', isCleared, updates⟩ := clear_spec consistent a
      obtain ⟨lists', free', consistent', denotes'⟩ := updates.denotes denotes _ noSet
      refine ⟨s', lists', free', ?_, consistent', ?_⟩
      · rw [Store.exec, Store.xorInto, if_pos rfl, isCleared]
        rfl
      · rw [Op.apply, Set.union_self, show sets a \ sets a = ∅ from Set.sdiff_self]
        exact denotes'
    · obtain ⟨s', isXor, updates⟩ := xorInto_spec consistent other
      obtain ⟨lists', free', consistent', denotes'⟩ := updates.denotes denotes
        (sets a \ sets b ∪ sets b \ sets a) fun bit => by
          rw [has_merged (xorOp_computes wide) consistent, Set.mem_union, Set.mem_sdiff,
            Set.mem_sdiff, ← denotes, ← denotes]
          cases has (contents s (lists a)) bit <;> cases has (contents s (lists b)) bit <;> simp
      refine ⟨s', lists', free', ?_, consistent', denotes'⟩
      rw [Store.exec, isXor]
      rfl

omit [DecidableEq β] in
theorem initial_consistent :
    Consistent (Store.initial : Store β wordBits) (fun _ => []) [] := by
  have absent : ∀ {x : Nat} {p : Prop}, x ∈ [] → p := fun member => absurd member List.not_mem_nil
  refine ⟨⟨fun _ => rfl, fun _ => trivial, rfl, fun _ => List.nodup_nil, fun _ _ _ _ => absent,
    List.nodup_nil, fun _ _ => absent, fun _ _ => absent, fun _ => absent⟩,
    fun _ => Or.inl ⟨rfl, rfl⟩, ?_, fun _ => List.Pairwise.nil, ?_⟩
  · intro b c isCurrent
    cases isCurrent
  · exact fun _ _ member => absurd member List.not_mem_nil

theorem run_spec (wide : 0 < wordBits) (ops : List (Op β)) (valid : ∀ op ∈ ops, op.Valid)
    (consistent : Consistent s lists free) (denotes : Denotes s lists sets) :
    ∃ s' lists' free', s.run ops = some (answers sets ops, s') ∧ Consistent s' lists' free' ∧
      Denotes s' lists' (applyAll sets ops) := by
  induction ops generalizing s lists free sets with
  | nil => exact ⟨s, lists, free, rfl, consistent, denotes⟩
  | cons op ops ih =>
    obtain ⟨t, lists₁, free₁, isExec, consistent₁, denotes₁⟩ :=
      op.exec_spec wide (valid op List.mem_cons_self) consistent denotes
    obtain ⟨s', lists', free', isRun, consistent', denotes'⟩ :=
      ih (fun other member => valid other (List.mem_cons_of_mem _ member))
        consistent₁ denotes₁
    refine ⟨s', lists', free', ?_, consistent', denotes'⟩
    rw [Store.run, isExec, Option.bind_some]
    dsimp only
    rw [isRun]
    rfl

/-- Bitmaps that share an obstack are finite sets. -/
theorem bitmaps_are_sets (wide : 0 < wordBits) (ops : List (Op β))
    (valid : ∀ op ∈ ops, op.Valid) :
    ∃ (s : Store β wordBits) (lists : β → List Nat) (free : List (List Nat)),
      Store.initial.run ops = some (answers (fun _ => ∅) ops, s) ∧ Consistent s lists free ∧
        Denotes s lists (applyAll (fun _ => ∅) ops) := by
  apply run_spec wide ops valid initial_consistent
  intro b bit
  exact iff_of_false Bool.false_ne_true (Set.notMem_empty bit)

/-- Two bitmaps of which the second loses an element. -/
theorem bitmaps_are_sets_two :
    ∃ (s : Store Bool 64) (lists : Bool → List Nat) (free : List (List Nat)),
      Store.initial.run [.setBit true 3, .setBit true 300, .copy false true, .clearBit false 300,
        .andInto true false, .iorInto false true] = some (answers (fun _ => ∅) [.setBit true 3,
          .setBit true 300, .copy false true, .clearBit false 300, .andInto true false,
          .iorInto false true], s) ∧
      Consistent s lists free ∧
      Denotes s lists (applyAll (fun _ => ∅) [.setBit true 3, .setBit true 300, .copy false true,
        .clearBit false 300, .andInto true false, .iorInto false true]) :=
  bitmaps_are_sets (by decide) _ (by simp [Op.Valid])

end GccCil.Gcc.Bitmap
