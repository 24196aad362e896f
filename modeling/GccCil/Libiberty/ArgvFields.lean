import Mathlib.Data.List.DropRight
import GccCil.Libiberty.Argv

/-!
# Splitting by the documented grammar

`buildargv` gives the fields of its input, except that white space in front of the first
field gives an empty argument where it is not made of blanks and tabs only.  Quoted words
are read back.
-/

namespace GccCil.Libiberty.Argv

open GccCil.Lib

def Flags.of (quoting : Quoting) (escaped : Bool) : Flags where
  squote := quoting == .single
  dquote := quoting == .double
  bsquote := escaped

theorem isSpace_of_isBlank {c : UInt8} (blank : isBlank c = true) : isSpace c = true := by
  rw [isBlank, Bool.or_eq_true, beq_iff_eq, beq_iff_eq] at blank
  obtain rfl | rfl := blank <;> decide

theorem ne_backslash_of_isSpace {c : UInt8} (space : isSpace c = true) : c ≠ backslash := by
  rintro rfl
  exact absurd space (by decide)

theorem marks_cons_space {c : UInt8} (space : isSpace c = true) (input : List UInt8) :
    marks .plain false (c :: input) = .separator :: marks .plain false input := by
  rw [marks, if_neg (ne_backslash_of_isSpace space)]
  exact if_pos space

theorem scanChar_marks (quoting : Quoting) (escaped : Bool) (c : UInt8) (input : List UInt8)
    (inside : quoting = .plain → escaped = false → isSpace c = false) :
    ∃ mark quoting' escaped',
      marks quoting escaped (c :: input) = mark :: marks quoting' escaped' input ∧
      mark.isSeparator = false ∧
      scanChar (Flags.of quoting escaped) c = ([mark].filterMap Mark.content, Flags.of quoting' escaped') := by
  cases escaped with
  | true => exact ⟨.kept c, quoting, false, by cases quoting <;> rfl, rfl, rfl⟩
  | false =>
    by_cases isBackslash : c = backslash
    · subst isBackslash
      exact ⟨.stripped, quoting, true, by cases quoting <;> rfl, rfl, by cases quoting <;> rfl⟩
    · cases quoting with
      | plain =>
        have notSpace := inside rfl rfl
        by_cases isApostrophe : c = apostrophe
        · subst isApostrophe
          exact ⟨.stripped, .single, false, rfl, rfl, rfl⟩
        · by_cases isQuote : c = doubleQuote
          · subst isQuote
            exact ⟨.stripped, .double, false, rfl, rfl, rfl⟩
          · refine ⟨.kept c, .plain, false, ?_, rfl, ?_⟩
            · simp [marks, isBackslash, notSpace, isApostrophe, isQuote]
            · simp [scanChar, Flags.of, isBackslash, isApostrophe, isQuote, Mark.content]
      | single =>
        by_cases isApostrophe : c = apostrophe
        · subst isApostrophe
          exact ⟨.stripped, .plain, false, rfl, rfl, rfl⟩
        · refine ⟨.kept c, .single, false, ?_, rfl, ?_⟩
          · simp [marks, isBackslash, isApostrophe]
          · simp [scanChar, Flags.of, isBackslash, isApostrophe, Mark.content]
      | double =>
        by_cases isQuote : c = doubleQuote
        · subst isQuote
          exact ⟨.stripped, .plain, false, rfl, rfl, rfl⟩
        · refine ⟨.kept c, .double, false, ?_, rfl, ?_⟩
          · simp [marks, isBackslash, isQuote]
          · simp [scanChar, Flags.of, isBackslash, isQuote, Mark.content]

theorem ends_iff (quoting : Quoting) (escaped : Bool) (c : UInt8) :
    (isSpace c && !(Flags.of quoting escaped).squote && !(Flags.of quoting escaped).dquote &&
      !(Flags.of quoting escaped).bsquote) = true ↔
      isSpace c = true ∧ quoting = .plain ∧ escaped = false := by
  cases quoting <;> cases escaped <;> simp [Flags.of]

theorem scanArg_spec (quoting : Quoting) (escaped : Bool) (input : List UInt8) :
    ∃ run flags rest, scanArg (Flags.of quoting escaped) input =
        (run.filterMap Mark.content, flags, rest) ∧
      marks quoting escaped input = run ++ marks .plain false rest ∧
      (∀ mark ∈ run, mark.isSeparator = false) ∧ run.length + rest.length = input.length ∧
      (rest ≠ [] → flags = Flags.of .plain false ∧ ∃ c others, rest = c :: others ∧ isSpace c = true) := by
  induction input generalizing quoting escaped with
  | nil =>
    refine ⟨[], Flags.of quoting escaped, [], rfl, ?_, ?_, rfl, fun some => absurd rfl some⟩
    · cases quoting <;> cases escaped <;> rfl
    · exact fun mark none => absurd none List.not_mem_nil
  | cons c input ih =>
    rw [scanArg]
    by_cases ends : (isSpace c && !(Flags.of quoting escaped).squote &&
        !(Flags.of quoting escaped).dquote && !(Flags.of quoting escaped).bsquote) = true
    · rw [if_pos ends]
      obtain ⟨space, rfl, rfl⟩ := (ends_iff quoting escaped c).mp ends
      refine ⟨[], _, _, rfl, rfl, ?_, Nat.zero_add _, fun _ => ⟨rfl, c, input, rfl, space⟩⟩
      exact fun mark none => absurd none List.not_mem_nil
    · rw [if_neg ends]
      have inside (isPlain : quoting = .plain) (notEscaped : escaped = false) :
          isSpace c = false := by
        rw [← Bool.not_eq_true]
        exact fun space => ends ((ends_iff quoting escaped c).mpr ⟨space, isPlain, notEscaped⟩)
      obtain ⟨mark, quoting', escaped', marked, notSep, scanned⟩ :=
        scanChar_marks quoting escaped c input inside
      obtain ⟨run, flags, rest, arg, marked', noSep, lengths, left⟩ :=
        ih quoting' escaped'
      refine ⟨mark :: run, flags, rest, ?_, ?_, ?_, ?_, left⟩
      · rw [scanned]
        dsimp only
        rw [arg, ← List.filterMap_append, List.singleton_append]
      · rw [marked, marked', List.cons_append]
      · exact List.forall_mem_cons.mpr ⟨notSep, noSep⟩
      · rw [List.length_cons, List.length_cons, ← lengths]
        omega

theorem fieldsOf_dropWhile (input : List UInt8) :
    fieldsOf (input.dropWhile isSpace) = fieldsOf input := by
  induction input with
  | nil => rfl
  | cons c input ih =>
    rw [List.dropWhile_cons]
    by_cases space : isSpace c = true
    · rw [if_pos space, ih, fieldsOf, fieldsOf, marks_cons_space space,
        fields_cons_sep _ rfl]
    · rw [if_neg space]

def Begins (input : List UInt8) : Prop := ∃ c others, input = c :: others ∧ isSpace c = false

theorem begins_dropWhile {input : List UInt8} (some : input.dropWhile isSpace ≠ []) :
    Begins (input.dropWhile isSpace) := by
  refine ⟨_, _, (List.cons_head_tail some).symm, ?_⟩
  exact List.head_dropWhile_not isSpace some

theorem scanArg_begins {input : List UInt8} (begins : Begins input) :
    ∃ arg flags rest, scanArg (Flags.of .plain false) input = (arg, flags, rest) ∧
      fieldsOf input = arg :: fieldsOf (rest.dropWhile isSpace) ∧
      rest.length < input.length ∧ (rest ≠ [] → flags = Flags.of .plain false) := by
  obtain ⟨run, flags, rest, scanned, marked, noSep, lengths, left⟩ :=
    scanArg_spec .plain false input
  obtain ⟨c, others, rfl, notSpace⟩ := begins
  obtain ⟨mark, _, _, first, notSep, _⟩ := scanChar_marks .plain false c others fun _ _ => notSpace
  have notEmpty : run ≠ [] := by
    rintro rfl
    rw [List.length_nil, Nat.zero_add] at lengths
    obtain ⟨_, d, following, rfl, space⟩ := left fun none => by
      rw [none] at lengths
      cases lengths
    rw [List.nil_append, marks_cons_space space, first, List.cons.injEq] at marked
    rw [marked.1] at notSep
    cases notSep
  refine ⟨_, flags, rest, scanned, ?_, ?_, fun some => (left some).1⟩
  · rw [fieldsOf_dropWhile, fieldsOf, fieldsOf, marked]
    by_cases none : rest = []
    · rw [none]
      change (fields Mark.isSeparator (run ++ [])).map _ = [_]
      rw [List.append_nil, fields_of_forall notEmpty noSep, List.map_singleton]
    · obtain ⟨_, d, following, rfl, space⟩ := left none
      rw [marks_cons_space space, fields_append_sep _ _ rfl, fields_of_forall notEmpty noSep,
        fields_cons_sep _ rfl]
      rfl
  · have := List.length_pos_iff.mpr notEmpty
    omega

theorem buildargvLoop_spec {rounds maxargc : Nat} {input : List UInt8} {argv : List (List UInt8)}
    (begins : Begins input) (enough : input.length ≤ rounds)
    (room : maxargc = 0 ∧ argv = [] ∨ argv.length < maxargc) :
    buildargvLoop rounds input (Flags.of .plain false) maxargc argv =
      some (argv ++ fieldsOf input) := by
  induction rounds generalizing input maxargc argv with
  | zero =>
    obtain ⟨c, others, rfl, _⟩ := begins
    cases enough
  | succ rounds ih =>
    obtain ⟨arg, flags, rest, scanned, isFields, shorter, plain⟩ := scanArg_begins begins
    have stays : input.dropWhile isBlank = input := by
      obtain ⟨c, others, rfl, notSpace⟩ := begins
      rw [List.dropWhile_cons, if_neg]
      intro blank
      rw [isSpace_of_isBlank blank] at notSpace
      cases notSpace
    rw [buildargvLoop]
    simp only [stays, scanned]
    generalize isMax : (if maxargc = 0 ∨ argv.length ≥ maxargc - 1 then
      if maxargc = 0 then initialMaxargc else maxargc * 2 else maxargc) = newMax
    have fits : argv.length + 1 < newMax := by
      rw [← isMax]
      obtain ⟨rfl, rfl⟩ | less := room
      · decide
      · by_cases full : maxargc = 0 ∨ argv.length ≥ maxargc - 1
        · rw [if_pos full, if_neg (by omega)]
          omega
        · rw [if_neg full]
          omega
    rw [if_pos fits]
    by_cases left : rest.dropWhile isSpace = []
    · rw [if_neg (not_not.mpr left), isFields, left]
      rfl
    · have some : rest ≠ [] := by
        rintro rfl
        exact left rfl
      rw [if_pos left, plain some, ih (begins_dropWhile left), isFields,
        List.append_assoc, List.singleton_append]
      · have := List.length_dropWhile_le isSpace rest
        omega
      · rw [List.length_append, List.length_singleton]
        exact .inr fits

theorem fieldsOf_ne_nil {input : List UInt8} (begins : Begins input) : fieldsOf input ≠ [] := by
  obtain ⟨_, _, _, _, isFields, _⟩ := scanArg_begins begins
  rw [isFields]
  exact List.cons_ne_nil _ _

theorem fieldsOf_eq_nil_iff (input : List UInt8) :
    fieldsOf input = [] ↔ input.dropWhile isSpace = [] := by
  rw [← fieldsOf_dropWhile]
  constructor
  · intro none
    by_contra some
    exact fieldsOf_ne_nil (begins_dropWhile some) none
  · intro none
    rw [none]
    rfl

/-- White space in front of the first field that is made of blanks and tabs only. -/
def BlankLead (input : List UInt8) : Prop :=
  ∀ c ∈ input.takeWhile isSpace, isBlank c = true

instance (input : List UInt8) : Decidable (BlankLead input) :=
  decidable_of_iff ((input.takeWhile isSpace).all isBlank = true) List.all_eq_true

theorem dropWhile_isBlank {input : List UInt8} (blanks : BlankLead input) :
    input.dropWhile isBlank = input.dropWhile isSpace := by
  induction input with
  | nil => rfl
  | cons c input ih =>
    rw [BlankLead] at blanks
    by_cases space : isSpace c = true
    · rw [List.takeWhile_cons_of_pos space] at blanks
      rw [List.dropWhile_cons_of_pos space,
        List.dropWhile_cons_of_pos (blanks c List.mem_cons_self)]
      exact ih fun d inRest => blanks d (List.mem_cons_of_mem c inRest)
    · rw [List.dropWhile_cons_of_neg space,
        List.dropWhile_cons_of_neg fun blank => space (isSpace_of_isBlank blank)]

theorem dropWhile_isBlank_space {input : List UInt8} (notBlank : ¬BlankLead input) :
    ∃ c others, input.dropWhile isBlank = c :: others ∧ isSpace c = true ∧
      (c :: others).dropWhile isSpace = input.dropWhile isSpace := by
  induction input with
  | nil => exact absurd (fun c none => absurd none List.not_mem_nil) notBlank
  | cons c input ih =>
    by_cases blank : isBlank c = true
    · have space := isSpace_of_isBlank blank
      have later : ¬BlankLead input := by
        refine fun blanks => notBlank fun d inLead => ?_
        rw [List.takeWhile_cons_of_pos space] at inLead
        obtain rfl | inRest := List.mem_cons.mp inLead
        · exact blank
        · exact blanks d inRest
      rw [List.dropWhile_cons_of_pos blank, List.dropWhile_cons_of_pos space]
      exact ih later
    · by_cases space : isSpace c = true
      · exact ⟨c, input, List.dropWhile_cons_of_neg blank, space, rfl⟩
      · refine absurd (fun d inLead => ?_) notBlank
        rw [List.takeWhile_cons_of_neg space] at inLead
        cases inLead

theorem buildargvLoop_blanks (rounds maxargc : Nat) (input : List UInt8) (flags : Flags)
    (argv : List (List UInt8)) :
    buildargvLoop (rounds + 1) (input.dropWhile isBlank) flags maxargc argv =
      buildargvLoop (rounds + 1) input flags maxargc argv := by
  rw [buildargvLoop, buildargvLoop, List.dropWhile_idempotent]

theorem buildargvLoop_space (rounds : Nat) {c : UInt8} (space : isSpace c = true)
    (notBlank : isBlank c = false) (others : List UInt8) :
    buildargvLoop (rounds + 1) (c :: others) (Flags.of .plain false) 0 [] =
      if others.dropWhile isSpace ≠ [] then
        buildargvLoop rounds (others.dropWhile isSpace) (Flags.of .plain false) initialMaxargc [[]]
      else some [[]] := by
  have ends : scanArg (Flags.of .plain false) (c :: others) =
      ([], Flags.of .plain false, c :: others) := by
    rw [scanArg, if_pos ((ends_iff .plain false c).mpr ⟨space, rfl, rfl⟩)]
  rw [buildargvLoop, List.dropWhile_cons_of_neg (by rw [notBlank]; exact Bool.false_ne_true)]
  simp only [ends, List.dropWhile_cons_of_pos space]
  rfl

theorem buildargv_eq (input : List UInt8) :
    buildargv input = some (if BlankLead input ∨ fieldsOf input = [] then documented input
      else [] :: fieldsOf input) := by
  have noField : fieldsOf input = [] ↔ input.dropWhile isSpace = [] := fieldsOf_eq_nil_iff input
  have shorter := List.length_dropWhile_le isSpace input
  change buildargvLoop _ input (Flags.of .plain false) 0 [] = _
  rw [← buildargvLoop_blanks]
  by_cases blanks : BlankLead input
  · rw [if_pos (.inl blanks), documented, dropWhile_isBlank blanks]
    by_cases isEmpty : input.dropWhile isSpace = []
    · rw [if_pos (noField.mpr isEmpty), isEmpty]
      rfl
    · rw [if_neg (noField.not.mpr isEmpty), ← fieldsOf_dropWhile]
      exact buildargvLoop_spec (begins_dropWhile isEmpty) (by omega) (.inl ⟨rfl, rfl⟩)
  · obtain ⟨c, others, skipped, space, same⟩ := dropWhile_isBlank_space blanks
    have notBlank : isBlank c = false := by
      have head : isBlank ((input.dropWhile isBlank).head (by rw [skipped]; exact List.cons_ne_nil _ _)) =
          false := List.head_dropWhile_not isBlank _
      simpa only [skipped, List.head_cons] using head
    rw [List.dropWhile_cons_of_pos space] at same
    rw [skipped, buildargvLoop_space _ space notBlank, same]
    by_cases isEmpty : input.dropWhile isSpace = []
    · rw [if_neg (not_not.mpr isEmpty), if_pos (.inr (noField.mpr isEmpty)), documented,
        if_pos (noField.mpr isEmpty)]
    · have some : fieldsOf input ≠ [] := noField.not.mpr isEmpty
      have notBoth : ¬(BlankLead input ∨ fieldsOf input = []) := not_or.mpr ⟨blanks, some⟩
      rw [if_pos isEmpty, if_neg notBoth, ← fieldsOf_dropWhile]
      exact buildargvLoop_spec (begins_dropWhile isEmpty) shorter (.inr (by decide))

theorem marks_quote (word rest : List UInt8) :
    ∃ run, marks .plain false (quote word ++ rest) = run ++ marks .plain false rest ∧ run ≠ [] ∧
      (∀ mark ∈ run, mark.isSeparator = false) ∧ run.filterMap Mark.content = word := by
  have escaped (word : List UInt8) : marks .plain false (word.flatMap (fun c => [backslash, c]) ++ rest) =
      word.flatMap (fun c => [.stripped, .kept c]) ++ marks .plain false rest := by
    induction word with
    | nil => rfl
    | cons c word ih =>
      rw [List.flatMap_cons, List.flatMap_cons, List.append_assoc, List.append_assoc,
        ← ih]
      rfl
  cases word with
  | nil => exact ⟨[.stripped, .stripped], rfl, List.cons_ne_nil _ _, by decide, rfl⟩
  | cons c word =>
    refine ⟨_, escaped (c :: word), List.cons_ne_nil _ _, ?_, ?_⟩
    · intro mark inRun
      obtain ⟨d, _, isMark⟩ := List.mem_flatMap.mp inRun
      simp only [List.mem_cons, List.not_mem_nil, or_false] at isMark
      obtain rfl | rfl := isMark <;> rfl
    · generalize c :: word = all
      induction all with
      | nil => rfl
      | cons d all ih =>
        rw [List.flatMap_cons, List.filterMap_append, ih]
        rfl

theorem fieldsOf_quote (word : List UInt8) : fieldsOf (quote word) = [word] := by
  obtain ⟨run, marked, notEmpty, noSep, content⟩ := marks_quote word []
  rw [List.append_nil, show marks .plain false [] = [] from rfl, List.append_nil] at marked
  rw [fieldsOf, marked, fields_of_forall notEmpty noSep, List.map_singleton, content]

theorem fieldsOf_quote_append (word rest : List UInt8) :
    fieldsOf (quote word ++ 0x20 :: rest) = word :: fieldsOf rest := by
  obtain ⟨run, marked, notEmpty, noSep, content⟩ := marks_quote word (0x20 :: rest)
  rw [fieldsOf, marked, marks_cons_space rfl, fields_append_sep _ _ rfl,
    fields_of_forall notEmpty noSep, List.map_append, List.map_singleton, content,
    List.singleton_append]
  rfl

theorem joined_cons (word next : List UInt8) (words : List (List UInt8)) :
    joined (word :: next :: words) = quote word ++ 0x20 :: joined (next :: words) := rfl

theorem fieldsOf_joined (words : List (List UInt8)) : fieldsOf (joined words) = words := by
  induction words with
  | nil => rfl
  | cons word words ih =>
    cases words with
    | nil =>
      rw [show joined [word] = quote word from List.append_nil _]
      exact fieldsOf_quote word
    | cons next words => rw [joined_cons, fieldsOf_quote_append, ih]

theorem blankLead_joined (words : List (List UInt8)) : BlankLead (joined words) := by
  have quoted (word rest : List UInt8) : (quote word ++ rest).takeWhile isSpace = [] := by
    cases word with
    | nil => rfl
    | cons c word => rfl
  have none : (joined words).takeWhile isSpace = [] := by
    cases words with
    | nil => rfl
    | cons word words =>
      cases words with
      | nil => exact quoted word []
      | cons next words => exact quoted word _
  rw [BlankLead, none]
  exact fun c inNone => absurd inNone List.not_mem_nil

/-- `buildargv` returns the vector of the documented grammar exactly where the white space in
front of the first field is made of blanks and tabs, or there is no field; and it reads
quoted words back. -/
theorem buildargv_documented (input : List UInt8) (words : List (List UInt8))
    (notEmpty : words ≠ []) :
    (buildargv input = some (documented input) ↔ BlankLead input ∨ fieldsOf input = []) ∧
      buildargv (joined words) = some words := by
  constructor
  · rw [buildargv_eq]
    by_cases meets : BlankLead input ∨ fieldsOf input = []
    · rw [if_pos meets]
      exact iff_of_true rfl meets
    · rw [if_neg meets]
      refine iff_of_false (fun same => ?_) meets
      rw [documented, if_neg (not_or.mp meets).2, Option.some.injEq] at same
      exact absurd (congrArg List.length same) (Nat.succ_ne_self _)
  · rw [buildargv_eq, if_pos (.inl (blankLead_joined words)), documented, fieldsOf_joined,
      if_neg notEmpty]

theorem buildargv_documented_words :
    buildargv (joined [[0x61, 0x0a], []]) = some [[0x61, 0x0a], []] :=
  (buildargv_documented [] [[0x61, 0x0a], []] (List.cons_ne_nil _ _)).2

/-- A new line in front of a word makes an empty argument. -/
theorem buildargv_newline :
    buildargv [0x0a, 0x61] = some [[], [0x61]] ∧ documented [0x0a, 0x61] = [[0x61]] := by
  decide

end GccCil.Libiberty.Argv
