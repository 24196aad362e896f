import GccCil.Libcpp.Mkdeps

/-!
# Dependencies for make

What `munge` stores is the quoted name, in a buffer of the length that it
computed.  The rule that `deps_write` makes of quoted names is read as the
names, wherever lines are folded, unless a name has a number sign: `munge` does
not quote those.
-/

namespace GccCil.Libcpp.Mkdeps

open GccCil.Lib MakeRule

theorem backslashesBefore_cons (c : UInt8) (before : List UInt8) :
    backslashesBefore (c :: before) = if c = backslash then backslashesBefore before + 1 else 0 := by
  rw [backslashesBefore, List.takeWhile_cons]
  by_cases slash : c = backslash
  · rw [if_pos slash, if_pos (beq_iff_eq.mpr slash), List.length_cons, backslashesBefore]
  · rw [if_neg slash, if_neg (mt beq_iff_eq.mp slash), List.length_nil]

/-- The characters that quote a name, behind a number of backslashes: one for each dollar sign and
each blank, and one for each backslash right before a blank. -/
def quotingCharacters (n : Nat) : List UInt8 → Nat
  | [] => 0
  | c :: rest =>
    (if IsBlank c then n + 1 else if c = dollar then 1 else 0) +
      quotingCharacters (if c = backslash then n + 1 else 0) rest

theorem quote_length (n : Nat) (name : List UInt8) :
    (quote n name).length = name.length + quotingCharacters n name := by
  induction name generalizing n with
  | nil => rfl
  | cons c rest ih =>
    have added : (quotes n c).length = if IsBlank c then n + 1 else if c = dollar then 1 else 0 := by
      rw [quotes]
      split
      · exact List.length_replicate
      · split
        · rfl
        · rfl
    rw [quote, quotingCharacters, List.length_append, List.length_cons, List.length_cons,
      ih, added]
    omega

theorem mungeLength_eq (before : List UInt8) (len : Nat) (name : List UInt8) :
    mungeLength before len name = len + (quote (backslashesBefore before) name).length := by
  induction name generalizing before len with
  | nil => rfl
  | cons c rest ih =>
    rw [mungeLength, ih, backslashesBefore_cons, quote_length, quote_length,
      quotingCharacters, List.length_cons]
    change (if IsBlank c then _ else _) + 1 + _ = _
    split
    · omega
    · split
      · omega
      · omega

theorem store_eq {size : Nat} {dst chars : List UInt8}
    (room : dst.length + chars.length ≤ size) : store size dst chars = some (dst ++ chars) :=
  if_pos room

theorem storeQuotes_eq {size : Nat} {before dst : List UInt8} {c : UInt8}
    (room : dst.length + (quotes (backslashesBefore before) c).length ≤ size) :
    storeQuotes size before dst c = some (dst ++ quotes (backslashesBefore before) c) := by
  rw [quotes] at room
  rw [storeQuotes, quotes]
  by_cases blank : IsBlank c
  · rw [if_pos blank, List.length_replicate] at room
    rw [if_pos blank, if_pos (show c = space ∨ c = tab from blank),
      store_eq (by rw [List.length_replicate]; omega), Option.bind_eq_bind, Option.bind_some,
      store_eq, List.append_assoc, ← List.replicate_succ']
    rw [List.length_append, List.length_replicate, List.length_singleton]
    omega
  · rw [if_neg blank] at room
    rw [if_neg blank, if_neg (show ¬ (c = space ∨ c = tab) from blank)]
    by_cases isDollar : c = dollar
    · rw [if_pos isDollar] at room
      rw [if_pos isDollar, if_pos isDollar, store_eq room]
    · rw [if_neg isDollar, if_neg isDollar, List.append_nil]

theorem mungeLoop_eq {size : Nat} (before dst name : List UInt8)
    (room : dst.length + (quote (backslashesBefore before) name).length + 1 ≤ size) :
    mungeLoop size before dst name = some (dst ++ quote (backslashesBefore before) name) := by
  induction name generalizing before dst with
  | nil =>
    rw [mungeLoop, store_eq (show dst.length + 1 ≤ size by simpa [quote] using room)]
    simp [quote]
  | cons c rest ih =>
    rw [quote, List.length_append, List.length_cons] at room
    rw [mungeLoop, storeQuotes_eq (by omega), Option.bind_eq_bind, Option.bind_some, store_eq,
      Option.bind_some, ih, backslashesBefore_cons, quote]
    · simp
    · rw [backslashesBefore_cons]
      simp only [List.length_append, List.length_singleton]
      omega
    · simp only [List.length_append, List.length_singleton]
      omega

theorem munge_eq (name : List UInt8) :
    munge name =
      if name.length + quotingCharacters 0 name < intMax then some (quote 0 name) else none := by
  have length : mungeLength [] 0 name = (quote 0 name).length := by
    rw [mungeLength_eq, Nat.zero_add]
    rfl
  rw [munge, ← quote_length, length]
  split
  · next small =>
      rw [if_pos (by omega)]
      exact mungeLoop_eq [] [] name (by simp [backslashesBefore])
  · next large => rw [if_neg (by omega)]

theorem writeNames_spells (colmax i column : Nat) {l : List (List UInt8)}
    (quotable : ∀ name ∈ l, Quotable name) (noComment : ∀ name ∈ l, numberSign ∉ name) :
    ∃ read, Spells (writeNames colmax i column (l.map (quote 0))).1 read l ∧
      (i ≠ 0 → read = [] ∨ read.head? = some .gap) := by
  induction l generalizing i column with
  | nil => exact ⟨[], spells_nil, fun _ => Or.inl rfl⟩
  | cons name rest ih =>
    rw [List.map_cons, writeNames]
    dsimp only
    obtain ⟨read, spells, apart⟩ := ih (i + 1) _
      (fun other member => quotable other (List.mem_cons_of_mem name member))
      (fun other member => noComment other (List.mem_cons_of_mem name member))
    obtain ⟨folding, folded⟩ : ∃ gaps, Separates
        (if colmax ≠ 0 ∧ colmax < advance column ((quote 0 name).length % uintSize) then
          [space, backslash, newline, space] else []) gaps := by
      split
      · exact ⟨_, separates_fold⟩
      · exact ⟨_, separates_nil⟩
    obtain ⟨spacing, spaced, first⟩ : ∃ gaps, Separates (if i ≠ 0 then [space] else []) gaps ∧
        (i ≠ 0 → gaps = [.gap]) := by
      split
      · exact ⟨_, separates_space, fun _ => rfl⟩
      · next none => exact ⟨_, separates_nil, fun some => absurd some none⟩
    have all := spells.cons (folded.append spaced) (quotable name List.mem_cons_self)
      (noComment name List.mem_cons_self) (apart (Nat.succ_ne_zero i))
    rw [List.append_assoc] at all
    refine ⟨_, all, fun later => Or.inr ?_⟩
    rw [first later, List.append_assoc]
    cases folding with
    | nil => rfl
    | cons token others => exact congrArg some (folded.gaps token List.mem_cons_self)

theorem mapM_munge_iff {l l' : List (List UInt8)} :
    l.mapM munge = some l' ↔
      (∀ name ∈ l, name.length + quotingCharacters 0 name < intMax) ∧ l' = l.map (quote 0) := by
  induction l generalizing l' with
  | nil => simp
  | cons name rest ih =>
    rw [List.mapM_cons, munge_eq]
    split
    · next small =>
        simp only [Option.bind_eq_bind, Option.bind_some, Option.bind_eq_some_iff,
          ih, List.forall_mem_cons, List.map_cons]
        constructor
        · rintro ⟨written, ⟨short, rfl⟩, same⟩
          exact ⟨⟨small, short⟩, (Option.some.inj same).symm⟩
        · rintro ⟨⟨-, short⟩, rfl⟩
          exact ⟨_, ⟨short, rfl⟩, rfl⟩
    · next large =>
        constructor
        · intro none
          cases none
        · exact fun all => absurd (all.1 name List.mem_cons_self) large

theorem readRule_depsWrite {d : Deps} {targets deps : List (List UInt8)}
    (quotable : ∀ name ∈ targets ++ deps, Quotable name)
    (noComment : ∀ name ∈ targets ++ deps, numberSign ∉ name)
    (targetv : d.targetv = targets.map (quote 0)) (depv : d.depv = deps.map (quote 0))
    (colmax : Nat) : readRule (depsWrite d colmax) = some (targets, deps) := by
  rw [depsWrite, targetv, depv]
  dsimp only
  obtain ⟨read, spells, -⟩ := writeNames_spells
    (if colmax ≠ 0 ∧ colmax < 34 then 34 else colmax) 0 0
    (fun name member => quotable name (List.mem_append_left deps member))
    (fun name member => noComment name (List.mem_append_left deps member))
  obtain ⟨read', spells', -⟩ := writeNames_spells
    (if colmax ≠ 0 ∧ colmax < 34 then 34 else colmax) 0
    (advance (writeNames (if colmax ≠ 0 ∧ colmax < 34 then 34 else colmax) 0 0
      (targets.map (quote 0))).2 2)
    (fun name member => quotable name (List.mem_append_right targets member))
    (fun name member => noComment name (List.mem_append_right targets member))
  exact readRule_spelled spells spells'

/-- The targets and dependencies are read back if and only if no name has a number sign or is so
long that `munge` cannot count the characters of the quoted name. -/
theorem readRule_depsWrite_iff {targets deps : List (List UInt8)}
    (quotable : ∀ name ∈ targets ++ deps, Quotable name) (colmax : Nat) :
    (∃ targetv depv, targets.mapM munge = some targetv ∧ deps.mapM munge = some depv ∧
      readRule (depsWrite { depsInit with targetv := targetv, depv := depv } colmax) =
        some (targets, deps)) ↔
      ∀ name ∈ targets ++ deps,
        numberSign ∉ name ∧ name.length + quotingCharacters 0 name < intMax := by
  constructor
  · rintro ⟨targetv, depv, mungedTargets, mungedDeps, read⟩ name member
    refine ⟨readRule_numberSign read name member, ?_⟩
    rcases List.mem_append.mp member with inTargets | inDeps
    · exact (mapM_munge_iff.mp mungedTargets).1 name inTargets
    · exact (mapM_munge_iff.mp mungedDeps).1 name inDeps
  · intro all
    refine ⟨_, _, mapM_munge_iff.mpr ⟨?_, rfl⟩, mapM_munge_iff.mpr ⟨?_, rfl⟩, ?_⟩
    · exact fun name member => (all name (List.mem_append_left deps member)).2
    · exact fun name member => (all name (List.mem_append_right targets member)).2
    · exact readRule_depsWrite quotable (fun name member => (all name member).1) rfl rfl colmax

theorem readRule_depsWrite_iff_blank :
    (∃ targetv depv, ([[0x6f]] : List (List UInt8)).mapM munge = some targetv ∧
      ([[0x61, 0x5c, 0x20, 0x62]] : List (List UInt8)).mapM munge = some depv ∧
      readRule (depsWrite { depsInit with targetv := targetv, depv := depv } 72) =
        some ([[0x6f]], [[0x61, 0x5c, 0x20, 0x62]])) ↔
      ∀ name ∈ ([[0x6f]] ++ [[0x61, 0x5c, 0x20, 0x62]] : List (List UInt8)),
        numberSign ∉ name ∧ name.length + quotingCharacters 0 name < intMax := by
  have quotable : ∀ name ∈ ([[0x6f]] ++ [[0x61, 0x5c, 0x20, 0x62]] : List (List UInt8)),
      Quotable name := by
    intro name member
    rcases List.mem_cons.mp member with rfl | later
    · exact ⟨by decide, by decide, by decide, by decide⟩
    · rw [List.mem_singleton.mp later]
      exact ⟨by decide, by decide, by decide, by decide⟩
  exact readRule_depsWrite_iff quotable 72

/-- The dependency `a#b` is read as `a`. -/
theorem readRule_depsWrite_numberSign :
    [[0x6f]].mapM munge = some [[0x6f]] ∧
      [[0x61, 0x23, 0x62]].mapM munge = some [[0x61, 0x23, 0x62]] ∧
      readRule (depsWrite
        { depsInit with targetv := [[0x6f]], depv := [[0x61, 0x23, 0x62]] } 72) =
        some ([[0x6f]], [[0x61]]) := by
  decide

end GccCil.Libcpp.Mkdeps
