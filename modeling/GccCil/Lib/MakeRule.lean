import GccCil.Lib.Fields

/-!
# Rules of makefiles

How a rule with targets and prerequisites is read.  Backslashes quote blanks,
and are doubled where they do so; elsewhere they stand for themselves.  A
backslash at the end of a line continues the rule, `$$` is a dollar sign, and
a number sign starts a comment.
-/

namespace GccCil.Lib.MakeRule

def backslash : UInt8 := 0x5c
def dollar : UInt8 := 0x24
def numberSign : UInt8 := 0x23
def colonSign : UInt8 := 0x3a
def newline : UInt8 := 0x0a
def space : UInt8 := 0x20
def tab : UInt8 := 0x09

def IsBlank (c : UInt8) : Prop := c = space ∨ c = tab

instance (c : UInt8) : Decidable (IsBlank c) := inferInstanceAs (Decidable (_ ∨ _))

/-- The parts of a rule: characters of names, what separates names, the colon, and references
to variables. -/
inductive Token where
  | char (c : UInt8)
  | gap
  | colon
  | reference
  deriving DecidableEq

def slashes (n : Nat) : List Token := List.replicate n (.char backslash)

def tokens (n : Nat) : List UInt8 → List Token
  | [] => slashes n
  | c :: rest =>
    if c = backslash then tokens (n + 1) rest
    else if IsBlank c then
      slashes (n / 2) ++ (if n % 2 = 1 then .char c else .gap) :: tokens 0 rest
    else if c = newline then
      slashes (n / 2) ++ (if n % 2 = 1 then .gap :: tokens 0 rest else [])
    else if c = numberSign then slashes n
    else if c = dollar then
      match rest with
      | d :: rest' =>
        if d = dollar then slashes n ++ .char dollar :: tokens 0 rest'
        else slashes n ++ .reference :: tokens 0 (d :: rest')
      | [] => slashes n ++ [.reference]
    else slashes n ++ (if c = colonSign then .colon else .char c) :: tokens 0 rest

def isGap (token : Token) : Bool := token == .gap

def Token.char? : Token → Option UInt8
  | char c => some c
  | _ => none

def names (l : List Token) : List (List UInt8) :=
  (fields isGap l).map fun name => name.filterMap Token.char?

/-- The targets and the prerequisites of a rule without references to variables. -/
def readRule (text : List UInt8) : Option (List (List UInt8) × List (List UInt8)) :=
  let l := tokens 0 text
  if .reference ∉ l ∧ .colon ∈ l then
    some (names (l.takeWhile fun token => token ≠ .colon),
      names ((l.dropWhile fun token => token ≠ .colon).drop 1))
  else none

def quotes (n : Nat) (c : UInt8) : List UInt8 :=
  if IsBlank c then List.replicate (n + 1) backslash else if c = dollar then [dollar] else []

def quote (n : Nat) : List UInt8 → List UInt8
  | [] => []
  | c :: rest => quotes n c ++ c :: quote (if c = backslash then n + 1 else 0) rest

/-- The names that can be quoted, but for the comments that a number sign starts. -/
structure Quotable (name : List UInt8) : Prop where
  nonempty : name ≠ []
  newline : newline ∉ name
  colon : colonSign ∉ name
  last : name.getLast? ≠ some backslash

section Tokens

variable {n : Nat} {c : UInt8} (rest : List UInt8)

theorem tokens_backslash : tokens n (backslash :: rest) = tokens (n + 1) rest := by
  rw [tokens.eq_def]
  exact if_pos rfl

theorem tokens_blank (blank : IsBlank c) :
    tokens n (c :: rest) =
      slashes (n / 2) ++ (if n % 2 = 1 then .char c else .gap) :: tokens 0 rest := by
  have other : c ≠ backslash := by
    rcases blank with rfl | rfl <;> decide
  rw [tokens.eq_def]
  dsimp only
  rw [if_neg other, if_pos blank]

theorem tokens_newline :
    tokens n (newline :: rest) =
      slashes (n / 2) ++ (if n % 2 = 1 then .gap :: tokens 0 rest else []) := by
  rw [tokens.eq_def]
  dsimp only
  rw [if_neg (by decide), if_neg (by decide), if_pos rfl]

theorem tokens_dollars :
    tokens n (dollar :: dollar :: rest) = slashes n ++ .char dollar :: tokens 0 rest := by
  rw [tokens.eq_def]
  dsimp only
  rw [if_neg (by decide), if_neg (by decide), if_neg (by decide), if_neg (by decide),
    if_pos rfl, if_pos rfl]

theorem tokens_colon : tokens n (colonSign :: rest) = slashes n ++ .colon :: tokens 0 rest := by
  rw [tokens.eq_def]
  dsimp only
  rw [if_neg (by decide), if_neg (by decide), if_neg (by decide), if_neg (by decide),
    if_neg (by decide), if_pos rfl]

theorem tokens_other (notBackslash : c ≠ backslash) (notBlank : ¬ IsBlank c)
    (notNewline : c ≠ newline) (notNumberSign : c ≠ numberSign) (notDollar : c ≠ dollar)
    (notColon : c ≠ colonSign) : tokens n (c :: rest) = slashes n ++ .char c :: tokens 0 rest := by
  rw [tokens.eq_def]
  dsimp only
  rw [if_neg notBackslash, if_neg notBlank, if_neg notNewline, if_neg notNumberSign,
    if_neg notDollar, if_neg notColon]

theorem tokens_backslashes (m : Nat) :
    tokens n (List.replicate m backslash ++ rest) = tokens (n + m) rest := by
  induction m generalizing n with
  | zero => rfl
  | succ m ih =>
    rw [List.replicate_succ, List.cons_append, tokens_backslash, ih,
      Nat.add_assoc, Nat.add_comm 1 m]

theorem numberSign_notMem_tokens (n : Nat) (text : List UInt8) :
    .char numberSign ∉ tokens n text := by
  have slashesFree : ∀ m, .char numberSign ∉ slashes m := by
    intro m member
    have same := List.eq_of_mem_replicate member
    exact absurd same (by decide)
  have cons : ∀ m token l, token ≠ .char numberSign → .char numberSign ∉ l →
      .char numberSign ∉ slashes m ++ token :: l := by
    intro m token l other free member
    rcases List.mem_append.mp member with inSlashes | inRest
    · exact slashesFree m inSlashes
    · exact (List.mem_cons.mp inRest).elim (fun same => other same.symm) free
  have char : ∀ d, d ≠ numberSign → Token.char d ≠ .char numberSign :=
    fun d other same => other (Token.char.inj same)
  fun_induction tokens n text with
  | case1 n => exact slashesFree n
  | case2 n rest ih => exact ih
  | case3 n c rest _ blank ih =>
    refine cons _ _ _ ?_ ih
    split
    · apply char
      rintro rfl
      exact absurd blank (by decide)
    · exact Token.noConfusion
  | case4 n rest _ _ ih =>
    split
    · exact cons _ _ _ Token.noConfusion ih
    · rw [List.append_nil]
      exact slashesFree _
  | case5 n rest => exact slashesFree n
  | case6 n rest _ _ _ _ ih =>
    exact cons _ _ _ (char _ (by decide)) ih
  | case7 n d rest _ _ _ _ _ ih =>
    exact cons _ _ _ Token.noConfusion ih
  | case8 n => exact cons _ _ _ Token.noConfusion List.not_mem_nil
  | case9 n c rest _ _ _ other _ ih =>
    refine cons _ _ _ ?_ ih
    split
    · exact Token.noConfusion
    · exact char _ other

end Tokens

theorem tokens_quote {name : List UInt8} (n : Nat) (empty : name = [] → n = 0)
    (newlineFree : newline ∉ name) (colonFree : colonSign ∉ name)
    (last : name.getLast? ≠ some backslash) (noComment : numberSign ∉ name)
    (rest : List UInt8) :
    tokens n (quote n name ++ rest) = slashes n ++ name.map .char ++ tokens 0 rest := by
  induction name generalizing n with
  | nil =>
    rw [empty rfl]
    rfl
  | cons c name ih =>
    have step : ∀ m, (name = [] → m = 0) → tokens m (quote m name ++ rest) =
        slashes m ++ name.map .char ++ tokens 0 rest := by
      intro m empty
      refine ih m empty (fun member => newlineFree (List.mem_cons_of_mem c member))
        (fun member => colonFree (List.mem_cons_of_mem c member)) ?_
        (fun member => noComment (List.mem_cons_of_mem c member))
      intro final
      cases name with
      | nil => exact absurd final (by simp)
      | cons d name => exact last (by rwa [List.getLast?_cons_cons])
    have noNewline : c ≠ newline := fun same => newlineFree (same ▸ List.mem_cons_self)
    have noColon : c ≠ colonSign := fun same => colonFree (same ▸ List.mem_cons_self)
    have noSign : c ≠ numberSign := fun same => noComment (same ▸ List.mem_cons_self)
    rw [quote, quotes, List.map_cons]
    by_cases slash : c = backslash
    · have more : name ≠ [] := by
        rintro rfl
        exact last (by rw [slash]; rfl)
      rw [slash, if_neg (by decide), if_neg (by decide), if_pos rfl, List.nil_append,
        List.cons_append, tokens_backslash, step (n + 1) (fun none => absurd none more), slashes,
        List.replicate_succ']
      simp [slashes]
    · rw [if_neg slash]
      by_cases blank : IsBlank c
      · rw [if_pos blank, List.append_assoc, tokens_backslashes, List.cons_append,
          tokens_blank _ blank, step 0 fun _ => rfl]
        have half : (n + (n + 1)) / 2 = n := by omega
        have odd : (n + (n + 1)) % 2 = 1 := by omega
        rw [half, if_pos odd]
        simp [slashes]
      · rw [if_neg blank]
        by_cases isDollar : c = dollar
        · rw [if_pos isDollar, isDollar, List.append_assoc, List.singleton_append,
            List.cons_append, tokens_dollars, step 0 fun _ => rfl]
          simp [slashes]
        · rw [if_neg isDollar, List.nil_append, List.cons_append,
            tokens_other _ slash blank noNewline noSign isDollar noColon, step 0 fun _ => rfl]
          simp [slashes]

/-- A text that is read as the tokens of some names, whatever follows. -/
structure Spells (text : List UInt8) (l : List Token) (spelled : List (List UInt8)) : Prop where
  tokens : ∀ rest, MakeRule.tokens 0 (text ++ rest) = l ++ MakeRule.tokens 0 rest
  colon : .colon ∉ l
  reference : .reference ∉ l
  names : names l = spelled

theorem spells_nil : Spells [] [] [] where
  tokens _ := rfl
  colon := List.not_mem_nil
  reference := List.not_mem_nil
  names := rfl

/-- A text that is read as gaps. -/
structure Separates (text : List UInt8) (gaps : List Token) : Prop where
  tokens : ∀ rest, MakeRule.tokens 0 (text ++ rest) = gaps ++ MakeRule.tokens 0 rest
  gaps : ∀ token ∈ gaps, token = .gap

theorem separates_nil : Separates [] [] where
  tokens _ := rfl
  gaps _ member := absurd member List.not_mem_nil

theorem separates_space : Separates [space] [.gap] where
  tokens rest := by
    rw [List.singleton_append, tokens_blank rest (Or.inl rfl)]
    rfl
  gaps _ member := List.mem_singleton.mp member

theorem separates_fold : Separates [space, backslash, newline, space] [.gap, .gap, .gap] where
  tokens rest := by
    change MakeRule.tokens 0 (space :: backslash :: newline :: space :: rest) = _
    rw [tokens_blank _ (Or.inl rfl), tokens_backslash, tokens_newline,
      tokens_blank _ (Or.inl rfl)]
    rfl
  gaps _ member := List.eq_of_mem_replicate (show _ ∈ List.replicate 3 Token.gap from member)

theorem Separates.append {text text' : List UInt8} {gaps gaps' : List Token}
    (first : Separates text gaps) (second : Separates text' gaps') :
    Separates (text ++ text') (gaps ++ gaps') where
  tokens rest := by rw [List.append_assoc, first.tokens, second.tokens, List.append_assoc]
  gaps token member := (List.mem_append.mp member).elim (first.gaps token) (second.gaps token)

theorem filterMap_char (name : List UInt8) :
    (name.map Token.char).filterMap Token.char? = name := by
  rw [List.filterMap_map]
  exact List.filterMap_some

theorem names_cons {gaps l : List Token} {name : List UInt8}
    (areGaps : ∀ token ∈ gaps, token = .gap) (nonempty : name ≠ [])
    (apart : l = [] ∨ l.head? = some .gap) :
    names (gaps ++ (name.map .char ++ l)) = name :: names l := by
  have noGap : ∀ token ∈ name.map Token.char, isGap token = false := by
    intro token member
    obtain ⟨c, -, rfl⟩ := List.mem_map.mp member
    rfl
  have run : fields isGap (name.map Token.char) = [name.map Token.char] :=
    fields_of_forall (mt List.map_eq_nil_iff.mp nonempty) noGap
  have leading : ∀ token ∈ gaps, isGap token = true := by
    intro token member
    rw [areGaps token member]
    rfl
  rw [names, fields_append_of_seps _ leading]
  rcases apart with rfl | first
  · rw [List.append_nil, run, names, fields_nil, List.map_nil, List.map_cons, filterMap_char,
      List.map_nil]
  · obtain ⟨l', rfl⟩ : ∃ l', l = .gap :: l' := by
      cases l with
      | nil => exact absurd first (by simp)
      | cons token l' => exact ⟨l', by rw [Option.some.inj first]⟩
    rw [fields_append_sep _ _ rfl, run, names, fields_cons_sep _ rfl, List.singleton_append,
      List.map_cons, filterMap_char]

theorem Spells.cons {text separator : List UInt8} {l gaps : List Token}
    {spelled : List (List UInt8)} {name : List UInt8} (spells : Spells text l spelled)
    (separates : Separates separator gaps) (quotable : Quotable name)
    (noComment : numberSign ∉ name) (apart : l = [] ∨ l.head? = some .gap) :
    Spells (separator ++ (quote 0 name ++ text)) (gaps ++ (name.map .char ++ l))
      (name :: spelled) where
  tokens rest := by
    rw [List.append_assoc, separates.tokens, List.append_assoc,
      tokens_quote 0 (fun _ => rfl) quotable.newline quotable.colon quotable.last noComment,
      spells.tokens]
    simp [slashes]
  colon := by
    intro member
    rcases List.mem_append.mp member with inGaps | inRest
    · exact Token.noConfusion (separates.gaps _ inGaps)
    · rcases List.mem_append.mp inRest with inName | later
      · obtain ⟨c, -, same⟩ := List.mem_map.mp inName
        exact Token.noConfusion same
      · exact spells.colon later
  reference := by
    intro member
    rcases List.mem_append.mp member with inGaps | inRest
    · exact Token.noConfusion (separates.gaps _ inGaps)
    · rcases List.mem_append.mp inRest with inName | later
      · obtain ⟨c, -, same⟩ := List.mem_map.mp inName
        exact Token.noConfusion same
      · exact spells.reference later
  names := by rw [names_cons separates.gaps quotable.nonempty apart, spells.names]

theorem readRule_spelled {before behind : List UInt8} {l l' : List Token}
    {targets prerequisites : List (List UInt8)} (first : Spells before l targets)
    (second : Spells behind l' prerequisites) :
    readRule (before ++ (colonSign :: space :: (behind ++ [newline]))) =
      some (targets, prerequisites) := by
  have all : tokens 0 (before ++ (colonSign :: space :: (behind ++ [newline]))) =
      l ++ .colon :: .gap :: l' := by
    rw [first.tokens, tokens_colon, tokens_blank _ (Or.inl rfl), second.tokens, tokens_newline]
    simp [slashes]
  have noReference : Token.reference ∉ l ++ .colon :: .gap :: l' := by
    intro member
    rcases List.mem_append.mp member with early | late
    · exact first.reference early
    · rcases List.mem_cons.mp late with same | later
      · exact Token.noConfusion same
      · exact (List.mem_cons.mp later).elim Token.noConfusion second.reference
  have noColon : ∀ token ∈ l, decide (token ≠ .colon) = true := by
    intro token member
    rw [decide_eq_true_iff]
    rintro rfl
    exact first.colon member
  rw [readRule, all, if_pos ⟨noReference, List.mem_append_right _ List.mem_cons_self⟩,
    List.takeWhile_append_of_pos noColon, List.dropWhile_append_of_pos noColon,
    List.takeWhile_cons_of_neg (by decide), List.dropWhile_cons_of_neg (by decide),
    List.append_nil, first.names, List.drop_one, List.tail_cons, names, fields_cons_sep _ rfl,
    ← names, second.names]

theorem readRule_numberSign {text : List UInt8} {targets prerequisites : List (List UInt8)}
    (read : readRule text = some (targets, prerequisites)) :
    ∀ name ∈ targets ++ prerequisites, numberSign ∉ name := by
  have free : ∀ l : List Token, l ⊆ tokens 0 text → ∀ name ∈ names l, numberSign ∉ name := by
    intro l subset name member sign
    obtain ⟨run, field, rfl⟩ := List.mem_map.mp member
    obtain ⟨token, inRun, char⟩ := List.mem_filterMap.mp sign
    have same : token = .char numberSign := by
      cases token with
      | char c => rw [Option.some.inj char]
      | gap => cases char
      | colon => cases char
      | reference => cases char
    exact numberSign_notMem_tokens 0 text (same ▸ subset (mem_of_mem_fields field inRun))
  rw [readRule] at read
  split at read
  · obtain ⟨rfl, rfl⟩ := Prod.mk.inj (Option.some.inj read)
    intro name member
    rcases List.mem_append.mp member with before | behind
    · exact free _ (List.takeWhile_subset _) name before
    · exact free _ (List.Subset.trans (List.drop_subset _ _) (List.dropWhile_subset _)) name behind
  · cases read

end GccCil.Lib.MakeRule
