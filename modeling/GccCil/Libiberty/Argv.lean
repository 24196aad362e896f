import GccCil.Lib.Fields

/-!
# Argument vectors

`buildargv` of `argv.c` splits a string into arguments.  White space ends an argument
outside quotes; quotes and backslashes are taken off.  Before an argument only blanks and
tabs are skipped, after it all white space.  The strings are lists of bytes.
-/

namespace GccCil.Libiberty.Argv

def isBlank (c : UInt8) : Bool := c == 0x20 || c == 0x09

def isSpace (c : UInt8) : Bool := c == 0x20 || (0x09 ≤ c && c ≤ 0x0d)

/-- The characters `\`, `'` and `"`. -/
def backslash : UInt8 := 0x5c
def apostrophe : UInt8 := 0x27
def doubleQuote : UInt8 := 0x22

structure Flags where
  squote : Bool
  dquote : Bool
  bsquote : Bool
  deriving DecidableEq, Repr

def scanChar (flags : Flags) (c : UInt8) : List UInt8 × Flags :=
  if flags.bsquote then ([c], { flags with bsquote := false })
  else if c = backslash then ([], { flags with bsquote := true })
  else if flags.squote then
    if c = apostrophe then ([], { flags with squote := false }) else ([c], flags)
  else if flags.dquote then
    if c = doubleQuote then ([], { flags with dquote := false }) else ([c], flags)
  else if c = apostrophe then ([], { flags with squote := true })
  else if c = doubleQuote then ([], { flags with dquote := true })
  else ([c], flags)

def scanArg (flags : Flags) : List UInt8 → List UInt8 × Flags × List UInt8
  | [] => ([], flags, [])
  | c :: input =>
    if isSpace c && !flags.squote && !flags.dquote && !flags.bsquote then
      ([], flags, c :: input)
    else
      let (stored, flags) := scanChar flags c
      let (arg, flags, rest) := scanArg flags input
      (stored ++ arg, flags, rest)

def initialMaxargc : Nat := 8

/-- The loop of `buildargv`, for at most `rounds` arguments.  There is no result where a
store is outside the vector. -/
def buildargvLoop : Nat → List UInt8 → Flags → Nat → List (List UInt8) → Option (List (List UInt8))
  | 0, _, _, _, _ => none
  | rounds + 1, input, flags, maxargc, argv =>
    let input := input.dropWhile isBlank
    let argc := argv.length
    let maxargc :=
      if maxargc = 0 ∨ argc ≥ maxargc - 1 then
        if maxargc = 0 then initialMaxargc else maxargc * 2
      else maxargc
    let (arg, flags, rest) := scanArg flags input
    -- The argument is stored at argc, the null pointer at argc + 1.
    if argc + 1 < maxargc then
      let argv := argv ++ [arg]
      let input := rest.dropWhile isSpace
      if input ≠ [] then buildargvLoop rounds input flags maxargc argv else some argv
    else none

def buildargv (input : List UInt8) : Option (List (List UInt8)) :=
  buildargvLoop (input.length + 1) input ⟨false, false, false⟩ 0 []

inductive Quoting where
  | plain | single | double
  deriving DecidableEq, Repr

/-- What a character of the input is: a separator, a quote or a backslash that is taken
off, or a character of a field. -/
inductive Mark where
  | separator | stripped
  | kept (c : UInt8)
  deriving DecidableEq, Repr

def marks : Quoting → Bool → List UInt8 → List Mark
  | _, _, [] => []
  | quoting, true, c :: input => .kept c :: marks quoting false input
  | quoting, false, c :: input =>
    if c = backslash then .stripped :: marks quoting true input
    else
      match quoting with
      | .plain =>
        if isSpace c then .separator :: marks .plain false input
        else if c = apostrophe then .stripped :: marks .single false input
        else if c = doubleQuote then .stripped :: marks .double false input
        else .kept c :: marks .plain false input
      | .single =>
        if c = apostrophe then .stripped :: marks .plain false input
        else .kept c :: marks .single false input
      | .double =>
        if c = doubleQuote then .stripped :: marks .plain false input
        else .kept c :: marks .double false input

def Mark.isSeparator : Mark → Bool
  | .separator => true
  | .stripped | .kept _ => false

def Mark.content : Mark → Option UInt8
  | .kept c => some c
  | .separator | .stripped => none

/-- The fields of an input, as the documentation describes them. -/
def fieldsOf (input : List UInt8) : List (List UInt8) :=
  (Lib.fields Mark.isSeparator (marks .plain false input)).map (List.filterMap Mark.content)

/-- The documented vector: an input without a field gives one empty argument. -/
def documented (input : List UInt8) : List (List UInt8) :=
  if fieldsOf input = [] then [[]] else fieldsOf input

def quote (word : List UInt8) : List UInt8 :=
  if word = [] then [apostrophe, apostrophe] else word.flatMap fun c => [backslash, c]

def joined (words : List (List UInt8)) : List UInt8 :=
  [0x20].intercalate (words.map quote)

end GccCil.Libiberty.Argv
