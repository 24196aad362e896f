import GccCil.Lib.MakeRule

/-!
# Dependencies

The lists of targets and dependencies of `mkdeps.c`.  File names are quoted for
`make` when they are added, and the dependencies can be saved to a file.
-/

namespace GccCil.Libcpp.Mkdeps

open GccCil.Lib MakeRule

/-- The largest value of an `int`. -/
abbrev intMax : Nat := 2147483647

/-- The number of values of an `unsigned int`. -/
abbrev uintSize : Nat := 4294967296

/-- The loops of `munge` over the backslashes right before a character, the last one first. -/
def backslashesBefore (before : List UInt8) : Nat := (before.takeWhile (· == backslash)).length

/-- The first loop of `munge`, which counts the characters of the result. -/
def mungeLength (before : List UInt8) (len : Nat) : List UInt8 → Nat
  | [] => len
  | c :: rest =>
    let len :=
      if c = space ∨ c = tab then len + backslashesBefore before + 1
      else if c = dollar then len + 1
      else len
    mungeLength (c :: before) (len + 1) rest

def store (size : Nat) (dst chars : List UInt8) : Option (List UInt8) :=
  if dst.length + chars.length ≤ size then some (dst ++ chars) else none

/-- The switch of the second loop of `munge`. -/
def storeQuotes (size : Nat) (before dst : List UInt8) (c : UInt8) : Option (List UInt8) :=
  if c = space ∨ c = tab then do
    let dst ← store size dst (List.replicate (backslashesBefore before) backslash)
    store size dst [backslash]
  else if c = dollar then store size dst [dollar]
  else some dst

/-- The second loop of `munge`, which writes the result to a buffer. -/
def mungeLoop (size : Nat) (before dst : List UInt8) : List UInt8 → Option (List UInt8)
  | [] => do
      let _ ← store size dst [0]
      return dst
  | c :: rest => do
      let dst ← storeQuotes size before dst c
      let dst ← store size dst [c]
      mungeLoop size (c :: before) dst rest

/-- `munge`.  There is no result where an `int` overflows. -/
def munge (filename : List UInt8) : Option (List UInt8) :=
  let len := mungeLength [] 0 filename
  if len + 1 ≤ intMax then mungeLoop (len + 1) [] [] filename else none

/-- `IS_DIR_SEPARATOR`, on hosts with or without file systems of DOS. -/
def isDirSeparator (dos : Bool) (c : UInt8) : Bool := c == 0x2f || (dos && c == backslash)

def charAt (s : List UInt8) (i : Nat) : UInt8 := s.getD i 0

/-- The character `.`. -/
def dot : UInt8 := 0x2e

/-- The loop of `apply_vpath` that removes each leading `./`. -/
def removeDots (dos : Bool) : List UInt8 → List UInt8
  | c :: d :: rest => if c = dot ∧ isDirSeparator dos d then removeDots dos rest else c :: d :: rest
  | t => t

/-- The test of `apply_vpath` for one of the partial path names. -/
def vpathMatches (dos : Bool) (vpath t : List UInt8) : Bool :=
  let p := t.drop vpath.length
  vpath.isPrefixOf t && isDirSeparator dos (charAt p 0) &&
    !(charAt p 1 == dot && charAt p 2 == dot && isDirSeparator dos (charAt p 3))

def applyVpath (dos : Bool) (vpathv : List (List UInt8)) (t : List UInt8) : List UInt8 :=
  let t :=
    match vpathv.find? fun vpath => vpathMatches dos vpath t with
    | some vpath => t.drop (vpath.length + 1)
    | none => t
  removeDots dos t

/-- `struct deps`; the numbers of targets, dependencies and partial path names are the lengths
of the lists. -/
structure Deps where
  targetv : List (List UInt8)
  targetsSize : Nat
  depv : List (List UInt8)
  depsSize : Nat
  vpathv : List (List UInt8)
  deriving DecidableEq

def depsInit : Deps := ⟨[], 0, [], 0, []⟩

/-- The size of an array with room for one more pointer.  There is no result where the size
overflows and the pointer is stored outside. -/
def makeRoom (more size used : Nat) : Option Nat :=
  let size := if used = size then (size * 2 + more) % uintSize else size
  if used < size then some size else none

def depsAddDep (dos : Bool) (d : Deps) (t : List UInt8) : Option Deps := do
  let t ← munge (applyVpath dos d.vpathv t)
  let depsSize ← makeRoom 8 d.depsSize d.depv.length
  return { d with depv := d.depv ++ [t], depsSize := depsSize }

/-- The column after a number of characters, an `unsigned int`. -/
def advance (column size : Nat) : Nat := (column + size) % uintSize

/-- The loops of `deps_write`, from the name with the index `i` on: what they write, and the
column after it. -/
def writeNames (colmax i column : Nat) : List (List UInt8) → List UInt8 × Nat
  | [] => ([], column)
  | name :: rest =>
    let size := name.length % uintSize
    let column := advance column size
    let folds := colmax ≠ 0 ∧ colmax < column
    let column := if folds then advance 1 size else column
    let column := if i ≠ 0 then advance column 1 else column
    let (written, column) := writeNames colmax (i + 1) column rest
    ((if folds then [space, backslash, newline, space] else []) ++
      ((if i ≠ 0 then [space] else []) ++ (name ++ written)), column)

def depsWrite (d : Deps) (colmax : Nat) : List UInt8 :=
  let colmax := if colmax ≠ 0 ∧ colmax < 34 then 34 else colmax
  let (targets, column) := writeNames colmax 0 0 d.targetv
  let (deps, _) := writeNames colmax 0 (advance column 2) d.depv
  targets ++ (colonSign :: space :: (deps ++ [newline]))

end GccCil.Libcpp.Mkdeps
