import Mathlib.Data.List.Basic
import GccCil.Lib.TwosComplement

/-!
# Line maps

The line maps of `line-map.c`.  A map gives a run of source locations the file and
the lines that they stand for, and the map that its file was included from.  The
maps are an array that only grows; the element after the last one has not been
filled in, and what it holds is a parameter of a call.
-/

namespace GccCil.Libcpp.SourceLocations

open GccCil.Lib

/-- `enum lc_reason`. -/
inductive LcReason where
  | enter | leave | rename
  deriving DecidableEq, Repr

/-- `struct line_map`. -/
structure LineMap where
  toFile : Option String
  toLine : Nat
  startLocation : Nat
  includedFrom : Int
  reason : LcReason
  sysp : Nat
  columnBits : Nat
  deriving DecidableEq, Repr

/-- `struct line_maps`; `maps` are the elements that are used. -/
structure LineMaps where
  maps : List LineMap
  cache : Nat
  depth : Nat
  highestLocation : Nat
  highestLine : Nat
  maxColumnHint : Nat
  deriving DecidableEq, Repr

def linemapInit : LineMaps where
  maps := []
  cache := 0
  depth := 0
  highestLocation := 0
  highestLine := 0
  maxColumnHint := 0

/-- A sum and a difference of `unsigned int`. -/
def addUnsigned (x y : Nat) : Nat := (x + y) % 2 ^ 32

def subUnsigned (x y : Nat) : Nat := (x + 2 ^ 32 - y) % 2 ^ 32

namespace LineMap

/-- `MAIN_FILE_P`. -/
def isMainFile (map : LineMap) : Bool := decide (map.includedFrom < 0)

def sourceLine (map : LineMap) (line : Nat) : Nat :=
  addUnsigned (subUnsigned line map.startLocation >>> map.columnBits) map.toLine

end LineMap

/-- An element of the array; one that is not used holds `junk`. -/
def LineMaps.element (set : LineMaps) (junk : LineMap) (i : Nat) : LineMap :=
  set.maps.getD i junk

/-- The index of `INCLUDED_FROM`. -/
def LineMap.includer (map : LineMap) : Nat := map.includedFrom.toNat

/-- What `linemap_add` is asked for. -/
structure Request where
  reason : LcReason
  sysp : Nat
  toFile : Option String
  toLine : Nat
  deriving DecidableEq, Repr

/-- A set that a call leaves, the index of the map that it returns, and the indices of the
elements that it reads. -/
structure Added where
  set : LineMaps
  returned : Option Nat
  reads : List Nat

/-- The end of `linemap_add`, which fills in the next map. -/
def fillIn (set : LineMaps) (junk : LineMap) (startLocation : Nat) (request : Request)
    (reads : List Nat) : Added :=
  let used := set.maps.length
  let previous := set.element junk (used - 1)
  let included := set.element junk previous.includer
  let filled (includedFrom : Int) (depth : Nat) (reads : List Nat) : Added :=
    { set :=
        { maps := set.maps ++
            [{ toFile := request.toFile, toLine := request.toLine, startLocation := startLocation
               includedFrom := includedFrom, reason := request.reason
               sysp := request.sysp % 2 ^ 8, columnBits := 0 }]
          cache := used
          depth := depth
          highestLocation := startLocation
          highestLine := startLocation
          maxColumnHint := 0 }
      returned := some used
      reads := reads }
  match request.reason with
  | .enter =>
    filled (if set.depth = 0 then -1 else wrap false 32 (used - 1 : Nat)) (set.depth + 1) reads
  | .rename => filled previous.includedFrom set.depth (reads ++ [used - 1])
  | .leave =>
    filled included.includedFrom (set.depth - 1) (reads ++ [used - 1, previous.includer])

/-- The natural values of a request, those of the map `from`. -/
def naturalValues (set : LineMaps) (junk : LineMap) (source : Nat) (reason : LcReason) : Request :=
  let map := set.element junk source
  let next := set.element junk (source + 1)
  { reason := reason, sysp := map.sysp, toFile := map.toFile
    toLine := map.sourceLine next.startLocation }

/-- `linemap_add`.  There is no result where the function aborts, or where `strcmp` is
called with a null pointer. -/
def linemapAdd (set : LineMaps) (junk : LineMap) (request : Request) : Option Added :=
  let used := set.maps.length
  let startLocation := addUnsigned set.highestLocation 1
  let previous := set.element junk (used - 1)
  if used ≠ 0 ∧ startLocation < previous.startLocation then none
  else
    let reads := if used ≠ 0 then [used - 1] else []
    let toFile := if request.toFile = some "" then some "<stdin>" else request.toFile
    let request := { request with toFile := toFile }
    -- If we don't keep our line maps consistent, we can easily segfault.
    if set.depth = 0 then
      some (fillIn set junk startLocation { request with reason := .enter } reads)
    else
      match request.reason with
      | .enter | .rename => some (fillIn set junk startLocation request reads)
      | .leave =>
        let reads := reads ++ [used - 1]
        if previous.isMainFile then
          match toFile with
          | none =>
            some { set := { set with depth := set.depth - 1 }, returned := none, reads := reads }
          | some _ =>
            some (fillIn set junk startLocation (naturalValues set junk (used - 1) .rename)
              (reads ++ [used - 1, used]))
        else
          let source := previous.includer
          let natural := some (fillIn set junk startLocation
            (naturalValues set junk source .leave) (reads ++ [source, source + 1]))
          match toFile with
          | none => natural
          | some name =>
            match (set.element junk source).toFile with
            | none => none
            | some left =>
              if left ≠ name then natural
              else some (fillIn set junk startLocation request (reads ++ [source]))

def lastSourceLine (set : LineMaps) (junk : LineMap) (i : Nat) : Nat :=
  let map := set.element junk i
  let next := set.element junk (i + 1)
  let last := subUnsigned (subUnsigned next.startLocation 1) map.startLocation
  map.sourceLine (addUnsigned (last - last % 2 ^ map.columnBits) map.startLocation)

/-- The files and the lines that `linemap_print_containing_files` prints for a map that
is not of the main file, in at most `fuel` rounds. -/
def containingFiles (set : LineMaps) (junk : LineMap) : Nat → LineMap →
    Option (List (Option String × Nat))
  | 0, _ => none
  | fuel + 1, map =>
    let source := set.element junk map.includer
    let line := (source.toFile, lastSourceLine set junk map.includer)
    if source.isMainFile then some [line]
    else (containingFiles set junk fuel source).map fun lines => line :: lines

end GccCil.Libcpp.SourceLocations
