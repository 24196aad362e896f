import GccCil.Libcpp.DependencyRules
import GccCil.Libiberty.VersionCompare

/-!
# Saved dependencies

`deps_save` writes the stored names with their lengths to a file, and
`deps_restore` adds the names of such a file.  It adds them as `deps_add_dep`
does, which quotes them again.
-/

namespace GccCil.Libcpp.Mkdeps

open GccCil.Lib MakeRule
open GccCil.Libiberty.VersionCompare (CString)

def objectBytes : Nat → Nat → List UInt8
  | 0, _ => []
  | size + 1, n => UInt8.ofNat (n % 256) :: objectBytes size (n / 256)

def objectValue : List UInt8 → Nat
  | [] => 0
  | byte :: rest => byte.toNat + 256 * objectValue rest

/-- `fwrite` of one item: the number of items, and the file.  There is no item without bytes. -/
def fwrite (item file : List UInt8) : Nat × List UInt8 :=
  (if item.length = 0 then 0 else 1, file ++ item)

/-- `fread` of single bytes: what is read, and the rest of the file. -/
def fread (count : Nat) (fd : List UInt8) : List UInt8 × List UInt8 :=
  (fd.take count, fd.drop count)

/-- The loop of `deps_save`: the result, and the file. -/
def saveNames (f : List UInt8) : List (List UInt8) → Int × List UInt8
  | [] => (0, f)
  | name :: rest =>
    let numToWrite := name.length
    let (items, f) := fwrite (objectBytes 8 numToWrite) f
    if items ≠ 1 then (-1, f)
    else
      let (items, f) := fwrite name f
      if items ≠ 1 then (-1, f) else saveNames f rest

/-- `deps_save`: the result, and the file. -/
def depsSave (deps : Deps) : Int × List UInt8 :=
  let (items, f) := fwrite (objectBytes 4 deps.depv.length) []
  if items ≠ 1 then (-1, f) else saveNames f deps.depv

def restoreName (dos : Bool) (self : Option (List UInt8)) (deps : Deps) (buf : List UInt8) :
    Option Deps :=
  match self with
  | some self => if buf ≠ self then depsAddDep dos deps buf else some deps
  | none => some deps

/-- The loop of `deps_restore`: the result, and the dependencies. -/
def restoreNames (dos : Bool) (self : Option (List UInt8)) :
    Nat → Deps → List UInt8 → Option (Int × Deps)
  | 0, deps, _ => some (0, deps)
  | count + 1, deps, fd =>
    let (read, fd) := fread 8 fd
    if read.length ≠ 8 then some (-1, deps)
    else
      let numToRead := objectValue read
      let (read, fd) := fread numToRead fd
      if read.length ≠ numToRead then some (-1, deps)
      else
        let buf := read.takeWhile fun c => c != 0
        (restoreName dos self deps buf).bind fun deps => restoreNames dos self count deps fd

/-- `deps_restore`: the result, and the dependencies. -/
def depsRestore (dos : Bool) (deps : Deps) (fd : List UInt8) (self : Option (List UInt8)) :
    Option (Int × Deps) :=
  let (read, fd) := fread 4 fd
  if read.length ≠ 4 then some (-1, deps)
  else restoreNames dos self (objectValue read) deps fd

/-- Calls of `deps_add_dep`. -/
def addDeps (dos : Bool) (d : Deps) (names : List (List UInt8)) : Option Deps :=
  names.foldlM (depsAddDep dos) d

theorem objectBytes_length (size n : Nat) : (objectBytes size n).length = size := by
  induction size generalizing n with
  | zero => rfl
  | succ size ih => rw [objectBytes, List.length_cons, ih]

theorem objectValue_objectBytes {size n : Nat} (small : n < 256 ^ size) :
    objectValue (objectBytes size n) = n := by
  induction size generalizing n with
  | zero => exact (Nat.lt_one_iff.mp small).symm
  | succ size ih =>
    have high : n / 256 < 256 ^ size := by
      rw [Nat.pow_succ] at small
      exact Nat.div_lt_of_lt_mul (by rwa [Nat.mul_comm])
    rw [objectBytes, objectValue, ih high, UInt8.toNat_ofNat']
    omega

theorem fread_append {bytes rest : List UInt8} {count : Nat} (length : bytes.length = count) :
    fread count (bytes ++ rest) = (bytes, rest) := by
  rw [fread, List.take_left' length, List.drop_left' length]

def entries (names : List (List UInt8)) : List UInt8 :=
  names.flatMap fun name => objectBytes 8 name.length ++ name

theorem saveNames_spec (f : List UInt8) (names : List (List UInt8)) :
    ((saveNames f names).1 = 0 ↔ ∀ name ∈ names, name ≠ []) ∧
      ((∀ name ∈ names, name ≠ []) → (saveNames f names).2 = f ++ entries names) := by
  induction names generalizing f with
  | nil => simp [saveNames, entries]
  | cons name rest ih =>
    have saved : saveNames f (name :: rest) =
        if name = [] then (-1, f ++ objectBytes 8 name.length ++ name)
        else saveNames (f ++ objectBytes 8 name.length ++ name) rest := by
      have length : fwrite (objectBytes 8 name.length) f =
          (1, f ++ objectBytes 8 name.length) := by
        rw [fwrite, objectBytes_length]
        rfl
      rw [saveNames, length]
      cases name with
      | nil => rfl
      | cons c name => rfl
    rw [saved]
    by_cases empty : name = []
    · rw [if_pos empty]
      constructor
      · constructor
        · exact fun zero => absurd (show (-1 : Int) = 0 from zero) (by decide)
        · exact fun all => absurd empty (all name List.mem_cons_self)
      · exact fun all => absurd empty (all name List.mem_cons_self)
    · rw [if_neg empty]
      obtain ⟨result, file⟩ := ih (f ++ objectBytes 8 name.length ++ name)
      constructor
      · rw [result, List.forall_mem_cons, and_iff_right empty]
      · intro all
        rw [file (List.forall_mem_cons.mp all).2, entries, entries, List.flatMap_cons]
        simp only [List.append_assoc]

theorem depsSave_spec (d : Deps) :
    ((depsSave d).1 = 0 ↔ ∀ name ∈ d.depv, name ≠ []) ∧
      ((∀ name ∈ d.depv, name ≠ []) →
        (depsSave d).2 = objectBytes 4 d.depv.length ++ entries d.depv) := by
  have all := saveNames_spec (objectBytes 4 d.depv.length) d.depv
  rw [depsSave, fwrite, objectBytes_length]
  exact all

theorem restoreNames_entries (dos : Bool) (self : List UInt8) {names : List (List UInt8)}
    (short : ∀ name ∈ names, name.length < 256 ^ 8) (noNul : ∀ name ∈ names, 0 ∉ name)
    (deps : Deps) :
    restoreNames dos (some self) names.length deps (entries names) =
      (addDeps dos deps (names.filter (· ≠ self))).map fun deps => (0, deps) := by
  induction names generalizing deps with
  | nil => rfl
  | cons name rest ih =>
    have whole : name.takeWhile (fun c => c != 0) = name := by
      apply List.takeWhile_eq_self_iff.mpr
      intro c member
      apply bne_iff_ne.mpr
      rintro rfl
      exact noNul name List.mem_cons_self member
    have value := objectValue_objectBytes (short name List.mem_cons_self)
    have next := ih
      (fun other member => short other (List.mem_cons_of_mem name member))
      (fun other member => noNul other (List.mem_cons_of_mem name member))
    rw [List.length_cons, restoreNames, entries, List.flatMap_cons, List.append_assoc,
      fread_append (objectBytes_length 8 name.length)]
    dsimp only
    rw [if_neg (not_not.mpr (objectBytes_length 8 name.length)), value, fread_append rfl]
    rw [if_neg (not_not.mpr rfl), whole, restoreName, ← entries]
    dsimp only
    by_cases skipped : name = self
    · rw [if_neg (not_not.mpr skipped), Option.bind_some, next,
        List.filter_cons_of_neg (by simpa using skipped)]
    · rw [if_pos skipped, List.filter_cons_of_pos (by simpa using skipped), addDeps,
        List.foldlM_cons, Option.bind_eq_bind, Option.map_bind]
      exact congrArg (depsAddDep dos deps name).bind (funext next)

/-- `makeRoom` for a number of pointers. -/
def makeRooms (more size used : Nat) : Nat → Option Nat
  | 0 => some size
  | count + 1 => (makeRoom more size used).bind fun size => makeRooms more size (used + 1) count

theorem makeRooms_le {more size used count fewer : Nat} (fits : fewer ≤ count)
    (enough : (makeRooms more size used count).isSome) :
    (makeRooms more size used fewer).isSome := by
  induction count generalizing size used fewer with
  | zero => rwa [Nat.le_zero.mp fits]
  | succ count ih =>
    cases fewer with
    | zero => rfl
    | succ fewer =>
      rw [makeRooms] at enough ⊢
      cases grown : makeRoom more size used with
      | none =>
        rw [grown] at enough
        cases enough
      | some size' =>
        rw [grown] at enough
        exact ih (Nat.le_of_succ_le_succ fits) enough

theorem makeRoom_bounds {more size used size' : Nat} (below : size < uintSize)
    (grown : makeRoom more size used = some size') : used < size' ∧ size' < uintSize := by
  have small : (if used = size then (size * 2 + more) % uintSize else size) < uintSize := by
    split
    · exact Nat.mod_lt _ (by decide)
    · exact below
  rw [makeRoom] at grown
  generalize (if used = size then (size * 2 + more) % uintSize else size) = larger at small grown
  by_cases room : used < larger
  · rw [if_pos room, Option.some.injEq] at grown
    rw [← grown]
    exact ⟨room, small⟩
  · rw [if_neg room] at grown
    cases grown

theorem makeRooms_lt {more size used count size' : Nat} (below : size < uintSize)
    (inside : used ≤ size) (grown : makeRooms more size used count = some size') :
    used + count < uintSize := by
  induction count generalizing size used with
  | zero => omega
  | succ count ih =>
    rw [makeRooms, Option.bind_eq_some_iff] at grown
    obtain ⟨middle, first, rest⟩ := grown
    obtain ⟨room, small⟩ := makeRoom_bounds below first
    have all := ih small room rest
    omega

theorem depsAddDep_eq_some_iff {dos : Bool} {d d' : Deps} (noVpath : d.vpathv = [])
    {t : List UInt8} :
    depsAddDep dos d t = some d' ↔
      ∃ added size, munge (removeDots dos t) = some added ∧
        makeRoom 8 d.depsSize d.depv.length = some size ∧
        d' = { d with depv := d.depv ++ [added], depsSize := size } := by
  have stripped : applyVpath dos d.vpathv t = removeDots dos t := by
    rw [noVpath]
    rfl
  rw [depsAddDep, stripped, Option.bind_eq_bind, Option.bind_eq_some_iff]
  change (∃ added, munge (removeDots dos t) = some added ∧
    ((makeRoom 8 d.depsSize d.depv.length).bind fun depsSize =>
      some { d with depv := d.depv ++ [added], depsSize := depsSize }) = some d') ↔ _
  constructor
  · rintro ⟨added, munged, rest⟩
    obtain ⟨size, room, same⟩ := Option.bind_eq_some_iff.mp rest
    exact ⟨added, size, munged, room, (Option.some.inj same).symm⟩
  · rintro ⟨added, size, munged, room, rfl⟩
    exact ⟨added, munged, Option.bind_eq_some_iff.mpr ⟨size, room, rfl⟩⟩

theorem addDeps_eq_some_iff {dos : Bool} {d d' : Deps} (noVpath : d.vpathv = [])
    {names : List (List UInt8)} :
    addDeps dos d names = some d' ↔
      ∃ added size, (names.mapM fun t => munge (removeDots dos t)) = some added ∧
        makeRooms 8 d.depsSize d.depv.length names.length = some size ∧
        d' = { d with depv := d.depv ++ added, depsSize := size } := by
  induction names generalizing d with
  | nil =>
    constructor
    · intro same
      refine ⟨[], d.depsSize, rfl, rfl, ?_⟩
      rw [List.append_nil]
      exact (Option.some.inj same).symm
    · rintro ⟨added, size, none, same, rfl⟩
      have empty : [] = added := Option.some.inj none
      rw [← empty, ← Option.some.inj same, List.append_nil]
      rfl
  | cons t rest ih =>
    rw [addDeps, List.foldlM_cons, Option.bind_eq_bind, Option.bind_eq_some_iff,
      List.mapM_cons, List.length_cons, makeRooms]
    constructor
    · rintro ⟨middle, first, others⟩
      obtain ⟨added, size, munged, room, rfl⟩ := (depsAddDep_eq_some_iff noVpath).mp first
      obtain ⟨more, size', mungedRest, rooms, rfl⟩ :=
        (@ih { d with depv := d.depv ++ [added], depsSize := size }
          noVpath).mp others
      refine ⟨added :: more, size', ?_, ?_, ?_⟩
      · rw [munged, mungedRest]
        rfl
      · rw [List.length_append] at rooms
        rw [room]
        exact rooms
      · rw [List.append_assoc]
        rfl
    · rintro ⟨all, size', munged, rooms, rfl⟩
      obtain ⟨size, room, rooms⟩ := Option.bind_eq_some_iff.mp rooms
      obtain ⟨added, mungedFirst, others⟩ := Option.bind_eq_some_iff.mp munged
      obtain ⟨more, mungedRest, same⟩ := Option.bind_eq_some_iff.mp others
      obtain rfl : added :: more = all := Option.some.inj same
      refine ⟨{ d with depv := d.depv ++ [added], depsSize := size },
        (depsAddDep_eq_some_iff noVpath).mpr ⟨added, size, mungedFirst, room, rfl⟩, ?_⟩
      refine (@ih { d with depv := d.depv ++ [added], depsSize := size }
        noVpath).mpr ⟨more, size', mungedRest, ?_, ?_⟩
      · rw [List.length_append]
        exact rooms
      · rw [List.append_assoc]
        rfl

/-- A name that `munge` keeps as it is. -/
def Plain (name : List UInt8) : Prop := ∀ c ∈ name, ¬ IsBlank c ∧ c ≠ dollar

theorem quotingCharacters_eq_zero_iff (n : Nat) (name : List UInt8) :
    quotingCharacters n name = 0 ↔ Plain name := by
  induction name generalizing n with
  | nil => exact iff_of_true rfl fun c member => absurd member List.not_mem_nil
  | cons c rest ih =>
    rw [quotingCharacters, Nat.add_eq_zero_iff, ih, Plain, Plain,
      List.forall_mem_cons]
    refine and_congr_left fun _ => ?_
    by_cases blank : IsBlank c
    · rw [if_pos blank]
      exact iff_of_false (Nat.succ_ne_zero n) fun plain => plain.1 blank
    · rw [if_neg blank, and_iff_right blank]
      by_cases isDollar : c = dollar
      · rw [if_pos isDollar]
        exact iff_of_false Nat.one_ne_zero fun other => other isDollar
      · rw [if_neg isDollar]
        exact iff_of_true rfl isDollar

theorem quote_of_plain (n : Nat) {name : List UInt8} (plain : Plain name) :
    quote n name = name := by
  induction name generalizing n with
  | nil => rfl
  | cons c rest ih =>
    obtain ⟨⟨notBlank, notDollar⟩, plainRest⟩ := List.forall_mem_cons.mp plain
    rw [quote, quotes, if_neg notBlank, if_neg notDollar, ih _ plainRest,
      List.nil_append]

theorem mem_quote_of_mem {n : Nat} {name : List UInt8} {c : UInt8} (member : c ∈ name) :
    c ∈ quote n name := by
  induction name generalizing n with
  | nil => exact absurd member List.not_mem_nil
  | cons d rest ih =>
    rw [quote]
    apply List.mem_append_right
    rcases List.mem_cons.mp member with rfl | later
    · exact List.mem_cons_self
    · exact List.mem_cons_of_mem d (ih later)

theorem mem_of_mem_quote {n : Nat} {name : List UInt8} {c : UInt8} (member : c ∈ quote n name) :
    c ∈ name ∨ c = backslash ∨ c = dollar := by
  induction name generalizing n with
  | nil => exact absurd member List.not_mem_nil
  | cons d rest ih =>
    rw [quote] at member
    rcases List.mem_append.mp member with inQuotes | inRest
    · rw [quotes] at inQuotes
      split at inQuotes
      · exact Or.inr (Or.inl (List.eq_of_mem_replicate inQuotes))
      · split at inQuotes
        · exact Or.inr (Or.inr (List.mem_singleton.mp inQuotes))
        · exact absurd inQuotes List.not_mem_nil
    · rcases List.mem_cons.mp inRest with rfl | later
      · exact Or.inl List.mem_cons_self
      · exact (ih later).imp_left (List.mem_cons_of_mem d)

theorem removeDots_suffix (dos : Bool) (t : List UInt8) : removeDots dos t <:+ t := by
  fun_induction removeDots dos t with
  | case1 c d rest _ ih =>
    exact ih.trans ((List.suffix_cons d rest).trans (List.suffix_cons c _))
  | case2 c d rest _ => exact List.suffix_refl _
  | case3 t _ => exact List.suffix_refl _

theorem removeDots_removeDots (dos : Bool) (t : List UInt8) :
    removeDots dos (removeDots dos t) = removeDots dos t := by
  fun_induction removeDots dos t with
  | case1 c d rest _ ih => exact ih
  | case2 c d rest other => rw [removeDots, if_neg other]
  | case3 t short =>
    cases t with
    | nil => rfl
    | cons c t =>
      cases t with
      | nil => rfl
      | cons d rest => exact absurd rfl (short c d rest)

theorem removeDots_of_ne {dos : Bool} {c : UInt8} (other : c ≠ dot) (rest : List UInt8) :
    removeDots dos (c :: rest) = c :: rest := by
  cases rest with
  | nil => rfl
  | cons d rest => rw [removeDots, if_neg fun both => other both.1]

theorem removeDots_of_not_separator {dos : Bool} {d : UInt8} (other : isDirSeparator dos d = false)
    (rest : List UInt8) : removeDots dos (dot :: d :: rest) = dot :: d :: rest := by
  rw [removeDots, if_neg]
  rintro ⟨-, separator⟩
  exact Bool.false_ne_true (other.symm.trans separator)

theorem isDirSeparator_of_stripped {dos : Bool} {d : UInt8} {rest : List UInt8}
    (stripped : removeDots dos (dot :: d :: rest) = dot :: d :: rest) :
    isDirSeparator dos d = false := by
  by_contra separator
  rw [removeDots, if_pos ⟨rfl, by simpa using separator⟩] at stripped
  have shorter := (removeDots_suffix dos rest).length_le
  rw [stripped, List.length_cons, List.length_cons] at shorter
  omega

/-- A stored name that begins like one with `./` has a quoted blank behind the dot, and is not
restored. -/
theorem quote_removeDots_ne {dos : Bool} {t : List UInt8} (stripped : removeDots dos t = t)
    (changed : removeDots dos (quote 0 t) ≠ quote 0 t) :
    quote 0 (removeDots dos (quote 0 t)) ≠ quote 0 t := by
  cases t with
  | nil => exact absurd rfl changed
  | cons c rest =>
    by_cases isDot : c = dot
    · subst isDot
      have first : ∀ rest, quote 0 (dot :: rest) = dot :: quote 0 rest := fun _ => rfl
      rw [first] at changed ⊢
      cases rest with
      | nil => exact absurd rfl changed
      | cons d rest =>
        have notSeparator := isDirSeparator_of_stripped stripped
        by_cases blank : IsBlank d
        · have notDot : d ≠ dot := by
            rcases blank with rfl | rfl <;> decide
          have second : ∀ rest, ∃ rest', quote 0 (d :: rest) = backslash :: d :: rest' := by
            intro rest
            rw [quote, quotes, if_pos blank]
            exact ⟨_, rfl⟩
          obtain ⟨rest', quoted⟩ := second rest
          rw [quoted] at changed ⊢
          cases separator : isDirSeparator dos backslash with
          | false => exact absurd (removeDots_of_not_separator separator _) changed
          | true =>
            rw [removeDots, if_pos ⟨rfl, separator⟩, removeDots_of_ne notDot]
            obtain ⟨rest'', again⟩ := second rest'
            rw [again]
            exact fun same => absurd (List.cons.inj same).1 (by decide)
        · rw [quote, quotes, if_neg blank] at changed
          by_cases isDollar : d = dollar
          · rw [if_pos isDollar] at changed
            have other : isDirSeparator dos dollar = false := by
              cases dos <;> rfl
            exact absurd (removeDots_of_not_separator other _) changed
          · rw [if_neg isDollar] at changed
            exact absurd (removeDots_of_not_separator notSeparator _) changed
    · refine absurd ?_ changed
      rw [quote, quotes]
      split
      · exact removeDots_of_ne (by decide) _
      · split
        · exact removeDots_of_ne (by decide) _
        · exact removeDots_of_ne isDot _

theorem munge_stored_iff {dos : Bool} {t name : List UInt8}
    (stored : munge (removeDots dos t) = some name) :
    munge (removeDots dos name) = some name ↔ Plain name := by
  rw [munge_eq] at stored
  split at stored
  · next short =>
      have stripped := removeDots_removeDots dos t
      rw [Option.some.injEq] at stored
      constructor
      · intro again
        rw [munge_eq] at again
        split at again
        · rw [Option.some.injEq] at again
          by_cases changed : removeDots dos name = name
          · rw [changed] at again
            have same := congrArg List.length again
            rw [quote_length] at same
            exact (quotingCharacters_eq_zero_iff 0 name).mp (by omega)
          · rw [← stored] at again changed
            exact absurd again (quote_removeDots_ne stripped changed)
        · cases again
      · intro plain
        have plainStripped : Plain (removeDots dos t) := fun c member =>
          plain c (stored ▸ mem_quote_of_mem member)
        rw [quote_of_plain 0 plainStripped] at stored
        rw [← stored, stripped, munge_eq, if_pos short, quote_of_plain 0 plainStripped]
  · cases stored

section Maps

variable {α β : Type} {f : α → Option β} {l : List α}

theorem mapM_spec {l' : List β} (mapped : l.mapM f = some l') :
    l'.length = l.length ∧ ∀ y ∈ l', ∃ x ∈ l, f x = some y := by
  induction l generalizing l' with
  | nil =>
    obtain rfl : [] = l' := Option.some.inj mapped
    exact ⟨rfl, fun y member => absurd member List.not_mem_nil⟩
  | cons x rest ih =>
    rw [List.mapM_cons] at mapped
    obtain ⟨y, first, others⟩ := Option.bind_eq_some_iff.mp mapped
    obtain ⟨more, mappedRest, same⟩ := Option.bind_eq_some_iff.mp others
    obtain rfl : y :: more = l' := Option.some.inj same
    obtain ⟨length, all⟩ := ih mappedRest
    refine ⟨congrArg Nat.succ length, ?_⟩
    rw [List.forall_mem_cons]
    refine ⟨⟨x, List.mem_cons_self, first⟩, fun z member => ?_⟩
    obtain ⟨w, inRest, result⟩ := all z member
    exact ⟨w, List.mem_cons_of_mem x inRest, result⟩

theorem mapM_eq_self_iff {f : α → Option α} :
    l.mapM f = some l ↔ ∀ x ∈ l, f x = some x := by
  induction l with
  | nil => exact iff_of_true rfl fun x member => absurd member List.not_mem_nil
  | cons x rest ih =>
    rw [List.mapM_cons, List.forall_mem_cons, ← ih]
    constructor
    · intro mapped
      obtain ⟨y, first, others⟩ := Option.bind_eq_some_iff.mp mapped
      obtain ⟨more, mappedRest, same⟩ := Option.bind_eq_some_iff.mp others
      obtain ⟨rfl, rfl⟩ := List.cons.inj (Option.some.inj same)
      exact ⟨first, mappedRest⟩
    · rintro ⟨first, mappedRest⟩
      rw [first, mappedRest]
      rfl

end Maps

theorem quote_noNul {t : List UInt8} (noNul : 0 ∉ t) (n : Nat) : 0 ∉ quote n t := by
  intro member
  rcases mem_of_mem_quote member with inName | zero | zero
  · exact noNul inName
  · exact absurd zero (by decide)
  · exact absurd zero (by decide)

/-- The file of some names gives the ones that are not skipped back if and only if nothing in
these is quoted. -/
theorem depsRestore_entries_iff {dos : Bool} {names added : List (List UInt8)} {size : Nat}
    (munged : (names.mapM fun t => munge (removeDots dos t)) = some added)
    (rooms : makeRooms 8 0 0 names.length = some size) (noNul : ∀ t ∈ names, 0 ∉ t)
    (self : List UInt8) :
    (∃ restored, depsRestore dos depsInit (objectBytes 4 added.length ++ entries added)
          (some self) = some (0, restored) ∧ restored.depv = added.filter (· ≠ self)) ↔
      ∀ name ∈ added, name = self ∨ Plain name := by
  obtain ⟨length, stored⟩ := mapM_spec munged
  have few : added.length < 256 ^ 4 := by
    have below : 0 + names.length < 4294967296 := makeRooms_lt (by decide) (Nat.le_refl 0) rooms
    rw [length]
    omega
  have fine : ∀ name ∈ added, name.length < 256 ^ 8 ∧ 0 ∉ name := by
    intro name member
    obtain ⟨t, inNames, result⟩ := stored name member
    rw [munge_eq] at result
    split at result
    · next short =>
        change _ < 2147483647 at short
        rw [← Option.some.inj result, quote_length]
        refine ⟨by omega, quote_noNul (fun zero => ?_) 0⟩
        exact noNul t inNames ((removeDots_suffix dos t).subset zero)
    · cases result
  have read : depsRestore dos depsInit (objectBytes 4 added.length ++ entries added) (some self) =
      (addDeps dos depsInit (added.filter (· ≠ self))).map fun deps => (0, deps) := by
    rw [depsRestore, fread_append (objectBytes_length 4 added.length)]
    dsimp only
    rw [if_neg (not_not.mpr (objectBytes_length 4 added.length)), objectValue_objectBytes few]
    exact restoreNames_entries dos self (fun name member => (fine name member).1)
      (fun name member => (fine name member).2) depsInit
  have enough : ∃ size', makeRooms 8 0 0 (added.filter (· ≠ self)).length = some size' := by
    apply Option.isSome_iff_exists.mp
    apply makeRooms_le ((List.length_filter_le _ added).trans length.le)
    rw [rooms]
    rfl
  rw [read]
  calc
    _ ↔ ((added.filter (· ≠ self)).mapM fun t => munge (removeDots dos t)) =
          some (added.filter (· ≠ self)) := by
      constructor
      · rintro ⟨restored, result, same⟩
        obtain ⟨deps, again, pair⟩ := Option.map_eq_some_iff.mp result
        obtain ⟨more, size', mungedAgain, -, rfl⟩ := (addDeps_eq_some_iff rfl).mp again
        rw [← (Prod.mk.inj pair).2] at same
        have all : more = added.filter (· ≠ self) := same
        rwa [all] at mungedAgain
      · intro mungedAgain
        obtain ⟨size', room⟩ := enough
        exact ⟨_, Option.map_eq_some_iff.mpr
          ⟨_, (addDeps_eq_some_iff rfl).mpr ⟨_, size', mungedAgain, room, rfl⟩, rfl⟩, rfl⟩
    _ ↔ ∀ name ∈ added.filter (· ≠ self), munge (removeDots dos name) = some name :=
      mapM_eq_self_iff
    _ ↔ ∀ name ∈ added, name = self ∨ Plain name := by
      constructor
      · intro all name member
        by_cases same : name = self
        · exact Or.inl same
        · obtain ⟨t, -, result⟩ := stored name member
          exact Or.inr ((munge_stored_iff result).mp
            (all name (List.mem_filter.mpr ⟨member, decide_eq_true same⟩)))
      · intro all name member
        obtain ⟨inAdded, other⟩ := List.mem_filter.mp member
        obtain ⟨t, -, result⟩ := stored name inAdded
        exact (munge_stored_iff result).mpr
          ((all name inAdded).resolve_left (of_decide_eq_true other))

theorem aHeader_noNul : 0 ∉ ([0x61, 0x2e, 0x68] : List UInt8) := by decide

theorem bHeader_noNul : 0 ∉ ([0x62, 0x2e, 0x68] : List UInt8) := by decide

/-- Saving succeeds and restoring gives the stored names back if and only if no stored name is
empty, and `munge` quotes nothing in those that are not skipped. -/
theorem depsRestore_depsSave_iff {dos : Bool} {names : List CString} {d : Deps}
    (added : addDeps dos depsInit (names.map CString.bytes) = some d) (self : CString) :
    ((depsSave d).1 = 0 ∧
        ∃ restored, depsRestore dos depsInit (depsSave d).2 (some self.bytes) =
            some (0, restored) ∧ restored.depv = d.depv.filter (· ≠ self.bytes)) ↔
      ∀ name ∈ d.depv, name ≠ [] ∧ (name = self.bytes ∨ Plain name) := by
  obtain ⟨saves, file⟩ := depsSave_spec d
  obtain ⟨stored, size, munged, rooms, same⟩ := (addDeps_eq_some_iff rfl).mp added
  have depv : d.depv = stored := by
    rw [same]
    rfl
  have noNul : ∀ t ∈ names.map CString.bytes, 0 ∉ t := by
    intro t member
    obtain ⟨name, -, rfl⟩ := List.mem_map.mp member
    exact name.noNul
  have restores := depsRestore_entries_iff munged rooms noNul self.bytes
  rw [forall₂_and, saves]
  refine and_congr_right fun nonempty => ?_
  rw [file nonempty, depv]
  exact restores

/-- The names `a.h` and `b.h`. -/
def aHeader : CString := ⟨[0x61, 0x2e, 0x68], aHeader_noNul⟩
def bHeader : CString := ⟨[0x62, 0x2e, 0x68], bHeader_noNul⟩

theorem addDeps_headers :
    addDeps false depsInit ([aHeader, bHeader].map CString.bytes) =
      some ⟨[], 0, [aHeader.bytes, bHeader.bytes], 8, []⟩ := by
  decide

theorem depsRestore_depsSave_iff_headers :
    ∃ d, addDeps false depsInit ([aHeader, bHeader].map CString.bytes) = some d ∧
      (((depsSave d).1 = 0 ∧
        ∃ restored, depsRestore false depsInit (depsSave d).2 (some bHeader.bytes) =
            some (0, restored) ∧ restored.depv = d.depv.filter (· ≠ bHeader.bytes)) ↔
      ∀ name ∈ d.depv, name ≠ [] ∧ (name = bHeader.bytes ∨ Plain name)) :=
  ⟨_, addDeps_headers, depsRestore_depsSave_iff addDeps_headers bHeader⟩

/-- The name `a$` is stored as `a$$` and restored as `a$$$$`, and the empty name that is stored for
`./` cannot be saved. -/
theorem depsRestore_depsSave_dollar :
    addDeps false depsInit [[0x61, 0x24]] = some ⟨[], 0, [[0x61, 0x24, 0x24]], 8, []⟩ ∧
      (depsSave ⟨[], 0, [[0x61, 0x24, 0x24]], 8, []⟩).1 = 0 ∧
      depsRestore false depsInit (depsSave ⟨[], 0, [[0x61, 0x24, 0x24]], 8, []⟩).2
        (some bHeader.bytes) =
        some (0, ⟨[], 0, [[0x61, 0x24, 0x24, 0x24, 0x24]], 8, []⟩) ∧
      addDeps false depsInit [[0x2e, 0x2f]] = some ⟨[], 0, [[]], 8, []⟩ ∧
      (depsSave ⟨[], 0, [[]], 8, []⟩).1 = -1 := by
  decide

end GccCil.Libcpp.Mkdeps
