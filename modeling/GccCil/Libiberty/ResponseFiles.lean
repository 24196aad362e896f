import GccCil.Lib.ListExpansion
import GccCil.Libiberty.ArgvFields

/-!
# Response files

`expandargv` of `argv.c` replaces each argument that names a response file by the
arguments that the file holds, and looks at those in turn.  It counts the arguments of a
file up to the first empty one, so that an empty argument in a file drops itself and the
arguments behind it.
-/

namespace GccCil.Libiberty.Argv

open GccCil.Lib

/-- The character `@`. -/
def atSign : UInt8 := 0x40

def vector (args : List (List UInt8)) : List (Option (List UInt8)) := args.map some ++ [none]

def cString (content : List UInt8) : List UInt8 := content.takeWhile fun c => c != 0

def dupargv (argv : List (Option (List UInt8))) : List (Option (List UInt8)) :=
  argv.takeWhile Option.isSome ++ [none]

/-- The loop of `expandargv` that counts the arguments of a file. -/
def fileArgc : List (Option (List UInt8)) → Nat
  | some (_ :: _) :: fileArgv => fileArgc fileArgv + 1
  | _ => 0

/-- The loop of `expandargv` in at most `fuel` rounds, for the files that can be read.
`argv_dynamic` is never set, so that the vector is copied for every file. -/
def expandargvLoop (files : List UInt8 → Option (List UInt8)) :
    Nat → Nat → Nat → List (Option (List UInt8)) → Option (Nat × List (Option (List UInt8)))
  | 0, _, _, _ => none
  | fuel + 1, i, argc, argv =>
    let i := i + 1
    if i < argc then
      match argv[i]? with
      | some (some filename) =>
        if filename.head? ≠ some atSign then expandargvLoop files fuel i argc argv
        else
          match files filename.tail with
          | none => expandargvLoop files fuel i argc argv
          | some content =>
            match buildargv (cString content) with
            | none => none
            | some args =>
              let fileArgv := vector args
              let argv := dupargv argv
              let count := fileArgc fileArgv
              let argv := argv.take i ++ fileArgv.take count ++
                (argv.drop (i + 1)).take (argc - i)
              -- Rescan all of the arguments just read.
              expandargvLoop files fuel (i - 1) (argc + count - 1) argv
      | _ => none
    else some (argc, argv)

/-- `expandargv`: the new `*argcp` and `*argvp`. -/
def expandargv (files : List UInt8 → Option (List UInt8)) (fuel argc : Nat)
    (argv : List (Option (List UInt8))) : Option (Nat × List (Option (List UInt8))) :=
  expandargvLoop files fuel 0 argc argv

section Files

variable (files : List UInt8 → Option (List UInt8))

def response : List UInt8 → Option (List UInt8)
  | [] => none
  | c :: name => if c = atSign then files name else none

def IsBlankFile (content : List UInt8) : Prop := ∀ c ∈ cString content, isSpace c = true

instance (content : List UInt8) : Decidable (IsBlankFile content) :=
  decidable_of_iff ((cString content).all isSpace = true) List.all_eq_true

/-- All the arguments that `buildargv` reads from a file. -/
def fileArguments (content : List UInt8) : List (List UInt8) :=
  if IsBlankFile content then [] else (buildargv (cString content)).getD []

def stands (arg : List UInt8) : Option (List (List UInt8)) :=
  (response files arg).map fileArguments

/-- The arguments that `expandargv` takes from a file. -/
def takenArguments (content : List UInt8) : List (List UInt8) :=
  ((buildargv (cString content)).getD []).takeWhile fun arg => !arg.isEmpty

def taken (arg : List UInt8) : Option (List (List UInt8)) :=
  (response files arg).map takenArguments

end Files

section Loop

variable {files : List UInt8 → Option (List UInt8)}

theorem take_fileArgc (args : List (List UInt8)) :
    (vector args).take (fileArgc (vector args)) =
        (args.takeWhile fun arg => !arg.isEmpty).map some ∧
      fileArgc (vector args) = (args.takeWhile fun arg => !arg.isEmpty).length := by
  induction args with
  | nil => exact ⟨rfl, rfl⟩
  | cons arg args ih =>
    cases arg with
    | nil => exact ⟨rfl, rfl⟩
    | cons c arg =>
      obtain ⟨isTake, isLength⟩ := ih
      have shape : vector ((c :: arg) :: args) = some (c :: arg) :: vector args := rfl
      rw [shape, fileArgc, List.take_succ_cons, isTake]
      exact ⟨rfl, congrArg (· + 1) isLength⟩

theorem dupargv_vector (args : List (List UInt8)) : dupargv (vector args) = vector args := by
  have all : (args.map some ++ [none]).takeWhile Option.isSome = args.map some := by
    rw [List.takeWhile_append_of_pos]
    · exact List.append_nil _
    · intro entry isEntry
      obtain ⟨arg, _, rfl⟩ := List.mem_map.mp isEntry
      rfl
  rw [dupargv, vector, all]

theorem vector_append (args rest : List (List UInt8)) :
    vector (args ++ rest) = args.map some ++ vector rest := by
  rw [vector, vector, List.map_append, List.append_assoc]

theorem spliced (done inner rest : List (List UInt8)) (arg : List UInt8) :
    (vector (done ++ arg :: rest)).take done.length ++ inner.map some ++
        ((vector (done ++ arg :: rest)).drop (done.length + 1)).take
          ((done ++ arg :: rest).length - done.length) =
      vector (done ++ inner ++ rest) := by
  have shape : vector (done ++ arg :: rest) = done.map some ++ some arg :: vector rest :=
    vector_append done (arg :: rest)
  have isTake : (done.map some ++ some arg :: vector rest).take done.length = done.map some := by
    rw [List.take_left' (List.length_map _)]
  have isDrop : (done.map some ++ some arg :: vector rest).drop (done.length + 1) = vector rest := by
    rw [← List.length_map (some : List UInt8 → _), List.drop_length_add_append]
    rfl
  have whole : (done ++ arg :: rest).length - done.length = (vector rest).length := by
    rw [vector, List.length_append, List.length_append, List.length_map, List.length_cons,
      List.length_singleton]
    omega
  rw [shape, isTake, isDrop, whole, List.take_length, List.append_assoc, ← vector_append,
    ← vector_append, List.append_assoc]

theorem expandargvLoop_step (fuel : Nat) {done : List (List UInt8)} (notEmpty : done ≠ [])
    (arg : List UInt8) (rest : List (List UInt8)) :
    expandargvLoop files (fuel + 1) (done.length - 1) (done ++ arg :: rest).length
        (vector (done ++ arg :: rest)) =
      match taken files arg with
      | none =>
        expandargvLoop files fuel done.length (done ++ arg :: rest).length
          (vector (done ++ arg :: rest))
      | some inner =>
        expandargvLoop files fuel (done.length - 1) (done ++ inner ++ rest).length
          (vector (done ++ inner ++ rest)) := by
  have positive := List.length_pos_iff.mpr notEmpty
  have current : done.length - 1 + 1 = done.length := Nat.sub_add_cancel positive
  have inside : done.length < (done ++ arg :: rest).length := by
    rw [List.length_append, List.length_cons]
    omega
  have isArg : (vector (done ++ arg :: rest))[done.length]? = some (some arg) := by
    rw [vector_append, ← List.length_map (some : List UInt8 → _), List.getElem?_append_right le_rfl,
      Nat.sub_self]
    rfl
  rw [expandargvLoop]
  dsimp only
  rw [current, if_pos inside, isArg]
  dsimp only
  cases arg with
  | nil => rfl
  | cons c name =>
    rw [taken, response, List.head?_cons, List.tail_cons]
    by_cases isAt : c = atSign
    · rw [if_pos isAt, if_neg (not_not.mpr (congrArg some isAt))]
      cases isContent : files name with
      | none => rfl
      | some content =>
        obtain ⟨args, isArgs⟩ : ∃ args, buildargv (cString content) = some args :=
          ⟨_, buildargv_eq _⟩
        obtain ⟨isTake, isCount⟩ := take_fileArgc args
        rw [Option.map_some, takenArguments]
        dsimp only
        rw [isArgs, Option.getD_some]
        dsimp only
        rw [dupargv_vector, isTake, isCount, spliced]
        have length : (done ++ (c :: name) :: rest).length +
            (args.takeWhile fun arg => !arg.isEmpty).length - 1 =
            (done ++ (args.takeWhile fun arg => !arg.isEmpty) ++ rest).length := by
          simp only [List.length_append, List.length_cons]
          omega
        rw [length]
    · rw [if_neg isAt, if_pos fun same => isAt (Option.some.inj same)]
      rfl

theorem expandargvLoop_expands {l out : List (List UInt8)} (expands : Expands (taken files) l out)
    {done : List (List UInt8)} (notEmpty : done ≠ []) (rest : List (List UInt8)) :
    ∃ rounds, ∀ fuel,
      expandargvLoop files (rounds + fuel) (done.length - 1) (done ++ (l ++ rest)).length
          (vector (done ++ (l ++ rest))) =
        expandargvLoop files fuel ((done ++ out).length - 1) (done ++ (out ++ rest)).length
          (vector (done ++ (out ++ rest))) := by
  induction expands generalizing done rest with
  | nil => exact ⟨0, fun fuel => by rw [Nat.zero_add, List.append_nil]⟩
  | @keep arg tail out kept _ ih =>
    have notEmpty' : done ++ [arg] ≠ [] := List.append_ne_nil_of_right_ne_nil _ (List.cons_ne_nil _ _)
    obtain ⟨rounds, loop⟩ := ih notEmpty' rest
    refine ⟨rounds + 1, fun fuel => ?_⟩
    have step := @expandargvLoop_step files (rounds + fuel) done notEmpty arg (tail ++ rest)
    have loop := loop fuel
    have last : (done ++ [arg]).length - 1 = done.length := by
      rw [List.length_append, List.length_singleton, Nat.add_sub_cancel]
    rw [last] at loop
    simp only [List.append_assoc, List.cons_append, List.nil_append] at loop ⊢
    rw [kept] at step
    dsimp only at step
    rw [Nat.add_right_comm, step, loop]
  | @replace arg inner tail innerOut out replaced _ _ innerHypothesis ih =>
    have notEmpty' : done ++ innerOut ≠ [] := List.append_ne_nil_of_left_ne_nil notEmpty _
    obtain ⟨innerRounds, innerLoop⟩ := innerHypothesis notEmpty (tail ++ rest)
    obtain ⟨rounds, loop⟩ := ih notEmpty' rest
    refine ⟨innerRounds + rounds + 1, fun fuel => ?_⟩
    have step := @expandargvLoop_step files (innerRounds + (rounds + fuel)) done notEmpty arg
      (tail ++ rest)
    have innerLoop := innerLoop (rounds + fuel)
    have loop := loop fuel
    simp only [List.append_assoc] at loop innerLoop step ⊢
    rw [replaced] at step
    dsimp only at step
    rw [List.cons_append, show innerRounds + rounds + 1 + fuel = innerRounds + (rounds + fuel) + 1 by omega,
      step, innerLoop, loop]

end Loop

section Expected

variable {files : List UInt8 → Option (List UInt8)}

theorem buildargv_blank {content : List UInt8} (blank : IsBlankFile content) :
    buildargv (cString content) = some [[]] := by
  have none : fieldsOf (cString content) = [] :=
    (fieldsOf_eq_nil_iff _).mpr (List.dropWhile_eq_nil_iff.mpr blank)
  rw [buildargv_eq, if_pos (.inr none), documented, if_pos none]

theorem takeWhile_nonempty {args : List (List UInt8)} (inArgs : [] ∈ args) :
    ∃ behind, args = (args.takeWhile fun arg => !arg.isEmpty) ++ [] :: behind := by
  induction args with
  | nil => cases inArgs
  | cons arg args ih =>
    cases arg with
    | nil => exact ⟨args, rfl⟩
    | cons c arg =>
      obtain ⟨behind, isArgs⟩ :=
        ih ((List.mem_cons.mp inArgs).resolve_left (List.cons_ne_nil c arg).symm)
      exact ⟨behind, congrArg ((c :: arg) :: ·) isArgs⟩

theorem takenArguments_cases (content : List UInt8) :
    takenArguments content = fileArguments content ∧ [] ∉ fileArguments content ∨
      ∃ behind, fileArguments content = takenArguments content ++ [] :: behind := by
  obtain ⟨args, isArgs⟩ : ∃ args, buildargv (cString content) = some args := ⟨_, buildargv_eq _⟩
  rw [takenArguments, fileArguments]
  by_cases blank : IsBlankFile content
  · rw [if_pos blank, buildargv_blank blank]
    exact .inl ⟨rfl, List.not_mem_nil⟩
  · rw [if_neg blank, isArgs, Option.getD_some]
    by_cases inArgs : [] ∈ args
    · exact .inr (takeWhile_nonempty inArgs)
    · refine .inl ⟨List.takeWhile_eq_self_iff.mpr fun arg isArg => ?_, inArgs⟩
      cases arg with
      | nil => exact absurd isArg inArgs
      | cons c arg => rfl

theorem taken_cuts (files : List UInt8 → Option (List UInt8)) :
    Cuts (taken files) (stands files) := by
  intro arg
  rw [taken, stands]
  cases response files arg with
  | none => exact .inl rfl
  | some content =>
    obtain ⟨same, _⟩ | ⟨behind, isFile⟩ := takenArguments_cases content
    · exact .inl (congrArg some same)
    · exact .inr ⟨_, [], behind, congrArg some isFile, rfl, rfl⟩

theorem taken_eq_iff (arg : List UInt8) :
    taken files arg = stands files arg ↔
      ∀ content, response files arg = some content → [] ∉ fileArguments content := by
  rw [taken, stands]
  cases response files arg with
  | none => exact iff_of_true rfl fun content isContent => by cases isContent
  | some content =>
    rw [Option.map_some, Option.map_some, Option.some.injEq]
    obtain ⟨same, complete⟩ | ⟨behind, isFile⟩ := takenArguments_cases content
    · exact iff_of_true same fun content' isContent => by
        rw [Option.some.injEq] at isContent
        exact isContent ▸ complete
    · refine iff_of_false (fun same => ?_) fun complete => complete content rfl ?_
      · rw [same, List.self_eq_append_right] at isFile
        cases isFile
      · rw [isFile]
        exact List.mem_append_right _ List.mem_cons_self

theorem exists_expansion (finite : {name | files name ≠ none}.Finite)
    (acyclic : ∀ arg, ¬Relation.TransGen (Inside (stands files)) arg arg)
    (args : List (List UInt8)) : ∃ expanded, Expands (stands files) args expanded := by
  refine exists_expands (wellFounded_inside ?_ acyclic) args
  refine (finite.image (atSign :: ·)).subset fun arg standing => ?_
  have named : response files arg ≠ none := fun none => standing (by rw [stands, none]; rfl)
  cases arg with
  | nil => exact absurd rfl named
  | cons c name =>
    rw [response] at named
    by_cases isAt : c = atSign
    · rw [if_pos isAt] at named
      exact ⟨name, named, by rw [isAt]⟩
    · rw [if_neg isAt] at named
      exact absurd rfl named

/-- For finitely many files without cyclic inclusion `expandargv` ends, and its result is the
arguments with all response files replaced exactly where no response file that is met
holds an empty argument. -/
theorem expandargv_expands (files : List UInt8 → Option (List UInt8))
    (finite : {name | files name ≠ none}.Finite)
    (acyclic : ∀ arg, ¬Relation.TransGen (Inside (stands files)) arg arg)
    (arguments : List (List UInt8)) :
    ∃ expanded result, Expands (stands files) (arguments.drop 1) expanded ∧
      (∃ rounds, ∀ fuel ≥ rounds,
        expandargv files fuel arguments.length (vector arguments) = some result) ∧
      (result = ((arguments.take 1 ++ expanded).length, vector (arguments.take 1 ++ expanded)) ↔
        ∀ arg content, Meets (stands files) arg (arguments.drop 1) →
          response files arg = some content → [] ∉ fileArguments content) := by
  obtain ⟨expanded, expands⟩ := exists_expansion finite acyclic (arguments.drop 1)
  obtain ⟨out, takes, _, same⟩ := (taken_cuts files).expands expands
  refine ⟨expanded, ((arguments.take 1 ++ out).length, vector (arguments.take 1 ++ out)), expands,
    ?_, ?_⟩
  · cases arguments with
    | nil =>
      cases takes
      refine ⟨1, fun fuel enough => ?_⟩
      obtain ⟨fuel, rfl⟩ := Nat.exists_eq_add_of_le' enough
      rfl
    | cons program args =>
      obtain ⟨rounds, loop⟩ := expandargvLoop_expands takes (List.cons_ne_nil program []) []
      refine ⟨rounds + 1, fun fuel enough => ?_⟩
      obtain ⟨fuel, rfl⟩ := Nat.exists_eq_add_of_le enough
      have start := loop (fuel + 1)
      have last : ([program] ++ out).length - 1 + 1 = ([program] ++ out).length := rfl
      rw [List.append_nil, List.append_nil] at start
      rw [expandargv, Nat.add_right_comm, Nat.add_assoc]
      refine start.trans ?_
      rw [expandargvLoop]
      dsimp only
      rw [last, if_neg (lt_irrefl _)]
      rfl
  · constructor
    · intro equal arg content meets isContent
      have lengths := congrArg Prod.fst equal
      dsimp only at lengths
      rw [List.length_append, List.length_append, Nat.add_left_cancel_iff] at lengths
      exact (taken_eq_iff arg).mp (same lengths arg meets) content isContent
    · intro complete
      have whole := expands.congr fun arg meets =>
        (taken_eq_iff arg).mpr fun content isContent => complete arg content meets isContent
      rw [takes.unique whole]

end Expected

section Examples

/-- One file, `f`, with a content. -/
def oneFile (content : List UInt8) (name : List UInt8) : Option (List UInt8) :=
  if name = [0x66] then some content else none

theorem oneFile_finite (content : List UInt8) : {name | oneFile content name ≠ none}.Finite := by
  refine (Set.finite_singleton [0x66]).subset fun name isFile => ?_
  by_contra other
  exact isFile (if_neg other)

theorem response_oneFile {content other : List UInt8} {arg : List UInt8}
    (isContent : response (oneFile content) arg = some other) : other = content := by
  cases arg with
  | nil => cases isContent
  | cons c name =>
    rw [response, oneFile] at isContent
    split at isContent
    · split at isContent
      · exact (Option.some.inj isContent).symm
      · cases isContent
    · cases isContent

theorem oneFile_acyclic {content : List UInt8}
    (plain : ∀ arg ∈ fileArguments content, stands (oneFile content) arg = none) (arg : List UInt8) :
    ¬Relation.TransGen (Inside (stands (oneFile content))) arg arg := by
  have never (inner outer : List UInt8) : ¬Inside (stands (oneFile content)) inner outer := by
    rintro ⟨standing, args, isArgs, inArgs⟩
    obtain ⟨other, isContent, rfl⟩ := Option.map_eq_some_iff.mp isArgs
    rw [response_oneFile isContent] at inArgs
    exact standing (plain inner inArgs)
  intro cycle
  cases cycle with
  | single inside => exact never _ _ inside
  | tail _ inside => exact never _ _ inside

/-- The file holds `a b`. -/
theorem expandargv_expands_oneFile :
    ∃ rounds, ∀ fuel ≥ rounds,
      expandargv (oneFile [0x61, 0x20, 0x62]) fuel 2 (vector [[0x70], [0x40, 0x66]]) =
        some (3, vector [[0x70], [0x61], [0x62]]) := by
  have isFile : fileArguments [0x61, 0x20, 0x62] = [[0x61], [0x62]] := by decide
  have acyclic := @oneFile_acyclic [0x61, 0x20, 0x62] (by rw [isFile]; decide)
  obtain ⟨expanded, result, expands, ends, isResult⟩ := expandargv_expands
    (oneFile [0x61, 0x20, 0x62]) (oneFile_finite _) acyclic [[0x70], [0x40, 0x66]]
  have isStands : stands (oneFile [0x61, 0x20, 0x62]) [0x40, 0x66] = some [[0x61], [0x62]] :=
    congrArg some isFile
  have isExpanded : expanded = [[0x61], [0x62]] :=
    expands.unique (.replace isStands (.keep rfl (.keep rfl .nil)) .nil)
  have whole := isResult.mpr fun arg content _ isContent => by
    rw [response_oneFile isContent, isFile]
    decide
  subst isExpanded
  subst whole
  exact ends

/-- The file holds `a '' b`, and the arguments behind the first are dropped. -/
theorem expandargv_drops :
    expandargv (oneFile [0x61, 0x20, 0x27, 0x27, 0x20, 0x62]) 10 2 (vector [[0x70], [0x40, 0x66]]) =
        some (2, vector [[0x70], [0x61]]) ∧
      Expands (stands (oneFile [0x61, 0x20, 0x27, 0x27, 0x20, 0x62])) [[0x40, 0x66]]
        [[0x61], [], [0x62]] := by
  refine ⟨by decide, ?_⟩
  have isFile : stands (oneFile [0x61, 0x20, 0x27, 0x27, 0x20, 0x62]) [0x40, 0x66] =
      some [[0x61], [], [0x62]] := by decide
  exact .replace isFile (.keep rfl (.keep rfl (.keep rfl .nil))) .nil

end Examples

end GccCil.Libiberty.Argv
