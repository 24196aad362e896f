import GccCil.Lib.SequenceId

/-!
# Mangled names

The assembler names that `scil-mangle.c` makes for methods, static fields and
vtables.  Text is a list of characters, one for each byte of a C string.
-/

namespace GccCil.Scil.Mangle

open Lib

/-- A name as metadata has it; mangling relies on its first character. -/
structure Name where
  chars : List Char
  noDigitFirst : NoDigitFirst chars
  deriving DecidableEq

/-- An assembly, namespace or class.  The registration functions look these up by
their qualified identifier, so a node is its chain of names. -/
inductive Node where
  | assembly (name : Name)
  | nested (container : Node) (name : Name)
  deriving DecidableEq

structure ClassNode where
  container : Node
  name : Name
  deriving DecidableEq

def ClassNode.node (klass : ClassNode) : Node := .nested klass.container klass.name

/-- The types of `init_type` other than `void`; `native int` is the integer of its
size. -/
inductive Primitive where
  | int8 | int16 | int32 | int64 | uint8 | uint16 | uint32 | uint64
  | bool | char | float32 | float64
  deriving DecidableEq

def Primitive.mangled : Primitive → Char
  | int8 => 'a'
  | int16 => 's'
  | int32 => 'l'
  | int64 => 'x'
  | uint8 => 'h'
  | uint16 => 't'
  | uint32 => 'm'
  | uint64 => 'y'
  | bool => 'b'
  | char => 'w'
  | float32 => 'f'
  | float64 => 'd'

inductive TypeNode where
  | void
  | primitive (type : Primitive)
  | klass (type : ClassNode)
  | pointer (target : TypeNode)
  deriving DecidableEq

/-- A method declaration; no parameter has the type `void`. -/
structure MethodDecl where
  owner : ClassNode
  name : Name
  isStatic : Bool
  varargs : Bool
  parameters : List TypeNode
  noVoid : TypeNode.void ∉ parameters

/-- `TYPE_ARG_TYPES`: the implicit instance argument, the parameters and, if their number is
fixed, `void`. -/
def MethodDecl.argTypes (method : MethodDecl) : List TypeNode :=
  (if method.isStatic then [] else [.pointer (.klass method.owner)]) ++
    (method.parameters ++ if method.varargs then [] else [.void])

structure FieldDecl where
  owner : ClassNode
  name : Name

inductive Entry where
  | node (node : Node)
  | declaration
  deriving DecidableEq

def getCompressionId (stack : List Entry) (node : Node) : Option Nat :=
  stack.idxOf? (.node node)

def makeChunk (name : Name) : List Char :=
  Nat.toDigits 10 name.chars.length ++ name.chars

def writeChunkOrCompression (brackets : Bool) (stack : List Entry) :
    Node → List Char × List Entry
  | .assembly name =>
    match getCompressionId stack (.assembly name) with
    | some position => (backReference position, stack)
    | none => (makeChunk name, stack ++ [.node (.assembly name)])
  | .nested container name =>
    match getCompressionId stack (.nested container name) with
    | some position => (backReference position, stack)
    | none =>
      let (text, stack) := writeChunkOrCompression false stack container
      (if brackets then 'N' :: (text ++ (makeChunk name ++ ['E'])) else text ++ makeChunk name,
        stack ++ [.node (.nested container name)])

def writeDeclaration (owner : ClassNode) (chunk : List Char) : List Char × List Entry :=
  let (text, stack) := writeChunkOrCompression false [] owner.node
  ('N' :: (text ++ (chunk ++ ['E'])), stack ++ [.declaration])

def writeType (stack : List Entry) : TypeNode → List Char × List Entry
  | .void => (['v'], stack)
  | .primitive type => ([type.mangled], stack)
  | .klass type => writeChunkOrCompression true stack type.node
  | .pointer target =>
    let (text, stack) := writeType stack target
    ('P' :: text, stack)

/-- The loop over the arguments up to `void`.  After the last argument of a list without
`void` the value of a null node is read. -/
def writeArguments (stack : List Entry) : List TypeNode → Option (List Char)
  | [] => none
  | type :: rest =>
    if type = .void then some []
    else do
      let (text, stack) := writeType stack type
      return text ++ (← writeArguments stack rest)

def writeMethodType (stack : List Entry) (argTypes : List TypeNode) (isStatic : Bool) :
    Option (List Char) :=
  let argTypes := if isStatic then argTypes else argTypes.tail
  if argTypes.head? = some .void then some ['v'] else writeArguments stack argTypes

def ctorName : List Char := ".ctor".toList

def cctorName : List Char := ".cctor".toList

def methodChunk (name : Name) : List Char :=
  if name.chars = ctorName then "C1".toList
  else if name.chars = cctorName then "6cctor$".toList
  else makeChunk name

def mangleMethod (method : MethodDecl) : Option (List Char) := do
  let (text, stack) := writeDeclaration method.owner (methodChunk method.name)
  return "_Z".toList ++ (text ++ (← writeMethodType stack method.argTypes method.isStatic))

/-- A method declaration with its `DECL_ASSEMBLER_NAME`. -/
structure MangledMethod where
  decl : MethodDecl
  assemblerName : List Char
  mangled : mangleMethod decl = some assemblerName

def mangleField (field : FieldDecl) : List Char :=
  "_Z".toList ++ (writeDeclaration field.owner (makeChunk field.name)).1

def mangleVTable (klass : ClassNode) : List Char :=
  "_ZTV".toList ++ (writeChunkOrCompression true [] klass.node).1

/-- The last chunk of a declaration: a name, or `C1` for a constructor. -/
def chunkText : Option Name → List Char
  | some name => makeChunk name
  | none => "C1".toList

theorem makeChunk_begins (name : Name) :
    ∃ digit rest, makeChunk name = digit :: rest ∧ digit.isDigit = true := by
  have nonempty : Nat.toDigits 10 name.chars.length ≠ [] := Nat.toDigits_ne_nil
  cases digits : Nat.toDigits 10 name.chars.length with
  | nil => exact absurd digits nonempty
  | cons digit rest =>
    refine ⟨digit, rest ++ name.chars, by rw [makeChunk, digits]; rfl, ?_⟩
    exact Nat.isDigit_of_mem_toDigits (b := 10) (n := name.chars.length) (by decide)
      (by decide) (digits ▸ List.mem_cons_self)

theorem makeChunk_prefixFree : PrefixFree makeChunk := by
  intro left right leftRest rightRest same
  simp only [makeChunk, List.append_assoc] at same
  obtain ⟨sameChars, sameRest⟩ :=
    lengthPrefixed_inj left.noDigitFirst right.noDigitFirst same
  cases left
  cases right
  cases sameChars
  exact ⟨rfl, sameRest⟩

theorem chunkText_prefixFree : PrefixFree chunkText := by
  intro left right leftRest rightRest same
  cases left with
  | none =>
    cases right with
    | none => exact ⟨rfl, List.append_cancel_left same⟩
    | some right =>
      obtain ⟨digit, rest, chunk, isDigit⟩ := makeChunk_begins right
      rw [chunkText, chunkText, chunk] at same
      obtain ⟨rfl, -⟩ := List.cons.inj same
      exact absurd isDigit (by decide)
  | some left =>
    cases right with
    | none =>
      obtain ⟨digit, rest, chunk, isDigit⟩ := makeChunk_begins left
      rw [chunkText, chunkText, chunk] at same
      obtain ⟨rfl, -⟩ := List.cons.inj same
      exact absurd isDigit (by decide)
    | some right =>
      obtain ⟨sameName, sameRest⟩ := makeChunk_prefixFree same
      exact ⟨by rw [sameName], sameRest⟩

theorem chunkText_begins (chunk : Option Name) :
    ∃ first rest, chunkText chunk = first :: rest ∧ first ≠ 'E' := by
  cases chunk with
  | none => exact ⟨'C', ['1'], rfl, by decide⟩
  | some name =>
    obtain ⟨digit, rest, text, isDigit⟩ := makeChunk_begins name
    refine ⟨digit, rest, text, ?_⟩
    rintro rfl
    exact absurd isDigit (by decide)

/-- The nearest node of the chain that is on the stack, and the names below it. -/
def stem (stack : List Entry) : Node → Option Nat × List Name
  | .assembly name =>
    match getCompressionId stack (.assembly name) with
    | some position => (some position, [])
    | none => (none, [name])
  | .nested container name =>
    match getCompressionId stack (.nested container name) with
    | some position => (some position, [])
    | none => ((stem stack container).1, (stem stack container).2 ++ [name])

def stemText (stem : Option Nat × List Name) : List Char :=
  stem.1.elim [] backReference ++ stem.2.flatMap makeChunk

theorem writeChunkOrCompression_false (stack : List Entry) (node : Node) :
    (writeChunkOrCompression false stack node).1 = stemText (stem stack node) := by
  induction node with
  | assembly name =>
    rw [writeChunkOrCompression, stem]
    split <;> simp [stemText]
  | nested container name ih =>
    rw [writeChunkOrCompression, stem]
    split
    · simp [stemText]
    · simp [ih, stemText]

theorem getCompressionId_spec {stack : List Entry} {node : Node} {position : Nat}
    (found : getCompressionId stack node = some position) :
    stack[position]? = some (.node node) := by
  obtain ⟨bound, entry, -⟩ := List.idxOf?_eq_some_iff.mp found
  exact List.getElem?_eq_some_iff.mpr ⟨bound, entry⟩

/-- The node of a stem: some names below an entry of the stack, or a whole chain. -/
def Denotes (stack : List Entry) (node : Node) : Option Nat × List Name → Prop
  | (some position, names) => ∃ base, stack[position]? = some (.node base) ∧
      node = names.foldl .nested base
  | (none, names) => ∃ first rest, names = first :: rest ∧
      node = rest.foldl .nested (.assembly first)

theorem stem_denotes (stack : List Entry) (node : Node) :
    Denotes stack node (stem stack node) := by
  induction node with
  | assembly name =>
    rw [stem]
    cases found : getCompressionId stack (.assembly name) with
    | some position => exact ⟨.assembly name, getCompressionId_spec found, rfl⟩
    | none => exact ⟨name, [], rfl, rfl⟩
  | nested container name ih =>
    rw [stem]
    cases found : getCompressionId stack (.nested container name) with
    | some position => exact ⟨.nested container name, getCompressionId_spec found, rfl⟩
    | none =>
      generalize stem stack container = found at ih ⊢
      obtain ⟨base, names⟩ := found
      cases base with
      | some position =>
        obtain ⟨base, entry, rfl⟩ := ih
        exact ⟨base, entry, by simp⟩
      | none =>
        obtain ⟨first, rest, rfl, rfl⟩ := ih
        exact ⟨first, rest ++ [name], by simp, by simp⟩

theorem Denotes.unique {stack : List Entry} {left right : Node}
    {stem : Option Nat × List Name} (leftDenotes : Denotes stack left stem)
    (rightDenotes : Denotes stack right stem) : left = right := by
  obtain ⟨base, names⟩ := stem
  cases base with
  | some position =>
    obtain ⟨leftBase, leftEntry, rfl⟩ := leftDenotes
    obtain ⟨rightBase, rightEntry, rfl⟩ := rightDenotes
    cases leftEntry.symm.trans rightEntry
    rfl
  | none =>
    obtain ⟨first, rest, rfl, rfl⟩ := leftDenotes
    obtain ⟨_, _, sameNames, rfl⟩ := rightDenotes
    cases sameNames
    rfl

theorem stemText_inj {stack : List Entry} {left right : Node} {leftRest rightRest : List Char}
    (same : stemText (stem stack left) ++ 'E' :: leftRest =
      stemText (stem stack right) ++ 'E' :: rightRest) :
    left = right ∧ leftRest = rightRest := by
  have begins : ∀ name, ∃ first rest, makeChunk name = first :: rest ∧ first ≠ 'E' :=
    fun name => chunkText_begins (some name)
  have noReference : ∀ {position : Nat} {names : List Name} {rest other : List Char},
      names ≠ [] → backReference position ++ rest ≠ names.flatMap makeChunk ++ other := by
    intro position names rest other nonempty clash
    cases names with
    | nil => exact nonempty rfl
    | cons name names =>
      obtain ⟨digit, tail, chunk, isDigit⟩ := makeChunk_begins name
      rw [List.flatMap_cons, chunk] at clash
      obtain ⟨rfl, -⟩ := List.cons.inj clash
      exact absurd isDigit (by decide)
  have leftDenotes := stem_denotes stack left
  have rightDenotes := stem_denotes stack right
  generalize stem stack left = leftStem at same leftDenotes
  generalize stem stack right = rightStem at same rightDenotes
  suffices leftStem = rightStem ∧ leftRest = rightRest from
    ⟨leftDenotes.unique (this.1 ▸ rightDenotes), this.2⟩
  obtain ⟨leftBase, leftNames⟩ := leftStem
  obtain ⟨rightBase, rightNames⟩ := rightStem
  simp only [stemText, List.append_assoc] at same
  cases leftBase with
  | some leftPosition =>
    cases rightBase with
    | some rightPosition =>
      obtain ⟨samePosition, sameText⟩ := backReference_prefixFree same
      obtain ⟨sameNames, sameRest⟩ := makeChunk_prefixFree.flatMap_stop begins sameText
      exact ⟨by rw [samePosition, sameNames], sameRest⟩
    | none =>
      obtain ⟨_, _, rfl, -⟩ := rightDenotes
      exact absurd same (noReference (List.cons_ne_nil _ _))
  | none =>
    cases rightBase with
    | some rightPosition =>
      obtain ⟨_, _, rfl, -⟩ := leftDenotes
      exact absurd same.symm (noReference (List.cons_ne_nil _ _))
    | none =>
      obtain ⟨sameNames, sameRest⟩ := makeChunk_prefixFree.flatMap_stop begins same
      exact ⟨by rw [sameNames], sameRest⟩

theorem writeChunkOrCompression_true (stack : List Entry) (klass : ClassNode) :
    (writeChunkOrCompression true stack klass.node).1 =
      match getCompressionId stack klass.node with
      | some position => backReference position
      | none => 'N' :: (stemText (stem stack klass.node) ++ ['E']) := by
  rw [ClassNode.node, writeChunkOrCompression]
  cases found : getCompressionId stack (.nested klass.container klass.name) with
  | some position => rfl
  | none => simp [stem, found, stemText, writeChunkOrCompression_false]

theorem writeClass_prefixFree (stack : List Entry) :
    PrefixFree fun klass : ClassNode => (writeChunkOrCompression true stack klass.node).1 := by
  intro left right leftRest rightRest same
  suffices left.node = right.node ∧ leftRest = rightRest by
    obtain ⟨sameNode, sameRest⟩ := this
    cases left
    cases right
    cases sameNode
    exact ⟨rfl, sameRest⟩
  simp only [writeChunkOrCompression_true] at same
  cases leftFound : getCompressionId stack left.node with
  | some leftPosition =>
    cases rightFound : getCompressionId stack right.node with
    | some rightPosition =>
      simp only [leftFound, rightFound] at same
      obtain ⟨rfl, sameRest⟩ := backReference_prefixFree same
      have sameEntry := (getCompressionId_spec leftFound).symm.trans
        (getCompressionId_spec rightFound)
      exact ⟨Entry.node.inj (Option.some.inj sameEntry), sameRest⟩
    | none =>
      simp only [leftFound, rightFound] at same
      cases (List.cons.inj same).1
  | none =>
    cases rightFound : getCompressionId stack right.node with
    | some rightPosition =>
      simp only [leftFound, rightFound] at same
      cases (List.cons.inj same).1
    | none =>
      simp only [leftFound, rightFound] at same
      exact stemText_inj (by simpa using (List.cons.inj same).2)

theorem writeClass_begins (stack : List Entry) (klass : ClassNode) :
    ∃ first rest, (writeChunkOrCompression true stack klass.node).1 = first :: rest ∧
      (first = 'N' ∨ first = 'S') := by
  rw [writeChunkOrCompression_true]
  cases getCompressionId stack klass.node with
  | some position => exact ⟨'S', _, rfl, .inr rfl⟩
  | none => exact ⟨'N', _, rfl, .inl rfl⟩

theorem Primitive.mangled_injective : Function.Injective Primitive.mangled := by
  intro left right same
  cases left <;> cases right <;> first | rfl | exact absurd same (by decide)

/-- The letter that begins a class in brackets, a pointer or `void`. -/
def typeLetter : TypeNode → Option Char
  | .void => some 'v'
  | .primitive _ => none
  | .klass _ => some 'N'
  | .pointer _ => some 'P'

def readLetter (first : Char) : Option Char :=
  if first = 'S' then some 'N' else if first ∈ ['v', 'N', 'P'] then some first else none

theorem writeType_begins (stack : List Entry) (type : TypeNode) :
    ∃ first rest, (writeType stack type).1 = first :: rest ∧
      readLetter first = typeLetter type := by
  cases type with
  | void => exact ⟨'v', [], rfl, rfl⟩
  | primitive type => exact ⟨type.mangled, [], rfl, by cases type <;> rfl⟩
  | klass type =>
    obtain ⟨first, rest, text, rfl | rfl⟩ := writeClass_begins stack type
    · exact ⟨'N', rest, text, rfl⟩
    · exact ⟨'S', rest, text, rfl⟩
  | pointer target => exact ⟨'P', _, rfl, rfl⟩

theorem typeLetter_eq {stack : List Entry} {left right : TypeNode}
    {leftRest rightRest : List Char}
    (same : (writeType stack left).1 ++ leftRest = (writeType stack right).1 ++ rightRest) :
    typeLetter left = typeLetter right := by
  obtain ⟨leftFirst, leftTail, leftText, leftLetter⟩ := writeType_begins stack left
  obtain ⟨rightFirst, rightTail, rightText, rightLetter⟩ := writeType_begins stack right
  rw [leftText, rightText] at same
  rw [← leftLetter, ← rightLetter, (List.cons.inj same).1]

theorem writeType_prefixFree (stack : List Entry) :
    PrefixFree fun type : TypeNode => (writeType stack type).1 := by
  intro left right leftRest rightRest same
  induction left generalizing right with
  | void =>
    cases right with
    | void => exact ⟨rfl, (List.cons.inj same).2⟩
    | _ => exact absurd (typeLetter_eq same) (by simp [typeLetter])
  | primitive type =>
    cases right with
    | primitive other =>
      obtain ⟨sameLetter, sameRest⟩ := List.cons.inj same
      exact ⟨by rw [Primitive.mangled_injective sameLetter], sameRest⟩
    | _ => exact absurd (typeLetter_eq same) (by simp [typeLetter])
  | klass type =>
    cases right with
    | klass other =>
      obtain ⟨sameClass, sameRest⟩ := writeClass_prefixFree stack same
      exact ⟨by rw [sameClass], sameRest⟩
    | _ => exact absurd (typeLetter_eq same) (by simp [typeLetter])
  | pointer target ih =>
    cases right with
    | pointer other =>
      obtain ⟨sameTarget, sameRest⟩ := ih (List.cons.inj same).2
      exact ⟨by rw [sameTarget], sameRest⟩
    | _ => exact absurd (typeLetter_eq same) (by simp [typeLetter])

def argumentsText (stack : List Entry) : List TypeNode → List Char
  | [] => []
  | type :: rest => (writeType stack type).1 ++ argumentsText (writeType stack type).2 rest

theorem writeArguments_eq (stack : List Entry) {parameters : List TypeNode}
    (noVoid : TypeNode.void ∉ parameters) :
    writeArguments stack parameters = none ∧
      writeArguments stack (parameters ++ [.void]) = some (argumentsText stack parameters) := by
  induction parameters generalizing stack with
  | nil => exact ⟨rfl, rfl⟩
  | cons type rest ih =>
    have notVoid : type ≠ .void := fun isVoid => noVoid (isVoid ▸ List.mem_cons_self)
    obtain ⟨without, terminated⟩ := ih (writeType stack type).2
      (fun membership => noVoid (List.mem_cons_of_mem _ membership))
    simp [writeArguments, notVoid, argumentsText, without, terminated]

theorem argumentsText_injective (stack : List Entry) :
    Function.Injective (argumentsText stack) := by
  intro left right same
  induction left generalizing stack right with
  | nil =>
    cases right with
    | nil => rfl
    | cons type rest =>
      obtain ⟨first, tail, text, -⟩ := writeType_begins stack type
      simp [argumentsText, text] at same
  | cons type rest ih =>
    cases right with
    | nil =>
      obtain ⟨first, tail, text, -⟩ := writeType_begins stack type
      simp [argumentsText, text] at same
    | cons other otherRest =>
      obtain ⟨rfl, sameRest⟩ := writeType_prefixFree stack same
      rw [ih _ sameRest]

def typeText (stack : List Entry) (parameters : List TypeNode) : List Char :=
  if parameters = [] then ['v'] else argumentsText stack parameters

theorem writeMethodType_argTypes (stack : List Entry) (method : MethodDecl) :
    writeMethodType stack method.argTypes method.isStatic =
      if method.varargs then none else some (typeText stack method.parameters) := by
  have explicit : (if method.isStatic then method.argTypes else method.argTypes.tail) =
      method.parameters ++ if method.varargs then [] else [.void] := by
    cases isStatic : method.isStatic <;> simp [MethodDecl.argTypes, isStatic]
  obtain ⟨without, terminated⟩ := writeArguments_eq stack method.noVoid
  rw [writeMethodType]
  simp only [explicit]
  cases varargs : method.varargs with
  | true =>
    have notVoid : method.parameters.head? ≠ some .void := fun isVoid =>
      method.noVoid (List.mem_of_mem_head? isVoid)
    simp [notVoid, without]
  | false =>
    simp only [Bool.false_eq_true, if_false, terminated, typeText]
    cases parameters : method.parameters with
    | nil => rfl
    | cons type rest =>
      have notVoid : type ≠ .void := fun isVoid =>
        method.noVoid (parameters ▸ isVoid ▸ List.mem_cons_self)
      simp [notVoid]

theorem argumentsText_ne_void {stack : List Entry} {parameters : List TypeNode}
    (nonempty : parameters ≠ []) (noVoid : TypeNode.void ∉ parameters) :
    argumentsText stack parameters ≠ ['v'] := by
  cases parameters with
  | nil => exact absurd rfl nonempty
  | cons type rest =>
    have notVoid : type ≠ .void := fun isVoid => noVoid (isVoid ▸ List.mem_cons_self)
    obtain ⟨first, tail, text, letter⟩ := writeType_begins stack type
    intro same
    simp only [argumentsText, text] at same
    obtain ⟨rfl, -⟩ := List.cons.inj same
    cases type with
    | void => exact notVoid rfl
    | _ => exact absurd letter (by simp [readLetter, typeLetter])

theorem typeText_injective {stack : List Entry} {left right : List TypeNode}
    (leftNoVoid : TypeNode.void ∉ left) (rightNoVoid : TypeNode.void ∉ right)
    (same : typeText stack left = typeText stack right) : left = right := by
  rw [typeText, typeText] at same
  by_cases leftEmpty : left = []
  · by_cases rightEmpty : right = []
    · rw [leftEmpty, rightEmpty]
    · rw [if_pos leftEmpty, if_neg rightEmpty] at same
      exact absurd same.symm (argumentsText_ne_void rightEmpty rightNoVoid)
  · by_cases rightEmpty : right = []
    · rw [if_neg leftEmpty, if_pos rightEmpty] at same
      exact absurd same (argumentsText_ne_void leftEmpty leftNoVoid)
    · rw [if_neg leftEmpty, if_neg rightEmpty] at same
      exact argumentsText_injective stack same

theorem typeText_ne_nil (stack : List Entry) (parameters : List TypeNode) :
    typeText stack parameters ≠ [] := by
  rw [typeText]
  split
  · exact List.cons_ne_nil _ _
  · cases parameters with
    | nil => contradiction
    | cons type rest =>
      obtain ⟨first, tail, text, -⟩ := writeType_begins stack type
      simp [argumentsText, text]

def mangledText (method : MethodDecl) : List Char :=
  let (text, stack) := writeDeclaration method.owner (methodChunk method.name)
  "_Z".toList ++ (text ++ typeText stack method.parameters)

theorem mangleMethod_eq (method : MethodDecl) :
    mangleMethod method = if method.varargs then none else some (mangledText method) := by
  rw [mangleMethod]
  simp only [writeMethodType_argTypes]
  cases method.varargs <;> rfl

theorem MangledMethod.assemblerName_eq (method : MangledMethod) :
    method.assemblerName = mangledText method.decl := by
  have mangled := method.mangled
  rw [mangleMethod_eq] at mangled
  split at mangled
  · cases mangled
  · exact (Option.some.inj mangled).symm

theorem MangledMethod.begins (method : MangledMethod) :
    method.assemblerName = "_Z".toList ++ method.assemblerName.drop 2 := by
  rw [method.assemblerName_eq]
  rfl

def reservedName : Name := ⟨"cctor$".toList, by decide⟩

def chunkOf (name : Name) : Option Name :=
  if name.chars = ctorName then none
  else if name.chars = cctorName then some reservedName
  else some name

theorem chunkText_chunkOf (name : Name) : chunkText (chunkOf name) = methodChunk name := by
  unfold chunkOf methodChunk
  split
  · rfl
  · split <;> rfl

def Node.names : Node → List Name
  | .assembly name => [name]
  | .nested container name => container.names ++ [name]

theorem stem_nil (node : Node) : stem [] node = (none, node.names) := by
  induction node with
  | assembly name => rfl
  | nested container name ih =>
    simp [stem, getCompressionId, ih, Node.names]

theorem Node.names_injective : Function.Injective Node.names := by
  intro left right same
  have leftDenotes := stem_denotes [] left
  have rightDenotes := stem_denotes [] right
  rw [stem_nil] at leftDenotes rightDenotes
  exact leftDenotes.unique (same ▸ rightDenotes)

theorem writeDeclaration_eq (owner : ClassNode) (chunk : Option Name) (rest : List Char) :
    (writeDeclaration owner (chunkText chunk)).1 ++ rest =
      'N' :: ((owner.node.names.map some ++ [chunk]).flatMap chunkText ++ 'E' :: rest) := by
  have names : (owner.node.names.map some).flatMap chunkText =
      owner.node.names.flatMap makeChunk := by
    rw [List.flatMap_map]
    rfl
  simp [writeDeclaration, writeChunkOrCompression_false, stem_nil, stemText, names]

theorem writeDeclaration_inj {leftOwner rightOwner : ClassNode} {left right : Option Name}
    {leftRest rightRest : List Char}
    (same : (writeDeclaration leftOwner (chunkText left)).1 ++ leftRest =
      (writeDeclaration rightOwner (chunkText right)).1 ++ rightRest) :
    leftOwner = rightOwner ∧ left = right ∧ leftRest = rightRest := by
  rw [writeDeclaration_eq, writeDeclaration_eq] at same
  obtain ⟨sameChunks, sameRest⟩ :=
    chunkText_prefixFree.flatMap_stop chunkText_begins (List.cons.inj same).2
  obtain ⟨sameNames, sameChunk⟩ := List.append_inj' sameChunks rfl
  have sameNode := Node.names_injective
    (List.map_injective_iff.mpr (Option.some_injective _) sameNames)
  cases leftOwner
  cases rightOwner
  cases sameNode
  exact ⟨rfl, (List.cons.inj sameChunk).1, sameRest⟩

/-- Names with the same chunk: the static constructor has that of `cctor$`. -/
def SameChunk (left right : Name) : Prop :=
  left = right ∨
    left.chars = cctorName ∧ right = reservedName ∨
    left = reservedName ∧ right.chars = cctorName

theorem Name.ext {left right : Name} (same : left.chars = right.chars) : left = right := by
  cases left
  cases right
  cases same
  rfl

theorem chunkOf_eq_iff (left right : Name) : chunkOf left = chunkOf right ↔
    SameChunk left right := by
  have notInstance : reservedName.chars ≠ ctorName := by decide
  have notStatic : reservedName.chars ≠ cctorName := by decide
  constructor
  · intro same
    unfold chunkOf at same
    by_cases leftInstance : left.chars = ctorName
    · by_cases rightInstance : right.chars = ctorName
      · exact .inl (Name.ext (leftInstance.trans rightInstance.symm))
      · rw [if_pos leftInstance, if_neg rightInstance] at same
        split at same <;> cases same
    · rw [if_neg leftInstance] at same
      by_cases rightInstance : right.chars = ctorName
      · rw [if_pos rightInstance] at same
        split at same <;> cases same
      · rw [if_neg rightInstance] at same
        by_cases leftStatic : left.chars = cctorName
        · by_cases rightStatic : right.chars = cctorName
          · exact .inl (Name.ext (leftStatic.trans rightStatic.symm))
          · rw [if_pos leftStatic, if_neg rightStatic] at same
            exact .inr (.inl ⟨leftStatic, (Option.some.inj same).symm⟩)
        · by_cases rightStatic : right.chars = cctorName
          · rw [if_neg leftStatic, if_pos rightStatic] at same
            exact .inr (.inr ⟨Option.some.inj same, rightStatic⟩)
          · rw [if_neg leftStatic, if_neg rightStatic] at same
            exact .inl (Option.some.inj same)
  · have static : ∀ name : Name, name.chars = cctorName → chunkOf name = some reservedName := by
      intro name isStatic
      have different : cctorName ≠ ctorName := by decide
      simp [chunkOf, isStatic, different]
    have reserved : chunkOf reservedName = some reservedName := by
      simp [chunkOf, notInstance, notStatic]
    rintro (rfl | ⟨leftStatic, rfl⟩ | ⟨rfl, rightStatic⟩)
    · rfl
    · rw [static left leftStatic, reserved]
    · rw [static right rightStatic, reserved]

/-- Methods that get a name get the same one exactly when they have the same owner, the
same parameter types and names with the same chunk; and no method has the mangled
name of a field or a vtable. -/
theorem mangleMethod_unambiguous :
    (∀ left right : MangledMethod, left.assemblerName = right.assemblerName ↔
      left.decl.owner = right.decl.owner ∧ left.decl.parameters = right.decl.parameters ∧
        SameChunk left.decl.name right.decl.name) ∧
      (∀ (method : MangledMethod) (field : FieldDecl), method.assemblerName ≠ mangleField field) ∧
      ∀ (method : MangledMethod) (klass : ClassNode),
        method.assemblerName ≠ mangleVTable klass := by
  refine ⟨fun left right => ?_, fun method field => ?_, fun method klass => ?_⟩
  · rw [left.assemblerName_eq, right.assemblerName_eq]
    simp only [mangledText, ← chunkText_chunkOf, List.append_cancel_left_eq]
    constructor
    · intro same
      obtain ⟨sameOwner, sameChunk, sameRest⟩ := writeDeclaration_inj same
      rw [sameOwner, sameChunk] at sameRest
      exact ⟨sameOwner, typeText_injective left.decl.noVoid right.decl.noVoid sameRest,
        (chunkOf_eq_iff _ _).mp sameChunk⟩
    · rintro ⟨sameOwner, sameParameters, sameChunk⟩
      rw [sameOwner, sameParameters, (chunkOf_eq_iff _ _).mpr sameChunk]
  · rw [method.assemblerName_eq]
    intro same
    simp only [mangledText, mangleField, ← chunkText_chunkOf, List.append_cancel_left_eq] at same
    change _ = (writeDeclaration field.owner (chunkText (some field.name))).1 at same
    rw [← List.append_nil (writeDeclaration field.owner _).1] at same
    obtain ⟨-, -, rest⟩ := writeDeclaration_inj same
    exact typeText_ne_nil _ _ rest
  · rw [method.assemblerName_eq]
    intro same
    have third := congrArg (fun text : List Char => text[2]?) same
    exact absurd third (by simp [mangledText, mangleVTable, writeDeclaration])

/-- A static method without parameters of the class `[M]C`. -/
def staticMethod (name : Name) : MethodDecl where
  owner := ⟨.assembly ⟨['M'], by decide⟩, ⟨['C'], by decide⟩⟩
  name := name
  isStatic := true
  varargs := false
  parameters := []
  noVoid := List.not_mem_nil

def staticMangled (name : Name) : MangledMethod where
  decl := staticMethod name
  assemblerName := mangledText (staticMethod name)
  mangled := mangleMethod_eq _

/-- The static constructor and a method called `cctor$`. -/
theorem mangleMethod_cctor :
    mangleMethod (staticMethod ⟨cctorName, by decide⟩) = some "_ZN1M1C6cctor$Ev".toList ∧
      mangleMethod (staticMethod reservedName) = some "_ZN1M1C6cctor$Ev".toList ∧
      (staticMethod ⟨cctorName, by decide⟩).name ≠ (staticMethod reservedName).name := by
  decide

end GccCil.Scil.Mangle
