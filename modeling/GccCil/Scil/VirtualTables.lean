import Mathlib.Data.List.Basic
import Mathlib.Data.List.Nodup
import GccCil.Scil.Reader

/-!
# The vtables of `parse_vtable`

A slot belongs to the method that introduces it.  The table of a class is the
one of its parent with the overriding methods of the class put in their slots
and the new methods behind; by induction along the parents every slot holds
the most derived override.  The tables are made in any order of instructions,
as long as the base information of a class is there before its table is asked
for.
-/

namespace GccCil.Scil.Reader

variable {Class Method Field Decl : Type}

namespace Image

variable (image : Image Class Method Field Decl)

def root (method : Method) : Method :=
  match _base : image.getBase method with
  | some base => root base
  | none => method
termination_by image.depth (image.owner method)
decreasing_by exact image.depth_lt_of_mem_tail (image.getBase_spec ‹_›).2.2

/-- The methods that a class and its ancestors introduce, in the order of the
slots. -/
def introduced (klass : Class) : List Method :=
  (image.lineage klass).reverse.flatMap image.newMethods

/-- The nearest method of a class and its ancestors for a slot. -/
def mostDerived [DecidableEq Method] (klass : Class) (slot : Method) : Option Method :=
  (image.lineage klass).findSome? fun above =>
    (image.methods above).find? fun method => image.isVirtual method && image.root method = slot

end Image

/-- An image in which a class has at most one method for a slot. -/
structure Hierarchy (Class Method Field Decl : Type)
    extends Image Class Method Field Decl where
  roots_nodup : ∀ klass,
    (((methods klass).filter isVirtual).map toImage.root).Nodup

/-- The table of a class: a slot for each introduced method, overriding
methods in the slots of the methods they override, and in each slot the most
derived override. -/
structure RightTable [DecidableEq Method] (image : Image Class Method Field Decl)
    (state : State Class Method Field Decl) (klass : Class) (vector : Vector Method) : Prop where
  stored : state.vtable klass = some vector
  oneSlotEach : (image.introduced klass).map state.index = List.range vector.values.length
  distinct : ∀ first ∈ image.introduced klass, ∀ second ∈ image.introduced klass,
    state.index first = state.index second → first = second
  overriding : ∀ above ∈ image.lineage klass, ∀ method ∈ image.methods above,
    image.isVirtual method = true → ∀ base, image.getBase method = some base →
      state.index method = state.index base
  mostDerived : ∀ slot ∈ image.introduced klass, ∃ method,
    image.mostDerived klass slot = some method ∧
      vector.values[state.index slot]? = some (some method)
  reserved : vector.values.length ≤ vector.alloc

def vtableOf (image : Image Class Method Field Decl) : Reference Method Field → Option Class
  | .callvirt method =>
    if image.isDelegate (image.owner method) then none
    else if image.isVirtual method then some (image.owner method)
    else none
  | .ldvirtftn method => some (image.owner method)
  | .newobj constructor =>
    let owner := image.owner constructor
    if image.isDelegate owner && image.isStaticDelegate owner then none else some owner
  | .call _ | .ldftn _ | .field _ => none

/-- The class whose instance fields an instruction asks for. -/
def fieldsOf (image : Image Class Method Field Decl) : Reference Method Field → Option Class
  | .newobj constructor =>
    let owner := image.owner constructor
    if image.isDelegate owner && image.isStaticDelegate owner then none else some owner
  | .field field => if image.isStatic field then none else some (image.fieldOwner field)
  | .call _ | .ldftn _ | .callvirt _ | .ldvirtftn _ => none

/-- A sequence of instructions is read, and every class whose vtable was asked
for has the right one. -/
def TablesRight [DecidableEq Class] [DecidableEq Method] [DecidableEq Field]
    (image : Image Class Method Field Decl) (references : List (Reference Method Field)) : Prop :=
  ∃ final, readReferences image references (start image) = some final ∧
    ∀ reference ∈ references, ∀ klass, vtableOf image reference = some klass →
      image.dispatches klass = true → ∃ vector, RightTable image final klass vector

/-- The base information of a class is there after these instructions. -/
def HasBase (image : Image Class Method Field Decl) (earlier : List (Reference Method Field))
    (klass : Class) : Prop :=
  image.isBuiltin klass = true ∨ ∃ reference ∈ earlier, ∃ derived,
    fieldsOf image reference = some derived ∧ image.dispatches derived = true ∧
      klass ∈ image.lineage derived

/-- Every class whose vtable is asked for has base information then. -/
def BasesFirst (image : Image Class Method Field Decl)
    (references : List (Reference Method Field)) : Prop :=
  ∀ earlier reference later klass, references = earlier ++ reference :: later →
    vtableOf image reference = some klass → image.dispatches klass = true →
      HasBase image (earlier ++ [reference]) klass

section Slots

variable {image : Image Class Method Field Decl} {klass above : Class} {method base slot : Method}

theorem root_of_none (new : image.getBase method = none) : image.root method = method := by
  rw [Image.root]
  split <;> simp_all

theorem root_of_some (overrides : image.getBase method = some base) :
    image.root method = image.root base := by
  rw [Image.root]
  split <;> simp_all

theorem root_root (image : Image Class Method Field Decl) (method : Method) :
    image.root (image.root method) = image.root method := by
  induction method using Image.root.induct image with
  | case1 method base overrides ih =>
    rw [root_of_some overrides, ih]
  | case2 method new => rw [root_of_none new, root_of_none new]

theorem isNew_iff : image.isNew method = true ↔
    image.isVirtual method = true ∧ image.getBase method = none := by
  simp [Image.isNew, Option.isNone_iff_eq_none]

theorem introduced_of_parent (parent : image.parent klass = some above) :
    image.introduced klass = image.introduced above ++ image.newMethods klass := by
  simp [Image.introduced, image.lineage_of_parent parent]

theorem introduced_of_none (parent : image.parent klass = none) :
    image.introduced klass = image.newMethods klass := by
  simp [Image.introduced, image.lineage_of_none parent]

theorem mem_introduced : method ∈ image.introduced klass ↔
    ∃ above ∈ image.lineage klass, method ∈ image.methods above ∧ image.isNew method = true := by
  simp [Image.introduced, Image.newMethods]

theorem root_mem_introduced (membership : method ∈ image.methods above)
    (lineage : above ∈ image.lineage klass) (isVirtual : image.isVirtual method = true) :
    image.root method ∈ image.introduced klass := by
  induction method using Image.root.induct image generalizing above with
  | case1 method base overrides ih =>
    obtain ⟨baseVirtual, baseMember, inTail⟩ := image.getBase_spec overrides
    rw [image.owner_methods membership] at inTail
    rw [root_of_some overrides]
    exact ih baseMember
      (image.mem_lineage_trans (List.mem_of_mem_tail inTail) lineage) baseVirtual
  | case2 method new =>
    rw [root_of_none new]
    exact mem_introduced.mpr ⟨above, lineage, membership, isNew_iff.mpr ⟨isVirtual, new⟩⟩

theorem not_mem_methods_of_introduced (parent : image.parent klass = some above)
    (inherited : slot ∈ image.introduced above) : slot ∉ image.methods klass := by
  obtain ⟨owner, lineage, membership, -⟩ := mem_introduced.mp inherited
  intro own
  have same : owner = klass :=
    (image.owner_methods membership).symm.trans (image.owner_methods own)
  exact image.not_mem_lineage_parent parent (same ▸ lineage)

variable [DecidableEq Method]

def taking (image : Image Class Method Field Decl) (slot : Method) (methods : List Method) :
    Option Method :=
  methods.find? fun method => image.isVirtual method && image.root method = slot

theorem mostDerived_of_parent (parent : image.parent klass = some above) (slot : Method) :
    image.mostDerived klass slot =
      (taking image slot (image.methods klass)).or (image.mostDerived above slot) := by
  rw [Image.mostDerived, image.lineage_of_parent parent, List.findSome?_cons, taking]
  split
  case h_1 method found => rw [found, Option.some_or]
  case h_2 absent => rw [absent, Option.none_or, Image.mostDerived]

theorem mostDerived_of_none (parent : image.parent klass = none) (slot : Method) :
    image.mostDerived klass slot = taking image slot (image.methods klass) := by
  rw [Image.mostDerived, image.lineage_of_none parent, List.findSome?_cons, taking]
  split
  case h_1 method found => rw [found]
  case h_2 absent => rw [absent, List.findSome?_nil]

end Slots

section Filling

variable [DecidableEq Class] [DecidableEq Method] {image : Image Class Method Field Decl}
  {klass : Class}

/-- Where the second loop of `parse_vtable` stands: the methods `filled` of the
class have been put into the table, `rest` is left.  `inherited` are the slots of
the ancestors, which hold `baseValue`, and `before` is the state before the loop. -/
structure Filling (image : Image Class Method Field Decl) (klass : Class)
    (inherited : List Method) (baseValue : Method → Option Method)
    (before : State Class Method Field Decl) (filled rest : List Method)
    (state : State Class Method Field Decl) (vector : Vector Method) : Prop where
  stored : state.vtable klass = some vector
  slots : (inherited ++ filled.filter image.isNew).map state.index =
    List.range vector.values.length
  roots : ∀ method ∈ filled, image.isVirtual method = true →
    state.index method = state.index (image.root method)
  values : ∀ slot ∈ inherited ++ filled.filter image.isNew,
    vector.values[state.index slot]? = some ((taking image slot filled).or (baseValue slot))
  room : vector.values.length + (rest.filter image.isNew).length ≤ vector.alloc
  otherIndices : ∀ method ∉ filled, state.index method = before.index method
  otherTables : ∀ other ≠ klass, state.vtable other = before.vtable other
  binfo : state.binfo = before.binfo
  typeParsed : state.typeParsed = before.typeParsed

theorem eq_of_map_eq_range {α : Type} {items : List α} {number : α → Nat} {count : Nat}
    (numbered : items.map number = List.range count) {first second : α}
    (firstMember : first ∈ items) (secondMember : second ∈ items)
    (same : number first = number second) : first = second := by
  have nodup : (items.map number).Nodup := numbered ▸ List.nodup_range
  exact List.inj_on_of_nodup_map nodup firstMember secondMember same

theorem lt_of_map_eq_range {α : Type} {items : List α} {number : α → Nat} {count : Nat}
    (numbered : items.map number = List.range count) {item : α} (member : item ∈ items) :
    number item < count := by
  have image : number item ∈ items.map number := List.mem_map_of_mem member
  rwa [numbered, List.mem_range] at image

omit [DecidableEq Class] in
theorem taking_append (slot : Method) (filled : List Method) (method : Method) :
    taking image slot (filled ++ [method]) =
      (taking image slot filled).or
        (if image.isVirtual method && image.root method = slot then some method else none) := by
  unfold taking
  rw [List.find?_append]
  congr 1
  rw [List.find?_cons, List.find?_nil]
  split <;> simp_all

def withMethod (klass : Class) (method : Method) (index : Nat) (vector : Vector Method)
    (state : State Class Method Field Decl) : State Class Method Field Decl :=
  { state with
    index := Function.update state.index method index
    vtable := Function.update state.vtable klass
      (some { vector with values := vector.values.set index (some method) })
    registered := Function.update state.registered method true
    deferred := state.deferred ++ [method] }

theorem setVirtualMethod_override {method base : Method} {vector : Vector Method}
    {state : State Class Method Field Decl} (isVirtual : image.isVirtual method = true)
    (overrides : image.getBase method = some base) (stored : state.vtable klass = some vector)
    (inside : state.index base < vector.values.length) :
    setVirtualMethod image klass method state =
      some (withMethod klass method (state.index base) vector state) := by
  simp [setVirtualMethod, isVirtual, vtableIndex, overrides, scilSetVtableSlot, registerMethod,
    stored, inside, deferMethod, withMethod]

theorem setVirtualMethod_new {method : Method} {vector : Vector Method}
    {state : State Class Method Field Decl} (isVirtual : image.isVirtual method = true)
    (new : image.getBase method = none) (stored : state.vtable klass = some vector)
    (room : vector.values.length < vector.alloc) :
    setVirtualMethod image klass method state =
      some (withMethod klass method vector.values.length
        { vector with values := vector.values ++ [none] } state) := by
  simp [setVirtualMethod, isVirtual, vtableIndex, new, scilNewVtableSlot, scilSetVtableSlot,
    registerMethod, stored, room, deferMethod, withMethod]

section Pass

variable {inherited filled rest : List Method} {baseValue : Method → Option Method}
  {before state : State Class Method Field Decl} {vector : Vector Method} {method : Method}

omit [DecidableEq Class] in
theorem Filling.plain
    (filling : Filling image klass inherited baseValue before filled (method :: rest) state vector)
    (notVirtual : ¬ image.isVirtual method = true) :
    Filling image klass inherited baseValue before (filled ++ [method]) rest state vector := by
  obtain ⟨stored, slots, roots, values, room, otherIndices, otherTables, binfo, typeParsed⟩ :=
    filling
  have notNew : image.isNew method = false := by simp [Image.isNew, notVirtual]
  have sameSlots : (filled ++ [method]).filter image.isNew = filled.filter image.isNew := by
    simp [notNew]
  refine ⟨stored, ?_, ?_, ?_, ?_, ?_, otherTables, binfo, typeParsed⟩
  · rwa [sameSlots]
  · intro other membership isVirtual
    rcases List.mem_append.mp membership with known | last
    · exact roots other known isVirtual
    · exact absurd (List.mem_singleton.mp last ▸ isVirtual) notVirtual
  · intro slot membership
    rw [sameSlots] at membership
    rw [values slot membership, taking_append]
    simp [notVirtual]
  · simpa [notNew] using room
  · intro other absent
    exact otherIndices other fun known => absent (List.mem_append_left _ known)

/-- The method is not yet in the table, nor is another one in its slot. -/
structure Unfilled (image : Image Class Method Field Decl) (inherited filled : List Method)
    (method : Method) : Prop where
  notInherited : method ∉ inherited
  notFilled : method ∉ filled
  slotFree : taking image (image.root method) filled = none

omit [DecidableEq Class] in
theorem Unfilled.root_ne (unfilled : Unfilled image inherited filled method) {other : Method}
    (member : other ∈ filled) (isVirtual : image.isVirtual other = true) :
    image.root other ≠ image.root method := by
  have free := List.find?_eq_none.mp unfilled.slotFree other member
  simpa [isVirtual] using free

/-- The table after the method is put into its slot.  `opened` is the table
before, with the new slot if the method has one. -/
theorem Filling.pass
    (filling : Filling image klass inherited baseValue before filled (method :: rest) state vector)
    (unfilled : Unfilled image inherited filled method) (isVirtual : image.isVirtual method = true)
    {index : Nat} {opened : Vector Method}
    (numbered : (inherited ++ (filled ++ [method]).filter image.isNew).map
      (Function.update state.index method index) = List.range opened.values.length)
    (rootMember : image.root method ∈ inherited ++ (filled ++ [method]).filter image.isNew)
    (rootIndex : Function.update state.index method index (image.root method) = index)
    (older : ∀ slot ∈ inherited ++ (filled ++ [method]).filter image.isNew,
      slot ≠ image.root method → slot ∈ inherited ++ filled.filter image.isNew)
    (kept : ∀ slot ∈ inherited ++ filled.filter image.isNew,
      opened.values[state.index slot]? = vector.values[state.index slot]?)
    (room : opened.values.length + (rest.filter image.isNew).length ≤ opened.alloc) :
    Filling image klass inherited baseValue before (filled ++ [method]) rest
      (withMethod klass method index opened state)
      { opened with values := opened.values.set index (some method) } where
  stored := Function.update_self ..
  slots := by
    rw [List.length_set]
    exact numbered
  roots := by
    intro other membership otherVirtual
    change Function.update state.index method index other =
      Function.update state.index method index (image.root other)
    rcases List.mem_append.mp membership with known | last
    · have different : other ≠ method := fun same => unfilled.notFilled (same ▸ known)
      have apart := unfilled.root_ne known otherVirtual
      have rootDifferent : image.root other ≠ method := by
        intro same
        apply apart
        rw [← root_root image other, same]
      rw [Function.update_of_ne different, Function.update_of_ne rootDifferent]
      exact filling.roots other known otherVirtual
    · rw [List.mem_singleton.mp last, rootIndex, Function.update_self]
  values := by
    intro slot membership
    change (opened.values.set index (some method))[
      Function.update state.index method index slot]? = _
    rw [taking_append]
    by_cases same : slot = image.root method
    · subst same
      have inside := lt_of_map_eq_range numbered membership
      rw [rootIndex] at inside ⊢
      rw [List.getElem?_set_self inside]
      simp [unfilled.slotFree, isVirtual]
    · have apart : index ≠ Function.update state.index method index slot := by
        intro sameIndex
        exact same (eq_of_map_eq_range numbered membership rootMember
          (sameIndex.symm.trans rootIndex.symm))
      have member := older slot membership same
      have different : slot ≠ method := by
        rintro rfl
        rcases List.mem_append.mp member with known | new
        · exact unfilled.notInherited known
        · exact unfilled.notFilled (List.mem_filter.mp new).1
      rw [List.getElem?_set_ne apart, Function.update_of_ne different, kept slot member,
        filling.values slot member]
      have otherRoot : ¬ image.root method = slot := fun equality => same equality.symm
      simp [otherRoot]
  room := by
    rw [List.length_set]
    exact room
  otherIndices := by
    intro other absent
    rw [List.mem_append, List.mem_singleton, not_or] at absent
    change Function.update state.index method index other = _
    rw [Function.update_of_ne absent.2]
    exact filling.otherIndices other absent.1
  otherTables := by
    intro other different
    change Function.update state.vtable klass _ other = _
    rw [Function.update_of_ne different]
    exact filling.otherTables other different
  binfo := filling.binfo
  typeParsed := filling.typeParsed

omit [DecidableEq Class] in
theorem Unfilled.map_update (unfilled : Unfilled image inherited filled method)
    (number : Method → Nat) (index : Nat) :
    (inherited ++ filled.filter image.isNew).map (Function.update number method index) =
      (inherited ++ filled.filter image.isNew).map number := by
  apply List.map_congr_left
  intro slot membership
  apply Function.update_of_ne
  rintro rfl
  rcases List.mem_append.mp membership with known | new
  · exact unfilled.notInherited known
  · exact unfilled.notFilled (List.mem_filter.mp new).1

theorem Filling.override
    (filling : Filling image klass inherited baseValue before filled (method :: rest) state vector)
    (unfilled : Unfilled image inherited filled method) {base : Method}
    (isVirtual : image.isVirtual method = true) (overrides : image.getBase method = some base)
    (rootInherited : image.root method ∈ inherited)
    (baseIndex : state.index base = state.index (image.root method)) :
    ∃ state' vector', setVirtualMethod image klass method state = some state' ∧
      Filling image klass inherited baseValue before (filled ++ [method]) rest state' vector' := by
  have notNew : image.isNew method = false := by simp [Image.isNew, overrides]
  have sameSlots : (filled ++ [method]).filter image.isNew = filled.filter image.isNew := by
    simp [notNew]
  have rootMember : image.root method ∈ inherited ++ filled.filter image.isNew :=
    List.mem_append_left _ rootInherited
  have inside : state.index base < vector.values.length := by
    rw [baseIndex]
    exact lt_of_map_eq_range filling.slots rootMember
  have rootDifferent : image.root method ≠ method :=
    fun same => unfilled.notInherited (same ▸ rootInherited)
  refine ⟨_, _, setVirtualMethod_override isVirtual overrides filling.stored inside,
    filling.pass unfilled isVirtual ?_ ?_ ?_ ?_ ?_ ?_⟩
  · rw [sameSlots, unfilled.map_update]
    exact filling.slots
  · rwa [sameSlots]
  · rw [Function.update_of_ne rootDifferent, baseIndex]
  · rw [sameSlots]
    exact fun slot member _ => member
  · exact fun _ _ => rfl
  · simpa [notNew] using filling.room

theorem Filling.new
    (filling : Filling image klass inherited baseValue before filled (method :: rest) state vector)
    (unfilled : Unfilled image inherited filled method)
    (isVirtual : image.isVirtual method = true) (new : image.getBase method = none) :
    ∃ state' vector', setVirtualMethod image klass method state = some state' ∧
      Filling image klass inherited baseValue before (filled ++ [method]) rest state' vector' := by
  have isNew : image.isNew method = true := isNew_iff.mpr ⟨isVirtual, new⟩
  have moreSlots : inherited ++ (filled ++ [method]).filter image.isNew =
      (inherited ++ filled.filter image.isNew) ++ [method] := by
    simp [isNew]
  have room := filling.room
  rw [List.filter_cons_of_pos isNew, List.length_cons] at room
  refine ⟨_, _, setVirtualMethod_new isVirtual new filling.stored (by omega),
    filling.pass unfilled isVirtual ?_ ?_ ?_ ?_ ?_ ?_⟩
  · rw [moreSlots, List.map_append, unfilled.map_update, filling.slots]
    simp [List.range_succ]
  · rw [moreSlots, root_of_none new]
    exact List.mem_append_right _ List.mem_cons_self
  · rw [root_of_none new, Function.update_self]
  · rw [moreSlots, root_of_none new]
    intro slot membership different
    rcases List.mem_append.mp membership with known | last
    · exact known
    · exact absurd (List.mem_singleton.mp last) different
  · intro slot membership
    exact List.getElem?_append_left (lt_of_map_eq_range filling.slots membership)
  · simp only [List.length_append, List.length_singleton]
    omega

/-- What the loop relies on: no inherited slot is one of a method of the class,
and what a method overrides has the index of an inherited slot. -/
structure Inherits (image : Image Class Method Field Decl) (klass : Class)
    (inherited : List Method) (before : State Class Method Field Decl) : Prop where
  apart : ∀ slot ∈ inherited, slot ∉ image.methods klass
  overridden : ∀ method ∈ image.methods klass, ∀ base, image.getBase method = some base →
    image.isVirtual method = true →
      image.root method ∈ inherited ∧ base ∉ image.methods klass ∧
        before.index base = before.index (image.root method)

end Pass

end Filling

section Loop

variable [DecidableEq Class] [DecidableEq Method] {hierarchy : Hierarchy Class Method Field Decl}
  {klass : Class} {inherited : List Method} {baseValue : Method → Option Method}
  {before : State Class Method Field Decl}

omit [DecidableEq Class] in
theorem Hierarchy.unfilled {filled rest : List Method} {method : Method}
    (split : hierarchy.methods klass = filled ++ method :: rest)
    (inherits : Inherits hierarchy.toImage klass inherited before)
    (isVirtual : hierarchy.isVirtual method = true) :
    Unfilled hierarchy.toImage inherited filled method := by
  have nodup := hierarchy.roots_nodup klass
  rw [split, List.filter_append, List.filter_cons_of_pos isVirtual, List.map_append,
    List.map_cons] at nodup
  have fresh : ∀ other ∈ filled, hierarchy.isVirtual other = true →
      hierarchy.root other ≠ hierarchy.root method := by
    intro other member otherVirtual same
    have rootMember : hierarchy.root other ∈
        (filled.filter hierarchy.isVirtual).map hierarchy.root :=
      List.mem_map_of_mem (List.mem_filter.mpr ⟨member, otherVirtual⟩)
    exact (List.nodup_append.mp nodup).2.2 _ rootMember _ List.mem_cons_self same
  refine ⟨?_, ?_, ?_⟩
  · intro known
    apply inherits.apart method known
    rw [split]
    exact List.mem_append_right _ List.mem_cons_self
  · exact fun known => fresh method known isVirtual rfl
  · apply List.find?_eq_none.mpr
    intro other member
    simp only [Bool.and_eq_true, decide_eq_true_eq, not_and]
    exact fresh other member

theorem Filling.loop {filled rest : List Method} {state : State Class Method Field Decl}
    {vector : Vector Method} (split : hierarchy.methods klass = filled ++ rest)
    (inherits : Inherits hierarchy.toImage klass inherited before)
    (filling : Filling hierarchy.toImage klass inherited baseValue before filled rest state vector) :
    ∃ state' vector', setVtableSlots hierarchy.toImage klass rest state = some state' ∧
      Filling hierarchy.toImage klass inherited baseValue before (hierarchy.methods klass) []
        state' vector' := by
  induction rest generalizing filled state vector with
  | nil =>
    rw [List.append_nil] at split
    subst split
    exact ⟨state, vector, rfl, filling⟩
  | cons method rest ih =>
    have pass : ∃ state' vector',
        setVirtualMethod hierarchy.toImage klass method state = some state' ∧
          Filling hierarchy.toImage klass inherited baseValue before (filled ++ [method]) rest
            state' vector' := by
      by_cases isVirtual : hierarchy.isVirtual method = true
      · have unfilled := Hierarchy.unfilled split inherits isVirtual
        cases overrides : hierarchy.getBase method with
        | none => exact filling.new unfilled isVirtual overrides
        | some base =>
          have own : ∀ {other}, other ∉ hierarchy.methods klass → other ∉ filled := by
            intro other absent member
            apply absent
            rw [split]
            exact List.mem_append_left _ member
          obtain ⟨rootInherited, baseApart, baseIndex⟩ := inherits.overridden method
            (by rw [split]; exact List.mem_append_right _ List.mem_cons_self) base overrides
            isVirtual
          refine filling.override unfilled isVirtual overrides rootInherited ?_
          rw [filling.otherIndices base (own baseApart),
            filling.otherIndices _ (own (inherits.apart _ rootInherited))]
          exact baseIndex
      · refine ⟨state, vector, ?_, filling.plain isVirtual⟩
        simp [setVirtualMethod, isVirtual]
    obtain ⟨state₁, vector₁, passed, filling₁⟩ := pass
    obtain ⟨state', vector', looped, filling'⟩ :=
      ih (by rw [split, List.append_assoc]; rfl) filling₁
    refine ⟨state', vector', ?_, filling'⟩
    rw [setVtableSlots, passed]
    exact looped

end Loop

section Tables

variable [DecidableEq Class] [DecidableEq Method] {image : Image Class Method Field Decl}
  {state state' : State Class Method Field Decl}

/-- Every table that was made is right; base information and tables are there
for the parent of a class too. -/
structure Tables (image : Image Class Method Field Decl) (state : State Class Method Field Decl) :
    Prop where
  right : ∀ klass vector, state.vtable klass = some vector → RightTable image state klass vector
  closed : ∀ klass above, (state.vtable klass).isSome = true → image.parent klass = some above →
    (state.vtable above).isSome = true
  based : ∀ klass above, state.binfo klass = true → image.parent klass = some above →
    state.binfo above = true
  parsed : state.typeParsed = state.binfo

structure Grows (image : Image Class Method Field Decl)
    (state state' : State Class Method Field Decl) : Prop where
  tables : ∀ klass vector, state.vtable klass = some vector → state'.vtable klass = some vector
  indices : ∀ method, (state.vtable (image.owner method)).isSome = true →
    state'.index method = state.index method
  binfo : state'.binfo = state.binfo
  typeParsed : state'.typeParsed = state.typeParsed

omit [DecidableEq Class] [DecidableEq Method] in
theorem Grows.refl (image : Image Class Method Field Decl)
    (state : State Class Method Field Decl) : Grows image state state :=
  ⟨fun _ _ known => known, fun _ _ => rfl, rfl, rfl⟩

omit [DecidableEq Class] [DecidableEq Method] in
theorem Grows.isSome (grows : Grows image state state') {klass : Class}
    (known : (state.vtable klass).isSome = true) : (state'.vtable klass).isSome = true := by
  obtain ⟨vector, stored⟩ := Option.isSome_iff_exists.mp known
  rw [grows.tables klass vector stored]
  rfl

omit [DecidableEq Class] [DecidableEq Method] in
theorem Grows.trans {state'' : State Class Method Field Decl} (first : Grows image state state')
    (second : Grows image state' state'') : Grows image state state'' where
  tables := fun klass vector stored =>
    second.tables klass vector (first.tables klass vector stored)
  indices := fun method known =>
    (second.indices method (first.isSome known)).trans (first.indices method known)
  binfo := second.binfo.trans first.binfo
  typeParsed := second.typeParsed.trans first.typeParsed

omit [DecidableEq Class] in
theorem Tables.lineage_isSome (tables : Tables image state) {klass above : Class}
    (known : (state.vtable klass).isSome = true) (lineage : above ∈ image.lineage klass) :
    (state.vtable above).isSome = true :=
  image.forall_lineage (motive := fun other => (state.vtable other).isSome = true)
    (fun child parent isParent has => tables.closed child parent has isParent) known lineage

omit [DecidableEq Class] in
theorem RightTable.grow (tables : Tables image state) (grows : Grows image state state')
    {klass : Class} {vector : Vector Method} (right : RightTable image state klass vector) :
    RightTable image state' klass vector := by
  have known : (state.vtable klass).isSome = true := by rw [right.stored]; rfl
  have index : ∀ above ∈ image.lineage klass, ∀ method ∈ image.methods above,
      state'.index method = state.index method := by
    intro above lineage method membership
    apply grows.indices
    rw [image.owner_methods membership]
    exact tables.lineage_isSome known lineage
  have slotIndex : ∀ slot ∈ image.introduced klass, state'.index slot = state.index slot := by
    intro slot membership
    obtain ⟨above, lineage, member, -⟩ := mem_introduced.mp membership
    exact index above lineage slot member
  refine ⟨grows.tables klass vector right.stored, ?_, ?_, ?_, ?_, right.reserved⟩
  · rw [← right.oneSlotEach]
    exact List.map_congr_left slotIndex
  · intro first firstMember second secondMember same
    rw [slotIndex first firstMember, slotIndex second secondMember] at same
    exact right.distinct first firstMember second secondMember same
  · intro above lineage method membership isVirtual base overrides
    obtain ⟨-, baseMember, inTail⟩ := image.getBase_spec overrides
    rw [image.owner_methods membership] at inTail
    have baseLineage := image.mem_lineage_trans (List.mem_of_mem_tail inTail) lineage
    rw [index above lineage method membership, index _ baseLineage base baseMember]
    exact right.overriding above lineage method membership isVirtual base overrides
  · intro slot membership
    obtain ⟨method, derived, value⟩ := right.mostDerived slot membership
    refine ⟨method, derived, ?_⟩
    rw [slotIndex slot membership]
    exact value

omit [DecidableEq Class] in
theorem RightTable.index_root {klass : Class} {vector : Vector Method}
    (right : RightTable image state klass vector) {above : Class} {method : Method}
    (lineage : above ∈ image.lineage klass) (membership : method ∈ image.methods above)
    (isVirtual : image.isVirtual method = true) :
    state.index method = state.index (image.root method) := by
  induction method using Image.root.induct image generalizing above with
  | case1 method base overrides ih =>
    obtain ⟨baseVirtual, baseMember, inTail⟩ := image.getBase_spec overrides
    rw [image.owner_methods membership] at inTail
    rw [root_of_some overrides,
      right.overriding above lineage method membership isVirtual base overrides]
    exact ih
      (image.mem_lineage_trans (List.mem_of_mem_tail inTail) lineage) baseMember baseVirtual
  | case2 method new => rw [root_of_none new]

end Tables

section ParseVtable

variable [DecidableEq Class] [DecidableEq Method] {hierarchy : Hierarchy Class Method Field Decl}
  {state : State Class Method Field Decl} {klass : Class}

omit [DecidableEq Method] in
theorem scilSetBaseClass_of_binfo (known : state.binfo klass = true) :
    scilSetBaseClass klass state = state := by
  unfold scilSetBaseClass
  rw [← known, Function.update_eq_self]

theorem Filling.start_of_parent (tables : Tables hierarchy.toImage state)
    {above : Class} {base : Vector Method} (parent : hierarchy.parent klass = some above)
    (stored : state.vtable above = some base) :
    ∃ vector, Inherits hierarchy.toImage klass (hierarchy.introduced above) state ∧
      Filling hierarchy.toImage klass (hierarchy.introduced above)
        (hierarchy.mostDerived above) state [] (hierarchy.methods klass)
        (scilMakeVtable hierarchy.toImage klass (hierarchy.newMethods klass).length state)
        vector := by
  have right := tables.right above base stored
  refine ⟨⟨base.values, base.values.length +
    ((hierarchy.newMethods klass).length + base.values.length)⟩, ⟨?_, ?_⟩, ⟨?_, ?_, ?_, ?_, ?_,
      fun _ _ => rfl, ?_, rfl, rfl⟩⟩
  · exact fun slot inherited => not_mem_methods_of_introduced parent inherited
  · intro method membership overridden overrides isVirtual
    obtain ⟨baseVirtual, baseMember, inTail⟩ := hierarchy.getBase_spec overrides
    rw [hierarchy.owner_methods membership, hierarchy.lineage_of_parent parent,
      List.tail_cons] at inTail
    rw [root_of_some overrides]
    refine ⟨root_mem_introduced baseMember inTail baseVirtual, ?_,
      right.index_root inTail baseMember baseVirtual⟩
    intro own
    rw [hierarchy.owner_methods own] at inTail
    exact hierarchy.not_mem_lineage_parent parent inTail
  · simp [scilMakeVtable, parent, stored]
  · rw [List.filter_nil, List.append_nil]
    exact right.oneSlotEach
  · intro method membership
    cases membership
  · intro slot membership
    obtain ⟨method, derived, value⟩ := right.mostDerived slot (by simpa using membership)
    simp only [taking, List.find?_nil, Option.none_or, derived]
    exact value
  · simp only [Image.newMethods]
    omega
  · intro other different
    exact Function.update_of_ne different _ _

theorem Filling.start_of_none (state : State Class Method Field Decl)
    (parent : hierarchy.parent klass = none) :
    ∃ vector, Inherits hierarchy.toImage klass [] state ∧
      Filling hierarchy.toImage klass [] (fun _ => none) state [] (hierarchy.methods klass)
        (scilMakeVtable hierarchy.toImage klass (hierarchy.newMethods klass).length state)
        vector := by
  refine ⟨⟨[], (hierarchy.newMethods klass).length⟩, ⟨by simp, ?_⟩, ⟨?_, by simp, ?_, ?_, ?_,
    fun _ _ => rfl, ?_, rfl, rfl⟩⟩
  · intro method membership base overrides
    have inTail := (hierarchy.getBase_spec overrides).2.2
    rw [hierarchy.owner_methods membership, hierarchy.lineage_of_none parent] at inTail
    cases inTail
  · simp [scilMakeVtable, parent]
  · intro method membership
    cases membership
  · intro slot membership
    cases membership
  · simp [Image.newMethods]
  · intro other different
    exact Function.update_of_ne different _ _

structure Layout (image : Image Class Method Field Decl) (klass : Class)
    (inherited : List Method) (baseValue : Method → Option Method)
    (before : State Class Method Field Decl) : Prop where
  introduced : image.introduced klass = inherited ++ image.newMethods klass
  derived : ∀ slot, image.mostDerived klass slot =
    (taking image slot (image.methods klass)).or (baseValue slot)
  base : ∀ slot ∈ inherited, (baseValue slot).isSome = true
  overriding : ∀ above ∈ (image.lineage klass).tail, ∀ method ∈ image.methods above,
    image.isVirtual method = true → ∀ overridden, image.getBase method = some overridden →
      before.index method = before.index overridden

omit [DecidableEq Class] in
theorem Filling.rightTable {image : Image Class Method Field Decl} {inherited : List Method}
    {baseValue : Method → Option Method} {before : State Class Method Field Decl}
    {vector : Vector Method} (layout : Layout image klass inherited baseValue before)
    (inherits : Inherits image klass inherited before)
    (filling : Filling image klass inherited baseValue before (image.methods klass) [] state
      vector) :
    RightTable image state klass vector := by
  have slots := filling.slots
  change (inherited ++ image.newMethods klass).map state.index = _ at slots
  have ancestor : ∀ above ∈ (image.lineage klass).tail, ∀ method ∈ image.methods above,
      state.index method = before.index method := by
    intro above inTail method membership
    apply filling.otherIndices
    intro own
    have same := (image.owner_methods membership).symm.trans (image.owner_methods own)
    exact Nat.lt_irrefl _ (same ▸ image.depth_lt_of_mem_tail inTail)
  refine ⟨filling.stored, ?_, ?_, ?_, ?_, ?_⟩
  · rw [layout.introduced]
    exact slots
  · rw [layout.introduced]
    exact fun first firstMember second secondMember same =>
      eq_of_map_eq_range slots firstMember secondMember same
  · intro above lineage method membership isVirtual base overrides
    rw [Lib.Forest.lineage] at lineage
    rcases List.mem_cons.mp lineage with rfl | inTail
    · obtain ⟨rootInherited, baseApart, baseIndex⟩ :=
        inherits.overridden method membership base overrides isVirtual
      rw [filling.roots method membership isVirtual, filling.otherIndices base baseApart,
        filling.otherIndices _ (inherits.apart _ rootInherited), baseIndex]
    · have inTail' : above ∈ (image.lineage klass).tail := by
        rw [Lib.Forest.lineage]
        exact inTail
      obtain ⟨-, baseMember, baseTail⟩ := image.getBase_spec overrides
      rw [image.owner_methods membership] at baseTail
      have baseTail' := image.mem_tail_trans (List.mem_of_mem_tail baseTail) inTail'
      rw [ancestor above inTail' method membership, ancestor _ baseTail' base baseMember]
      exact layout.overriding above inTail' method membership isVirtual base overrides
  · intro slot membership
    rw [layout.introduced] at membership
    have value := filling.values slot membership
    rw [← layout.derived slot] at value
    have found : (image.mostDerived klass slot).isSome = true := by
      rw [layout.derived slot]
      rcases List.mem_append.mp membership with known | new
      · simp [layout.base slot known]
      · obtain ⟨own, isNew⟩ := List.mem_filter.mp new
        obtain ⟨isVirtual, overridesNone⟩ := isNew_iff.mp isNew
        have taken : (taking image slot (image.methods klass)).isSome = true := by
          rw [taking, List.find?_isSome]
          exact ⟨slot, own, by simp [isVirtual, root_of_none overridesNone]⟩
        simp [taken]
    obtain ⟨method, derived⟩ := Option.isSome_iff_exists.mp found
    exact ⟨method, derived, by rw [value, derived]⟩
  · simpa using filling.room

theorem Filling.tables {image : Image Class Method Field Decl} {inherited : List Method}
    {baseValue : Method → Option Method} {before : State Class Method Field Decl}
    {vector : Vector Method} (tables : Tables image before)
    (absent : before.vtable klass = none)
    (parentTable : ∀ above, image.parent klass = some above →
      (before.vtable above).isSome = true)
    (layout : Layout image klass inherited baseValue before)
    (inherits : Inherits image klass inherited before)
    (filling : Filling image klass inherited baseValue before (image.methods klass) [] state
      vector) :
    Tables image state ∧ Grows image before state := by
  have right := filling.rightTable layout inherits
  have different : ∀ other vector, before.vtable other = some vector → other ≠ klass := by
    rintro other vector stored rfl
    rw [absent] at stored
    contradiction
  have grows : Grows image before state := by
    refine ⟨?_, ?_, filling.binfo, filling.typeParsed⟩
    · intro other vector stored
      rw [filling.otherTables other (different other vector stored)]
      exact stored
    · intro method known
      apply filling.otherIndices
      intro own
      rw [image.owner_methods own, absent] at known
      contradiction
  refine ⟨⟨?_, ?_, ?_, ?_⟩, grows⟩
  · intro other vector' stored
    by_cases same : other = klass
    · subst same
      rw [filling.stored] at stored
      cases stored
      exact right
    · rw [filling.otherTables other same] at stored
      exact (tables.right other vector' stored).grow tables grows
  · intro other above has parent
    by_cases same : other = klass
    · subst same
      exact grows.isSome (parentTable above parent)
    · rw [filling.otherTables other same] at has
      exact grows.isSome (tables.closed other above has parent)
  · intro other above
    rw [filling.binfo]
    exact tables.based other above
  · rw [filling.typeParsed, filling.binfo]
    exact tables.parsed

omit [DecidableEq Class] in
theorem layout_of_parent {image : Image Class Method Field Decl} {above : Class}
    {base : Vector Method} (parent : image.parent klass = some above)
    (right : RightTable image state above base) :
    Layout image klass (image.introduced above) (image.mostDerived above) state where
  introduced := introduced_of_parent parent
  derived := mostDerived_of_parent parent
  base := by
    intro slot membership
    obtain ⟨method, derived, -⟩ := right.mostDerived slot membership
    rw [derived]
    rfl
  overriding := by
    rw [image.lineage_of_parent parent, List.tail_cons]
    exact right.overriding

omit [DecidableEq Class] in
theorem layout_of_none {image : Image Class Method Field Decl}
    (parent : image.parent klass = none) :
    Layout image klass [] (fun _ => none) state where
  introduced := introduced_of_none parent
  derived := by
    intro slot
    rw [mostDerived_of_none parent, Option.or_none]
  base := by simp
  overriding := by simp [image.lineage_of_none parent]

/-- What making the table of a class does: the class has a right table, and
only it and its ancestors may have got one. -/
structure Made (image : Image Class Method Field Decl) (klass : Class)
    (state state' : State Class Method Field Decl) : Prop where
  tables : Tables image state'
  grows : Grows image state state'
  made : (state'.vtable klass).isSome = true
  others : ∀ other ∉ image.lineage klass, state'.vtable other = state.vtable other

theorem makeTable_spec (tables : Tables hierarchy.toImage state)
    (absent : state.vtable klass = none)
    (parentTable : ∀ above, hierarchy.parent klass = some above →
      (state.vtable above).isSome = true) :
    ∃ state', setVtableSlots hierarchy.toImage klass (hierarchy.methods klass)
        (scilMakeVtable hierarchy.toImage klass (hierarchy.newMethods klass).length state) =
          some state' ∧
      Made hierarchy.toImage klass state state' := by
  have finish : ∀ {inherited baseValue vector},
      Layout hierarchy.toImage klass inherited baseValue state →
      Inherits hierarchy.toImage klass inherited state →
      Filling hierarchy.toImage klass inherited baseValue state [] (hierarchy.methods klass)
        (scilMakeVtable hierarchy.toImage klass (hierarchy.newMethods klass).length state) vector →
      ∃ state', setVtableSlots hierarchy.toImage klass (hierarchy.methods klass)
          (scilMakeVtable hierarchy.toImage klass (hierarchy.newMethods klass).length state) =
            some state' ∧
        Made hierarchy.toImage klass state state' := by
    intro inherited baseValue vector layout inherits filling
    obtain ⟨state', vector', looped, filling'⟩ := filling.loop rfl inherits
    obtain ⟨tables', grows⟩ := filling'.tables tables absent parentTable layout inherits
    refine ⟨state', looped, tables', grows, by rw [filling'.stored]; rfl, ?_⟩
    intro other outside
    apply filling'.otherTables
    rintro rfl
    exact outside (hierarchy.self_mem_lineage _)
  cases parent : hierarchy.parent klass with
  | none =>
    obtain ⟨vector, inherits, filling⟩ := Filling.start_of_none state parent
    exact finish (layout_of_none parent) inherits filling
  | some above =>
    obtain ⟨base, stored⟩ := Option.isSome_iff_exists.mp (parentTable above parent)
    obtain ⟨vector, inherits, filling⟩ := Filling.start_of_parent tables parent stored
    exact finish (layout_of_parent parent (tables.right above base stored)) inherits filling

theorem parseVtable_spec (tables : Tables hierarchy.toImage state)
    (dispatches : hierarchy.dispatches klass = true) (binfo : state.binfo klass = true) :
    ∃ state', parseVtable hierarchy.toImage klass state = some state' ∧
      Made hierarchy.toImage klass state state' := by
  induction klass using hierarchy.parent_induction generalizing state with
  | step klass ih =>
    rw [parseVtable]
    simp only [dispatches, binfo, Bool.not_true, Bool.false_eq_true, if_false]
    split
    case isTrue known => exact ⟨state, rfl, tables, Grows.refl _ _, known, fun _ _ => rfl⟩
    case isFalse unknown =>
      have absent : state.vtable klass = none := by simpa using unknown
      split
      case h_1 above parent =>
        have aboveDispatches : hierarchy.dispatches above = true := by
          simp [Image.dispatches, hierarchy.parent_dispatches parent]
        obtain ⟨state₁, parsed, tables₁, grows₁, known₁, others₁⟩ :=
          ih above parent tables aboveDispatches
            (tables.based klass above binfo parent)
        have binfo₁ : state₁.binfo klass = true := by rw [grows₁.binfo, binfo]
        have absent₁ : state₁.vtable klass = none := by
          rw [others₁ klass (hierarchy.not_mem_lineage_parent parent), absent]
        have parentTable : ∀ other, hierarchy.parent klass = some other →
            (state₁.vtable other).isSome = true := by
          intro other isParent
          rw [parent] at isParent
          cases isParent
          exact known₁
        obtain ⟨state', made, tables', grows', known', others'⟩ :=
          makeTable_spec tables₁ absent₁ parentTable
        refine ⟨state', ?_, tables', grows₁.trans grows', known', ?_⟩
        · rw [parsed, Option.map_some, scilSetBaseClass_of_binfo binfo₁]
          exact made
        · intro other outside
          rw [hierarchy.lineage_of_parent parent, List.mem_cons, not_or] at outside
          rw [others' other, others₁ other outside.2]
          rw [hierarchy.lineage_of_parent parent, List.mem_cons, not_or]
          exact outside
      case h_2 parent =>
        have parentTable : ∀ above, hierarchy.parent klass = some above →
            (state.vtable above).isSome = true := by
          intro above isParent
          rw [parent] at isParent
          contradiction
        exact makeTable_spec tables absent parentTable

end ParseVtable

section ParseInstanceFields

variable [DecidableEq Class] {image : Image Class Method Field Decl}
  {state : State Class Method Field Decl} {klass : Class}

omit [DecidableEq Class] in
theorem lineage_binfo
    (based : ∀ klass above, state.binfo klass = true → image.parent klass = some above →
      state.binfo above = true)
    (known : state.binfo klass = true) {above : Class} (lineage : above ∈ image.lineage klass) :
    state.binfo above = true :=
  image.forall_lineage (motive := fun other => state.binfo other = true)
    (fun child parent isParent has => based child parent has isParent) known lineage

/-- What `parse_instance_fields` does for a class with a vtable: it and its
ancestors have base information. -/
structure FieldsParsed (image : Image Class Method Field Decl) (klass : Class)
    (state state' : State Class Method Field Decl) : Prop where
  binfo : ∀ other, state'.binfo other = true ↔
    state.binfo other = true ∨ other ∈ image.lineage klass
  parsed : state'.typeParsed = state'.binfo
  vtable : state'.vtable = state.vtable
  index : state'.index = state.index
  registered : state'.registered = state.registered
  deferred : state'.deferred = state.deferred

theorem parseInstanceFields_spec
    (based : ∀ klass above, state.binfo klass = true → image.parent klass = some above →
      state.binfo above = true)
    (builtin : ∀ klass, image.isBuiltin klass = true → state.binfo klass = true)
    (parsed : state.typeParsed = state.binfo) (dispatches : image.dispatches klass = true) :
    FieldsParsed image klass state (parseInstanceFields image klass state) := by
  induction klass using image.parent_induction with
  | step klass ih =>
    rw [parseInstanceFields]
    by_cases known : state.typeParsed klass = true
    · rw [if_pos known]
      rw [parsed] at known
      refine ⟨?_, parsed, rfl, rfl, rfl, rfl⟩
      intro other
      exact ⟨Or.inl, fun either => either.elim id (lineage_binfo based known)⟩
    · rw [if_neg known, if_pos dispatches]
      split
      case h_1 above parent =>
        have aboveDispatches : image.dispatches above = true := by
          simp [Image.dispatches, image.parent_dispatches parent]
        obtain ⟨binfo₁, parsed₁, vtable₁, index₁, registered₁, deferred₁⟩ :=
          ih above parent aboveDispatches
        refine ⟨?_, ?_, vtable₁, index₁, registered₁, deferred₁⟩
        · intro other
          rw [image.lineage_of_parent parent, List.mem_cons]
          change Function.update (parseInstanceFields image above state).binfo klass true other =
            true ↔ _
          by_cases same : other = klass
          · subst same
            simp
          · rw [Function.update_of_ne same, binfo₁]
            simp [same]
        · change Function.update (parseInstanceFields image above state).typeParsed klass true =
            Function.update (parseInstanceFields image above state).binfo klass true
          rw [parsed₁]
      case h_2 parent =>
        rw [parsed] at known
        exact absurd (builtin klass (image.root_builtin parent)) known

end ParseInstanceFields

section Run

variable [DecidableEq Class] [DecidableEq Method] [DecidableEq Field]

/-- What an instruction does before it asks for fields and a vtable: methods are
registered and deferred, and static fields registered. -/
def readToken (image : Image Class Method Field Decl) (reference : Reference Method Field)
    (state : State Class Method Field Decl) : State Class Method Field Decl :=
  match reference with
  | .call method | .ldftn method | .callvirt method | .ldvirtftn method | .newobj method =>
    readMethod image method state
  | .field field =>
    if image.isStatic field && !state.registeredField field then
      registerStaticField image field state
    else state

def readFields (image : Image Class Method Field Decl) (reference : Reference Method Field)
    (state : State Class Method Field Decl) : State Class Method Field Decl :=
  match fieldsOf image reference with
  | some klass => parseInstanceFields image klass state
  | none => state

theorem readReference_eq (image : Image Class Method Field Decl)
    (reference : Reference Method Field) (state : State Class Method Field Decl) :
    readReference image reference state =
      match vtableOf image reference with
      | some klass =>
        parseVtable image klass (readFields image reference (readToken image reference state))
      | none => some (readFields image reference (readToken image reference state)) := by
  cases reference with
  | call method => rfl
  | ldftn method => rfl
  | callvirt method =>
    simp only [readReference, vtableOf, readFields, fieldsOf, readToken]
    split
    · rfl
    · split <;> rfl
  | ldvirtftn method => rfl
  | newobj constructor =>
    simp only [readReference, vtableOf, readFields, fieldsOf, readToken]
    split <;> rfl
  | field field =>
    simp only [readReference, readField, vtableOf, readFields, fieldsOf, readToken]
    cases isStatic : image.isStatic field with
    | false => simp
    | true => cases state.registeredField field <;> simp

structure SameTables (state state' : State Class Method Field Decl) : Prop where
  binfo : state'.binfo = state.binfo
  typeParsed : state'.typeParsed = state.typeParsed
  vtable : state'.vtable = state.vtable
  index : state'.index = state.index

omit [DecidableEq Class] in
theorem readToken_sameTables (image : Image Class Method Field Decl)
    (reference : Reference Method Field) (state : State Class Method Field Decl) :
    SameTables state (readToken image reference state) := by
  have method : ∀ method, SameTables state (readMethod image method state) := by
    intro method
    unfold readMethod
    split <;> exact ⟨rfl, rfl, rfl, rfl⟩
  cases reference with
  | call called => exact method called
  | ldftn loaded => exact method loaded
  | callvirt called => exact method called
  | ldvirtftn called => exact method called
  | newobj constructor => exact method constructor
  | field field =>
    simp only [readToken]
    split
    · unfold registerStaticField
      split <;> exact ⟨rfl, rfl, rfl, rfl⟩
    · exact ⟨rfl, rfl, rfl, rfl⟩

variable {image : Image Class Method Field Decl} {state state' : State Class Method Field Decl}

omit [DecidableEq Class] [DecidableEq Field] in
theorem RightTable.congr {klass : Class} {vector : Vector Method}
    (right : RightTable image state klass vector) (vtable : state'.vtable = state.vtable)
    (index : state'.index = state.index) : RightTable image state' klass vector := by
  obtain ⟨stored, oneSlotEach, distinct, overriding, mostDerived, reserved⟩ := right
  refine ⟨?_, ?_, ?_, ?_, ?_, reserved⟩ <;> simpa only [vtable, index]

structure Reading (image : Image Class Method Field Decl)
    (earlier : List (Reference Method Field)) (state : State Class Method Field Decl) : Prop where
  tables : Tables image state
  binfo : ∀ klass, state.binfo klass = true ↔ HasBase image earlier klass
  made : ∀ reference ∈ earlier, ∀ klass, vtableOf image reference = some klass →
    image.dispatches klass = true → (state.vtable klass).isSome = true

omit [DecidableEq Class] [DecidableEq Field] in
theorem start_reading (image : Image Class Method Field Decl) :
    Reading image [] (start image) := by
  refine ⟨⟨?_, ?_, ?_, rfl⟩, ?_, by simp⟩
  · intro klass vector stored
    cases stored
  · intro klass above has
    cases has
  · exact fun klass above builtin parent => image.builtin_parent parent builtin
  · intro klass
    simp [start, HasBase]

omit [DecidableEq Class] [DecidableEq Method] [DecidableEq Field] in
theorem hasBase_append (earlier : List (Reference Method Field))
    (reference : Reference Method Field) (klass : Class) :
    HasBase image (earlier ++ [reference]) klass ↔ HasBase image earlier klass ∨
      ∃ derived, fieldsOf image reference = some derived ∧ image.dispatches derived = true ∧
        klass ∈ image.lineage derived := by
  simp only [HasBase, List.mem_append, List.mem_singleton, or_and_right, exists_or,
    exists_eq_left, or_assoc]

theorem Reading.fields {earlier : List (Reference Method Field)}
    (reading : Reading image earlier state) (reference : Reference Method Field) :
    Tables image (readFields image reference (readToken image reference state)) ∧
      (∀ klass, (readFields image reference (readToken image reference state)).binfo klass = true ↔
        HasBase image (earlier ++ [reference]) klass) ∧
      (readFields image reference (readToken image reference state)).vtable = state.vtable := by
  obtain ⟨binfo₁, typeParsed₁, vtable₁, index₁⟩ := readToken_sameTables image reference state
  generalize readToken image reference state = read at binfo₁ typeParsed₁ vtable₁ index₁ ⊢
  obtain ⟨tables, binfo, -⟩ := reading
  have based : ∀ klass above, read.binfo klass = true → image.parent klass = some above →
      read.binfo above = true := by
    rw [binfo₁]
    exact tables.based
  have parsed : read.typeParsed = read.binfo := by
    rw [typeParsed₁, binfo₁]
    exact tables.parsed
  -- The instruction asks for the fields of a class with a vtable, or for none such.
  by_cases asked : ∃ derived, fieldsOf image reference = some derived ∧
      image.dispatches derived = true
  · obtain ⟨derived, fields, dispatches⟩ := asked
    have builtin : ∀ klass, image.isBuiltin klass = true → read.binfo klass = true := by
      intro klass isBuiltin
      rw [binfo₁]
      exact (binfo klass).mpr (.inl isBuiltin)
    obtain ⟨binfo₂, parsed₂, vtable₂, index₂, -⟩ :=
      parseInstanceFields_spec based builtin parsed dispatches
    simp only [readFields, fields]
    generalize parseInstanceFields image derived read = final
      at binfo₂ parsed₂ vtable₂ index₂ ⊢
    refine ⟨⟨?_, ?_, ?_, parsed₂⟩, ?_, vtable₂.trans vtable₁⟩
    · intro klass vector stored
      rw [vtable₂, vtable₁] at stored
      exact (tables.right klass vector stored).congr (vtable₂.trans vtable₁)
        (index₂.trans index₁)
    · intro klass above
      rw [vtable₂, vtable₁]
      exact tables.closed klass above
    · intro klass above has parent
      rw [binfo₂] at has ⊢
      rcases has with older | inLineage
      · exact .inl (based klass above older parent)
      · exact .inr (image.mem_lineage_trans (image.parent_mem_lineage parent) inLineage)
    · intro klass
      rw [binfo₂, binfo₁, binfo, hasBase_append, fields]
      simp [dispatches]
  · have unchanged : readFields image reference read = read := by
      unfold readFields
      split
      case h_1 klass fields =>
        have plain : ¬ image.dispatches klass = true := fun dispatches =>
          asked ⟨klass, fields, dispatches⟩
        rw [parseInstanceFields]
        simp [plain]
      case h_2 => rfl
    rw [unchanged]
    refine ⟨⟨?_, ?_, based, parsed⟩, ?_, vtable₁⟩
    · intro klass vector stored
      rw [vtable₁] at stored
      exact (tables.right klass vector stored).congr vtable₁ index₁
    · intro klass above
      rw [vtable₁]
      exact tables.closed klass above
    · intro klass
      rw [binfo₁, binfo, hasBase_append]
      constructor
      · exact Or.inl
      · rintro (older | ⟨derived, fields, dispatches, -⟩)
        · exact older
        · exact absurd ⟨derived, fields, dispatches⟩ asked

variable {hierarchy : Hierarchy Class Method Field Decl}
  {earlier : List (Reference Method Field)}

def Prepared (image : Image Class Method Field Decl) (earlier : List (Reference Method Field))
    (reference : Reference Method Field) : Prop :=
  ∀ klass, vtableOf image reference = some klass → image.dispatches klass = true →
    HasBase image (earlier ++ [reference]) klass

theorem Reading.step (reading : Reading hierarchy.toImage earlier state)
    {reference : Reference Method Field}
    (prepared : Prepared hierarchy.toImage earlier reference) :
    ∃ state', readReference hierarchy.toImage reference state = some state' ∧
      Reading hierarchy.toImage (earlier ++ [reference]) state' := by
  obtain ⟨tables, binfo, vtable⟩ := reading.fields reference
  rw [readReference_eq]
  generalize readFields hierarchy.toImage reference
    (readToken hierarchy.toImage reference state) = read at tables binfo vtable ⊢
  have older : ∀ state', Grows hierarchy.toImage read state' → ∀ other ∈ earlier, ∀ klass,
      vtableOf hierarchy.toImage other = some klass → hierarchy.dispatches klass = true →
        (state'.vtable klass).isSome = true := by
    intro state' grows other member klass asked dispatches
    apply grows.isSome
    rw [vtable]
    exact reading.made other member klass asked dispatches
  by_cases asked : ∃ klass, vtableOf hierarchy.toImage reference = some klass ∧
      hierarchy.dispatches klass = true
  · obtain ⟨klass, asks, dispatches⟩ := asked
    obtain ⟨state', parsed, made⟩ :=
      parseVtable_spec tables dispatches ((binfo klass).mpr (prepared klass asks dispatches))
    rw [asks]
    refine ⟨state', parsed, made.tables, ?_, ?_⟩
    · intro other
      rw [made.grows.binfo]
      exact binfo other
    · intro other member otherClass otherAsks otherDispatches
      rcases List.mem_append.mp member with before | last
      · exact older state' made.grows other before otherClass otherAsks otherDispatches
      · rw [List.mem_singleton.mp last, asks] at otherAsks
        cases otherAsks
        exact made.made
  · refine ⟨read, ?_, tables, binfo, ?_⟩
    · split
      case h_1 klass asks =>
        have plain : ¬ hierarchy.dispatches klass = true := fun dispatches =>
          asked ⟨klass, asks, dispatches⟩
        rw [parseVtable]
        simp [plain]
      case h_2 => rfl
    · intro other member otherClass otherAsks otherDispatches
      rcases List.mem_append.mp member with before | last
      · exact older read (Grows.refl _ _) other before otherClass otherAsks otherDispatches
      · rw [List.mem_singleton.mp last] at otherAsks
        exact absurd ⟨otherClass, otherAsks, otherDispatches⟩ asked

theorem Reading.prepared (reading : Reading image earlier state)
    {reference : Reference Method Field}
    (read : readReference image reference state = some state') :
    Prepared image earlier reference := by
  obtain ⟨-, binfo, -⟩ := reading.fields reference
  intro klass asks dispatches
  rw [readReference_eq, asks] at read
  rw [← binfo]
  by_contra unknown
  dsimp only at read
  rw [parseVtable] at read
  simp [dispatches, unknown] at read

theorem Reading.run (reading : Reading hierarchy.toImage earlier state)
    {references : List (Reference Method Field)}
    (prepared : ∀ middle reference later, references = middle ++ reference :: later →
      Prepared hierarchy.toImage (earlier ++ middle) reference) :
    ∃ final, readReferences hierarchy.toImage references state = some final ∧
      Reading hierarchy.toImage (earlier ++ references) final := by
  induction references generalizing earlier state with
  | nil => exact ⟨state, rfl, by rwa [List.append_nil]⟩
  | cons reference rest ih =>
    have first : Prepared hierarchy.toImage earlier reference := by
      have whole := prepared [] reference rest rfl
      rwa [List.append_nil] at whole
    obtain ⟨state₁, read, reading₁⟩ := reading.step first
    obtain ⟨final, run, reading'⟩ := ih reading₁ (by
      intro middle other later split
      rw [List.append_assoc]
      exact prepared (reference :: middle) other later (by rw [split]; rfl))
    refine ⟨final, ?_, ?_⟩
    · rw [readReferences, read]
      exact run
    · rwa [List.append_assoc] at reading'

theorem Reading.all_prepared (reading : Reading hierarchy.toImage earlier state)
    {references : List (Reference Method Field)} {final : State Class Method Field Decl}
    (run : readReferences hierarchy.toImage references state = some final)
    {middle later : List (Reference Method Field)} {reference : Reference Method Field}
    (split : references = middle ++ reference :: later) :
    Prepared hierarchy.toImage (earlier ++ middle) reference := by
  induction middle generalizing earlier state references with
  | nil =>
    subst split
    obtain ⟨state₁, read, -⟩ := Option.bind_eq_some_iff.mp run
    rw [List.append_nil]
    exact reading.prepared read
  | cons first middle ih =>
    subst split
    obtain ⟨state₁, read, rest⟩ := Option.bind_eq_some_iff.mp run
    obtain ⟨state₂, again, reading₂⟩ := reading.step (reading.prepared read)
    rw [read] at again
    cases again
    have prepared := ih reading₂ rest rfl
    rwa [List.append_assoc] at prepared

theorem tablesRight_of_basesFirst {references : List (Reference Method Field)}
    (basesFirst : BasesFirst hierarchy.toImage references) :
    TablesRight hierarchy.toImage references := by
  obtain ⟨final, run, reading⟩ := (start_reading hierarchy.toImage).run
    (fun middle reference later split klass asks dispatches =>
      basesFirst middle reference later klass split asks dispatches)
  refine ⟨final, run, ?_⟩
  intro reference member klass asks dispatches
  obtain ⟨vector, stored⟩ :=
    Option.isSome_iff_exists.mp (reading.made reference member klass asks dispatches)
  exact ⟨vector, reading.tables.right klass vector stored⟩

theorem TablesRight.basesFirst {references : List (Reference Method Field)}
    (right : TablesRight hierarchy.toImage references) :
    BasesFirst hierarchy.toImage references := by
  obtain ⟨final, run, -⟩ := right
  intro middle reference later klass split asks dispatches
  exact (start_reading hierarchy.toImage).all_prepared run split klass asks dispatches

/-- In every sequence of instructions, each vtable that is asked for has one
slot for each introduced method with the most derived override in it, if and only
if the base information of its class is there before it is asked for. -/
theorem tablesRight_iff_basesFirst (hierarchy : Hierarchy Class Method Field Decl)
    (references : List (Reference Method Field)) :
    TablesRight hierarchy.toImage references ↔ BasesFirst hierarchy.toImage references :=
  ⟨TablesRight.basesFirst, tablesRight_of_basesFirst⟩

end Run

/-- `System.Object` is `false`.  The class `true` has an entry point `false`
that calls the virtual method `true` of the class. -/
def virtualCall : Hierarchy Bool Bool Unit Bool where
  parent := fun klass => if klass then some false else none
  depth := Bool.toNat
  depth_parent := by decide
  isValueType := fun _ => false
  isDelegate := fun _ => false
  isStaticDelegate := fun _ => false
  isDelegateMethod := fun _ => false
  isBuiltin := fun klass => !klass
  methods := fun klass => if klass then [false, true] else []
  owner := fun _ => true
  isVirtual := fun method => method
  getBase := fun _ => none
  classConstructor := fun _ => none
  fieldOwner := fun _ => true
  isStatic := fun _ => false
  decl := fun method => method
  isRuntime := fun _ => false
  code := fun method => if method then some [] else some [.callvirt true]
  owner_methods := by decide
  getBase_spec := by simp
  root_builtin := by decide
  builtin_parent := by decide
  parent_dispatches := by simp
  builtin_dispatches := by simp
  roots_nodup := by
    intro klass
    cases klass <;> simp

theorem callvirt_not_tablesRight : ¬ TablesRight virtualCall.toImage [.callvirt true] := by
  intro right
  have prepared := right.basesFirst [] (.callvirt true) [] true rfl rfl rfl
  rcases prepared with builtin | ⟨reference, member, derived, fields, -⟩
  · cases builtin
  · rw [List.nil_append, List.mem_singleton] at member
    subst member
    cases fields

end GccCil.Scil.Reader
