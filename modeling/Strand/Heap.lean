import Strand.Value

/-!
# The heap

The objects that values refer to: arrays, and instances of structs. An object is never removed, an
array never changes its length, and an instance never changes its declaration or the names and the
order of its fields. A write changes one element or one field.
-/

set_option autoImplicit false

namespace Strand

/-- An instance of a struct: the declaring node, and the fields in the order of their declaration. -/
structure Record where
  decl : NodeId
  fields : List (Name × Value)
deriving Inhabited

namespace Record

/-- The value of the first field with a name. -/
def get? (r : Record) (name : Name) : Option Value := r.fields.lookup name

/-- Writes the first field with a name. -/
def setField (name : Name) (value : Value) : List (Name × Value) → List (Name × Value)
  | [] => []
  | (n, v) :: rest => if n = name then (n, value) :: rest else (n, v) :: setField name value rest

/-- A written field reads back if the instance has it, and no other field changes. -/
theorem lookup_setField (name other : Name) (value : Value) (fields : List (Name × Value)) :
    (setField name value fields).lookup other =
      if other = name then (fields.lookup other).map fun _ => value else fields.lookup other := by
  induction fields with
  | nil => simp [setField]
  | cons field rest ih =>
    obtain ⟨n, v⟩ := field
    simp only [setField]
    split <;> simp only [List.lookup_cons] <;> grind

theorem names_setField (name : Name) (value : Value) (fields : List (Name × Value)) :
    (setField name value fields).map Prod.fst = fields.map Prod.fst := by
  induction fields with
  | nil => rfl
  | cons field rest ih =>
    simp only [setField]
    split
    · rfl
    · simp [ih]

end Record

/-- Every object that was ever made. -/
structure Heap where
  arrays : Array (Array Value)
  records : Array Record
deriving Inhabited

namespace Heap

def empty : Heap := ⟨#[], #[]⟩

/-- Makes an array. -/
def newArray (h : Heap) (elements : Array Value) : ArrayId × Heap :=
  (⟨h.arrays.size⟩, { h with arrays := h.arrays.push elements })

/-- Makes an instance of a struct. -/
def newRecord (h : Heap) (r : Record) : RecordId × Heap :=
  (⟨h.records.size⟩, { h with records := h.records.push r })

/-- The elements of an array. -/
def elements (h : Heap) (a : ArrayId) : Array Value := h.arrays.getD a.index #[]

def record (h : Heap) (r : RecordId) : Record := h.records.getD r.index ⟨.invalid, []⟩

/-- The length of an array. -/
def length (h : Heap) (a : ArrayId) : Nat := (h.elements a).size

def element? (h : Heap) (a : ArrayId) (i : Nat) : Option Value := (h.elements a)[i]?

def field? (h : Heap) (r : RecordId) (name : Name) : Option Value := (h.record r).get? name

/-- Writes one element; nothing changes if the array has no such element. -/
def setElement (h : Heap) (a : ArrayId) (i : Nat) (v : Value) : Heap :=
  { h with arrays := h.arrays.modify a.index fun elements => elements.setIfInBounds i v }

/-- Writes one field; nothing changes if the instance has no such field. -/
def setField (h : Heap) (r : RecordId) (name : Name) (v : Value) : Heap :=
  { h with
    records := h.records.modify r.index fun r => { r with fields := Record.setField name v r.fields } }

/-! ### What a write changes -/

theorem elements_setElement (h : Heap) (a b : ArrayId) (i : Nat) (v : Value) :
    (h.setElement a i v).elements b =
      if b = a then (h.elements b).setIfInBounds i v else h.elements b := by
  obtain ⟨m⟩ := a
  obtain ⟨n⟩ := b
  simp only [elements, setElement, Array.getD_eq_getD_getElem?, Array.getElem?_modify,
    ArrayId.mk.injEq]
  by_cases same : m = n
  · subst same
    cases h.arrays[m]? <;> simp
  · simp [same, Ne.symm same]

@[simp] theorem length_setElement (h : Heap) (a b : ArrayId) (i : Nat) (v : Value) :
    (h.setElement a i v).length b = h.length b := by
  simp only [length, elements_setElement]
  split <;> simp

/-- A written element reads back if the array has it, and no other element changes. -/
theorem element?_setElement (h : Heap) (a b : ArrayId) (i j : Nat) (v : Value) :
    (h.setElement a i v).element? b j =
      if b = a ∧ j = i then (h.element? b j).map fun _ => v else h.element? b j := by
  simp only [element?, elements_setElement]
  by_cases same : b = a
  · simp only [same, true_and, if_true, Array.getElem?_setIfInBounds]
    grind
  · simp [same]

theorem record_setField (h : Heap) (r s : RecordId) (name : Name) (v : Value) :
    (h.setField r name v).record s =
      if s = r then { h.record s with fields := Record.setField name v (h.record s).fields }
      else h.record s := by
  obtain ⟨m⟩ := r
  obtain ⟨n⟩ := s
  simp only [record, setField, Array.getD_eq_getD_getElem?, Array.getElem?_modify,
    RecordId.mk.injEq]
  by_cases same : m = n
  · subst same
    cases h.records[m]? <;> simp [Record.setField]
  · simp [same, Ne.symm same]

theorem field?_setField (h : Heap) (r s : RecordId) (name other : Name) (v : Value) :
    (h.setField r name v).field? s other =
      if s = r ∧ other = name then (h.field? s other).map fun _ => v else h.field? s other := by
  simp only [field?, Record.get?, record_setField]
  by_cases same : s = r
  · simp [same, Record.lookup_setField]
  · simp [same]

end Heap

/-- Values in nested rows, not yet on the heap: what an operator on arrays computes. -/
inductive Nest where
  | leaf (v : Value)
  | row (elements : List Nest)
deriving Inhabited

namespace Heap

mutual

/-- Makes one new array for every row, the inner ones first. -/
def place (h : Heap) : Nest → Value × Heap
  | .leaf v => (v, h)
  | .row elements =>
    let (values, h) := placeAll h elements
    let (a, h) := h.newArray values.toArray
    (.array a, h)

/-- Places several values from left to right. -/
def placeAll (h : Heap) : List Nest → List Value × Heap
  | [] => ([], h)
  | n :: rest =>
    let (v, h) := place h n
    let (values, h) := placeAll h rest
    (v :: values, h)

end

end Heap

end Strand
