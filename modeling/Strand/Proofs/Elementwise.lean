import Strand.Proofs.Alike.Objects
import Strand.Proofs.Typing

/-!
# Arrays combined element by element

An array with the arrays in it is read as a tree: a path of positions leads from it to an element, to an
element of that element, and so on (`Heap.at?`). Two arrays that nest finitely are combined exactly if the
two trees have one shape, no array in them is empty, every leaf is a number and no integer is divided by zero
(`Arith.Combinable`). The result is then a third tree of that shape, made of arrays that are new and all
different, with the operator's value on the two leaves at every leaf (`Arith.Combination`).

The combination is computed as nested rows, and these are put on the heap afterwards. So the proof has two
halves: the rows have the shape and the leaves (`Arith.combineTo_decided`), and rows that are placed read back
as they were (`Heap.shows_place`).
-/

set_option autoImplicit false

namespace Strand

/-! ## 1. Trees on the heap -/

namespace Heap

/-- What a path of positions leads to from a value. -/
def at? (h : Heap) : Value → List Nat → Option Value
  | v, [] => some v
  | .array a, i :: path => (h.element? a i).bind fun w => at? h w path
  | _, _ :: _ => none

/-- The length of an array; a scalar has none. -/
def length? (h : Heap) : Value → Option Nat
  | .array a => some (h.length a)
  | _ => none

/-- What the shape of a value has at a path: nothing, a scalar, or an array of some length. -/
def shapeAt (h : Heap) (v : Value) (path : List Nat) : Option (Option Nat) :=
  (h.at? v path).map h.length?

/-- The scalar that a path leads to. -/
def leaf? (h : Heap) (v : Value) (path : List Nat) : Option Value :=
  (h.at? v path).filter fun w => (h.length? w).isNone

/-- No path from the value is longer than some bound. -/
def NestsFinitely (h : Heap) (v : Value) : Prop :=
  ∃ bound, ∀ path, (h.at? v path).isSome → path.length ≤ bound

variable {h h' : Heap} {v w x : Value} {a b : ArrayId} {i : Nat} {path : List Nat}

@[simp] theorem at?_nil : h.at? v [] = some v := by
  cases v <;> rfl

@[simp] theorem at?_array : h.at? (.array a) (i :: path) = (h.element? a i).bind (h.at? · path) := rfl

theorem at?_scalar (scalar : h.length? v = none) : h.at? v (i :: path) = none := by
  cases v with
  | array a => cases scalar
  | _ => rfl

@[simp] theorem shapeAt_nil : h.shapeAt v [] = some (h.length? v) := by
  simp [shapeAt]

@[simp] theorem shapeAt_array :
    h.shapeAt (.array a) (i :: path) = (h.element? a i).bind (h.shapeAt · path) := by
  simp only [shapeAt, at?_array]
  cases h.element? a i <;> rfl

theorem shapeAt_scalar (scalar : h.length? v = none) : h.shapeAt v (i :: path) = none := by
  simp [shapeAt, at?_scalar scalar]

@[simp] theorem leaf?_array_nil : h.leaf? (.array a) [] = none := by
  simp [leaf?, length?]

@[simp] theorem leaf?_array :
    h.leaf? (.array a) (i :: path) = (h.element? a i).bind (h.leaf? · path) := by
  simp only [leaf?, at?_array]
  cases h.element? a i <;> rfl

/-- A scalar is the only leaf of its tree. -/
theorem leaf?_scalar (scalar : h.length? v = none) :
    h.leaf? v path = if path = [] then some v else none := by
  cases path with
  | nil => simp [leaf?, scalar]
  | cons i path => simp [leaf?, at?_scalar scalar]

/-- A leaf stands where the shape has a scalar. -/
theorem exists_leaf? : (∃ x, h.leaf? v path = some x) ↔ h.shapeAt v path = some none := by
  simp [leaf?, shapeAt, Option.filter_eq_some_iff]

theorem element?_eq_none : h.element? a i = none ↔ h.length a ≤ i := by
  simp [element?, length]

/-- The elements of two arrays at one position. -/
theorem getElem?_zip : ((h.elements a).toList.zip (h.elements b).toList)[i]? = some (v, w) ↔
    h.element? a i = some v ∧ h.element? b i = some w := by
  simp [List.getElem?_zip_eq_some, element?]

/-- Arrays that hold no array that is as new as they are nest finitely. -/
theorem nestsFinitely_of_older
    (older : ∀ a b i, h.element? a i = some (.array b) → b.index < a.index) (v : Value) :
    h.NestsFinitely v := by
  -- a path from an array passes older and older arrays
  have bounded : ∀ (path : List Nat) (a : ArrayId), (h.at? (.array a) path).isSome →
      path.length ≤ a.index + 1 := by
    intro path
    induction path with
    | nil => simp
    | cons i path ih =>
      intro a found
      rw [at?_array] at found
      cases element : h.element? a i with
      | none => simp [element] at found
      | some w =>
        simp only [element, Option.bind_some] at found
        cases kind : h.length? w with
        | none =>
          cases path with
          | nil => simp
          | cons j path => simp [at?_scalar kind] at found
        | some n =>
          cases w with
          | array b =>
            have earlier := older a b i element
            have short := ih b found
            simp only [List.length_cons]
            omega
          | _ => cases kind
  cases v with
  | array a => exact ⟨a.index + 1, fun path => bounded path a⟩
  | _ =>
    refine ⟨0, ?_⟩
    intro path found
    cases path with
    | nil => simp
    | cons i path => cases found

/-! ### Trees on a larger heap -/

theorem Extends.elements (larger : h.Extends h') (inside : a.index < h.arrays.size) :
    h'.elements a = h.elements a := by
  simp only [Heap.elements, Array.getD_eq_getD_getElem?, larger.arrays a inside]

/-- A tree of arrays that are there stays as it is when there are more arrays. -/
theorem Extends.at? (larger : h.Extends h')
    (inside : ∀ path a, h.at? v path = some (.array a) → a.index < h.arrays.size) (path : List Nat) :
    h'.at? v path = h.at? v path := by
  induction path generalizing v with
  | nil => simp
  | cons i path ih =>
    cases v with
    | array a =>
      have same : h'.element? a i = h.element? a i := by
        simp only [element?, larger.elements (inside [] a at?_nil)]
      rw [at?_array, at?_array, same]
      cases element : h.element? a i with
      | none => rfl
      | some w =>
        refine ih (v := w) ?_
        intro rest b found
        exact inside (i :: rest) b (by simpa [element] using found)
    | _ => rfl

end Heap

/-! ## 2. Trees of rows -/

namespace Nest

/-- What holds of a leaf, and of a row if it holds of its elements, holds of all rows. -/
@[elab_as_elim]
theorem nested {motive : Nest → Prop} (leaf : ∀ v, motive (.leaf v))
    (row : ∀ rows, (∀ n ∈ rows, motive n) → motive (.row rows)) (n : Nest) : motive n :=
  Nest.rec (motive_1 := motive) (motive_2 := fun rows => ∀ n ∈ rows, motive n) leaf row
    nofun (fun _ _ first others => List.forall_mem_cons.mpr ⟨first, others⟩) n

/-- What a path of positions leads to. -/
def at? : Nest → List Nat → Option Nest
  | n, [] => some n
  | .row rows, i :: path => rows[i]?.bind fun n => at? n path
  | .leaf _, _ :: _ => none

def length? : Nest → Option Nat
  | .row rows => some rows.length
  | .leaf _ => none

def shapeAt (n : Nest) (path : List Nat) : Option (Option Nat) := (n.at? path).map length?

def value? : Nest → Option Value
  | .leaf v => some v
  | .row _ => none

def leaf? (n : Nest) (path : List Nat) : Option Value := (n.at? path).bind value?

variable {n : Nest} {rows : List Nest} {v : Value} {i : Nat} {path : List Nat}

@[simp] theorem at?_nil : n.at? [] = some n := by
  cases n <;> rfl

@[simp] theorem shapeAt_nil : n.shapeAt [] = some n.length? := by
  simp [shapeAt]

@[simp] theorem shapeAt_row : (row rows).shapeAt (i :: path) = rows[i]?.bind (·.shapeAt path) := by
  simp only [shapeAt, at?]
  cases rows[i]? <;> rfl

@[simp] theorem shapeAt_leaf : (leaf v).shapeAt (i :: path) = none := rfl

@[simp] theorem leaf?_nil : n.leaf? [] = n.value? := by
  simp [leaf?]

@[simp] theorem leaf?_row : (row rows).leaf? (i :: path) = rows[i]?.bind (·.leaf? path) := by
  simp only [leaf?, at?]
  cases rows[i]? <;> rfl

@[simp] theorem leaf?_leaf : (leaf v).leaf? (i :: path) = none := rfl

theorem shapeAt_of_leaf? (found : n.leaf? path = some v) : n.shapeAt path = some none := by
  obtain ⟨m, reached, value⟩ := Option.bind_eq_some_iff.mp found
  cases m with
  | leaf w => simp [shapeAt, reached, length?]
  | row rows => cases value

end Nest

/-! ## 3. Rows that are placed -/

namespace Heap

/-- A value is a tree of the rows' shape with the rows' leaves. Its arrays are no older than `base`, and no
two paths lead to the same one. -/
structure Shows (h : Heap) (base : Nat) (n : Nest) (v : Value) : Prop where
  shape : ∀ path, h.shapeAt v path = n.shapeAt path
  leaves : ∀ path, h.leaf? v path = n.leaf? path
  inside : ∀ path a, h.at? v path = some (.array a) → base ≤ a.index ∧ a.index < h.arrays.size
  distinct : ∀ path path' a, h.at? v path = some (.array a) → h.at? v path' = some (.array a) →
    path = path'

variable {h h' : Heap} {base : Nat} {n : Nest} {v : Value}

theorem Shows.mono (shows : h.Shows base n v) (larger : h.Extends h') : h'.Shows base n v := by
  have same : ∀ path, h'.at? v path = h.at? v path :=
    larger.at? fun path a found => (shows.inside path a found).2
  have lengths : ∀ path, ∀ w ∈ h.at? v path, h'.length? w = h.length? w := by
    intro path w found
    cases w with
    | array a => simp only [length?, length, larger.elements (shows.inside path a found).2]
    | _ => rfl
  refine ⟨?_, ?_, ?_, ?_⟩
  · intro path
    rw [← shows.shape path, shapeAt, shapeAt, same]
    exact Option.map_congr (lengths path)
  · intro path
    rw [← shows.leaves path, leaf?, leaf?, same]
    cases found : h.at? v path with
    | none => rfl
    | some w => simp only [Option.filter_some, lengths path w found]
  · intro path a found
    rw [same] at found
    obtain ⟨above, below⟩ := shows.inside path a found
    exact ⟨above, Nat.lt_of_lt_of_le below larger.size⟩
  · intro path path' a found found'
    rw [same] at found found'
    exact shows.distinct path path' a found found'

/-- Values that are trees of rows, one for each, with no array in common. -/
structure ShowsAll (h : Heap) (base : Nat) (rows : List Nest) (values : List Value) : Prop where
  length : values.length = rows.length
  each : ∀ (i : Nat) (n : Nest) (v : Value), rows[i]? = some n → values[i]? = some v → h.Shows base n v
  apart : ∀ (i j : Nat) (v w : Value) (path path' : List Nat) (a : ArrayId), values[i]? = some v →
    values[j]? = some w → h.at? v path = some (.array a) → h.at? w path' = some (.array a) → i = j

namespace ShowsAll

variable {rows : List Nest} {values : List Value} (all : h.ShowsAll base rows values)

include all

theorem row {i : Nat} (value : values[i]? = some v) : ∃ n, rows[i]? = some n ∧ h.Shows base n v := by
  have inside : i < rows.length := by
    rw [← all.length]
    exact (List.getElem?_eq_some_iff.mp value).1
  have known : rows[i]? = some rows[i] := List.getElem?_eq_getElem inside
  exact ⟨rows[i], known, all.each i rows[i] v known value⟩

theorem no_row {i : Nat} (outside : values[i]? = none) : rows[i]? = none := by
  rw [List.getElem?_eq_none_iff] at outside ⊢
  rw [← all.length]
  exact outside

theorem mono (larger : h.Extends h') : h'.ShowsAll base rows values := by
  have same : ∀ (i : Nat) (v : Value), values[i]? = some v → ∀ path, h'.at? v path = h.at? v path := by
    intro i v value
    obtain ⟨n, -, shows⟩ := all.row value
    exact larger.at? fun path a found => (shows.inside path a found).2
  refine ⟨all.length, ?_, ?_⟩
  · intro i n v row value
    exact (all.each i n v row value).mono larger
  · intro i j v w path path' a value value' found found'
    rw [same i v value] at found
    rw [same j w value'] at found'
    exact all.apart i j v w path path' a value value' found found'

section

variable {a : ArrayId} (holds : ∀ i, h.element? a i = values[i]?)

include holds

omit all in
/-- Along a longer path one goes on from one of the values. -/
theorem at?_values {i : Nat} {path : List Nat} {v : Value} :
    h.at? (.array a) (i :: path) = some v ↔ ∃ w, values[i]? = some w ∧ h.at? w path = some v := by
  rw [at?_array, holds, Option.bind_eq_some_iff]

variable (unreached : ∀ (i : Nat) (v : Value) (path : List Nat), values[i]? = some v →
  h.at? v path ≠ some (.array a))

include unreached

/-- No array is found along two paths: the array itself only along the empty one. -/
theorem distinct_row {path path' : List Nat} {b : ArrayId} (found : h.at? (.array a) path = some (.array b))
    (found' : h.at? (.array a) path' = some (.array b)) : path = path' := by
  cases path with
  | nil =>
    rw [at?_nil] at found
    cases found
    cases path' with
    | nil => rfl
    | cons j path' =>
      obtain ⟨w, value, found'⟩ := (at?_values holds).mp found'
      exact absurd found' (unreached j w path' value)
  | cons i path =>
    obtain ⟨v, value, found⟩ := (at?_values holds).mp found
    cases path' with
    | nil =>
      rw [at?_nil] at found'
      cases found'
      exact absurd found (unreached i v path value)
    | cons j path' =>
      obtain ⟨w, value', found'⟩ := (at?_values holds).mp found'
      obtain rfl := all.apart i j v w path path' b value value' found found'
      obtain rfl : v = w := Option.some.inj (value.symm.trans value')
      obtain ⟨n, -, shows⟩ := all.row value
      rw [shows.distinct path path' b found found']

/-- An array of the values, which none of them reaches, is a tree of the row. -/
theorem shows_row (above : base ≤ a.index) (below : a.index < h.arrays.size) :
    h.Shows base (.row rows) (.array a) := by
  have length : h.length a = rows.length := by
    have agree : ∀ i, h.length a ≤ i ↔ values.length ≤ i := by
      intro i
      rw [← element?_eq_none, holds, List.getElem?_eq_none_iff]
    have first := (agree (h.length a)).mp (Nat.le_refl _)
    have second := (agree values.length).mpr (Nat.le_refl _)
    rw [← all.length]
    omega
  refine ⟨?_, ?_, ?_, ?_⟩
  · intro path
    cases path with
    | nil => simp [length?, Nest.length?, length]
    | cons i path =>
      rw [shapeAt_array, Nest.shapeAt_row, holds]
      cases value : values[i]? with
      | none => simp [all.no_row value]
      | some v =>
        obtain ⟨n, row, shows⟩ := all.row value
        simp [row, shows.shape path]
  · intro path
    cases path with
    | nil => simp [Nest.value?]
    | cons i path =>
      rw [leaf?_array, Nest.leaf?_row, holds]
      cases value : values[i]? with
      | none => simp [all.no_row value]
      | some v =>
        obtain ⟨n, row, shows⟩ := all.row value
        simp [row, shows.leaves path]
  · intro path b found
    cases path with
    | nil =>
      rw [at?_nil] at found
      cases found
      exact ⟨above, below⟩
    | cons i path =>
      obtain ⟨v, value, found⟩ := (at?_values holds).mp found
      obtain ⟨n, -, shows⟩ := all.row value
      exact shows.inside path b found
  · intro path path' b found found'
    exact all.distinct_row holds unreached found found'

end

end ShowsAll

/-- Rows are placed one after the other, so the arrays of one are older than those of the next. -/
theorem showsAll_placeAll (rows : List Nest) (h : Heap)
    (one : ∀ n ∈ rows, ∀ h : Heap, (h.place n).2.Shows h.arrays.size n (h.place n).1 ∧
      h.Extends (h.place n).2) :
    (h.placeAll rows).2.ShowsAll h.arrays.size rows (h.placeAll rows).1 ∧
      h.Extends (h.placeAll rows).2 := by
  induction rows generalizing h with
  | nil => exact ⟨⟨rfl, by simp, by simp [placeAll]⟩, .refl h⟩
  | cons n rows ih =>
    obtain ⟨first, larger⟩ := one n List.mem_cons_self h
    obtain ⟨others, largest⟩ := ih (h.place n).2 fun m member => one m (List.mem_cons_of_mem _ member)
    simp only [placeAll]
    generalize (h.place n).1 = v₀ at *
    generalize (h.place n).2 = h₁ at *
    generalize (h₁.placeAll rows).1 = values at *
    generalize (h₁.placeAll rows).2 = h₂ at *
    have apart : ∀ (j : Nat) (w : Value) (path path' : List Nat) (a : ArrayId), values[j]? = some w →
        h₂.at? v₀ path = some (.array a) → h₂.at? w path' ≠ some (.array a) := by
      intro j w path path' a value inFirst inOther
      rw [largest.at? fun path a found => (first.inside path a found).2] at inFirst
      obtain ⟨m, -, shows⟩ := others.row value
      have below := (first.inside path a inFirst).2
      have above := (shows.inside path' a inOther).1
      omega
    refine ⟨⟨?_, ?_, ?_⟩, larger.trans largest⟩
    · simp [others.length]
    · intro i m v row value
      cases i with
      | zero =>
        cases row
        cases value
        exact first.mono largest
      | succ i =>
        have shows := others.each i m v row value
        refine ⟨shows.shape, shows.leaves, ?_, shows.distinct⟩
        intro path a found
        obtain ⟨above, below⟩ := shows.inside path a found
        exact ⟨Nat.le_trans larger.size above, below⟩
    · intro i j v w path path' a value value' found found'
      cases i with
      | zero =>
        cases value
        cases j with
        | zero => rfl
        | succ j => exact absurd found' (apart j w path path' a value' found)
      | succ i =>
        cases j with
        | zero =>
          cases value'
          exact absurd found (apart i v path' path a value found')
        | succ j => rw [others.apart i j v w path path' a value value' found found']

/-- A scalar is a leaf. -/
theorem shows_leaf (base : Nat) (scalar : h.length? v = none) : h.Shows base (.leaf v) v := by
  have noArray : ∀ path a, h.at? v path ≠ some (.array a) := by
    intro path a found
    cases path with
    | nil =>
      rw [at?_nil] at found
      cases found
      cases scalar
    | cons i path => simp [at?_scalar scalar] at found
  refine ⟨?_, ?_, ?_, ?_⟩
  · intro path
    cases path with
    | nil => simp [scalar, Nest.length?]
    | cons i path => simp [shapeAt_scalar scalar]
  · intro path
    cases path with
    | nil => simp [leaf?_scalar scalar, Nest.value?]
    | cons i path => simp [leaf?_scalar scalar]
  · exact fun path a found => absurd found (noArray path a)
  · exact fun path path' a found => absurd found (noArray path a)

/-- Rows of scalars read back as they were placed, from arrays that were not there. -/
theorem shows_place (n : Nest) (scalars : ∀ path z, n.leaf? path = some z → h.length? z = none) :
    (h.place n).2.Shows h.arrays.size n (h.place n).1 ∧ h.Extends (h.place n).2 := by
  induction n using Nest.nested generalizing h with
  | leaf v => exact ⟨shows_leaf _ (scalars [] v (by simp [Nest.value?])), .refl h⟩
  | row rows ih =>
    have one : ∀ n ∈ rows, ∀ h : Heap, (h.place n).2.Shows h.arrays.size n (h.place n).1 ∧
        h.Extends (h.place n).2 := by
      intro n member h'
      apply ih n member
      obtain ⟨i, known⟩ := List.mem_iff_getElem?.mp member
      intro path z found
      have scalar := scalars (i :: path) z (by simpa [known] using found)
      cases z with
      | array a => cases scalar
      | _ => rfl
    obtain ⟨all, larger⟩ := showsAll_placeAll rows h one
    have more := extends_newArray (h.placeAll rows).2 (h.placeAll rows).1.toArray
    refine ⟨?_, larger.trans more⟩
    have holds := elements_newArray (h.placeAll rows).2 (h.placeAll rows).1.toArray
    apply (all.mono more).shows_row
    · intro i
      exact (congrArg (·[i]?) holds).trans List.getElem?_toArray
    · intro i v path value reached
      -- what the values reach was there before the new array
      obtain ⟨n, -, shows⟩ := all.row value
      rw [more.at? fun path a found => (shows.inside path a found).2] at reached
      exact Nat.lt_irrefl _ (shows.inside path _ reached).2
    · exact larger.size
    · simp [newArray]

end Heap

/-! ## 4. Two elements -/

/-- The operators of arithmetic. -/
def BinaryOp.isArithmetic : BinaryOp → Bool
  | mul | div | rem | add | sub => true
  | _ => false

def Value.isNumber : Value → Bool
  | int _ | float _ => true
  | _ => false

namespace Arith

open Heap (Extends)

/-- Whether two leaves are combined as floats: the operation is one on floats, or one of the two is. -/
def promotes (floating : Bool) (x y : Value) : Bool :=
  floating || combineElement.isFloat x || combineElement.isFloat y

/-- The operator does not divide an integer by zero at two leaves. -/
def Divides (op : BinaryOp) (floating : Bool) (x y : Value) : Prop :=
  op = .div ∨ op = .rem → promotes floating x y = false → y ≠ .int 0

/-- Two trees that an operator can combine. -/
structure Combinable (h : Heap) (op : BinaryOp) (floating : Bool) (v w : Value) : Prop where
  shape : ∀ path, h.shapeAt v path = h.shapeAt w path
  nonempty : ∀ path, h.shapeAt v path ≠ some (some 0)
  numbers : ∀ path x, h.leaf? v path = some x ∨ h.leaf? w path = some x → x.isNumber = true
  divisors : ∀ path x y, h.leaf? v path = some x → h.leaf? w path = some y → Divides op floating x y

/-- A third tree, on a heap with more arrays, that is the combination of two. -/
structure Combination (h : Heap) (op : BinaryOp) (floating : Bool) (v w : Value) (h' : Heap)
    (result : Value) : Prop where
  shape : ∀ path, h'.shapeAt result path = h.shapeAt v path
  leaves : ∀ path x y, h.leaf? v path = some x → h.leaf? w path = some y →
    ∃ z, numericOp op (promotes floating x y) x y = .ok z ∧ h'.leaf? result path = some z
  fresh : ∀ path a, h'.at? result path = some (.array a) → h.arrays.size ≤ a.index
  distinct : ∀ path path' a, h'.at? result path = some (.array a) →
    h'.at? result path' = some (.array a) → path = path'
  unchanged : h.Extends h'

/-- Rows with the shape and the leaves of the combination of two trees. -/
structure Combines (h : Heap) (op : BinaryOp) (floating : Bool) (v w : Value) (n : Nest) : Prop where
  shape : ∀ path, n.shapeAt path = h.shapeAt v path
  leaves : ∀ path x y, h.leaf? v path = some x → h.leaf? w path = some y →
    ∃ z, numericOp op (promotes floating x y) x y = .ok z ∧ n.leaf? path = some z

/-- The rows are computed if two trees can be combined, and there is a fault if not. -/
def Decided (h : Heap) (op : BinaryOp) (floating : Bool) (v w : Value) (result : Except Abort Nest) :
    Prop :=
  (∃ n, result = .ok n ∧ Combinable h op floating v w ∧ Combines h op floating v w n) ∨
    ∃ cause, result = .error (.fault cause) ∧ ¬ Combinable h op floating v w

variable {h : Heap} {op : BinaryOp} {floating : Bool} {v w x y : Value} {l r : ArrayId}

theorem floatOp_ok (arithmetic : op.isArithmetic = true) (a b : Float) :
    ∃ z, floatOp op a b = .ok z ∧ z.isNumber = true := by
  cases op with
  | mul | div | rem | add | sub => exact ⟨_, rfl, rfl⟩
  | _ => cases arithmetic

theorem intOp_decided (arithmetic : op.isArithmetic = true) (m n : Int64) :
    (∃ z, intOp op m n = .ok z ∧ z.isNumber = true ∧ (op = .div ∨ op = .rem → n ≠ 0)) ∨
      ∃ cause, intOp op m n = .error cause ∧ (op = .div ∨ op = .rem) ∧ n = 0 := by
  cases op with
  | mul | add | sub => exact .inl ⟨_, rfl, rfl, by simp⟩
  | div | rem =>
    simp only [intOp, beq_iff_eq]
    split
    · next zero => exact .inr ⟨_, rfl, by simp, zero⟩
    · next nonzero => exact .inl ⟨_, rfl, rfl, fun _ => nonzero⟩
  | _ => cases arithmetic

theorem expectNumber_decided (x : Value) :
    (x.isNumber = true ∧ ∃ a, expectNumber x = .ok a) ∨
      (x.isNumber = false ∧ ∃ cause, expectNumber x = .error cause) := by
  cases x with
  | int n => exact .inl ⟨rfl, _, rfl⟩
  | float a => exact .inl ⟨rfl, _, rfl⟩
  | _ => exact .inr ⟨rfl, _, rfl⟩

theorem expectInt_decided (noFloat : combineElement.isFloat x = false) :
    (∃ n, x = .int n) ∨ (x.isNumber = false ∧ ∃ cause, expectInt x = .error cause) := by
  cases x with
  | int n => exact .inl ⟨n, rfl⟩
  | float a => cases noFloat
  | _ => exact .inr ⟨rfl, _, rfl⟩

/-- Two numbers have a result, which is a number, unless an integer is divided by zero. -/
theorem numericOp_decided (arithmetic : op.isArithmetic = true) (floating : Bool) (x y : Value) :
    (∃ z, numericOp op (promotes floating x y) x y = .ok z ∧ z.isNumber = true ∧
        x.isNumber = true ∧ y.isNumber = true ∧ Divides op floating x y) ∨
      ∃ cause, numericOp op (promotes floating x y) x y = .error cause ∧
        ¬ (x.isNumber = true ∧ y.isNumber = true ∧ Divides op floating x y) := by
  cases kind : promotes floating x y with
  | true =>
    obtain ⟨number, a, left⟩ | ⟨noNumber, cause, left⟩ := expectNumber_decided x
    · obtain ⟨number', b, right⟩ | ⟨noNumber, cause, right⟩ := expectNumber_decided y
      · obtain ⟨z, result, numeric⟩ := floatOp_ok arithmetic a b
        refine .inl ⟨z, ?_, numeric, number, number', by simp [Divides, kind]⟩
        simp [numericOp, left, right, result, bind, Except.bind]
      · exact .inr ⟨cause, by simp [numericOp, left, right, bind, Except.bind], by simp [noNumber]⟩
    · exact .inr ⟨cause, by simp [numericOp, left, bind, Except.bind], by simp [noNumber]⟩
  | false =>
    have noFloats : combineElement.isFloat x = false ∧ combineElement.isFloat y = false := by
      simp only [promotes, Bool.or_eq_false_iff] at kind
      exact ⟨kind.1.2, kind.2⟩
    obtain ⟨m, rfl⟩ | ⟨noNumber, cause, left⟩ := expectInt_decided noFloats.1
    · obtain ⟨n, rfl⟩ | ⟨noNumber, cause, right⟩ := expectInt_decided noFloats.2
      · obtain ⟨z, result, numeric, nonzero⟩ | ⟨cause, result, divides, rfl⟩ := intOp_decided arithmetic m n
        · refine .inl ⟨z, result, numeric, rfl, rfl, ?_⟩
          intro divides _ zero
          cases zero
          exact nonzero divides rfl
        · exact .inr ⟨cause, result, fun all => all.2.2 divides kind rfl⟩
      · have left : expectInt (.int m) = .ok m := rfl
        exact .inr ⟨cause, by simp [numericOp, left, right, bind, Except.bind], by simp [noNumber]⟩
    · exact .inr ⟨cause, by simp [numericOp, left, bind, Except.bind], by simp [noNumber]⟩

/-- Two scalars can be combined if they are numbers, and no integer is divided by zero. -/
theorem combinable_scalars (left : h.length? v = none) (right : h.length? w = none) :
    Combinable h op floating v w ↔
      v.isNumber = true ∧ w.isNumber = true ∧ Divides op floating v w := by
  refine ⟨?_, ?_⟩
  · intro combinable
    refine ⟨combinable.numbers [] v (.inl (by simp [Heap.leaf?_scalar left])),
      combinable.numbers [] w (.inr (by simp [Heap.leaf?_scalar right])),
      combinable.divisors [] v w (by simp [Heap.leaf?_scalar left]) (by simp [Heap.leaf?_scalar right])⟩
  · intro ⟨number, number', divides⟩
    refine ⟨?_, ?_, ?_, ?_⟩
    · intro path
      cases path with
      | nil => simp [left, right]
      | cons i path => simp [Heap.shapeAt_scalar left, Heap.shapeAt_scalar right]
    · intro path
      cases path with
      | nil => simp [left]
      | cons i path => simp [Heap.shapeAt_scalar left]
    · intro path x
      rw [Heap.leaf?_scalar left, Heap.leaf?_scalar right]
      grind
    · intro path x y
      rw [Heap.leaf?_scalar left, Heap.leaf?_scalar right]
      grind

/-- An array and a scalar have different shapes. -/
theorem not_combinable_mixed (differ : h.length? v ≠ h.length? w) : ¬ Combinable h op floating v w := by
  intro combinable
  have same := combinable.shape []
  rw [Heap.shapeAt_nil, Heap.shapeAt_nil] at same
  exact differ (Option.some.inj same)

/-- Two arrays can be combined if they have as many elements, at least one, and each two can be. -/
theorem combinable_arrays :
    Combinable h op floating (.array l) (.array r) ↔ h.length l = h.length r ∧ h.length l ≠ 0 ∧
      ∀ i x y, h.element? l i = some x → h.element? r i = some y → Combinable h op floating x y := by
  refine ⟨?_, ?_⟩
  · intro combinable
    have length := combinable.shape []
    have filled := combinable.nonempty []
    simp only [Heap.shapeAt_nil, Heap.length?, Option.some.injEq, ne_eq] at length filled
    refine ⟨length, filled, ?_⟩
    intro i x y left right
    refine ⟨?_, ?_, ?_, ?_⟩
    · intro path
      simpa [left, right] using combinable.shape (i :: path)
    · intro path
      simpa [left] using combinable.nonempty (i :: path)
    · intro path z
      simpa [left, right] using combinable.numbers (i :: path) z
    · intro path z z'
      simpa [left, right] using combinable.divisors (i :: path) z z'
  · intro ⟨length, filled, elements⟩
    -- at a position both arrays have an element, or neither has
    have position : ∀ i, (h.element? l i = none ∧ h.element? r i = none) ∨
        ∃ x y, h.element? l i = some x ∧ h.element? r i = some y ∧ Combinable h op floating x y := by
      intro i
      cases left : h.element? l i with
      | none =>
        rw [Heap.element?_eq_none, length, ← Heap.element?_eq_none] at left
        exact .inl ⟨rfl, left⟩
      | some x =>
        cases right : h.element? r i with
        | none =>
          rw [Heap.element?_eq_none, ← length, ← Heap.element?_eq_none, left] at right
          cases right
        | some y => exact .inr ⟨x, y, rfl, rfl, elements i x y left right⟩
    refine ⟨?_, ?_, ?_, ?_⟩
    · intro path
      cases path with
      | nil => simp [Heap.length?, length]
      | cons i path =>
        obtain ⟨left, right⟩ | ⟨x, y, left, right, combinable⟩ := position i
        · simp [left, right]
        · simpa [left, right] using combinable.shape path
    · intro path
      cases path with
      | nil => simpa [Heap.length?] using filled
      | cons i path =>
        obtain ⟨left, -⟩ | ⟨x, y, left, -, combinable⟩ := position i
        · simp [left]
        · simpa [left] using combinable.nonempty path
    · intro path z
      cases path with
      | nil => simp
      | cons i path =>
        obtain ⟨left, right⟩ | ⟨x, y, left, right, combinable⟩ := position i
        · simp [left, right]
        · simpa [left, right] using combinable.numbers path z
    · intro path z z'
      cases path with
      | nil => simp
      | cons i path =>
        obtain ⟨left, -⟩ | ⟨x, y, left, right, combinable⟩ := position i
        · simp [left]
        · simpa [left, right] using combinable.divisors path z z'

/-! ## 5. Two arrays -/

/-- Two elements are combined if they can be, given that two arrays are. -/
theorem combineElement_decided (arithmetic : op.isArithmetic = true)
    {combine : ArrayId → ArrayId → Except Abort Nest}
    (arrays : ∀ a b, v = .array a → w = .array b → Decided h op floating v w (combine a b)) :
    Decided h op floating v w (combineElement combine op floating v w) := by
  -- an array is only combined with an array, and no scalar that is `null` with anything
  have scalars : h.length? v = none → h.length? w = none →
      Decided h op floating v w (Abort.ofFault ((numericOp op (promotes floating v w) v w).map .leaf)) := by
    intro left right
    obtain ⟨z, result, -, combinable⟩ | ⟨cause, result, fails⟩ := numericOp_decided arithmetic floating v w
    · refine .inl ⟨.leaf z, by rw [result]; rfl, (combinable_scalars left right).mpr combinable, ?_, ?_⟩
      · intro path
        cases path with
        | nil => simp [left, Nest.length?]
        | cons i path => simp [Heap.shapeAt_scalar left]
      · intro path x y
        rw [Heap.leaf?_scalar left, Heap.leaf?_scalar right]
        cases path with
        | nil =>
          intro first second
          cases first
          cases second
          exact ⟨z, result, by simp [Nest.value?]⟩
        | cons i path => simp
    · exact .inr ⟨cause, by rw [result]; rfl, fun combinable =>
        fails ((combinable_scalars left right).mp combinable)⟩
  have mixed : h.length? v ≠ h.length? w → Decided h op floating v w (.error (.fault .nestingMismatch)) :=
    fun differ => .inr ⟨_, rfl, not_combinable_mixed differ⟩
  have null : h.length? v = none → h.length? w = none → v.isNumber = false ∨ w.isNumber = false →
      Decided h op floating v w (.error (.fault (.nullDereference "indexing null array"))) := by
    intro left right noNumber
    refine .inr ⟨_, rfl, ?_⟩
    rw [combinable_scalars left right]
    grind
  cases v with
  | array a =>
    cases w with
    | array b => exact arrays a b rfl rfl
    | _ => exact mixed nofun
  | null =>
    cases w with
    | array b => exact mixed nofun
    | _ => exact null rfl rfl (.inl rfl)
  | _ =>
    cases w with
    | array b => exact mixed nofun
    | null => exact null rfl rfl (.inr rfl)
    | _ => exact scalars rfl rfl

/-- Computations in a row give their results. -/
theorem mapM_eq_ok {ε α β : Type} {f : α → Except ε β} {inputs : List α} {results : List β} :
    inputs.mapM f = .ok results ↔ List.Forall₂ (fun a b => f a = .ok b) inputs results := by
  induction inputs generalizing results with
  | nil =>
    rw [List.forall₂_nil_left_iff]
    exact ⟨fun done => (Except.ok.inj done).symm, fun none => congrArg Except.ok none.symm⟩
  | cons a inputs ih =>
    rw [List.mapM_cons]
    constructor
    · intro done
      obtain ⟨b, first, done⟩ := of_bind_eq_ok done
      obtain ⟨others, rest, done⟩ := of_bind_eq_ok done
      cases done
      exact .cons first (ih.mp rest)
    · intro each
      cases each with
      | cons first rest =>
        rw [first, ih.mpr rest]
        rfl

/-- The error of computations in a row is that of the first one that gave no result. -/
theorem of_mapM_eq_error {ε α β : Type} {f : α → Except ε β} {e : ε} {l : List α}
    (fails : l.mapM f = .error e) :
    ∃ (i : Nat) (a : α), l[i]? = some a ∧ f a = .error e ∧
      ∀ j < i, ∀ b, l[j]? = some b → ∃ c, f b = .ok c := by
  induction l with
  | nil => cases fails
  | cons first rest ih =>
    rw [List.mapM_cons] at fails
    cases result : f first with
    | error e' =>
      rw [result] at fails
      cases fails
      exact ⟨0, first, rfl, result, by simp⟩
    | ok c =>
      have others : rest.mapM f = .error e := by
        rw [result] at fails
        cases tail : rest.mapM f with
        | error e' =>
          rw [tail] at fails
          exact congrArg Except.error (Except.error.inj fails)
        | ok cs =>
          rw [tail] at fails
          cases fails
      obtain ⟨i, a, found, failed, before⟩ := ih others
      refine ⟨i + 1, a, by simpa using found, failed, ?_⟩
      intro j earlier b there
      cases j with
      | zero =>
        cases there
        exact ⟨c, result⟩
      | succ j => exact before j (Nat.lt_of_succ_lt_succ earlier) b (by simpa using there)

/-- Computations that each give a result or a fault give all results, or a fault. -/
theorem mapM_decided {α β : Type} {f : α → Except Abort β} (inputs : List α)
    (each : ∀ x ∈ inputs, (∃ n, f x = .ok n) ∨ ∃ cause, f x = .error (.fault cause)) :
    (∃ results, inputs.mapM f = .ok results ∧ List.Forall₂ (fun x n => f x = .ok n) inputs results) ∨
      ∃ cause, inputs.mapM f = .error (.fault cause) ∧ ∃ x ∈ inputs, f x = .error (.fault cause) := by
  cases result : inputs.mapM f with
  | ok results => exact .inl ⟨results, rfl, mapM_eq_ok.mp result⟩
  | error e =>
    obtain ⟨i, x, found, fails, -⟩ := of_mapM_eq_error result
    have member : x ∈ inputs := List.mem_of_getElem? found
    obtain ⟨n, given⟩ | ⟨cause, fault⟩ := each x member
    · cases given.symm.trans fails
    · obtain rfl : e = .fault cause := Except.error.inj (fails.symm.trans fault)
      exact .inr ⟨cause, rfl, x, member, fault⟩

/-- Results for all elements make a row that is the combination of two arrays. -/
theorem combines_row {rows : List Nest} (size : rows.length = h.length l)
    (each : ∀ (i : Nat) (x y : Value) (n : Nest), h.element? l i = some x → h.element? r i = some y →
      rows[i]? = some n → Combines h op floating x y n)
    (same : h.length l = h.length r) : Combines h op floating (.array l) (.array r) (.row rows) := by
  have position : ∀ i, (h.element? l i = none ∧ rows[i]? = none) ∨ ∃ x y n, h.element? l i = some x ∧
      h.element? r i = some y ∧ rows[i]? = some n := by
    intro i
    by_cases inside : i < h.length l
    · have inRight : i < h.length r := by omega
      have inRows : i < rows.length := by omega
      exact .inr ⟨_, _, rows[i], Array.getElem?_eq_getElem inside, Array.getElem?_eq_getElem inRight,
        List.getElem?_eq_getElem inRows⟩
    · exact .inl ⟨Heap.element?_eq_none.mpr (by omega), List.getElem?_eq_none (by omega)⟩
  refine ⟨?_, ?_⟩
  · intro path
    cases path with
    | nil => simp [Heap.length?, Nest.length?, size]
    | cons i path =>
      obtain ⟨left, row⟩ | ⟨x, y, n, left, right, row⟩ := position i
      · simp [left, row]
      · simp [left, row, (each i x y n left right row).shape path]
  · intro path z z'
    cases path with
    | nil => simp
    | cons i path =>
      obtain ⟨left, -⟩ | ⟨x, y, n, left, right, row⟩ := position i
      · simp [left]
      · simpa [left, right, row] using (each i x y n left right row).leaves path z z'

/-- Two arrays with equally many elements are combined if each two elements are. -/
theorem row_decided {f : Value × Value → Except Abort Nest} (lengths : h.length l = h.length r)
    (filled : h.length l ≠ 0)
    (element : ∀ i x y, h.element? l i = some x → h.element? r i = some y →
      Decided h op floating x y (f (x, y))) :
    Decided h op floating (.array l) (.array r)
      ((((h.elements l).toList.zip (h.elements r).toList).mapM f).map .row) := by
  have ends : ∀ x ∈ (h.elements l).toList.zip (h.elements r).toList, (∃ n, f x = .ok n) ∨
      ∃ cause, f x = .error (.fault cause) := by
    rintro ⟨x, y⟩ member
    obtain ⟨i, found⟩ := List.mem_iff_getElem?.mp member
    obtain ⟨left, right⟩ := Heap.getElem?_zip.mp found
    obtain ⟨n, result, -⟩ | ⟨cause, result, -⟩ := element i x y left right
    · exact .inl ⟨n, result⟩
    · exact .inr ⟨cause, result⟩
  obtain ⟨rows, computed, made⟩ | ⟨cause, computed, ⟨x, y⟩, member, fails⟩ := mapM_decided _ ends
  · have size : rows.length = h.length l := by
      have count := made.length_eq
      simp only [List.length_zip, Array.length_toList] at count
      simp only [Heap.length] at lengths ⊢
      omega
    have each : ∀ i x y, h.element? l i = some x → h.element? r i = some y →
        Combinable h op floating x y ∧ ∀ n, rows[i]? = some n → Combines h op floating x y n := by
      intro i x y left right
      have pair := getElem?_rel made i
      rw [Heap.getElem?_zip.mpr ⟨left, right⟩] at pair
      generalize rows[i]? = row at pair ⊢
      cases pair with
      | some result =>
        obtain ⟨n, same, combinable, combines⟩ | ⟨cause, fails, -⟩ := element i x y left right
        · obtain rfl := Except.ok.inj (same.symm.trans result)
          refine ⟨combinable, ?_⟩
          intro m found
          cases found
          exact combines
        · cases fails.symm.trans result
    refine .inl ⟨.row rows, by rw [computed]; rfl, ?_, ?_⟩
    · exact combinable_arrays.mpr ⟨lengths, filled, fun i x y left right => (each i x y left right).1⟩
    · exact combines_row size (fun i x y n left right => (each i x y left right).2 n) lengths
  · refine .inr ⟨cause, by rw [computed]; rfl, ?_⟩
    intro combinable
    obtain ⟨i, found⟩ := List.mem_iff_getElem?.mp member
    obtain ⟨left, right⟩ := Heap.getElem?_zip.mp found
    obtain ⟨n, result, -⟩ | ⟨-, -, refused⟩ := element i x y left right
    · cases fails.symm.trans result
    · exact refused ((combinable_arrays.mp combinable).2.2 i x y left right)

/-- Two arrays of which the left one nests less than `depth` deep are combined if they can be. -/
theorem combineTo_decided (arithmetic : op.isArithmetic = true) (depth : Nat)
    (shallow : ∀ path, (h.at? (.array l) path).isSome → path.length < depth) :
    Decided h op floating (.array l) (.array r) (combineTo h op floating depth l r) := by
  induction depth generalizing l r with
  | zero => exact absurd (shallow [] (by simp)) (Nat.not_lt_zero _)
  | succ depth ih =>
    simp only [combineTo]
    split
    · next differ =>
      exact .inr ⟨_, rfl, fun combinable => differ (combinable_arrays.mp combinable).1⟩
    · next same =>
      split
      · next empty =>
        refine .inr ⟨_, rfl, ?_⟩
        intro combinable
        exact (combinable_arrays.mp combinable).2.1 (by simpa [Heap.length] using empty)
      · next filled =>
        apply row_decided (Decidable.not_not.mp same) (by simpa [Heap.length] using filled)
        intro i x y left right
        apply combineElement_decided arithmetic
        intro a b first second
        subst first second
        -- the tree of an element is one position less deep
        apply ih
        intro path found
        have short := shallow (i :: path) (by simpa [left] using found)
        simpa using short

/-- Two arrays of which the left one nests finitely are combined if they can be. -/
theorem elementwise_decided (arithmetic : op.isArithmetic = true)
    (finite : h.NestsFinitely (.array l)) :
    Decided h op floating (.array l) (.array r) (elementwise h op floating l r) := by
  obtain ⟨bound, shallow⟩ := finite
  have deep : h.arrays.size * h.arrays.size < bound + 1 + h.arrays.size * h.arrays.size := by omega
  rw [elementwise, ← combineTo_stable h op floating deep]
  apply combineTo_decided arithmetic
  intro path found
  have := shallow path found
  omega

/-! ## 6. The operator -/

/-- Rows with numbers as leaves are put on the heap as the combination that they are. -/
theorem combination_place {n : Nest} (arithmetic : op.isArithmetic = true)
    (combinable : Combinable h op floating v w) (combines : Combines h op floating v w n) :
    Combination h op floating v w (h.place n).2 (h.place n).1 := by
  have scalars : ∀ path z, n.leaf? path = some z → h.length? z = none := by
    intro path z leaf
    have scalar := (combines.shape path).symm.trans (Nest.shapeAt_of_leaf? leaf)
    obtain ⟨x, left⟩ := Heap.exists_leaf?.mpr scalar
    obtain ⟨y, right⟩ := Heap.exists_leaf?.mpr ((combinable.shape path).symm.trans scalar)
    obtain ⟨z', result, leaf'⟩ := combines.leaves path x y left right
    obtain rfl : z = z' := Option.some.inj (leaf.symm.trans leaf')
    obtain ⟨u, result', number, -⟩ | ⟨cause, fails, -⟩ := numericOp_decided arithmetic floating x y
    · obtain rfl : z = u := Except.ok.inj (result.symm.trans result')
      cases z with
      | array a => cases number
      | _ => rfl
    · cases result.symm.trans fails
  obtain ⟨shows, larger⟩ := Heap.shows_place n scalars
  refine ⟨?_, ?_, ?_, shows.distinct, larger⟩
  · intro path
    rw [shows.shape, combines.shape]
  · intro path x y left right
    obtain ⟨z, result, leaf⟩ := combines.leaves path x y left right
    exact ⟨z, result, by rw [shows.leaves, leaf]⟩
  · exact fun path a found => (shows.inside path a found).1

theorem ofNest_ok (p : Program) (s : Turn) (node : NodeId) (n : Nest) :
    s.ofNest p node (.ok n) =
      { s with world.heap := (s.world.heap.place n).2, control := .give (s.world.heap.place n).1 } := by
  cases n <;> rfl

/-- An operator of arithmetic on two arrays, of which the left one nests finitely, gives a value exactly if
they can be combined. The value is then their combination, which takes new arrays only, and there is no other
change. If the two cannot be combined then the operator faults, and nothing is changed. -/
theorem combines_exactly (op : BinaryOp) (arithmetic : op.isArithmetic = true) (floating : Bool)
    (p : Program) (s : Turn) (node : NodeId) (l r : ArrayId)
    (finite : s.world.heap.NestsFinitely (.array l)) :
    let h := s.world.heap
    let result := elementwise h op floating l r
    ((∃ n, result = .ok n) ↔ Combinable h op floating (.array l) (.array r)) ∧
      (∀ n, result = .ok n → ∃ v h', s.ofNest p node result = { s with world.heap := h', control := .give v } ∧
        Combination h op floating (.array l) (.array r) h' v) ∧
      ∀ e, result = .error e → ∃ cause, e = .fault cause ∧ s.ofNest p node result = s.raise p node cause ∧
        (s.ofNest p node result).world = s.world := by
  intro h result
  have decided : Decided h op floating (.array l) (.array r) result := elementwise_decided arithmetic finite
  obtain ⟨n, given, combinable, combines⟩ | ⟨cause, fails, refused⟩ := decided
  · have given : result = .ok n := given
    rw [given]
    refine ⟨⟨fun _ => combinable, fun _ => ⟨n, rfl⟩⟩, ?_, nofun⟩
    intro m same
    cases same
    exact ⟨_, _, ofNest_ok p s node n, combination_place arithmetic combinable combines⟩
  · have fails : result = .error (.fault cause) := fails
    rw [fails]
    refine ⟨⟨nofun, fun combinable => absurd combinable refused⟩, nofun, ?_⟩
    intro e same
    cases same
    exact ⟨cause, rfl, rfl, rfl⟩

/-- A heap with the arrays `[[6, 7.5]]` and `[[4, 2]]`, and the rows in them. -/
def tables : Heap where
  arrays := #[#[.int 6, .float 7.5], #[.array ⟨0⟩], #[.int 4, .int 2], #[.array ⟨2⟩]]
  records := #[]

theorem tables_finite (v : Value) : tables.NestsFinitely v := by
  apply Heap.nestsFinitely_of_older
  intro ⟨a⟩ b i found
  have member := Array.mem_of_getElem? found
  match a with
  | 0 | 2 | _ + 4 => simp [tables, Heap.elements] at member
  | 1 | 3 =>
    simp [tables, Heap.elements] at member
    simp [member]

/-- The one is divided by the other, but not by a row of it. -/
theorem tables_divide :
    (BinaryOp.div.isArithmetic = true ∧ tables.NestsFinitely (.array ⟨1⟩)) ∧
      Combinable tables .div false (.array ⟨1⟩) (.array ⟨3⟩) ∧
      (∃ v h', Combination tables .div false (.array ⟨1⟩) (.array ⟨3⟩) h' v) ∧
      ¬ Combinable tables .div false (.array ⟨1⟩) (.array ⟨2⟩) := by
  let s : Turn := { (default : Turn) with world.heap := tables }
  obtain ⟨exactly, makes, -⟩ :=
    combines_exactly .div rfl false default s .invalid ⟨1⟩ ⟨3⟩ (tables_finite _)
  obtain ⟨exactly', -, -⟩ :=
    combines_exactly .div rfl false default s .invalid ⟨1⟩ ⟨2⟩ (tables_finite _)
  obtain ⟨v, h', -, combination⟩ := makes _ rfl
  refine ⟨⟨rfl, tables_finite _⟩, exactly.mp ⟨_, rfl⟩, ⟨v, h', combination⟩, ?_⟩
  intro combinable
  obtain ⟨n, given⟩ := exactly'.mpr combinable
  cases given

end Arith

end Strand
