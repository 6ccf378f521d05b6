import Strand.Proofs.Elementwise
import Strand.Proofs.Scope.Values

/-!
# The matrix product

Two tables are multiplied if the left one has as many rows as the first row of the right one has entries, and
all entries that the product is made of are numbers (`Arith.Multiplicable`). Nothing else is asked of the
other rows of the right table, or of the ends of the left rows: what is beyond the numbers that are needed is
not looked at. The product is a square of floats in arrays that are new and all different
(`Arith.Product`, `Arith.multiplies_exactly`).

So the number of columns on the left is only bounded from below by the number of rows on the right. Of two
rectangles whose inner dimensions differ, one with too many columns may still be multiplied
(`Arith.multiplies_rectangles`).
-/

set_option autoImplicit false

namespace Strand

/-! ## 1. Tables -/

namespace Heap

/-- The number in a row and a column of a table, as a float. -/
def number (h : Heap) (v : Value) (i j : Nat) : Float := ((h.at? v [i, j]).bind Value.asFloat?).getD 0.0

/-- The sum of the products of the first `inner` numbers of a row on the left with those of a column on the
right, from left to right. -/
def entry (h : Heap) (l r : Value) (inner i j : Nat) : Float :=
  (List.range inner).foldl (fun sum t => sum + h.number l i t * h.number r t j) 0.0

end Heap

namespace Arith

/-- An array of `rows` arrays that begin with `columns` numbers each. -/
structure Grid (h : Heap) (v : Value) (rows columns : Nat) : Prop where
  height : h.length? v = some rows
  widths : ∀ i < rows, ∃ width, columns ≤ width ∧ h.shapeAt v [i] = some (some width)
  numbers : ∀ i < rows, ∀ j < columns, ∃ x, h.at? v [i, j] = some x ∧ x.isNumber = true

/-- Two tables that have a product, which is a square with sides of length `size`. -/
structure Multiplicable (h : Heap) (l r : Value) (size inner : Nat) : Prop where
  left : Grid h l size inner
  right : Grid h r inner size
  first : h.shapeAt r [0] = some (some size)
  filled : size ≠ 0 ∧ inner ≠ 0

/-- A square of floats, on a heap with more arrays, that is the product of two tables. -/
structure Product (h : Heap) (l r : Value) (size inner : Nat) (h' : Heap) (result : Value) : Prop where
  height : h'.length? result = some size
  widths : ∀ i < size, h'.shapeAt result [i] = some (some size)
  cells : ∀ i < size, ∀ j < size, h'.at? result [i, j] = some (.float (h.entry l r inner i j))
  fresh : ∀ path a, h'.at? result path = some (.array a) → h.arrays.size ≤ a.index
  distinct : ∀ path path' a, h'.at? result path = some (.array a) →
    h'.at? result path' = some (.array a) → path = path'
  unchanged : h.Extends h'

variable {h : Heap} {v l r : Value} {rows left right : List (Array Value)} {row : Array Value} {n : Nest}
  {columns : Nat}

/-! ## 2. The rows of a table -/

/-- The number at a place of a row. -/
def number? (row : Array Value) (i : Nat) : Option Float := row[i]?.bind Value.asFloat?

/-- A row begins with some numbers. -/
def Begins (row : Array Value) (columns : Nat) : Prop := ∀ j < columns, (number? row j).isSome

theorem isNumber_iff : v.isNumber = true ↔ v.asFloat?.isSome := by
  cases v <;> simp [Value.isNumber, Value.asFloat?]

theorem Begins.le_size (numbers : Begins row columns) : columns ≤ row.size := by
  by_contra short
  have inside := numbers row.size (by omega)
  simp [number?] at inside

theorem begins_iff :
    Begins row columns ↔ ∀ j < columns, ∃ x, row[j]? = some x ∧ x.isNumber = true := by
  simp only [Begins, number?, isNumber_iff, Option.isSome_bind, Option.any_eq_true]

/-- Computations of which it is known when they give a result, and which one. -/
theorem mapM_eq_ok_map {ε α β : Type} {f : α → Except ε β} {can : α → Prop} {g : α → β}
    (each : ∀ a b, f a = .ok b ↔ can a ∧ g a = b) {inputs : List α} {results : List β} :
    inputs.mapM f = .ok results ↔ (∀ a ∈ inputs, can a) ∧ inputs.map g = results := by
  have same : List.Forall₂ (fun a b => g a = b) inputs results ↔ inputs.map g = results := by
    rw [← List.forall₂_eq_eq_eq, List.forall₂_map_left_iff]
  simp only [mapM_eq_ok, each, List.forall₂_and_left, same]

theorem rowsOf_eq_ok : rowsOf h v = .ok rows ↔ ∃ a, v = .array a ∧
    List.Forall₂ (fun w row => ∃ b, w = .array b ∧ row = h.elements b) (h.elements a).toList rows := by
  have element : ∀ w row, (do return h.elements (← expectArray w)) = Except.ok (ε := Cause) row ↔
      ∃ b, w = .array b ∧ row = h.elements b := by
    intro w row
    constructor
    · intro done
      obtain ⟨b, is, done⟩ := of_bind_eq_ok done
      exact ⟨b, expectArray_eq_ok is, (Except.ok.inj done).symm⟩
    · rintro ⟨b, rfl, rfl⟩
      rfl
  constructor
  · intro done
    obtain ⟨a, is, done⟩ := of_bind_eq_ok done
    refine ⟨a, expectArray_eq_ok is, ?_⟩
    exact (mapM_eq_ok.mp done).imp fun w row => (element w row).mp
  · rintro ⟨a, rfl, each⟩
    exact mapM_eq_ok.mpr (each.imp fun w row => (element w row).mpr)

/-- Where a value has rows, each of its elements is an array with one of them. -/
theorem exists_array (read : rowsOf h v = .ok rows) (i : Nat) : ∃ a, v = .array a ∧
    (h.element? a i = none ∧ rows[i]? = none ∨
      ∃ b, h.element? a i = some (.array b) ∧ rows[i]? = some (h.elements b)) := by
  obtain ⟨a, rfl, each⟩ := rowsOf_eq_ok.mp read
  refine ⟨a, rfl, ?_⟩
  have pair := getElem?_rel each i
  rw [Array.getElem?_toList] at pair
  rw [Heap.element?]
  generalize (h.elements a)[i]? = w at pair ⊢
  generalize rows[i]? = row at pair ⊢
  cases pair with
  | none => exact .inl ⟨rfl, rfl⟩
  | some is =>
    obtain ⟨b, rfl, rfl⟩ := is
    exact .inr ⟨b, rfl, rfl⟩

theorem shapeAt_rows (read : rowsOf h v = .ok rows) (i : Nat) :
    h.shapeAt v [i] = rows[i]?.map fun row => some row.size := by
  obtain ⟨a, rfl, ⟨element, row⟩ | ⟨b, element, row⟩⟩ := exists_array read i
  · simp [element, row]
  · simp [element, row, Heap.length?, Heap.length]

theorem at?_rows (read : rowsOf h v = .ok rows) (i j : Nat) :
    h.at? v [i, j] = rows[i]?.bind (·[j]?) := by
  obtain ⟨a, rfl, ⟨element, row⟩ | ⟨b, element, row⟩⟩ := exists_array read i
  · simp [element, row]
  · rw [Heap.at?_array, element, row]
    simp [Heap.element?]

theorem length?_rows (read : rowsOf h v = .ok rows) : h.length? v = some rows.length := by
  obtain ⟨a, rfl, each⟩ := rowsOf_eq_ok.mp read
  simpa [Heap.length?, Heap.length] using each.length_eq

/-- An array of arrays has rows. -/
theorem exists_rows {height : Nat} (length : h.length? v = some height)
    (arrays : ∀ i < height, ∃ width, h.shapeAt v [i] = some (some width)) :
    ∃ rows, rowsOf h v = .ok rows := by
  cases v with
  | array a =>
    cases length
    have each : ∀ w ∈ (h.elements a).toList, ∃ row, ∃ b, w = .array b ∧ row = h.elements b := by
      intro w member
      obtain ⟨i, found⟩ := List.mem_iff_getElem?.mp member
      rw [Array.getElem?_toList] at found
      have inside : i < h.length a := (Array.getElem?_eq_some_iff.mp found).1
      obtain ⟨width, shape⟩ := arrays i inside
      rw [Heap.shapeAt_array, Heap.element?, found] at shape
      cases w with
      | array b => exact ⟨h.elements b, b, rfl, rfl⟩
      | _ => simp [Heap.length?] at shape
    obtain ⟨rows, each⟩ := exists_forall₂ each
    exact ⟨rows, rowsOf_eq_ok.mpr ⟨a, rfl, each⟩⟩
  | _ => cases length

theorem Grid.exists_rows {height width : Nat} (grid : Grid h v height width) :
    ∃ rows, rowsOf h v = .ok rows := by
  apply Arith.exists_rows grid.height
  intro i inside
  obtain ⟨width, -, shape⟩ := grid.widths i inside
  exact ⟨width, shape⟩

/-- The rows of a table whose entries begin with numbers. -/
theorem grid_iff (read : rowsOf h v = .ok rows) {height width : Nat} :
    Grid h v height width ↔ rows.length = height ∧ ∀ row ∈ rows, Begins row width := by
  constructor
  · intro grid
    have height : rows.length = height := by
      have := (length?_rows read).symm.trans grid.height
      exact Option.some.inj this
    refine ⟨height, ?_⟩
    intro row member
    obtain ⟨i, inside, rfl⟩ := List.mem_iff_getElem.mp member
    rw [begins_iff]
    intro j beyond
    obtain ⟨x, found, number⟩ := grid.numbers i (by omega) j beyond
    rw [at?_rows read, List.getElem?_eq_getElem inside] at found
    exact ⟨x, found, number⟩
  · rintro ⟨rfl, begin⟩
    refine ⟨length?_rows read, ?_, ?_⟩
    · intro i inside
      refine ⟨rows[i].size, (begin _ (List.getElem_mem inside)).le_size, ?_⟩
      rw [shapeAt_rows read, List.getElem?_eq_getElem inside]
      rfl
    · intro i inside j beyond
      rw [at?_rows read, List.getElem?_eq_getElem inside]
      exact begins_iff.mp (begin _ (List.getElem_mem inside)) j beyond

/-- The number at a place of a table, where there is one. -/
theorem number_rows (read : rowsOf h v = .ok rows) (i j : Nat) :
    h.number v i j = (number? (rows.getD i #[]) j).getD 0.0 := by
  rw [Heap.number, at?_rows read, List.getD_eq_getElem?_getD]
  cases rows[i]? <;> simp [number?]

/-! ## 3. The loops -/

/-- A sum of products, begun with `sum`, of the numbers of a row from the place `i` on with those in a column
of the rows below. -/
def dot (row : Array Value) (column i : Nat) (below : List (Array Value)) (sum : Float) : Float :=
  (List.range below.length).foldl (fun sum t =>
    sum + (number? row (i + t)).getD 0.0 * (number? (below.getD t #[]) column).getD 0.0) sum

theorem dot_cons (row first : Array Value) (column i : Nat) (rest : List (Array Value)) (sum : Float) :
    dot row column i (first :: rest) sum =
      dot row column (i + 1) rest (sum + (number? row i).getD 0.0 * (number? first column).getD 0.0) := by
  simp only [dot, List.length_cons, List.range_succ_eq_map, List.foldl_cons, List.foldl_map, Nat.add_zero,
    List.getD_cons_zero, List.getD_cons_succ, Nat.succ_eq_add_one, Nat.add_right_comm, Nat.add_assoc]

theorem expectNumber_eq_ok {x : Float} : expectNumber v = .ok x ↔ v.asFloat? = some x := by
  cases v <;> simp [expectNumber, Value.asFloat?]

/-- One round of the innermost loop. -/
theorem dotFrom_cons_eq_ok {first : Array Value} {rest : List (Array Value)} {column i : Nat}
    {sum total : Float} : dotFrom row columns column i (first :: rest) sum = .ok total ↔
      ∃ x y, number? row i = some x ∧ number? first column = some y ∧
        dotFrom row columns column (i + 1) rest (sum + x * y) = .ok total := by
  constructor
  · intro done
    rw [dotFrom] at done
    cases below : first[column]? with
    | none =>
      rw [below] at done
      cases done
    | some r =>
      rw [below] at done
      obtain ⟨_, same, done⟩ := of_bind_eq_ok done
      cases same
      obtain ⟨l, factor, done⟩ := of_bind_eq_ok done
      obtain ⟨x, left, done⟩ := of_bind_eq_ok done
      obtain ⟨y, right, done⟩ := of_bind_eq_ok done
      have factor : row[i]? = some l := by
        rw [entryOf] at factor
        cases found : row[i]? <;> rw [found] at factor <;> cases factor
        rfl
      refine ⟨x, y, ?_, ?_, done⟩
      · rw [number?, factor]
        exact expectNumber_eq_ok.mp (of_ofFault_eq_ok left)
      · rw [number?, below]
        exact expectNumber_eq_ok.mp (of_ofFault_eq_ok right)
  · rintro ⟨x, y, factor, below, done⟩
    obtain ⟨l, factor, left⟩ := Option.bind_eq_some_iff.mp factor
    obtain ⟨r, below, right⟩ := Option.bind_eq_some_iff.mp below
    simp only [dotFrom, entryOf, factor, below, bind, Except.bind, expectNumber_eq_ok.mpr left,
      expectNumber_eq_ok.mpr right, Abort.ofFault]
    exact done

/-- A sum of products is computed where there are numbers. -/
theorem dotFrom_eq_ok {below : List (Array Value)} {column i : Nat} {sum total : Float} :
    dotFrom row columns column i below sum = .ok total ↔
      (∀ t < below.length, (number? row (i + t)).isSome) ∧ (∀ b ∈ below, (number? b column).isSome) ∧
        dot row column i below sum = total := by
  induction below generalizing i sum with
  | nil => simp [dotFrom, dot]
  | cons first rest ih =>
    have shift : ∀ t, i + 1 + t = i + (t + 1) := fun t => by omega
    rw [dotFrom_cons_eq_ok, List.length_cons, Nat.forall_lt_succ_left, List.forall_mem_cons, dot_cons]
    simp only [ih, shift, Nat.add_zero]
    constructor
    · rintro ⟨x, y, factor, entry, long, numbers, rfl⟩
      simp only [factor, entry]
      exact ⟨⟨rfl, long⟩, ⟨rfl, numbers⟩, rfl⟩
    · rintro ⟨⟨factor, long⟩, ⟨entry, numbers⟩, rfl⟩
      obtain ⟨x, factor⟩ := Option.isSome_iff_exists.mp factor
      obtain ⟨y, entry⟩ := Option.isSome_iff_exists.mp entry
      simp only [factor, entry]
      exact ⟨x, y, rfl, rfl, long, numbers, rfl⟩

theorem cell_eq_ok {column : Nat} {total : Float} :
    dotFrom row columns column 0 right 0.0 = .ok total ↔
      (Begins row right.length ∧ ∀ b ∈ right, (number? b column).isSome) ∧
        dot row column 0 right 0.0 = total := by
  simp only [dotFrom_eq_ok, Begins, Nat.zero_add, and_assoc]

/-- The cells of a row of the product, of which there is one at least. -/
theorem cells_eq_ok (filled : columns ≠ 0) {totals : List Float} :
    (List.range columns).mapM (fun column => dotFrom row columns column 0 right 0.0) = .ok totals ↔
      (Begins row right.length ∧ ∀ b ∈ right, Begins b columns) ∧
        (List.range columns).map (fun column => dot row column 0 right 0.0) = totals := by
  -- each cell asks for the same numbers on the left, and one that does is enough
  rw [mapM_eq_ok_map fun column total => cell_eq_ok]
  simp only [List.mem_range]
  constructor
  · rintro ⟨numbers, rfl⟩
    have first := numbers 0 (Nat.pos_of_ne_zero filled)
    exact ⟨⟨first.1, fun b member column inside => (numbers column inside).2 b member⟩, rfl⟩
  · rintro ⟨⟨long, numbers⟩, rfl⟩
    exact ⟨fun column inside => ⟨long, fun b member => numbers b member column inside⟩, rfl⟩

/-- A row of a product. -/
def cells (right : List (Array Value)) (columns : Nat) (row : Array Value) : Nest :=
  .row ((List.range columns).map fun column => .leaf (.float (dot row column 0 right 0.0)))

/-- A row of a product, which is not empty, is computed where there are numbers. -/
theorem productRow_eq_ok (filled : columns ≠ 0) : productRow right columns row = .ok n ↔
    (Begins row right.length ∧ ∀ b ∈ right, Begins b columns) ∧ cells right columns row = n := by
  constructor
  · intro done
    rw [productRow] at done
    split at done
    · cases done
    · obtain ⟨totals, computed, done⟩ := of_bind_eq_ok done
      obtain ⟨numbers, rfl⟩ := (cells_eq_ok filled).mp computed
      cases done
      rw [cells, List.map_map]
      exact ⟨numbers, rfl⟩
  · rintro ⟨numbers, rfl⟩
    rw [productRow, if_neg (Nat.not_lt.mpr numbers.1.le_size), (cells_eq_ok filled).mpr ⟨numbers, rfl⟩, cells]
    simp [bind, Except.bind, pure, Except.pure]

/-- Tables whose rows have a product. -/
structure Fits (left right : List (Array Value)) : Prop where
  filled : left ≠ []
  first : right.head?.map Array.size = some left.length
  factors : ∀ row ∈ left, Begins row right.length
  entries : ∀ row ∈ right, Begins row left.length

/-- The product of two tables with rows. -/
theorem matrixProduct_rows {first top : Array Value} {others below : List (Array Value)}
    (readLeft : rowsOf h l = .ok (first :: others)) (readRight : rowsOf h r = .ok (top :: below)) :
    matrixProduct h l r =
      if first.isEmpty then .error (.fault .emptyArray)
      else if (first :: others).length ≠ top.size then
        .error (.fault (.matrixDimension (first :: others).length top.size))
      else ((first :: others).mapM (productRow (top :: below) top.size)).map .row := by
  simp only [matrixProduct, readLeft, readRight, Abort.ofFault, bind, Except.bind]
  split
  · rfl
  · split
    · rfl
    · cases (first :: others).mapM (productRow (top :: below) top.size) <;> rfl

/-- The product is computed where two values have rows with a product. -/
theorem matrixProduct_eq_ok : matrixProduct h l r = .ok n ↔
    ∃ left right, rowsOf h l = .ok left ∧ rowsOf h r = .ok right ∧ Fits left right ∧
      .row (left.map (cells right left.length)) = n := by
  constructor
  · intro done
    obtain ⟨left, readLeft, rest⟩ := of_bind_eq_ok done
    obtain ⟨right, readRight, rest⟩ := of_bind_eq_ok rest
    have readLeft := of_ofFault_eq_ok readLeft
    have readRight := of_ofFault_eq_ok readRight
    refine ⟨left, right, readLeft, readRight, ?_⟩
    cases left with
    | nil => cases rest
    | cons first others =>
      cases right with
      | nil => cases rest
      | cons top below =>
        rw [matrixProduct_rows readLeft readRight] at done
        split at done
        · cases done
        · split at done
          · cases done
          · next same =>
            have size : top.size = (first :: others).length := (Decidable.not_not.mp same).symm
            have filled : top.size ≠ 0 := by simp [size]
            obtain ⟨products, computed, rfl⟩ := of_map_eq_ok done
            obtain ⟨numbers, rfl⟩ := (mapM_eq_ok_map fun row product => productRow_eq_ok filled).mp computed
            have entries := (numbers first List.mem_cons_self).2
            rw [size] at entries ⊢
            exact ⟨⟨List.cons_ne_nil _ _, congrArg some size, fun row member => (numbers row member).1,
              entries⟩, rfl⟩
  · rintro ⟨left, right, readLeft, readRight, fits, rfl⟩
    obtain ⟨filled, first, factors, entries⟩ := fits
    cases left with
    | nil => exact absurd rfl filled
    | cons row others =>
      cases right with
      | nil => cases first
      | cons top below =>
        have size : top.size = (row :: others).length := Option.some.inj first
        have filled : top.size ≠ 0 := by simp [size]
        -- a row is not empty if it has a number for each of the rows on the right
        have long := (factors row List.mem_cons_self).le_size
        have nonempty : ¬ row.isEmpty = true := by
          rw [List.length_cons] at long
          simp only [Array.isEmpty, decide_eq_true_eq]
          omega
        have computed := (mapM_eq_ok_map fun row product => productRow_eq_ok filled).mpr
          ⟨fun row member => ⟨factors row member, size ▸ entries⟩, rfl⟩
        rw [matrixProduct_rows readLeft readRight, if_neg nonempty, if_neg (Decidable.not_not.mpr size.symm),
          computed, size]
        rfl

/-! ## 4. The product -/

/-- Whether two values have a product is seen from their rows. -/
theorem multiplicable_iff (readLeft : rowsOf h l = .ok left) (readRight : rowsOf h r = .ok right)
    {size inner : Nat} :
    Multiplicable h l r size inner ↔ Fits left right ∧ left.length = size ∧ right.length = inner := by
  constructor
  · intro multiplicable
    obtain ⟨rfl, factors⟩ := (grid_iff readLeft).mp multiplicable.left
    obtain ⟨rfl, entries⟩ := (grid_iff readRight).mp multiplicable.right
    refine ⟨⟨?_, ?_, factors, entries⟩, rfl, rfl⟩
    · exact List.length_pos_iff.mp (Nat.pos_of_ne_zero multiplicable.filled.1)
    · have first := multiplicable.first
      rw [shapeAt_rows readRight, ← List.head?_eq_getElem?] at first
      cases top : right.head? with
      | none => simp [top] at first
      | some top => simpa [top] using first
  · rintro ⟨⟨filled, first, factors, entries⟩, rfl, rfl⟩
    refine ⟨(grid_iff readLeft).mpr ⟨rfl, factors⟩, (grid_iff readRight).mpr ⟨rfl, entries⟩, ?_, ?_, ?_⟩
    · rw [shapeAt_rows readRight, ← List.head?_eq_getElem?]
      obtain ⟨top, head, size⟩ := Option.map_eq_some_iff.mp first
      rw [head, ← size]
      rfl
    · exact mt List.length_eq_zero_iff.mp filled
    · cases right with
      | nil => cases first
      | cons top below => exact nofun

/-- The sums that are computed from the rows are those of the two tables. -/
theorem dot_eq_entry (readLeft : rowsOf h l = .ok left) (readRight : rowsOf h r = .ok right) {i : Nat}
    (found : left[i]? = some row) (j : Nat) :
    dot row j 0 right 0.0 = h.entry l r right.length i j := by
  simp only [dot, Heap.entry, number_rows readLeft, number_rows readRight, List.getD_eq_getElem?_getD, found,
    Option.getD_some, Nat.zero_add]

theorem leaf?_cells {j : Nat} {path : List Nat} :
    (cells right columns row).leaf? (j :: path) =
      if j < columns ∧ path = [] then some (.float (dot row j 0 right 0.0)) else none := by
  cases path with
  | nil => by_cases inside : j < columns <;> simp [cells, inside, Nest.value?]
  | cons k path => by_cases inside : j < columns <;> simp [cells, inside]

/-- The leaves of a product are floats. -/
theorem float_of_leaf? {path : List Nat} {z : Value}
    (found : (Nest.row (left.map (cells right columns))).leaf? path = some z) : ∃ x, z = .float x := by
  match path with
  | [] => cases found
  | [i] => cases row : left[i]? <;> simp [row, cells, Nest.value?] at found
  | i :: j :: path =>
    cases row : left[i]? with
    | none => simp [row] at found
    | some row' =>
      rw [Nest.leaf?_row, List.getElem?_map, row, Option.map_some, Option.bind_some, leaf?_cells] at found
      split at found
      · cases found
        exact ⟨_, rfl⟩
      · cases found

/-- The rows of a product are put on the heap as the product that they are. -/
theorem product_place (readLeft : rowsOf h l = .ok left) (readRight : rowsOf h r = .ok right) :
    let n := Nest.row (left.map (cells right left.length))
    Product h l r left.length right.length (h.place n).2 (h.place n).1 := by
  intro n
  have scalars : ∀ path z, n.leaf? path = some z → h.length? z = none := by
    intro path z found
    obtain ⟨x, rfl⟩ := float_of_leaf? found
    rfl
  obtain ⟨shows, larger⟩ := Heap.shows_place n scalars
  refine ⟨?_, ?_, ?_, fun path a found => (shows.inside path a found).1, shows.distinct, larger⟩
  · have shape := shows.shape []
    rw [Heap.shapeAt_nil, Nest.shapeAt_nil] at shape
    simpa [n, Nest.length?] using shape
  · intro i inside
    rw [shows.shape]
    simp [n, inside, cells, Nest.length?]
  · intro i inside j beyond
    have found : left[i]? = some left[i] := List.getElem?_eq_getElem inside
    have leaf := shows.leaves [i, j]
    rw [Nest.leaf?_row, List.getElem?_map, found, Option.map_some, Option.bind_some, leaf?_cells,
      if_pos ⟨beyond, rfl⟩, dot_eq_entry readLeft readRight found] at leaf
    exact (Option.filter_eq_some_iff.mp leaf).1

theorem Multiplicable.exists_rows {size inner : Nat} (multiplicable : Multiplicable h l r size inner) :
    ∃ left right, rowsOf h l = .ok left ∧ rowsOf h r = .ok right ∧ left.length = size ∧
      right.length = inner ∧ matrixProduct h l r = .ok (.row (left.map (cells right left.length))) := by
  obtain ⟨left, readLeft⟩ := multiplicable.left.exists_rows
  obtain ⟨right, readRight⟩ := multiplicable.right.exists_rows
  obtain ⟨fits, size, inner⟩ := (multiplicable_iff readLeft readRight).mp multiplicable
  exact ⟨left, right, readLeft, readRight, size, inner,
    matrixProduct_eq_ok.mpr ⟨left, right, readLeft, readRight, fits, rfl⟩⟩

theorem exists_multiplicable (given : matrixProduct h l r = .ok n) :
    ∃ size inner, Multiplicable h l r size inner := by
  obtain ⟨left, right, readLeft, readRight, fits, -⟩ := matrixProduct_eq_ok.mp given
  exact ⟨_, _, (multiplicable_iff readLeft readRight).mpr ⟨fits, rfl, rfl⟩⟩

/-- A turn goes on with the product. -/
theorem Multiplicable.product (p : Program) (s : Turn) (node : NodeId) {size inner : Nat}
    (multiplicable : Multiplicable s.world.heap l r size inner) :
    ∃ v h', s.ofNest p node (matrixProduct s.world.heap l r) =
        { s with world.heap := h', control := .give v } ∧
      Product s.world.heap l r size inner h' v := by
  obtain ⟨left, right, readLeft, readRight, rfl, rfl, given⟩ := multiplicable.exists_rows
  rw [given]
  exact ⟨_, _, ofNest_ok p s node _, product_place readLeft readRight⟩

/-- The matrix product gives a value exactly if the left value has as many rows as the first row of the right
one has entries, at least one, and if the left rows begin with as many numbers as there are rows on the right,
and those with as many numbers as there are rows on the left. The value is then the product, which takes new
arrays only, and there is no other change. If not then the operator faults, and nothing is changed. No entry is
read where a row has none. -/
theorem multiplies_exactly (p : Program) (s : Turn) (node : NodeId) (l r : Value) :
    let h := s.world.heap
    let result := matrixProduct h l r
    ((∃ n, result = .ok n) ↔ ∃ size inner, Multiplicable h l r size inner) ∧
      (∀ size inner, Multiplicable h l r size inner → ∃ v h',
        s.ofNest p node result = { s with world.heap := h', control := .give v } ∧
          Product h l r size inner h' v) ∧
      ∀ e, result = .error e → ∃ cause, e = .fault cause ∧ s.ofNest p node result = s.raise p node cause ∧
        (s.ofNest p node result).world = s.world := by
  intro h result
  refine ⟨⟨?_, ?_⟩, ?_, ?_⟩
  · rintro ⟨n, given⟩
    exact exists_multiplicable given
  · rintro ⟨size, inner, multiplicable⟩
    obtain ⟨left, right, -, -, -, -, given⟩ := multiplicable.exists_rows
    exact ⟨_, given⟩
  · exact fun size inner multiplicable => multiplicable.product p s node
  · intro e fails
    have ends : Yields Abort.IsFault _ result := matrixProduct_yields h l r
    rw [fails] at ends ⊢
    cases e with
    | fault cause => exact ⟨cause, rfl, rfl, rfl⟩
    | outOfRange | diverges => cases ends

/-- What is not needed is not looked at: here the end of the row on the left, and that of the lower one on the
right. -/
example : (matrixProduct
    ⟨#[#[.int 1, .int 2, .null], #[.array ⟨0⟩], #[.int 3], #[.int 4, .null], #[.array ⟨2⟩, .array ⟨3⟩]], #[]⟩
    (.array ⟨1⟩) (.array ⟨4⟩)).isOk = true :=
  rfl

/-! ## 5. Rectangles -/

/-- An array of `rows` arrays of `columns` numbers each. -/
structure Rectangle (h : Heap) (v : Value) (rows columns : Nat) : Prop where
  height : h.length? v = some rows
  widths : ∀ i < rows, h.shapeAt v [i] = some (some columns)
  numbers : ∀ i < rows, ∀ j < columns, ∃ x, h.at? v [i, j] = some x ∧ x.isNumber = true

theorem rectangle_iff {height width : Nat} : Rectangle h v height width ↔ h.length? v = some height ∧
    (∀ i < height, h.shapeAt v [i] = some (some width)) ∧
    ∀ i < height, ∀ j < width, (h.at? v [i, j]).any Value.isNumber = true := by
  simp only [Option.any_eq_true]
  exact ⟨fun ⟨height, widths, numbers⟩ => ⟨height, widths, numbers⟩,
    fun ⟨height, widths, numbers⟩ => ⟨height, widths, numbers⟩⟩

instance (h : Heap) (v : Value) (height width : Nat) : Decidable (Rectangle h v height width) :=
  decidable_of_iff _ rectangle_iff.symm

theorem Rectangle.grid {height width : Nat} (rectangle : Rectangle h v height width)
    (fewer : columns ≤ width) : Grid h v height columns where
  height := rectangle.height
  widths i inside := ⟨width, fewer, rectangle.widths i inside⟩
  numbers i inside j beyond := rectangle.numbers i inside j (Nat.lt_of_lt_of_le beyond fewer)

/-- A rectangle with a row has a first one, which is as long as the others. -/
theorem Rectangle.exists_first {height width : Nat} (rectangle : Rectangle h v height width)
    (filled : 1 ≤ height) : ∃ first others, rowsOf h v = .ok (first :: others) ∧ first.size = width ∧
      (first :: others).length = height := by
  obtain ⟨rows, read⟩ := (rectangle.grid (Nat.le_refl width)).exists_rows
  have length : rows.length = height :=
    Option.some.inj ((length?_rows read).symm.trans rectangle.height)
  cases rows with
  | nil => exact absurd (length ▸ filled) (by simp)
  | cons first others =>
    have size := (shapeAt_rows read 0).symm.trans (rectangle.widths 0 filled)
    exact ⟨first, others, read, by simpa using size, length⟩

/-- The product of two rectangles. If the left one has another number of rows than the right one has columns,
or fewer columns than the right one has rows, then it is a fault. If not then it is the product of the right
one and as many columns of the left one as the right one has rows; a longer row on the left is no fault. -/
theorem multiplies_rectangles (p : Program) (s : Turn) (node : NodeId) (l r : Value) (m n k q : Nat)
    (left : Rectangle s.world.heap l m n) (right : Rectangle s.world.heap r k q)
    (filled : 1 ≤ m ∧ 1 ≤ n ∧ 1 ≤ k ∧ 1 ≤ q) :
    let result := matrixProduct s.world.heap l r
    (m ≠ q → result = .error (.fault (.matrixDimension m q))) ∧
      (m = q → n < k → result = .error (.fault (.lengthMismatch n k))) ∧
      (m = q → k ≤ n → ∃ v h', s.ofNest p node result = { s with world.heap := h', control := .give v } ∧
        Product s.world.heap l r m k h' v) := by
  intro result
  obtain ⟨first, others, readLeft, rfl, rfl⟩ := left.exists_first filled.1
  obtain ⟨top, below, readRight, rfl, rfl⟩ := right.exists_first filled.2.2.1
  have nonempty : ¬ first.isEmpty = true := by
    simp only [Array.isEmpty, decide_eq_true_eq]
    omega
  have same : result = _ := (matrixProduct_rows readLeft readRight).trans (if_neg nonempty)
  refine ⟨?_, ?_, ?_⟩
  · intro differ
    rw [same, if_pos differ]
  · intro square short
    rw [same, if_neg (Decidable.not_not.mpr square), List.mapM_cons, productRow, if_pos short]
    rfl
  · intro square long
    apply Multiplicable.product
    refine ⟨left.grid long, ?_, ?_, ?_⟩
    · exact right.grid (Nat.le_of_eq square)
    · exact square ▸ right.widths 0 filled.2.2.1
    · omega

/-- A heap with the tables `[[1, 2]]`, `[[3]]` and `[[3], [3]]`, and the rows in them. -/
def strips : Heap where
  arrays := #[#[.int 1, .int 2], #[.array ⟨0⟩], #[.int 3], #[.array ⟨2⟩], #[.array ⟨2⟩, .array ⟨2⟩]]
  records := #[]

/-- The first two have a product, but not the other way around, and there is none of the last two. -/
theorem strips_multiply :
    (Rectangle strips (.array ⟨1⟩) 1 2 ∧ Rectangle strips (.array ⟨3⟩) 1 1 ∧
      Rectangle strips (.array ⟨4⟩) 2 1) ∧
    (∃ v h', Product strips (.array ⟨1⟩) (.array ⟨3⟩) 1 1 h' v) ∧
    matrixProduct strips (.array ⟨3⟩) (.array ⟨1⟩) = .error (.fault (.matrixDimension 1 2)) ∧
    matrixProduct strips (.array ⟨3⟩) (.array ⟨4⟩) = .error (.fault (.lengthMismatch 1 2)) := by
  have wide : Rectangle strips (.array ⟨1⟩) 1 2 := by decide
  have single : Rectangle strips (.array ⟨3⟩) 1 1 := by decide
  have tall : Rectangle strips (.array ⟨4⟩) 2 1 := by decide
  let s : Turn := { (default : Turn) with world.heap := strips }
  obtain ⟨-, -, multiplies⟩ := multiplies_rectangles default s .invalid _ _ 1 2 1 1 wide single (by decide)
  obtain ⟨differ, -, -⟩ := multiplies_rectangles default s .invalid _ _ 1 1 1 2 single wide (by decide)
  obtain ⟨-, short, -⟩ := multiplies_rectangles default s .invalid _ _ 1 1 2 1 single tall (by decide)
  obtain ⟨v, h', -, product⟩ := multiplies rfl (by decide)
  exact ⟨⟨wide, single, tall⟩, ⟨v, h', product⟩, differ (by decide), short rfl (by decide)⟩

/-- Two columns meet one row, and there is no fault: the second column is left out. -/
theorem wide_multiplies :
    Rectangle strips (.array ⟨1⟩) 1 2 ∧ Rectangle strips (.array ⟨3⟩) 1 1 ∧ 2 ≠ 1 ∧
      matrixProduct strips (.array ⟨1⟩) (.array ⟨3⟩) =
        .ok (.row [.row [.leaf (.float (0.0 + (1 : Int64).toFloat * (3 : Int64).toFloat))]]) ∧
      ¬ ∃ cause, matrixProduct strips (.array ⟨1⟩) (.array ⟨3⟩) = .error (.fault cause) := by
  have computed : matrixProduct strips (.array ⟨1⟩) (.array ⟨3⟩) =
      .ok (.row [.row [.leaf (.float (0.0 + (1 : Int64).toFloat * (3 : Int64).toFloat))]]) := rfl
  refine ⟨by decide, by decide, by decide, computed, ?_⟩
  rintro ⟨cause, fails⟩
  cases computed.symm.trans fails

end Arith

end Strand
