import Strand.Arith.Binary
import Strand.Arith.Matrix
import Strand.Builder

/-!
# What an operator gives has the type that it is recorded with

The builder computes the type of an operator's application from the types of its operands, and the
evaluator chooses the meaning of the operator from the same two types: two dispatchers, with their rules in
different orders. They agree, and they agree strictly. The types of the operands are read loosely, for an
integer may stand where a float is declared, and `null` where an object is; but what the operator gives has
its type to the letter, down to the leaves of nested arrays (`Arith.result_exact`).

An operator computes rows that are not on the heap yet. So the proof has two parts: the rows fit the type
(`Nest.Fits`), and rows that fit a type make a value of it when they are placed (`Heap.exact_place`).
-/

set_option autoImplicit false

namespace Strand

/-! ## 1. Values of a type -/

namespace Heap

/-- A value that may stand where the type is declared: an integer stands for a float, and `null` for a
string or an object. -/
def Inhabits (p : Program) (h : Heap) : Ty → Value → Prop
  | .int, .int _ => True
  | .float, .int _ | .float, .float _ => True
  | .bool, .bool _ => True
  | .string, .str _ | .string, .null => True
  | .void, .void => True
  | .null, .null => True
  | .type, .type _ => True
  | .function, .function _ | .function, .constructor _ | .function, .null => True
  | .array _, .null => True
  | .array element, .array a => ∀ v ∈ (h.elements a).toList, Inhabits p h element v
  | .struct _, .null => True
  | .struct name, .struct r => ∃ fields, p.kind (h.record r).decl = .ok (.structDecl name fields)
  | _, _ => False

/-- A value that has the type to the letter. An array has elements, all of them of the element type, so it
nests as deep as its type does. -/
def Exact (p : Program) (h : Heap) : Ty → Value → Prop
  | .int, .int _ => True
  | .float, .float _ => True
  | .bool, .bool _ => True
  | .string, .str _ => True
  | .void, .void => True
  | .null, .null => True
  | .type, .type _ => True
  | .function, .function _ | .function, .constructor _ => True
  | .array element, .array a =>
    (h.elements a).toList ≠ [] ∧ ∀ v ∈ (h.elements a).toList, Exact p h element v
  | .struct name, .struct r => ∃ fields, p.kind (h.record r).decl = .ok (.structDecl name fields)
  | _, _ => False

variable {p : Program} {h h' : Heap} {ty : Ty} {v : Value}

/-- What has a type to the letter may stand where the type is declared. -/
theorem Exact.inhabits (exact : h.Exact p ty v) : h.Inhabits p ty v := by
  induction ty generalizing v with
  | array element ih =>
    cases v with
    | array a =>
      intro w member
      exact ih (exact.2 w member)
    | _ => exact exact.elim
  | struct name =>
    cases v with
    | struct r => exact exact
    | _ => exact exact.elim
  | _ => cases v <;> first | exact exact.elim | trivial

/-- What is neither an array nor `null` is a value of no array type. -/
theorem Inhabits.dimensions_eq_zero (inhabits : h.Inhabits p ty v) (array : ∀ a, v ≠ .array a)
    (null : v ≠ .null) : ty.dimensions = 0 := by
  cases ty with
  | array element =>
    cases v with
    | array a => exact absurd rfl (array a)
    | null => exact absurd rfl null
    | _ => exact inhabits.elim
  | _ => rfl

/-- A float is only a value of the type of floats. -/
theorem Inhabits.float_eq {x : Float} (inhabits : h.Inhabits p ty (.float x)) : ty = .float := by
  cases ty with
  | float => rfl
  | _ => exact inhabits.elim

/-! ### Heaps with more arrays -/

/-- Arrays that are there stay, and so do the records. -/
structure Extends (h h' : Heap) : Prop where
  arrays : ∀ a : ArrayId, a.index < h.arrays.size → h'.arrays[a.index]? = h.arrays[a.index]?
  size : h.arrays.size ≤ h'.arrays.size
  records : h'.records = h.records

theorem Extends.refl (h : Heap) : h.Extends h := ⟨fun _ _ => rfl, Nat.le_refl _, rfl⟩

theorem Extends.trans {h'' : Heap} (first : h.Extends h') (second : h'.Extends h'') :
    h.Extends h'' := by
  refine ⟨?_, Nat.le_trans first.size second.size, second.records.trans first.records⟩
  intro a inside
  exact (second.arrays a (Nat.lt_of_lt_of_le inside first.size)).trans (first.arrays a inside)

theorem extends_newArray (h : Heap) (elements : Array Value) :
    h.Extends (h.newArray elements).2 := by
  refine ⟨?_, ?_, rfl⟩
  · intro a inside
    simp only [newArray, Array.getElem?_push]
    rw [if_neg (Nat.ne_of_lt inside)]
  · simp [newArray]

@[simp] theorem elements_newArray (h : Heap) (elements : Array Value) :
    (h.newArray elements).2.elements (h.newArray elements).1 = elements := by
  simp [newArray, Heap.elements]

/-- An array with elements is there. -/
theorem lt_of_elements_ne_nil {a : ArrayId} (some : (h.elements a).toList ≠ []) :
    a.index < h.arrays.size := by
  apply Nat.lt_of_not_le
  intro outside
  apply some
  simp [elements, Nat.not_lt.mpr outside]

/-- A value keeps its type when there are more arrays. -/
theorem Exact.extends (exact : h.Exact p ty v) (larger : h.Extends h') : h'.Exact p ty v := by
  induction ty generalizing v with
  | array element ih =>
    cases v with
    | array a =>
      obtain ⟨some, all⟩ := exact
      have same : h'.elements a = h.elements a := by
        simp only [elements, Array.getD_eq_getD_getElem?,
          larger.arrays a (lt_of_elements_ne_nil some)]
      refine ⟨same ▸ some, ?_⟩
      intro w member
      rw [same] at member
      exact ih (all w member)
    | _ => exact exact.elim
  | struct name =>
    cases v with
    | struct r =>
      simp only [Exact, record, larger.records]
      exact exact
    | _ => exact exact.elim
  | _ => cases v <;> first | exact exact.elim | trivial

end Heap

/-! ## 2. Rows that fit a type -/

/-- Rows that make a value of the type, to the letter, when they are placed. No row is empty, and they nest
as deep as the type does. -/
def Nest.Fits : Ty → Nest → Prop
  | .int, .leaf (.int _) => True
  | .float, .leaf (.float _) => True
  | .bool, .leaf (.bool _) => True
  | .string, .leaf (.str _) => True
  | .array element, .row rows => rows ≠ [] ∧ ∀ row ∈ rows, Fits element row
  | _, _ => False

namespace Heap

variable {p : Program} {ty : Ty}

theorem length_placeAll (rows : List Nest) (h : Heap) :
    (h.placeAll rows).1.length = rows.length := by
  induction rows generalizing h with
  | nil => rfl
  | cons row rows ih =>
    simp only [placeAll, List.length_cons]
    rw [ih]

/-- Rows are placed one after the other, and the later ones leave the earlier ones alone. -/
theorem exact_placeAll {element : Ty}
    (one : ∀ (h : Heap) (row : Nest), row.Fits element →
      (h.place row).2.Exact p element (h.place row).1 ∧ h.Extends (h.place row).2)
    (rows : List Nest) (h : Heap) (fit : ∀ row ∈ rows, row.Fits element) :
    (∀ v ∈ (h.placeAll rows).1, (h.placeAll rows).2.Exact p element v) ∧
      h.Extends (h.placeAll rows).2 := by
  induction rows generalizing h with
  | nil => exact ⟨by simp [placeAll], .refl h⟩
  | cons row rows ih =>
    obtain ⟨first, larger⟩ := one h row (fit row List.mem_cons_self)
    obtain ⟨others, largest⟩ := ih (h.place row).2 fun r member => fit r (List.mem_cons_of_mem _ member)
    simp only [placeAll]
    refine ⟨?_, larger.trans largest⟩
    intro v member
    rcases List.mem_cons.mp member with rfl | member
    · exact first.extends largest
    · exact others v member

/-- Rows that fit a type make a value of it, and leave alone what was there. -/
theorem exact_place (h : Heap) (nest : Nest) (fits : nest.Fits ty) :
    (h.place nest).2.Exact p ty (h.place nest).1 ∧ h.Extends (h.place nest).2 := by
  induction ty generalizing h nest with
  | array element ih =>
    cases nest with
    | leaf v => exact fits.elim
    | row rows =>
      obtain ⟨some, each⟩ := fits
      obtain ⟨all, larger⟩ := exact_placeAll (p := p) ih rows h each
      have more := extends_newArray (h.placeAll rows).2 (h.placeAll rows).1.toArray
      simp only [place]
      refine ⟨⟨?_, ?_⟩, larger.trans more⟩
      · simp only [elements_newArray]
        intro none
        apply some
        rw [← List.length_eq_zero_iff, ← length_placeAll rows h, none, List.length_nil]
      · simp only [elements_newArray]
        intro v member
        exact (all v member).extends more
  | int | float | bool | string =>
    cases nest with
    | leaf v => cases v <;> first | exact fits.elim | exact ⟨trivial, .refl h⟩
    | row rows => exact fits.elim
  | _ => cases nest <;> exact fits.elim

end Heap

/-! ## 3. Numbers -/

namespace Arith

/-- The type of numbers on which an operation is. -/
def numberType (floating : Bool) : Ty := if floating then .float else .int

open Builder (binaryType)

theorem expectArray_eq_ok {v : Value} {a : ArrayId} (is : expectArray v = .ok a) : v = .array a := by
  cases v with
  | array b =>
    cases is
    rfl
  | _ => cases is

theorem floatOp_fits {op : BinaryOp} {x y : Float} {v : Value} (evaluates : floatOp op x y = .ok v) :
    (Nest.leaf v).Fits (binaryType op .float .float) := by
  cases op <;> cases evaluates <;> trivial

theorem intOp_fits {op : BinaryOp} {m n : Int64} {v : Value} (evaluates : intOp op m n = .ok v) :
    (Nest.leaf v).Fits (binaryType op .int .int) := by
  cases op with
  | div | rem =>
    simp only [intOp] at evaluates
    split at evaluates
    · cases evaluates
    · cases evaluates
      trivial
  | _ => cases evaluates <;> trivial

/-- What an operator on two numbers gives has the type that it has on numbers of that kind. -/
theorem numericOp_fits {op : BinaryOp} {floating : Bool} {l r v : Value}
    (evaluates : numericOp op floating l r = .ok v) :
    (Nest.leaf v).Fits (binaryType op (numberType floating) (numberType floating)) := by
  simp only [numericOp] at evaluates
  cases floating with
  | true =>
    obtain ⟨x, -, evaluates⟩ := of_bind_eq_ok evaluates
    obtain ⟨y, -, evaluates⟩ := of_bind_eq_ok evaluates
    exact floatOp_fits evaluates
  | false =>
    obtain ⟨m, -, evaluates⟩ := of_bind_eq_ok evaluates
    obtain ⟨n, -, evaluates⟩ := of_bind_eq_ok evaluates
    exact intOp_fits evaluates

/-! ## 4. Element by element -/

/-- Results that all fit a type make a row of it. -/
theorem fits_row {α ε : Type} {f : α → Except ε Nest} {inputs : List α} {rows : List Nest} {element : Ty}
    (evaluates : inputs.mapM f = .ok rows) (some : inputs ≠ [])
    (each : ∀ input ∈ inputs, ∀ result, f input = .ok result → result.Fits element) :
    (Nest.row rows).Fits (.array element) := by
  obtain ⟨length, made⟩ := of_mapM_eq_ok evaluates
  refine ⟨?_, ?_⟩
  · intro none
    apply some
    rw [← List.length_eq_zero_iff, ← length, none, List.length_nil]
  · intro row member
    obtain ⟨input, there, same⟩ := made row member
    exact each input there row same

variable {p : Program} {h : Heap} {op : BinaryOp}

/-- Two scalars that are combined as elements of arrays are combined as the static leaf types say: no float
hides behind a type of integers. -/
theorem floating_eq {left right : Ty} {l r : Value} (inLeft : h.Inhabits p left l)
    (inRight : h.Inhabits p right r) :
    (left.leaf.isFloat || right.leaf.isFloat || combineElement.isFloat l ||
      combineElement.isFloat r) = (left.leaf.isFloat || right.leaf.isFloat) := by
  have known : ∀ {ty : Ty} {v : Value}, h.Inhabits p ty v → combineElement.isFloat v = true →
      ty.leaf.isFloat = true := by
    intro ty v inhabits float
    cases v with
    | float x =>
      rw [inhabits.float_eq]
      rfl
    | _ => cases float
  have fromLeft := known inLeft
  have fromRight := known inRight
  grind

/-- An operator that combines elements gives numbers of the kind that it takes. -/
theorem binaryType_numberType (arithmetic : op.isElementwise = true) (floating : Bool) :
    binaryType op (numberType floating) (numberType floating) = numberType floating := by
  cases op with
  | mul | div | add | sub => cases floating <;> rfl
  | _ => cases arithmetic

/-- The kind of numbers that the combination of two elements of these types is made of. -/
def isOnFloats (left right : Ty) : Bool := left.leaf.isFloat || right.leaf.isFloat

/-- Two elements that are combined give rows as deep as the left one is declared. -/
theorem combineElement_fits {combineArrays : ArrayId → ArrayId → Except Abort Nest} {left right : Ty}
    {l r : Value} {nest : Nest} (arithmetic : op.isElementwise = true) (inLeft : h.Inhabits p left l)
    (inRight : h.Inhabits p right r)
    (arrays : ∀ left' right' a b, left = .array left' → right = .array right' → l = .array a →
      r = .array b → ∀ nest, combineArrays a b = .ok nest →
        nest.Fits ((numberType (isOnFloats left' right')).nested left.dimensions))
    (evaluates : combineElement combineArrays op (isOnFloats left right) l r = .ok nest) :
    nest.Fits ((numberType (isOnFloats left right)).nested left.dimensions) := by
  unfold combineElement at evaluates
  split at evaluates
  · next a b =>
    -- only array types have arrays as values
    cases left with
    | array left' =>
      cases right with
      | array right' => exact arrays left' right' a b rfl rfl rfl rfl nest evaluates
      | _ => exact inRight.elim
    | _ => exact inLeft.elim
  · cases evaluates
  · cases evaluates
  · cases evaluates
  · cases evaluates
  · next notArray notNull _ _ _ =>
    obtain ⟨v, computed, rfl⟩ := of_map_eq_ok (of_ofFault_eq_ok evaluates)
    have fits := numericOp_fits computed
    rw [isOnFloats, floating_eq inLeft inRight, binaryType_numberType arithmetic] at fits
    rw [inLeft.dimensions_eq_zero notArray notNull]
    exact fits

/-- Two arrays that are combined give rows as deep as the left one is declared. -/
theorem combineTo_fits (arithmetic : op.isElementwise = true) (depth : Nat) {left right : Ty}
    {l r : ArrayId} {nest : Nest} (inLeft : h.Inhabits p (.array left) (.array l))
    (inRight : h.Inhabits p (.array right) (.array r))
    (evaluates : combineTo h op (isOnFloats left right) depth l r = .ok nest) :
    nest.Fits ((numberType (isOnFloats left right)).nested (left.dimensions + 1)) := by
  induction depth generalizing left right l r nest with
  | zero => cases evaluates
  | succ depth ih =>
    simp only [combineTo] at evaluates
    split at evaluates
    · cases evaluates
    · next sameSize =>
      split at evaluates
      · cases evaluates
      · next nonempty =>
        obtain ⟨rows, computed, rfl⟩ := of_map_eq_ok evaluates
        apply fits_row computed
        · intro none
          have length := congrArg List.length none
          simp only [List.length_zip, Array.length_toList, List.length_nil] at length
          simp only [Array.isEmpty_iff_size_eq_zero] at nonempty
          omega
        · rintro ⟨v, w⟩ member result given
          -- elements at the same position have the two element types
          obtain ⟨inl, inr⟩ := List.of_mem_zip member
          apply combineElement_fits arithmetic (inLeft v inl) (inRight w inr) ?_ given
          rintro left' right' a b rfl rfl rfl rfl nest combined
          exact ih (inLeft _ inl) (inRight _ inr) combined

theorem elementwise_fits (arithmetic : op.isElementwise = true) {left right : Ty} {l r : ArrayId}
    {nest : Nest} (inLeft : h.Inhabits p (.array left) (.array l))
    (inRight : h.Inhabits p (.array right) (.array r))
    (evaluates : elementwise h op (isOnFloats left right) l r = .ok nest) :
    nest.Fits (binaryType op (.array left) (.array right)) := by
  have fits := combineTo_fits arithmetic _ inLeft inRight evaluates
  have recorded : binaryType op (.array left) (.array right) =
      (numberType (isOnFloats left right)).nested (left.dimensions + 1) := by
    cases op with
    | mul | div | add | sub => rfl
    | _ => cases arithmetic
  rw [recorded]
  exact fits

/-! ## 5. Matrices -/

theorem productRow_fits {right : List (Array Value)} {columns : Nat} {row : Array Value} {nest : Nest}
    (some : columns ≠ 0) (evaluates : productRow right columns row = .ok nest) :
    nest.Fits (.array .float) := by
  simp only [productRow] at evaluates
  split at evaluates
  · cases evaluates
  · obtain ⟨cells, computed, evaluates⟩ := of_bind_eq_ok evaluates
    cases evaluates
    obtain ⟨length, -⟩ := of_mapM_eq_ok computed
    refine ⟨?_, ?_⟩
    · intro none
      apply some
      rw [List.map_eq_nil_iff.mp none] at length
      simpa using length.symm
    · intro cell member
      obtain ⟨x, -, rfl⟩ := List.mem_map.mp member
      trivial

/-- A matrix product has rows, and floats in them. -/
theorem matrixProduct_fits {l r : Value} {nest : Nest} (evaluates : matrixProduct h l r = .ok nest) :
    nest.Fits (.array (.array .float)) := by
  simp only [matrixProduct] at evaluates
  obtain ⟨left, -, evaluates⟩ := of_bind_eq_ok evaluates
  obtain ⟨right, -, evaluates⟩ := of_bind_eq_ok evaluates
  split at evaluates
  · next firstLeft others firstRight _ =>
    split at evaluates
    · cases evaluates
    · split at evaluates
      · cases evaluates
      · next square =>
        obtain ⟨rows, computed, evaluates⟩ := of_bind_eq_ok evaluates
        cases evaluates
        apply fits_row computed (List.cons_ne_nil _ _)
        intro row _ result given
        -- there are as many columns as rows on the left, and so there are some
        apply productRow_fits ?_ given
        intro none
        rw [none] at square
        exact square (Nat.succ_ne_zero _)
  · cases evaluates

/-! ## 6. Operators -/

/-- An operator that is one on numbers is recorded as one on numbers of the same kind. -/
theorem binaryType_of_numbers {left right : Ty}
    (noText : ¬(op = .add ∧ (left.isString || right.isString) = true))
    (numbers : (left.isFloat || right.isFloat) = true ∨ left = .int) :
    binaryType op left right =
      binaryType op (numberType (left.isFloat || right.isFloat))
        (numberType (left.isFloat || right.isFloat)) := by
  -- a number on one side is not an array
  have scalar : binaryType.arithmetic left right = numberType (left.isFloat || right.isFloat) := by
    have notBoth : (left.isArray && right.isArray) = false := by
      rcases numbers with float | rfl
      · cases left <;> cases right <;> first | rfl | cases float
      · rfl
    simp only [binaryType.arithmetic, notBoth, Bool.false_eq_true, if_false, numberType]
  have kept : ∀ floating, binaryType.arithmetic (numberType floating) (numberType floating) =
      numberType floating := by
    intro floating
    cases floating <;> rfl
  cases op with
  | add =>
    have noText : (left.isString || right.isString) = false := by simpa using noText
    have numbersOnly : ∀ floating, (numberType floating).isString = false := by
      intro floating
      cases floating <;> rfl
    simp only [binaryType, noText, numbersOnly, Bool.or_self, Bool.false_eq_true, if_false, scalar, kept]
  | mul | div | rem | sub => simp only [binaryType, scalar, kept]
  | _ => rfl

/-- What an operator computes fits the type that the builder gives it. -/
theorem binary_fits {left right : Ty} {l r : Value} {nest : Nest} (inLeft : h.Inhabits p left l)
    (inRight : h.Inhabits p right r) (evaluates : binary p h op l r left right = .ok nest) :
    nest.Fits (binaryType op left right) := by
  simp only [binary, Bool.and_eq_true, Bool.or_eq_true, decide_eq_true_eq] at evaluates
  split at evaluates
  · next text =>
    -- a text on either side
    obtain ⟨rfl, strings⟩ := text
    obtain ⟨leftText, -, evaluates⟩ := of_bind_eq_ok evaluates
    obtain ⟨rightText, -, evaluates⟩ := of_bind_eq_ok evaluates
    cases evaluates
    simp only [binaryType, Bool.or_eq_true, strings, if_true]
    trivial
  · next noText =>
    split at evaluates
    · next numbers =>
      obtain ⟨v, computed, rfl⟩ := of_map_eq_ok (of_ofFault_eq_ok evaluates)
      rw [binaryType_of_numbers (by simpa using noText) (by simpa using numbers)]
      exact numericOp_fits computed
    · split at evaluates
      · next arrays =>
        obtain ⟨⟨isLeft, isRight⟩, arithmetic⟩ := arrays
        cases left with
        | array left =>
          cases right with
          | array right =>
            obtain ⟨a, fromLeft, evaluates⟩ := of_bind_eq_ok evaluates
            obtain ⟨b, fromRight, evaluates⟩ := of_bind_eq_ok evaluates
            obtain rfl := expectArray_eq_ok (of_ofFault_eq_ok fromLeft)
            obtain rfl := expectArray_eq_ok (of_ofFault_eq_ok fromRight)
            exact elementwise_fits arithmetic inLeft inRight evaluates
          | _ => cases isRight
        | _ => cases isLeft
      · split at evaluates
        · cases evaluates
          trivial
        · cases evaluates
          trivial
        · cases evaluates

/-- Whatever an operator gives has, to the letter, the type that the builder computes from the types of the
operands. The matrix product does so whatever its operands are. -/
theorem result_exact (p : Program) (h : Heap) (op : BinaryOp) (l r : Value) (left right : Ty)
    (inLeft : h.Inhabits p left l) (inRight : h.Inhabits p right r) :
    (∀ nest, binary p h op l r left right = .ok nest →
      (h.place nest).2.Exact p (binaryType op left right) (h.place nest).1) ∧
    ∀ nest, matrixProduct h l r = .ok nest →
      (h.place nest).2.Exact p (binaryType .matmul left right) (h.place nest).1 := by
  refine ⟨?_, ?_⟩
  · intro nest evaluates
    exact (h.exact_place nest (binary_fits inLeft inRight evaluates)).1
  · intro nest evaluates
    exact (h.exact_place nest (matrixProduct_fits evaluates)).1

/-! ### An integer in an array of floats -/

def mixed : Heap := ⟨#[#[.int 1, .float 2.5], #[.int 3, .int 4]], #[]⟩

/-- The sum of an array of floats, which holds an integer, and an array of integers. -/
theorem mixed_exact :
    ∃ nest, binary default mixed .add (.array ⟨0⟩) (.array ⟨1⟩) (.array .float) (.array .int) = .ok nest ∧
      (mixed.place nest).2.Exact default (.array .float) (mixed.place nest).1 := by
  have left : mixed.Inhabits default (.array .float) (.array ⟨0⟩) := by
    simp [Heap.Inhabits, Heap.elements, mixed]
  have right : mixed.Inhabits default (.array .int) (.array ⟨1⟩) := by
    simp [Heap.Inhabits, Heap.elements, mixed]
  refine ⟨.row [_, _], rfl, ?_⟩
  exact (result_exact default mixed .add (.array ⟨0⟩) (.array ⟨1⟩) (.array .float) (.array .int) left
    right).1 _ rfl

end Arith

end Strand
