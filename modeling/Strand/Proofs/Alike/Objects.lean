import Mathlib.Algebra.Order.Ring.Nat
import Mathlib.Data.Finset.Prod
import Strand.Proofs.Alike.Values

/-!
# Objects alike

Two heaps are alike if objects that stand for each other hold values that are alike. What an operator
computes from the arrays of a heap are numbers and truth values in nested rows, so on heaps that are
alike it computes the same.

How deep a combination of two arrays may nest is bounded by the number of arrays, which two such heaps
need not have in common. The bound does not matter: it is never too small. At every depth some pairs of
arrays are still being combined, at a greater depth no others, and when none has come to an end between
one depth and the next, none ever will (`combineTo_stable`).
-/

set_option autoImplicit false

namespace Strand

variable {known : Decl → Prop} {R : Pairing} {h h' : Heap}

/-! ## 1. Heaps -/

/-- Two instances of a struct with fields that are alike. -/
structure Record.Like (known : Decl → Prop) (R : Pairing) (o o' : Record) : Prop where
  decl : o.decl = o'.decl
  fields : List.Forall₂ (fun f f' => f.1 = f'.1 ∧ f.2.Like known R f'.2) o.fields o'.fields

/-- Two heaps in which objects that stand for each other are alike. -/
structure Heap.Like (known : Decl → Prop) (R : Pairing) (h h' : Heap) : Prop where
  arrays : ∀ a a', R (.array a) (.array a') → ∃ es es', h.arrays[a.index]? = some es ∧
    h'.arrays[a'.index]? = some es' ∧ List.Forall₂ (Value.Like known R) es.toList es'.toList
  records : ∀ r r', R (.record r) (.record r') → ∃ o o', h.records[r.index]? = some o ∧
    h'.records[r'.index]? = some o' ∧ o.Like known R o'

theorem getElem?_rel {α β : Type} {r : α → β → Prop} {l : List α} {l' : List β}
    (alike : List.Forall₂ r l l') (i : Nat) : Option.Rel r l[i]? l'[i]? := by
  induction alike generalizing i with
  | nil => exact .none
  | cons pair _ ih =>
    cases i with
    | zero => exact .some pair
    | succ i => simpa only [List.getElem?_cons_succ] using ih i

theorem exists_forall₂ {α β : Type} {r : α → β → Prop} {l : List α} (each : ∀ a ∈ l, ∃ b, r a b) :
    ∃ l', List.Forall₂ r l l' := by
  induction l with
  | nil => exact ⟨[], .nil⟩
  | cons a l ih =>
    obtain ⟨b, first⟩ := each a List.mem_cons_self
    obtain ⟨l', rest⟩ := ih fun a member => each a (List.mem_cons_of_mem _ member)
    exact ⟨b :: l', .cons first rest⟩

theorem lookup_rel {α β : Type} {r : α → β → Prop} {name : Name} {l : List (Name × α)}
    {l' : List (Name × β)} (alike : List.Forall₂ (fun f f' => f.1 = f'.1 ∧ r f.2 f'.2) l l') :
    Option.Rel r (l.lookup name) (l'.lookup name) := by
  induction alike with
  | nil => exact .none
  | @cons f f' l l' pair _ ih =>
    obtain ⟨n, v⟩ := f
    obtain ⟨n', v'⟩ := f'
    obtain ⟨same, pair⟩ := pair
    obtain rfl : n = n' := same
    simp only [List.lookup_cons]
    split
    · exact .some pair
    · exact ih

theorem Record.Like.get? {o o' : Record} (like : o.Like known R o') (name : Name) :
    Option.Rel (Value.Like known R) (o.get? name) (o'.get? name) :=
  lookup_rel like.fields

namespace Heap.Like

variable (like : h.Like known R h') {a a' : ArrayId} {r r' : RecordId}

include like

theorem elements (pair : R (.array a) (.array a')) :
    List.Forall₂ (Value.Like known R) (h.elements a).toList (h'.elements a').toList := by
  obtain ⟨es, es', found, found', alike⟩ := like.arrays a a' pair
  simpa only [Heap.elements, Array.getD_eq_getD_getElem?, found, found', Option.getD_some] using alike

theorem length (pair : R (.array a) (.array a')) : h.length a = h'.length a' := by
  simpa [Heap.length] using (like.elements pair).length_eq

theorem element? (pair : R (.array a) (.array a')) (i : Nat) :
    Option.Rel (Value.Like known R) (h.element? a i) (h'.element? a' i) := by
  simpa only [Heap.element?, Array.getElem?_toList] using getElem?_rel (like.elements pair) i

theorem record (pair : R (.record r) (.record r')) : (h.record r).Like known R (h'.record r') := by
  obtain ⟨o, o', found, found', alike⟩ := like.records r r' pair
  simpa only [Heap.record, Array.getD_eq_getD_getElem?, found, found', Option.getD_some] using alike

theorem field? (pair : R (.record r) (.record r')) (name : Name) :
    Option.Rel (Value.Like known R) (h.field? r name) (h'.field? r' name) :=
  (like.record pair).get? name

end Heap.Like

/-! ## 2. Lists -/

section Lists

variable {ε α β γ : Type}

theorem mapM_congr {f : α → Except ε γ} {g : β → Except ε γ} {l : List α} {l' : List β}
    (each : List.Forall₂ (fun a b => f a = g b) l l') : l.mapM f = l'.mapM g := by
  induction each with
  | nil => rfl
  | cons first _ ih => simp only [List.mapM_cons, first, ih]

/-- Computations that change no result but one go through lists that way. -/
theorem mapM_eq_of_ne {f g : α → Except ε γ} {e : ε} {l : List α}
    (each : ∀ a ∈ l, f a ≠ .error e → g a = f a) (other : l.mapM f ≠ .error e) :
    l.mapM g = l.mapM f := by
  induction l with
  | nil => rfl
  | cons a l ih =>
    simp only [List.mapM_cons] at other ⊢
    have first : f a ≠ .error e := fun fails => other (by simp [fails, bind, Except.bind])
    rw [each a List.mem_cons_self first]
    cases result : f a with
    | error e' => rfl
    | ok b =>
      have others : l.mapM f ≠ .error e :=
        fun fails => other (by simp [result, fails, bind, Except.bind])
      rw [ih (fun x member => each x (List.mem_cons_of_mem _ member)) others]

theorem forall₂_zip {r : α → β → Prop} {l m : List α} {l' m' : List β} (first : List.Forall₂ r l l')
    (second : List.Forall₂ r m m') :
    List.Forall₂ (fun x y => r x.1 y.1 ∧ r x.2 y.2) (l.zip m) (l'.zip m') := by
  induction first generalizing m m' with
  | nil => simp
  | cons pair _ ih =>
    cases second with
    | nil => simp
    | cons pair' rest => exact .cons ⟨pair, pair'⟩ (ih rest)

end Lists

namespace Arith

variable {op : BinaryOp} {floating : Bool} {l l' r r' : ArrayId} {v v' w w' : Value}
  {combine combine' : ArrayId → ArrayId → Except Abort Nest}

/-! ## 3. Combinations of arrays -/

theorem combineElement_like (hv : v.Like known R v') (hw : w.Like known R w')
    (arrays : ∀ a a' b b', R (.array a) (.array a') → R (.array b) (.array b') →
      combine a b = combine' a' b') :
    combineElement combine op floating v w = combineElement combine' op floating v' w' := by
  cases hv with
  | array a a' pair =>
    cases hw with
    | array b b' pair' => exact arrays a a' b b' pair pair'
    | _ => rfl
  | struct a a' pair =>
    cases hw with
    | array b b' pair' => rfl
    | _ => rfl
  | _ => cases hw <;> rfl

theorem combineTo_like (like : h.Like known R h') (op : BinaryOp) (floating : Bool) (depth : Nat)
    (left : R (.array l) (.array l')) (right : R (.array r) (.array r')) :
    combineTo h op floating depth l r = combineTo h' op floating depth l' r' := by
  induction depth generalizing l l' r r' with
  | zero => rfl
  | succ depth ih =>
    have first := like.elements left
    have second := like.elements right
    have size : (h.elements l).size = (h'.elements l').size := by simpa using first.length_eq
    have size' : (h.elements r).size = (h'.elements r').size := by simpa using second.length_eq
    have empty : (h.elements l).isEmpty = (h'.elements l').isEmpty := by
      simp only [Array.isEmpty, size]
    have each : List.Forall₂ (fun x y => combineElement (combineTo h op floating depth) op floating x.1 x.2 =
        combineElement (combineTo h' op floating depth) op floating y.1 y.2)
        ((h.elements l).toList.zip (h.elements r).toList)
        ((h'.elements l').toList.zip (h'.elements r').toList) :=
      (forall₂_zip first second).imp fun x y pair =>
        combineElement_like pair.1 pair.2 fun a a' b b' => ih
    simp only [combineTo, size, size', empty, mapM_congr each]

theorem combineElement_of_ne (same : ∀ a b, combine a b ≠ .error .diverges →
    combine' a b = combine a b) (ends : combineElement combine op floating v w ≠ .error .diverges) :
    combineElement combine' op floating v w = combineElement combine op floating v w := by
  cases v with
  | array a =>
    cases w with
    | array b => exact same a b ends
    | _ => rfl
  | _ => cases w <;> rfl

/-- What has come to an end at some depth is the same at a greater one. -/
theorem combineTo_succ (h : Heap) (op : BinaryOp) (floating : Bool) (depth : Nat) (l r : ArrayId)
    (ends : combineTo h op floating depth l r ≠ .error .diverges) :
    combineTo h op floating (depth + 1) l r = combineTo h op floating depth l r := by
  induction depth generalizing l r with
  | zero => exact absurd rfl ends
  | succ depth ih =>
    rw [combineTo] at ends ⊢
    rw [combineTo]
    simp only at ends ⊢
    split
    · rfl
    · split
      · rfl
      · next differ empty =>
        simp only [differ, empty, Bool.false_eq_true, ↓reduceIte] at ends
        refine congrArg (Except.map Nest.row) (mapM_eq_of_ne (e := .diverges) (fun x _ => ?_) ?_)
        · exact combineElement_of_ne fun a b => ih a b
        · intro fails
          exact ends (by rw [fails]; rfl)

/-- Arrays that do not exist are not combined. -/
theorem combineTo_ne_of_le (depth : Nat)
    (beyond : h.arrays.size ≤ l.index ∨ h.arrays.size ≤ r.index) :
    combineTo h op floating (depth + 1) l r ≠ .error .diverges := by
  have none : ∀ a : ArrayId, h.arrays.size ≤ a.index → h.elements a = #[] := fun a outside => by
    simp [Heap.elements, Array.getD_eq_getD_getElem?, Array.getElem?_eq_none outside]
  simp only [combineTo]
  rcases beyond with outside | outside <;> rw [none _ outside]
  · split <;> simp
  · split
    · simp
    · next same =>
      have : (h.elements l).isEmpty = true := by simpa [Array.isEmpty_iff] using same
      simp [this]

/-- Whether a combination has met its bound. -/
def diverged : Except Abort Nest → Bool
  | .error .diverges => true
  | _ => false

theorem diverged_iff {result : Except Abort Nest} : diverged result = true ↔ result = .error .diverges := by
  unfold diverged
  split <;> simp_all

/-- The pairs of arrays that are still being combined at some depth. -/
def unfinished (h : Heap) (op : BinaryOp) (floating : Bool) (depth : Nat) : Finset (Nat × Nat) :=
  (Finset.range h.arrays.size ×ˢ Finset.range h.arrays.size).filter fun x =>
    diverged (combineTo h op floating depth ⟨x.1⟩ ⟨x.2⟩)

theorem unfinished_subset (h : Heap) (op : BinaryOp) (floating : Bool) (depth : Nat) :
    unfinished h op floating (depth + 1) ⊆ unfinished h op floating depth := by
  intro x member
  simp only [unfinished, Finset.mem_filter, diverged_iff] at member ⊢
  refine ⟨member.1, ?_⟩
  by_contra ends
  exact ends ((combineTo_succ h op floating depth _ _ ends).symm.trans member.2)

theorem combineTo_eq_of_unfinished {depth : Nat}
    (same : unfinished h op floating (depth + 1) = unfinished h op floating (depth + 2)) :
    combineTo h op floating (depth + 2) = combineTo h op floating (depth + 1) := by
  funext l r
  by_cases ends : combineTo h op floating (depth + 1) l r = .error .diverges
  · have inside : l.index < h.arrays.size ∧ r.index < h.arrays.size := by
      by_contra outside
      exact combineTo_ne_of_le depth (by omega) ends
    have member : (l.index, r.index) ∈ unfinished h op floating (depth + 1) := by
      simp only [unfinished, Finset.mem_filter, diverged_iff, Finset.mem_product, Finset.mem_range]
      exact ⟨inside, ends⟩
    rw [same] at member
    simp only [unfinished, Finset.mem_filter, diverged_iff] at member
    exact member.2.trans ends.symm
  · exact combineTo_succ h op floating _ l r ends

/-- When no pair has come to an end from one depth to the next, none ever will. -/
theorem combineTo_of_eq {depth : Nat}
    (same : combineTo h op floating (depth + 1) = combineTo h op floating depth) (more : Nat) :
    combineTo h op floating (depth + more) = combineTo h op floating depth := by
  induction more with
  | zero => rfl
  | succ more ih =>
    rw [← same]
    funext l r
    rw [← Nat.add_assoc, combineTo, combineTo, ih]

/-- At a depth beyond the number of pairs nothing changes any more. -/
theorem combineTo_stable (h : Heap) (op : BinaryOp) (floating : Bool) {depth : Nat}
    (deep : h.arrays.size * h.arrays.size < depth) :
    combineTo h op floating depth =
      combineTo h op floating (h.arrays.size * h.arrays.size + 1) := by
  -- either the number of pairs that are unfinished falls with every depth, or it stands still once
  have falls : ∀ k, (∃ j < k, unfinished h op floating (j + 1) = unfinished h op floating (j + 2)) ∨
      (unfinished h op floating (k + 1)).card + k ≤ h.arrays.size * h.arrays.size := by
    intro k
    induction k with
    | zero =>
      refine .inr ((Finset.card_filter_le _ _).trans ?_)
      rw [Finset.card_product, Finset.card_range]
    | succ k ih =>
      rcases ih with ⟨j, earlier, same⟩ | few
      · exact .inl ⟨j, by omega, same⟩
      · by_cases same : unfinished h op floating (k + 1) = unfinished h op floating (k + 2)
        · exact .inl ⟨k, by omega, same⟩
        · have fewer := Finset.card_lt_card
            ((unfinished_subset h op floating (k + 1)).ssubset_of_ne (Ne.symm same))
          exact .inr (by omega)
  rcases falls (h.arrays.size * h.arrays.size + 1) with ⟨j, earlier, same⟩ | few
  · have from_j := combineTo_of_eq (combineTo_eq_of_unfinished same)
    obtain ⟨k, rfl⟩ := Nat.exists_eq_add_of_le (show j + 1 ≤ depth by omega)
    obtain ⟨k', total⟩ := Nat.exists_eq_add_of_le (show j + 1 ≤ h.arrays.size * h.arrays.size + 1 by omega)
    rw [total, from_j, from_j]
  · omega

/-- Arrays that stand for each other are combined to the same. -/
theorem elementwise_like (like : h.Like known R h') (op : BinaryOp) (floating : Bool)
    (left : R (.array l) (.array l')) (right : R (.array r) (.array r')) :
    elementwise h op floating l r = elementwise h' op floating l' r' := by
  have deep := Nat.le_max_left (h.arrays.size * h.arrays.size + 1) (h'.arrays.size * h'.arrays.size + 1)
  have deep' := Nat.le_max_right (h.arrays.size * h.arrays.size + 1) (h'.arrays.size * h'.arrays.size + 1)
  rw [elementwise, elementwise, ← combineTo_stable h op floating deep,
    ← combineTo_stable h' op floating deep', combineTo_like like op floating _ left right]

theorem scalar_of_combineElement {nest : Nest}
    (arrays : ∀ a b nest, combine a b = .ok nest → nest.Scalar)
    (result : combineElement combine op floating v w = .ok nest) : nest.Scalar := by
  have numeric : ∀ {floating}, Abort.ofFault ((numericOp op floating v w).map .leaf) = .ok nest →
      nest.Scalar := by
    intro floating result
    obtain ⟨u, computed, rfl⟩ := of_map_eq_ok (of_ofFault_eq_ok result)
    exact .leaf u (scalar_of_numericOp computed)
  cases v with
  | array a =>
    cases w with
    | array b => exact arrays a b nest result
    | _ => cases result
  | null => cases w <;> cases result
  | _ =>
    cases w with
    | array | null => cases result
    | _ => exact numeric result

theorem scalar_of_combineTo {depth : Nat} {nest : Nest}
    (result : combineTo h op floating depth l r = .ok nest) : nest.Scalar := by
  induction depth generalizing l r nest with
  | zero => cases result
  | succ depth ih =>
    simp only [combineTo] at result
    split at result
    · cases result
    · split at result
      · cases result
      · obtain ⟨nests, elements, rfl⟩ := of_map_eq_ok result
        refine .row nests fun n member => ?_
        obtain ⟨x, -, computed⟩ := (of_mapM_eq_ok elements).2 _ member
        exact scalar_of_combineElement (fun a b nest => ih) computed

/-! ## 4. The matrix product -/

/-- Two rows of a matrix. -/
def RowLike (known : Decl → Prop) (R : Pairing) (row row' : Array Value) : Prop :=
  List.Forall₂ (Value.Like known R) row.toList row'.toList

variable {row row' : Array Value}

theorem RowLike.size (alike : RowLike known R row row') : row.size = row'.size := by
  simpa using List.Forall₂.length_eq alike

theorem rowsOf_like (like : h.Like known R h') (hv : v.Like known R v') :
    Agree (List.Forall₂ (RowLike known R)) (rowsOf h v) (rowsOf h' v') :=
  (expectArray_like hv).bind fun _ _ pair =>
    .mapM (like.elements pair) fun _ _ row =>
      (expectArray_like row).bind fun _ _ pair => .ok _ _ (like.elements pair)

theorem dotFrom_like (alike : RowLike known R row row') (columns column : Nat)
    {below below' : List (Array Value)} (rows : List.Forall₂ (RowLike known R) below below') (i : Nat)
    (sum : Float) :
    dotFrom row columns column i below sum = dotFrom row' columns column i below' sum := by
  induction rows generalizing i sum with
  | nil => rfl
  | @cons first first' below below' pair _ ih =>
    have entry := getElem?_rel pair column
    have factor := getElem?_rel alike i
    rw [Array.getElem?_toList, Array.getElem?_toList] at entry factor
    simp only [dotFrom, entryOf, RowLike.size pair, alike.size]
    generalize first[column]? = x at entry
    generalize first'[column]? = x' at entry
    generalize row[i]? = y at factor
    generalize row'[i]? = y' at factor
    cases entry with
    | none => rfl
    | some same =>
      cases factor with
      | none => rfl
      | some same' => simp only [bind, Except.bind, expectNumber_like same, expectNumber_like same', ih]

theorem productRow_like (alike : RowLike known R row row') (columns : Nat)
    {right right' : List (Array Value)} (rows : List.Forall₂ (RowLike known R) right right') :
    productRow right columns row = productRow right' columns row' := by
  simp only [productRow, alike.size, rows.length_eq, dotFrom_like alike columns _ rows]

theorem matrixProduct_like (like : h.Like known R h') (hv : v.Like known R v')
    (hw : w.Like known R w') : matrixProduct h v w = matrixProduct h' v' w' := by
  have left := rowsOf_like like hv
  have right := rowsOf_like like hw
  simp only [matrixProduct]
  generalize rowsOf h v = x at left
  generalize rowsOf h' v' = x' at left
  generalize rowsOf h w = y at right
  generalize rowsOf h' w' = y' at right
  cases left with
  | error e => rfl
  | ok ls ls' lefts =>
    cases right with
    | error e => rfl
    | ok rs rs' rights =>
      cases lefts with
      | nil => rfl
      | @cons first first' ls ls' pair others =>
        cases rights with
        | nil => rfl
        | @cons second second' rs rs' pair' others' =>
          have empty : first.isEmpty = first'.isEmpty := by simp only [Array.isEmpty, RowLike.size pair]
          have product : (first :: ls).mapM (productRow (second :: rs) second'.size) =
              (first' :: ls').mapM (productRow (second' :: rs') second'.size) :=
            mapM_congr ((List.Forall₂.cons pair others).imp fun row row' alike =>
              productRow_like alike _ (.cons pair' others'))
          simp only [Abort.ofFault, bind, Except.bind, empty, RowLike.size pair', product,
            List.length_cons, others.length_eq]

theorem scalar_of_productRow {right : List (Array Value)} {columns : Nat} {nest : Nest}
    (result : productRow right columns row = .ok nest) : nest.Scalar := by
  simp only [productRow] at result
  split at result
  · cases result
  · obtain ⟨xs, -, result⟩ := of_bind_eq_ok result
    cases result
    refine .row _ fun n member => ?_
    obtain ⟨x, -, rfl⟩ := List.mem_map.mp member
    exact .leaf _ (.float x)

theorem scalar_of_matrixProduct {nest : Nest} (result : matrixProduct h v w = .ok nest) :
    nest.Scalar := by
  obtain ⟨left, -, result⟩ := of_bind_eq_ok result
  obtain ⟨right, -, result⟩ := of_bind_eq_ok result
  split at result
  · split at result
    · cases result
    · simp only at result
      split at result
      · cases result
      · obtain ⟨nests, rows, result⟩ := of_bind_eq_ok result
        cases result
        refine .row nests fun n member => ?_
        obtain ⟨row, -, computed⟩ := (of_mapM_eq_ok rows).2 _ member
        exact scalar_of_productRow computed
  · cases result

end Arith

end Strand
