import Mathlib.Data.Fintype.Pigeonhole
import Mathlib.Data.Fintype.Prod
import Mathlib.Logic.Relation
import Mathlib.Order.Monotone.Basic
import Strand.Proofs.Elementwise
import Strand.Value.Render

/-!
# Combinations that never end

An element of an array may be the array itself. Two arrays that are combined are followed into the arrays at
the same positions, and nobody keeps a record of the pairs on the way there, as the writer of a text does
with its path. So there are arrays that have a text and no combination (`Arith.knot_never_ends`).

A combination leaves a pair of arrays for the next one only when everything before that position has been
combined (`Arith.Enters`). It comes to an end exactly if it meets no pair from which it would come back to
that pair (`Arith.ends_exactly`): where it does not end there is always another pair to go to, and there are
only finitely many; and a pair that is met again is met forever.
-/

set_option autoImplicit false

namespace Strand

open Relation (ReflTransGen TransGen)

/-! ## 1. Computations in a row -/

/-- Computations in a row end in an error if one does, after others that gave a result or the same error. -/
theorem mapM_eq_error {ε α β : Type} {f : α → Except ε β} {e : ε} {l : List α} {i : Nat} {a : α}
    (found : l[i]? = some a) (fails : f a = .error e)
    (before : ∀ j < i, ∀ b, l[j]? = some b → (∃ c, f b = .ok c) ∨ f b = .error e) :
    l.mapM f = .error e := by
  induction l generalizing i with
  | nil => simp at found
  | cons first rest ih =>
    rw [List.mapM_cons]
    cases i with
    | zero =>
      cases found
      rw [fails]
      rfl
    | succ i =>
      obtain ⟨c, result⟩ | result := before 0 (Nat.succ_pos i) first rfl
      · rw [result, ih (by simpa using found) fun j earlier b there =>
          before (j + 1) (Nat.succ_lt_succ earlier) b (by simpa using there)]
        rfl
      · rw [result]
        rfl

namespace Arith

variable {h : Heap} {op : BinaryOp} {floating : Bool} {l r : ArrayId} {v w : Value}
  {x y z : ArrayId × ArrayId}

/-! ## 2. Coming to an end -/

/-- The combination of two arrays reaches a result or a fault, at some depth. -/
def Ends (h : Heap) (op : BinaryOp) (floating : Bool) (l r : ArrayId) : Prop :=
  ∃ depth, (∃ n, combineTo h op floating depth l r = .ok n) ∨
    ∃ cause, combineTo h op floating depth l r = .error (.fault cause)

/-- The combination of the pair `x` comes to the pair `y`: the arrays of `x` are equally long, those of `y`
stand at one position in them, and what stands before that position is combined. -/
def Enters (h : Heap) (op : BinaryOp) (floating : Bool) (x y : ArrayId × ArrayId) : Prop :=
  h.length x.1 = h.length x.2 ∧ ∃ i, h.element? x.1 i = some (.array y.1) ∧
    h.element? x.2 i = some (.array y.2) ∧ ∀ j < i, ∀ v w, h.element? x.1 j = some v →
      h.element? x.2 j = some w →
      ∃ n, combineElement (elementwise h op floating) op floating v w = .ok n

/-- Two elements either have a result or a fault, or are two arrays whose combination has neither. -/
theorem combineElement_cases (op : BinaryOp) (floating : Bool)
    {combine : ArrayId → ArrayId → Except Abort Nest}
    (arrays : ∀ a b, (∃ n, combine a b = .ok n) ∨ (∃ cause, combine a b = .error (.fault cause)) ∨
      combine a b = .error .diverges) (v w : Value) :
    (∃ n, combineElement combine op floating v w = .ok n) ∨
      (∃ cause, combineElement combine op floating v w = .error (.fault cause)) ∨
      ∃ a b, v = .array a ∧ w = .array b ∧ combineElement combine op floating v w = .error .diverges ∧
        combine a b = .error .diverges := by
  have numeric : ∀ floating v w, (∃ n, Abort.ofFault ((numericOp op floating v w).map Nest.leaf) = .ok n) ∨
      ∃ cause, Abort.ofFault ((numericOp op floating v w).map Nest.leaf) = .error (.fault cause) := by
    intro floating v w
    cases numericOp op floating v w with
    | ok z => exact .inl ⟨_, rfl⟩
    | error cause => exact .inr ⟨cause, rfl⟩
  cases v with
  | array a =>
    cases w with
    | array b =>
      obtain result | fails | diverges := arrays a b
      · exact .inl result
      · exact .inr (.inl fails)
      · exact .inr (.inr ⟨a, b, rfl, rfl, diverges, diverges⟩)
    | _ => exact .inr (.inl ⟨_, rfl⟩)
  | null => cases w <;> exact .inr (.inl ⟨_, rfl⟩)
  | _ =>
    cases w with
    | array b => exact .inr (.inl ⟨_, rfl⟩)
    | null => exact .inr (.inl ⟨_, rfl⟩)
    | _ =>
      obtain result | fails := numeric _ _ _
      · exact .inl result
      · exact .inr (.inl fails)

/-- A combination that is cut off at some depth has a result or a fault, or was cut off. -/
theorem combineTo_cases (h : Heap) (op : BinaryOp) (floating : Bool) (depth : Nat) (l r : ArrayId) :
    (∃ n, combineTo h op floating depth l r = .ok n) ∨
      (∃ cause, combineTo h op floating depth l r = .error (.fault cause)) ∨
      combineTo h op floating depth l r = .error .diverges := by
  induction depth generalizing l r with
  | zero => exact .inr (.inr rfl)
  | succ depth ih =>
    simp only [combineTo]
    split
    · exact .inr (.inl ⟨_, rfl⟩)
    · split
      · exact .inr (.inl ⟨_, rfl⟩)
      · generalize elements : ((h.elements l).toList.zip (h.elements r).toList).mapM
          (fun x => combineElement (combineTo h op floating depth) op floating x.1 x.2) = result
        cases result with
        | ok rows => exact .inl ⟨_, rfl⟩
        | error e =>
          obtain ⟨i, ⟨v, w⟩, -, fails, -⟩ := of_mapM_eq_error elements
          obtain ⟨n, result⟩ | ⟨cause, fault⟩ | ⟨a, b, -, -, diverges, -⟩ :=
            combineElement_cases op floating ih v w
          · cases fails.symm.trans result
          · obtain rfl := Except.error.inj (fails.symm.trans fault)
            exact .inr (.inl ⟨cause, rfl⟩)
          · obtain rfl := Except.error.inj (fails.symm.trans diverges)
            exact .inr (.inr rfl)

theorem ends_iff : Ends h op floating l r ↔ ∃ depth, combineTo h op floating depth l r ≠ .error .diverges := by
  constructor
  · rintro ⟨depth, ⟨n, result⟩ | ⟨cause, fault⟩⟩
    · exact ⟨depth, by simp [result]⟩
    · exact ⟨depth, by simp [fault]⟩
  · rintro ⟨depth, ends⟩
    obtain result | fault | diverges := combineTo_cases h op floating depth l r
    · exact ⟨depth, .inl result⟩
    · exact ⟨depth, .inr fault⟩
    · exact absurd diverges ends

/-- What has come to an end at some depth is the same at every greater one. -/
theorem combineTo_add (h : Heap) (op : BinaryOp) (floating : Bool) (depth more : Nat) (l r : ArrayId)
    (ends : combineTo h op floating depth l r ≠ .error .diverges) :
    combineTo h op floating (depth + more) l r = combineTo h op floating depth l r := by
  induction more with
  | zero => rfl
  | succ more ih =>
    rw [← Nat.add_assoc, combineTo_succ h op floating _ l r (ih ▸ ends), ih]

/-- The bound on the depth is never too small. -/
theorem elementwise_eq_combineTo {depth : Nat} (ends : combineTo h op floating depth l r ≠ .error .diverges) :
    elementwise h op floating l r = combineTo h op floating depth l r := by
  have deep : h.arrays.size * h.arrays.size < depth + (h.arrays.size * h.arrays.size + 1) := by omega
  rw [elementwise, ← combineTo_stable h op floating deep, combineTo_add h op floating depth _ l r ends]

theorem elementwise_eq_diverges :
    elementwise h op floating l r = .error .diverges ↔ ¬ Ends h op floating l r := by
  rw [ends_iff]
  constructor
  · rintro never ⟨depth, ends⟩
    exact ends ((elementwise_eq_combineTo ends).symm.trans never)
  · intro never
    by_contra ends
    exact never ⟨_, ends⟩

/-! ## 3. From pair to pair -/

/-- A combination that is cut off was cut off at a pair of arrays in the two, after everything before. -/
theorem of_combineTo_eq_diverges {depth : Nat}
    (diverges : combineTo h op floating (depth + 1) l r = .error .diverges) :
    h.length l = h.length r ∧ ∃ i a b, h.element? l i = some (.array a) ∧ h.element? r i = some (.array b) ∧
      combineTo h op floating depth a b = .error .diverges ∧ ∀ j < i, ∀ v w, h.element? l j = some v →
        h.element? r j = some w →
        ∃ n, combineElement (combineTo h op floating depth) op floating v w = .ok n := by
  simp only [combineTo] at diverges
  split at diverges
  · cases diverges
  · next same =>
    split at diverges
    · cases diverges
    · have fails : ((h.elements l).toList.zip (h.elements r).toList).mapM
          (fun x => combineElement (combineTo h op floating depth) op floating x.1 x.2) =
            .error .diverges := by
        generalize ((h.elements l).toList.zip (h.elements r).toList).mapM
          (fun x => combineElement (combineTo h op floating depth) op floating x.1 x.2) = result at diverges ⊢
        cases result with
        | ok rows => cases diverges
        | error e => exact congrArg Except.error (Except.error.inj diverges)
      obtain ⟨i, ⟨v, w⟩, found, cut, before⟩ := of_mapM_eq_error fails
      obtain ⟨left, right⟩ := Heap.getElem?_zip.mp found
      obtain ⟨n, result⟩ | ⟨cause, fault⟩ | ⟨a, b, rfl, rfl, -, inner⟩ :=
        combineElement_cases op floating (combineTo_cases h op floating depth) v w
      · cases cut.symm.trans result
      · cases cut.symm.trans fault
      · refine ⟨Decidable.not_not.mp same, i, a, b, left, right, inner, ?_⟩
        intro j earlier v w left right
        exact before j earlier (v, w) (Heap.getElem?_zip.mpr ⟨left, right⟩)

theorem combineTo_eq_elementwise (h : Heap) (op : BinaryOp) (floating : Bool) :
    combineTo h op floating (h.arrays.size * h.arrays.size + 1) = elementwise h op floating := rfl

/-- A combination that does not end comes to a pair whose combination does not end. -/
theorem exists_enters (never : elementwise h op floating x.1 x.2 = .error .diverges) :
    ∃ y, Enters h op floating x y ∧ elementwise h op floating y.1 y.2 = .error .diverges := by
  have more : combineTo h op floating (h.arrays.size * h.arrays.size + 1 + 1) x.1 x.2 = .error .diverges :=
    (congrFun₂ (combineTo_stable h op floating (by omega)) x.1 x.2).trans never
  obtain ⟨same, i, a, b, left, right, inner, before⟩ := of_combineTo_eq_diverges more
  rw [combineTo_eq_elementwise] at inner before
  exact ⟨(a, b), ⟨same, i, left, right, before⟩, inner⟩

/-- Pairs of which each leads to another one are combined at no depth. -/
theorem combineTo_of_closed {among : ArrayId × ArrayId → Prop}
    (closed : ∀ x, among x → ∃ y, among y ∧ Enters h op floating x y) (depth : Nat) (member : among x) :
    combineTo h op floating depth x.1 x.2 = .error .diverges := by
  induction depth generalizing x with
  | zero => rfl
  | succ depth ih =>
    obtain ⟨y, inside, same, i, left, right, before⟩ := closed x member
    have position := Heap.getElem?_zip.mpr ⟨left, right⟩
    -- at this depth what stands before may be cut off, too
    have cut : ((h.elements x.1).toList.zip (h.elements x.2).toList).mapM
        (fun z => combineElement (combineTo h op floating depth) op floating z.1 z.2) = .error .diverges := by
      apply mapM_eq_error position (ih inside)
      rintro j earlier ⟨v, w⟩ there
      obtain ⟨left, right⟩ := Heap.getElem?_zip.mp there
      obtain ⟨n, result⟩ := before j earlier v w left right
      by_cases ends : combineElement (combineTo h op floating depth) op floating v w = .error .diverges
      · exact .inr ends
      · refine .inl ⟨n, ?_⟩
        rw [← result]
        exact (combineElement_of_ne (fun a b => elementwise_eq_combineTo) ends).symm
    have filled : (h.elements x.1).isEmpty = false := by
      have inside : i < (h.elements x.1).size := by
        by_contra outside
        simp [Heap.element?, outside] at left
      simp only [Array.isEmpty, decide_eq_false_iff_not]
      omega
    have same : (h.elements x.1).size = (h.elements x.2).size := same
    simp only [combineTo, cut, same, filled, ne_eq, not_true_eq_false, if_false, Bool.false_eq_true]
    rfl

/-- A pair that comes to another one, which comes to itself again. -/
def Recurs (h : Heap) (op : BinaryOp) (floating : Bool) (x : ArrayId × ArrayId) : Prop :=
  ∃ y, ReflTransGen (Enters h op floating) x y ∧ TransGen (Enters h op floating) y y

theorem Recurs.next (recurs : Recurs h op floating x) :
    ∃ y, Recurs h op floating y ∧ Enters h op floating x y := by
  obtain ⟨z, way, round⟩ := recurs
  obtain rfl | ⟨y, first, rest⟩ := way.cases_head
  · obtain ⟨y, first, rest⟩ := TransGen.head'_iff.mp round
    exact ⟨y, ⟨x, rest, round⟩, first⟩
  · exact ⟨y, ⟨z, rest, round⟩, first⟩

/-- Where a combination does not end, it comes to some pair twice: there are only finitely many. -/
theorem recurs_of_diverges (never : elementwise h op floating x.1 x.2 = .error .diverges) :
    Recurs h op floating x := by
  let Endless := { y : ArrayId × ArrayId // elementwise h op floating y.1 y.2 = .error .diverges }
  choose next enters using fun y : Endless => exists_enters y.2
  -- the pairs that are met, one after the other
  let met : Nat → Endless := fun k => (fun y => ⟨next y, (enters y).2⟩)^[k] ⟨x, never⟩
  have step : ∀ k, Enters h op floating (met k).1 (met (k + 1)).1 := by
    intro k
    have := (enters (met k)).1
    simp only [met, Function.iterate_succ_apply']
    exact this
  have inside : ∀ y : Endless, y.1.1.index < h.arrays.size ∧ y.1.2.index < h.arrays.size := by
    intro y
    by_contra outside
    exact combineTo_ne_of_le _ (by omega) y.2
  -- of two pairs that are the same the later one is met on the way from the earlier one
  have round : ∀ i j, i < j → (met i).1 = (met j).1 → Recurs h op floating x := by
    intro i j earlier same
    refine ⟨(met i).1, ?_, ?_⟩
    · exact Nat.rel_of_forall_rel_succ_of_le (ReflTransGen (Enters h op floating)) (f := fun k => (met k).1)
        (fun k => .single (step k)) (Nat.zero_le i)
    · have later := Nat.rel_of_forall_rel_succ_of_lt (TransGen (Enters h op floating))
        (f := fun k => (met k).1) (fun k => .single (step k)) earlier
      exact same.symm ▸ later
  obtain ⟨i, j, differ, same⟩ := Finite.exists_ne_map_eq_of_infinite fun k =>
    ((⟨(met k).1.1.index, (inside _).1⟩, ⟨(met k).1.2.index, (inside _).2⟩) :
      Fin h.arrays.size × Fin h.arrays.size)
  have same : (met i).1 = (met j).1 := by
    simp only [Prod.mk.injEq, Fin.mk.injEq] at same
    exact Prod.ext (congrArg ArrayId.mk same.1) (congrArg ArrayId.mk same.2)
  obtain earlier | earlier := Nat.lt_or_gt_of_ne differ
  · exact round i j earlier same
  · exact round j i earlier same.symm

/-- From a pair that recurs there are paths of every length, in both arrays. -/
theorem Recurs.exists_path (recurs : Recurs h op floating x) (n : Nat) :
    ∃ path, path.length = n ∧ (h.at? (.array x.1) path).isSome ∧ (h.at? (.array x.2) path).isSome := by
  induction n generalizing x with
  | zero => exact ⟨[], rfl, by simp⟩
  | succ n ih =>
    obtain ⟨y, further, -, i, left, right, -⟩ := recurs.next
    obtain ⟨path, length, first, second⟩ := ih further
    exact ⟨i :: path, by simp [length], by simpa [left] using first, by simpa [right] using second⟩

theorem ends_iff_not_recurs : Ends h op floating l r ↔ ¬ Recurs h op floating (l, r) := by
  constructor
  · intro ends recurs
    obtain ⟨depth, ends⟩ := ends_iff.mp ends
    exact ends (combineTo_of_closed (fun x recurs => recurs.next) depth recurs)
  · intro new
    by_contra never
    exact new (recurs_of_diverges (x := (l, r)) (elementwise_eq_diverges.mpr never))

/-! ## 4. When a combination ends -/

/-- The combination of two arrays reaches a result or a fault exactly if it meets no pair of arrays from
which it would come back to that pair. So it does if one of the two arrays nests finitely. A combination that
reaches neither is reported as one that never ends, and no other is. -/
theorem ends_exactly (h : Heap) (op : BinaryOp) (floating : Bool) (l r : ArrayId) :
    (Ends h op floating l r ↔ ¬ ∃ x, ReflTransGen (Enters h op floating) (l, r) x ∧
        TransGen (Enters h op floating) x x) ∧
      (h.NestsFinitely (.array l) ∨ h.NestsFinitely (.array r) → Ends h op floating l r) ∧
      (elementwise h op floating l r = .error .diverges ↔ ¬ Ends h op floating l r) := by
  refine ⟨ends_iff_not_recurs, ?_, elementwise_eq_diverges⟩
  intro finite
  rw [ends_iff_not_recurs]
  intro recurs
  rcases finite with ⟨bound, shallow⟩ | ⟨bound, shallow⟩
  · obtain ⟨path, length, first, -⟩ := recurs.exists_path (bound + 1)
    have := shallow path first
    omega
  · obtain ⟨path, length, -, second⟩ := recurs.exists_path (bound + 1)
    have := shallow path second
    omega

/-- A heap with one array, which was made as `[null, true]` and then written into itself. -/
def knot : Heap :=
  let (a, h) := Heap.empty.newArray #[.null, .bool true]
  h.setElement a 0 (.array a)

/-- The array has a text, but the combination of the array with itself, which would have to refuse the truth
value behind the array, does not come to it. -/
theorem knot_never_ends :
    render default knot (.array ⟨0⟩) = .ok "[[...], true]" ∧ ¬ Ends knot .add false ⟨0⟩ ⟨0⟩ := by
  refine ⟨by rfl, ?_⟩
  have enters : Enters knot .add false (⟨0⟩, ⟨0⟩) (⟨0⟩, ⟨0⟩) := ⟨rfl, 0, rfl, rfl, by simp⟩
  rw [ends_iff_not_recurs]
  exact fun new => new ⟨_, .refl, .single enters⟩

end Arith

end Strand
