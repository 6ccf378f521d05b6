import Strand.Proofs.Scope.Context
import Strand.Thread.Step

/-!
# What operators yield

An operator on values gives a value that refers to no declaration, and when it fails, the reason lies in
its operands: no name is unbound, and nothing is read out of range. Only the evaluation of a name gives a
function of the program or fails for the want of a binding. `Yields` states such a thing of an operation,
for its value and for the reason why it has none.

Values are also kept on the heap. `Heap.Holds` says that all that is there has a property, which every
way to write to the heap preserves.
-/

set_option autoImplicit false

namespace Strand

/-! ## 1. Operations -/

/-- Not the fault that a name is unbound. -/
def Cause.Named (cause : Cause) : Prop := ∀ name, cause ≠ .unboundName name

/-- Not for the reason that a name is unbound. -/
def Abort.Named : Abort → Prop
  | .fault cause => cause.Named
  | _ => True

/-- A cause that lies in the operands: no name is missing, and nothing is wrong with the run. -/
def Cause.OfOperands : Cause → Prop
  | .unboundName _ | .unsupportedBuiltin _ | .poolStartup _ | .taskPanicked _ | .custom _ => False
  | _ => True

/-- For a reason that lies in the operands; an operation on values reads nothing out of range. -/
def Abort.OfOperands : Abort → Prop
  | .fault cause => cause.OfOperands
  | .outOfRange _ => False
  | .diverges => True

/-- For a fault that lies in the operands: nothing is read out of range, and the operation comes to an end. -/
def Abort.IsFault : Abort → Prop
  | .fault cause => cause.OfOperands
  | _ => False

theorem Abort.IsFault.ofOperands {a : Abort} (h : a.IsFault) : a.OfOperands := by
  cases a with
  | fault cause => exact h
  | outOfRange | diverges => cases h

theorem Cause.OfOperands.named {cause : Cause} (h : cause.OfOperands) : cause.Named := by
  rintro name rfl
  exact h

theorem Abort.OfOperands.named {a : Abort} (h : a.OfOperands) : a.Named := by
  cases a with
  | fault cause => exact Cause.OfOperands.named h
  | outOfRange | diverges => trivial

/-- The value of an operation is of one kind, and the reason why it has none of another. -/
def Yields {ε α : Type} (reason : ε → Prop) (fine : α → Prop) : Except ε α → Prop
  | .ok a => fine a
  | .error e => reason e

section

variable {ε α β : Type} {reason : ε → Prop} {fine : α → Prop} {good : β → Prop}

theorem Yields.bind {x : Except ε α} {f : α → Except ε β} (h : Yields reason fine x)
    (next : ∀ a, fine a → Yields reason good (f a)) : Yields reason good (x >>= f) := by
  cases x with
  | ok a => exact next a h
  | error e => exact h

theorem Yields.mono {good : α → Prop} {x : Except ε α} (h : Yields reason fine x)
    (weaken : ∀ a, fine a → good a) : Yields reason good x := by
  cases x with
  | ok a => exact weaken a h
  | error e => exact h

/-- A reason that is one of several. -/
theorem Yields.because {reason' : ε → Prop} {x : Except ε α} (h : Yields reason fine x)
    (weaken : ∀ e, reason e → reason' e) : Yields reason' fine x := by
  cases x with
  | ok a => exact h
  | error e => exact weaken e h

theorem Yields.map {x : Except ε α} {f : α → β} (h : Yields reason fine x)
    (next : ∀ a, fine a → good (f a)) : Yields reason good (x.map f) := by
  cases x with
  | ok a => exact next a h
  | error e => exact h

theorem Yields.mapM {f : α → Except ε β} {l : List α}
    (each : ∀ a ∈ l, Yields reason good (f a)) :
    Yields reason (fun l => ∀ b ∈ l, good b) (l.mapM f) := by
  induction l with
  | nil =>
    intro b member
    cases member
  | cons a rest ih =>
    rw [List.mapM_cons]
    refine (each a List.mem_cons_self).bind fun b first => ?_
    refine (ih fun a member => each a (List.mem_cons_of_mem _ member)).bind fun others fine => ?_
    exact List.forall_mem_cons.mpr ⟨first, fine⟩

theorem Yields.named {x : Except Cause α} (h : Yields Cause.OfOperands fine x) :
    Yields Cause.Named fine x := h.because fun _ inside => inside.named

theorem Yields.isFault {x : Except Cause α} (h : Yields Cause.OfOperands fine x) :
    Yields Abort.IsFault fine (Abort.ofFault x) := by
  cases x with
  | ok a => exact h
  | error e => exact h

theorem Yields.ofFault {x : Except Cause α} (h : Yields Cause.OfOperands fine x) :
    Yields Abort.OfOperands fine (Abort.ofFault x) :=
  h.isFault.because fun _ fault => fault.ofOperands

theorem Yields.ofRead {x : Except OutOfRange α} (h : ∀ a, x = .ok a → fine a) :
    Yields Abort.Named fine (Abort.ofRead x) := by
  cases x with
  | ok a => exact h a rfl
  | error e => trivial

/-- An operation that is only read to go on. -/
theorem Yields.any {x : Except OutOfRange α} :
    Yields Abort.Named (fun _ => True) (Abort.ofRead x) := .ofRead fun _ _ => trivial

end

/-! ## 2. Operators -/

/-- A value that is no function of the program. -/
def Value.Plain (v : Value) : Prop := ∀ function, v ≠ .function (.node function)

/-- A value that refers to no declaration. -/
def Value.IsData : Value → Prop
  | .function _ | .type _ | .constructor _ => False
  | _ => True

theorem Value.IsData.plain {v : Value} (h : v.IsData) : v.Plain := by
  rintro function rfl
  exact h

/-- Every value in the rows has a property. -/
inductive Nest.Holds (holds : Value → Prop) : Nest → Prop
  | leaf (v : Value) (fine : holds v) : Nest.Holds holds (.leaf v)
  | row (elements : List Nest) (fine : ∀ e ∈ elements, Nest.Holds holds e) :
    Nest.Holds holds (.row elements)

namespace Arith

theorem expectNumber_yields (v : Value) : Yields Cause.OfOperands (fun _ => True) (expectNumber v) := by
  unfold expectNumber
  split <;> trivial

theorem expectInt_yields (v : Value) : Yields Cause.OfOperands (fun _ => True) (expectInt v) := by
  unfold expectInt
  split <;> trivial

theorem expectBool_yields (v : Value) : Yields Cause.OfOperands (fun _ => True) (expectBool v) := by
  unfold expectBool
  split <;> trivial

theorem expectArray_yields (v : Value) : Yields Cause.OfOperands (fun _ => True) (expectArray v) := by
  unfold expectArray
  split <;> trivial

theorem floatOp_yields (op : BinaryOp) (l r : Float) :
    Yields Cause.OfOperands Value.IsData (floatOp op l r) := by
  cases op <;> trivial

theorem intOp_yields (op : BinaryOp) (l r : Int64) :
    Yields Cause.OfOperands Value.IsData (intOp op l r) := by
  cases op with
  | div | rem =>
    simp only [intOp]
    split <;> trivial
  | _ => trivial

theorem numericOp_yields (op : BinaryOp) (floating : Bool) (l r : Value) :
    Yields Cause.OfOperands Value.IsData (numericOp op floating l r) := by
  unfold numericOp
  split
  · refine (expectNumber_yields l).bind fun x _ => (expectNumber_yields r).bind fun y _ => ?_
    exact floatOp_yields op x y
  · refine (expectInt_yields l).bind fun m _ => (expectInt_yields r).bind fun n _ => ?_
    exact intOp_yields op m n

theorem combineElement_yields {combine : ArrayId → ArrayId → Except Abort Nest} (op : BinaryOp)
    (floating : Bool) (arrays : ∀ l r, Yields Abort.OfOperands (Nest.Holds Value.IsData) (combine l r))
    (l r : Value) :
    Yields Abort.OfOperands (Nest.Holds Value.IsData) (combineElement combine op floating l r) := by
  unfold combineElement
  split
  · exact arrays _ _
  all_goals try trivial
  exact ((numericOp_yields op _ l r).map fun v data => .leaf v data).ofFault

theorem combineTo_yields (h : Heap) (op : BinaryOp) (floating : Bool) (depth : Nat) (l r : ArrayId) :
    Yields Abort.OfOperands (Nest.Holds Value.IsData) (combineTo h op floating depth l r) := by
  induction depth generalizing l r with
  | zero => trivial
  | succ depth ih =>
    simp only [combineTo]
    split
    · trivial
    · split
      · trivial
      · have each := Yields.mapM (l := (h.elements l).toList.zip (h.elements r).toList)
          fun x _ => combineElement_yields op floating ih x.1 x.2
        exact each.map fun elements fine => .row elements fine

/-- A concatenation fails only if the text of a value does. -/
theorem concat_yields {reason : Abort → Prop} (p : Program) (h : Heap) (l r : Value)
    (reads : ∀ v ∈ [l, r], Yields reason (fun _ => True) (Abort.ofRead (render p h v))) :
    Yields reason (Nest.Holds Value.IsData) (concat p h l r) := by
  unfold concat
  refine (reads l (by simp)).bind fun left _ => (reads r (by simp)).bind fun right _ => ?_
  exact .leaf _ trivial

theorem binary_yields {reason : Abort → Prop} (ofOperands : ∀ e, e.OfOperands → reason e)
    (p : Program) (h : Heap) (op : BinaryOp) (l r : Value) (leftTy rightTy : Ty)
    (reads : ∀ v ∈ [l, r], Yields reason (fun _ => True) (Abort.ofRead (render p h v))) :
    Yields reason (Nest.Holds Value.IsData) (binary p h op l r leftTy rightTy) := by
  unfold binary
  split
  · exact concat_yields p h l r reads
  · refine Yields.because ?_ ofOperands
    simp only []
    split
    · exact ((numericOp_yields op _ l r).map fun v data => .leaf v data).ofFault
    · split
      · refine (expectArray_yields l).ofFault.bind fun left _ => ?_
        refine (expectArray_yields r).ofFault.bind fun right _ => ?_
        exact combineTo_yields h op _ _ left right
      · split
        · exact .leaf _ trivial
        · exact .leaf _ trivial
        · trivial

theorem rowsOf_yields (h : Heap) (v : Value) : Yields Cause.OfOperands (fun _ => True) (rowsOf h v) := by
  unfold rowsOf
  refine (expectArray_yields v).bind fun a _ => ?_
  have each : ∀ row ∈ (h.elements a).toList, Yields Cause.OfOperands (fun _ => True)
      (do return h.elements (← expectArray row)) :=
    fun row _ => (expectArray_yields row).bind fun _ _ => trivial
  exact (Yields.mapM each).mono fun _ _ => trivial

/-- A row has an entry for each of the rows below, so no entry is read where there is none. -/
theorem dotFrom_yields (row : Array Value) (columns column i : Nat) (below : List (Array Value))
    (sum : Float) (long : i + below.length ≤ row.size) :
    Yields Abort.IsFault (fun _ => True) (dotFrom row columns column i below sum) := by
  induction below generalizing i sum with
  | nil => trivial
  | cons first rest ih =>
    rw [List.length_cons] at long
    have inside : i < row.size := by omega
    have entry : entryOf row i = .ok row[i] := by
      unfold entryOf
      rw [Array.getElem?_eq_getElem inside]
    simp only [dotFrom]
    split
    · refine Yields.bind (show Yields Abort.IsFault (fun _ => True) (.ok _) from trivial)
        fun r _ => ?_
      rw [entry]
      refine (expectNumber_yields row[i]).isFault.bind fun x _ => ?_
      exact (expectNumber_yields r).isFault.bind fun y _ => ih _ _ (by omega)
    · trivial

theorem productRow_yields (right : List (Array Value)) (columns : Nat) (row : Array Value) :
    Yields Abort.IsFault (Nest.Holds Value.IsData) (productRow right columns row) := by
  unfold productRow
  split
  · trivial
  · next long =>
    have cells := Yields.mapM (l := List.range columns)
      fun column _ => dotFrom_yields row columns column 0 right 0.0 (by omega)
    refine cells.bind fun cells _ => .row _ fun e member => ?_
    obtain ⟨x, -, rfl⟩ := List.mem_map.mp member
    exact .leaf _ trivial

theorem matrixProduct_yields (h : Heap) (l r : Value) :
    Yields Abort.IsFault (Nest.Holds Value.IsData) (matrixProduct h l r) := by
  unfold matrixProduct
  refine (rowsOf_yields h l).isFault.bind fun left _ => ?_
  refine (rowsOf_yields h r).isFault.bind fun right _ => ?_
  split
  · split
    · trivial
    · dsimp only
      split
      · trivial
      · refine (Yields.mapM fun row _ => productRow_yields _ _ row).bind fun rows fine => ?_
        exact .row _ fine
  · trivial

end Arith

theorem checkIndex_yields (v : Value) : Yields Cause.OfOperands (fun _ => True) (checkIndex v) := by
  unfold checkIndex
  refine (Arith.expectInt_yields v).bind fun index _ => ?_
  dsimp only
  split
  · trivial
  · split
    · trivial
    · trivial

/-- A widened value is a number or the value itself. -/
theorem Value.widen_holds {holds : Value → Prop} (data : ∀ v, v.IsData → holds v) {v : Value}
    (h : holds v) (ty : Ty) : holds (v.widen ty) := by
  unfold widen
  split
  · exact data _ trivial
  · exact h

/-- The last value joins the ones before it, which are kept in reverse. -/
theorem forall_mem_done {holds : Value → Prop} {done : List Value} {v : Value}
    (before : ∀ w ∈ done, holds w) (last : holds v) :
    ∀ w ∈ done.reverse ++ [v], holds w := by
  intro w member
  rcases List.mem_append.mp member with old | new
  · exact before w (List.mem_reverse.mp old)
  · rw [List.mem_singleton.mp new]
    exact last

/-! ## 3. The heap -/

namespace Heap

/-- Every element and every field has a property. -/
structure Holds (holds : Value → Prop) (h : Heap) : Prop where
  elements : ∀ a, ∀ v ∈ h.elements a, holds v
  fields : ∀ r, ∀ x ∈ (h.record r).fields, holds x.2

variable {holds : Value → Prop} {h : Heap}

theorem Holds.mono {holds' : Value → Prop} (fine : h.Holds holds)
    (weaken : ∀ v, holds v → holds' v) : h.Holds holds' :=
  ⟨fun a v member => weaken v (fine.elements a v member),
    fun r x member => weaken x.2 (fine.fields r x member)⟩

theorem holds_empty (holds : Value → Prop) : empty.Holds holds := by
  refine ⟨fun a v member => ?_, fun r x member => ?_⟩
  · simp [empty, Heap.elements] at member
  · simp [empty, Heap.record] at member

theorem Holds.element? (fine : h.Holds holds) {a : ArrayId} {i : Nat} {v : Value}
    (found : h.element? a i = some v) : holds v :=
  fine.elements a v (Array.mem_of_getElem? found)

theorem Holds.field? (fine : h.Holds holds) {r : RecordId} {name : Name} {v : Value}
    (found : h.field? r name = some v) : holds v :=
  fine.fields r (name, v) (mem_of_lookup found)

theorem Holds.newArray (fine : h.Holds holds) {values : Array Value}
    (each : ∀ v ∈ values, holds v) : (h.newArray values).2.Holds holds := by
  refine ⟨fun a v member => ?_, fine.fields⟩
  simp only [Heap.newArray, Heap.elements, Array.getD_eq_getD_getElem?, Array.getElem?_push]
    at member
  split at member
  · exact each v member
  · exact fine.elements a v (by simpa [Heap.elements] using member)

theorem Holds.newRecord (fine : h.Holds holds) {r : Record}
    (each : ∀ x ∈ r.fields, holds x.2) : (h.newRecord r).2.Holds holds := by
  refine ⟨fine.elements, fun s x member => ?_⟩
  simp only [Heap.newRecord, Heap.record, Array.getD_eq_getD_getElem?, Array.getElem?_push]
    at member
  split at member
  · exact each x member
  · exact fine.fields s x (by simpa [Heap.record] using member)

theorem Holds.setElement (fine : h.Holds holds) (a : ArrayId) (i : Nat) {v : Value}
    (here : holds v) : (h.setElement a i v).Holds holds := by
  refine ⟨fun b w member => ?_, fine.fields⟩
  rw [elements_setElement] at member
  split at member
  · rcases Array.mem_or_eq_of_mem_setIfInBounds member with old | rfl
    · exact fine.elements b w old
    · exact here
  · exact fine.elements b w member

theorem mem_setField {name : Name} {v : Value} {fields : List (Name × Value)} {x : Name × Value}
    (member : x ∈ Record.setField name v fields) : x ∈ fields ∨ x.2 = v := by
  induction fields with
  | nil => exact .inl member
  | cons field rest ih =>
    simp only [Record.setField] at member
    split at member
    · rcases List.mem_cons.mp member with rfl | old
      · exact .inr rfl
      · exact .inl (List.mem_cons_of_mem _ old)
    · rcases List.mem_cons.mp member with rfl | old
      · exact .inl List.mem_cons_self
      · exact (ih old).imp (List.mem_cons_of_mem _) id

theorem Holds.setField (fine : h.Holds holds) (r : RecordId) (name : Name) {v : Value}
    (here : holds v) : (h.setField r name v).Holds holds := by
  refine ⟨fine.elements, fun s x member => ?_⟩
  rw [record_setField] at member
  split at member
  · rcases mem_setField member with old | same
    · exact fine.fields s x old
    · exact same ▸ here
  · exact fine.fields s x member

mutual

/-- Rows that are put on the heap bring nothing there that was not in them, but arrays. -/
theorem Holds.place (data : ∀ v, v.IsData → holds v) : ∀ (n : Nest) {h : Heap}, h.Holds holds →
    n.Holds Value.IsData → holds (h.place n).1 ∧ (h.place n).2.Holds holds
  | .leaf v, h, fine, each => by
    cases each with
    | leaf _ here => exact ⟨data v here, fine⟩
  | .row elements, h, fine, each => by
    cases each with
    | row _ here =>
      obtain ⟨values, fine'⟩ := Holds.placeAll data elements fine here
      refine ⟨data _ trivial, fine'.newArray fun v member => ?_⟩
      exact values v (List.mem_toArray.mp member)

theorem Holds.placeAll (data : ∀ v, v.IsData → holds v) : ∀ (l : List Nest) {h : Heap},
    h.Holds holds → (∀ n ∈ l, n.Holds Value.IsData) →
      (∀ v ∈ (h.placeAll l).1, holds v) ∧ (h.placeAll l).2.Holds holds
  | [], h, fine, each => ⟨List.forall_mem_nil _, fine⟩
  | n :: rest, h, fine, each => by
    obtain ⟨first, fine'⟩ := Holds.place data n fine (each n List.mem_cons_self)
    obtain ⟨others, fine''⟩ :=
      Holds.placeAll data rest fine' fun n member => each n (List.mem_cons_of_mem _ member)
    exact ⟨List.forall_mem_cons.mpr ⟨first, others⟩, fine''⟩

end

end Heap

end Strand
