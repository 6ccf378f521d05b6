import Mathlib
import Strand.Proofs.Typing

/-!
# Equality, from the left and from the right

Which rule compares two values is chosen from the static types of the operands, and the choice looks at the
left operand first. Where the rule is one of comparing, it does not matter which operand stands on the left:
numbers are compared as floats or as integers, scalars by content, and objects by identity, and each of the
three is symmetric. Where the choice itself looks at one side only it does matter. An integer on the left
makes the comparison one of integers, which faults on anything but a number; an integer on the right makes
nothing of it, and the two are merely unequal (`Arith.equality_symmetric`).

Inequality is the negation of equality whatever the operands are, and it faults where equality does, for the
same reason.
-/

set_option autoImplicit false

namespace Strand

/-! ## 1. The relations that values are compared by -/

/-- Floats are compared symmetrically, those that are not numbers included. -/
theorem float_beq_comm (x y : Float) : (x == y) = (y == x) := by
  have symmetric : ∀ a b : Float.Model.UnpackedFloat, a.beq b = true → b.beq a = true := by
    intro a b equal
    rw [Float.Model.UnpackedFloat.beq_iff_ne_notANumber_and_eq] at equal ⊢
    obtain ⟨left, right, same | ⟨positive, negative⟩ | ⟨negative, positive⟩⟩ := equal
    · exact ⟨right, left, .inl same.symm⟩
    · exact ⟨right, left, .inr (.inr ⟨negative, positive⟩)⟩
    · exact ⟨right, left, .inr (.inl ⟨positive, negative⟩)⟩
  exact Bool.eq_iff_iff.mpr ⟨symmetric _ _, symmetric _ _⟩

namespace Value

theorem primitiveEq_comm (l r : Value) : l.primitiveEq r = r.primitiveEq l := by
  cases l <;> cases r <;>
    first | rfl | exact Bool.beq_comm | exact float_beq_comm _ _

end Value

namespace Arith

variable {p : Program} {h : Heap} {l r : Value} {leftTy rightTy : Ty}

/-- A value that is not a scalar is compared by identity anyway, so the static type of the left operand
decides nothing once the operand is a value of it. -/
theorem equals_eq_primitiveEq (inLeft : h.Inhabits p leftTy l) :
    equals l r leftTy = l.primitiveEq r := by
  cases leftTy with
  | int | float | bool | string => rfl
  | _ => cases l <;> first | exact inLeft.elim | rfl

/-! ## 2. Answers -/

/-- Two answers are the same truth value, or both are faults. -/
def SameVerdict (one other : Except Abort Nest) : Prop :=
  (∃ b, one = .ok (.leaf (.bool b)) ∧ other = .ok (.leaf (.bool b))) ∨
    (∃ cause, one = .error (.fault cause)) ∧ ∃ cause, other = .error (.fault cause)

/-- Two answers are opposite truth values, or the same fault. -/
def OppositeVerdict (one other : Except Abort Nest) : Prop :=
  (∃ b, one = .ok (.leaf (.bool b)) ∧ other = .ok (.leaf (.bool !b))) ∨
    ∃ cause, one = .error (.fault cause) ∧ other = .error (.fault cause)

theorem SameVerdict.symm {one other : Except Abort Nest} (same : SameVerdict one other) :
    SameVerdict other one := by
  rcases same with ⟨b, first, second⟩ | ⟨first, second⟩
  · exact .inl ⟨b, second, first⟩
  · exact .inr ⟨second, first⟩

/-- Equality of two floats, or of two integers, once both operands are known to be such. -/
theorem numericOp_verdict (floating : Bool) (l r : Value) :
    (∃ b, numericOp .eq floating l r = .ok (.bool b) ∧ numericOp .ne floating l r = .ok (.bool !b)) ∨
      ∃ cause, numericOp .eq floating l r = .error cause ∧ numericOp .ne floating l r = .error cause := by
  cases floating with
  | true =>
    cases left : expectNumber l with
    | error cause =>
      refine .inr ⟨cause, ?_, ?_⟩ <;> simp only [numericOp, left] <;> rfl
    | ok x =>
      cases right : expectNumber r with
      | error cause =>
        refine .inr ⟨cause, ?_, ?_⟩ <;> simp only [numericOp, left, right] <;> rfl
      | ok y =>
        refine .inl ⟨x == y, ?_, ?_⟩ <;> simp only [numericOp, left, right] <;> rfl
  | false =>
    cases left : expectInt l with
    | error cause =>
      refine .inr ⟨cause, ?_, ?_⟩ <;> simp only [numericOp, left] <;> rfl
    | ok m =>
      cases right : expectInt r with
      | error cause =>
        refine .inr ⟨cause, ?_, ?_⟩ <;> simp only [numericOp, left, right] <;> rfl
      | ok n =>
        refine .inl ⟨m == n, ?_, ?_⟩ <;> simp only [numericOp, left, right] <;> rfl

/-- An equality on numbers is a truth value or a fault, and the inequality is the opposite. -/
theorem ofFault_verdict (floating : Bool) (l r : Value) :
    OppositeVerdict (Abort.ofFault ((numericOp .eq floating l r).map .leaf))
      (Abort.ofFault ((numericOp .ne floating l r).map .leaf)) := by
  rcases numericOp_verdict floating l r with ⟨b, equal, unequal⟩ | ⟨cause, equal, unequal⟩
  · exact .inl ⟨b, by rw [equal]; rfl, by rw [unequal]; rfl⟩
  · exact .inr ⟨cause, by rw [equal]; rfl, by rw [unequal]; rfl⟩

/-! ## 3. The rule that compares -/

/-- Equality on numbers, which a float on either side or an integer on the left makes it. -/
theorem binary_of_numbers {op : BinaryOp} (comparison : op = .eq ∨ op = .ne)
    (numbers : (leftTy.isFloat || rightTy.isFloat || decide (leftTy = .int)) = true) :
    binary p h op l r leftTy rightTy =
      Abort.ofFault ((numericOp op (leftTy.isFloat || rightTy.isFloat) l r).map .leaf) := by
  have notSum : op ≠ .add := by rcases comparison with rfl | rfl <;> decide
  simp only [binary, notSum, decide_false, Bool.false_and, Bool.false_eq_true, if_false, numbers, if_true]

/-- Equality of anything else. -/
theorem binary_of_others
    (others : (leftTy.isFloat || rightTy.isFloat || decide (leftTy = .int)) = false) :
    binary p h .eq l r leftTy rightTy = .ok (.leaf (.bool (equals l r leftTy))) ∧
      binary p h .ne l r leftTy rightTy = .ok (.leaf (.bool !equals l r leftTy)) := by
  simp [binary, others, BinaryOp.isElementwise]

/-! ## 4. The two orders -/

/-- Only the left operand makes the comparison one of numbers: it is an integer, and the right one is no
number. -/
def Lopsided (leftTy rightTy : Ty) : Prop := leftTy = .int ∧ rightTy ≠ .int ∧ rightTy ≠ .float

/-- A comparison of floats does not look at the order of its operands. -/
theorem ofFault_floats_symmetric (l r : Value) :
    SameVerdict (Abort.ofFault ((numericOp .eq true l r).map .leaf))
      (Abort.ofFault ((numericOp .eq true r l).map .leaf)) := by
  cases left : expectNumber l with
  | error cause =>
    cases right : expectNumber r with
    | error other =>
      refine .inr ⟨⟨cause, ?_⟩, other, ?_⟩ <;> simp only [numericOp, left, right] <;> rfl
    | ok y => refine .inr ⟨⟨cause, ?_⟩, cause, ?_⟩ <;> simp only [numericOp, left, right] <;> rfl
  | ok x =>
    cases right : expectNumber r with
    | error cause => refine .inr ⟨⟨cause, ?_⟩, cause, ?_⟩ <;> simp only [numericOp, left, right] <;> rfl
    | ok y =>
      have forward : numericOp .eq true l r = .ok (.bool (x == y)) := by
        simp only [numericOp, left, right]
        rfl
      have backward : numericOp .eq true r l = .ok (.bool (x == y)) := by
        rw [float_beq_comm x y]
        simp only [numericOp, left, right]
        rfl
      exact .inl ⟨x == y, by rw [forward]; rfl, by rw [backward]; rfl⟩

/-- Two integers are compared symmetrically. -/
theorem int_against_int (inLeft : h.Inhabits p .int l) (inRight : h.Inhabits p .int r) :
    SameVerdict (binary p h .eq l r .int .int) (binary p h .eq r l .int .int) := by
  cases l with
  | int m =>
    cases r with
    | int n =>
      refine .inl ⟨m == n, rfl, ?_⟩
      rw [Bool.beq_comm]
      rfl
    | _ => exact inRight.elim
  | _ => exact inLeft.elim

/-- An integer on the left faults on what is no number, and on the right it is unequal to it. -/
theorem int_against_other (inLeft : h.Inhabits p leftTy l) (inRight : h.Inhabits p rightTy r)
    (lopsided : Lopsided leftTy rightTy) :
    binary p h .eq l r leftTy rightTy = .error (.fault (.typeMismatch "Int" r.typeName)) ∧
      binary p h .eq r l rightTy leftTy = .ok (.leaf (.bool false)) := by
  obtain ⟨rfl, notInt, notFloat⟩ := lopsided
  cases l with
  | int n =>
    cases rightTy with
    | int => exact absurd rfl notInt
    | float => exact absurd rfl notFloat
    | _ => cases r <;> first | exact inRight.elim | exact ⟨rfl, rfl⟩
  | _ => exact inLeft.elim

/-- What are no numbers on either side are compared by one and the same relation, whichever stands left. -/
theorem other_against_other (inLeft : h.Inhabits p leftTy l) (inRight : h.Inhabits p rightTy r)
    (others : (leftTy.isFloat || rightTy.isFloat || decide (leftTy = .int)) = false)
    (others' : (rightTy.isFloat || leftTy.isFloat || decide (rightTy = .int)) = false) :
    SameVerdict (binary p h .eq l r leftTy rightTy) (binary p h .eq r l rightTy leftTy) := by
  obtain ⟨forward, -⟩ := binary_of_others (p := p) (h := h) (l := l) (r := r) others
  obtain ⟨backward, -⟩ := binary_of_others (p := p) (h := h) (l := r) (r := l) others'
  refine .inl ⟨l.primitiveEq r, ?_, ?_⟩
  · rw [forward, equals_eq_primitiveEq inLeft]
  · rw [backward, equals_eq_primitiveEq inRight, Value.primitiveEq_comm]

/-- An integer on the left of what is no number gives a fault where the other order gives a value. -/
theorem not_sameVerdict (inLeft : h.Inhabits p leftTy l) (inRight : h.Inhabits p rightTy r)
    (lopsided : Lopsided leftTy rightTy) :
    ¬SameVerdict (binary p h .eq l r leftTy rightTy) (binary p h .eq r l rightTy leftTy) := by
  obtain ⟨fault, value⟩ := int_against_other inLeft inRight lopsided
  rw [fault, value]
  rintro (⟨b, impossible, -⟩ | ⟨-, cause, impossible⟩) <;> cases impossible

/-- Where an integer does not meet what is no number, the order does not matter. -/
theorem sameVerdict_of_level (inLeft : h.Inhabits p leftTy l) (inRight : h.Inhabits p rightTy r)
    (level : ¬Lopsided leftTy rightTy) (level' : ¬Lopsided rightTy leftTy) :
    SameVerdict (binary p h .eq l r leftTy rightTy) (binary p h .eq r l rightTy leftTy) := by
  cases floats : leftTy.isFloat || rightTy.isFloat with
  | true =>
    have floats' : (rightTy.isFloat || leftTy.isFloat) = true := by rw [Bool.or_comm, floats]
    rw [binary_of_numbers (.inl rfl) (by rw [floats, Bool.true_or]), floats,
      binary_of_numbers (.inl rfl) (by rw [floats', Bool.true_or]), floats']
    exact ofFault_floats_symmetric l r
  | false =>
    have floats' : (rightTy.isFloat || leftTy.isFloat) = false := by rw [Bool.or_comm, floats]
    have notFloat : leftTy ≠ .float ∧ rightTy ≠ .float := by
      refine ⟨?_, ?_⟩ <;> rintro rfl <;> simp [Ty.isFloat] at floats
    by_cases leftInt : leftTy = .int
    · have rightInt : rightTy = .int := by
        by_contra other
        exact level ⟨leftInt, other, notFloat.2⟩
      subst leftInt rightInt
      exact int_against_int inLeft inRight
    · have rightOther : rightTy ≠ .int := fun rightInt => level' ⟨rightInt, leftInt, notFloat.1⟩
      exact other_against_other inLeft inRight (by simp [floats, leftInt]) (by simp [floats', rightOther])

/-- Inequality is the opposite of equality, whatever is compared. -/
theorem unequal_opposite (p : Program) (h : Heap) (l r : Value) (leftTy rightTy : Ty) :
    OppositeVerdict (binary p h .eq l r leftTy rightTy) (binary p h .ne l r leftTy rightTy) := by
  cases numbers : leftTy.isFloat || rightTy.isFloat || decide (leftTy = .int) with
  | true =>
    rw [binary_of_numbers (.inl rfl) numbers, binary_of_numbers (.inr rfl) numbers]
    exact ofFault_verdict _ l r
  | false =>
    obtain ⟨equal, unequal⟩ := binary_of_others (p := p) (h := h) (l := l) (r := r) numbers
    exact .inl ⟨_, equal, unequal⟩

/-- Equality does not depend on the order of its operands, unless one of them is an integer and the other is
no number: then it faults with the integer on the left, and with the integer on the right it is false.
Inequality is the negation of equality for any two operands, with the same fault. -/
theorem equality_symmetric (p : Program) (h : Heap) (l r : Value) (leftTy rightTy : Ty)
    (inLeft : h.Inhabits p leftTy l) (inRight : h.Inhabits p rightTy r) :
    (SameVerdict (binary p h .eq l r leftTy rightTy) (binary p h .eq r l rightTy leftTy) ↔
      ¬Lopsided leftTy rightTy ∧ ¬Lopsided rightTy leftTy) ∧
    (Lopsided leftTy rightTy →
      binary p h .eq l r leftTy rightTy = .error (.fault (.typeMismatch "Int" r.typeName)) ∧
      binary p h .eq r l rightTy leftTy = .ok (.leaf (.bool false))) ∧
    OppositeVerdict (binary p h .eq l r leftTy rightTy) (binary p h .ne l r leftTy rightTy) := by
  refine ⟨⟨?_, ?_⟩, int_against_other inLeft inRight, unequal_opposite p h l r leftTy rightTy⟩
  · intro same
    exact ⟨fun lopsided => not_sameVerdict inLeft inRight lopsided same,
      fun lopsided => not_sameVerdict inRight inLeft lopsided same.symm⟩
  · rintro ⟨level, level'⟩
    exact sameVerdict_of_level inLeft inRight level level'

/-- A text is compared with `null` in either order, and an integer with `true` in one of them only. -/
theorem text_against_null :
    SameVerdict (binary default default .eq (.str "strand") .null .string .null)
      (binary default default .eq .null (.str "strand") .null .string) ∧
    binary default default .eq (.int 1) (.bool true) .int .bool =
      .error (.fault (.typeMismatch "Int" "Bool")) :=
  ⟨(equality_symmetric default default (.str "strand") .null .string .null trivial trivial).1.mpr
      ⟨(nomatch ·.1), (nomatch ·.1)⟩,
    ((equality_symmetric default default (.int 1) (.bool true) .int .bool trivial trivial).2.1
      ⟨rfl, Ty.noConfusion, Ty.noConfusion⟩).1⟩

/-- `1 == true` is a fault, and `true == 1` is false. -/
theorem one_against_true :
    (default : Heap).Inhabits default .int (.int 1) ∧ (default : Heap).Inhabits default .bool (.bool true) ∧
    ¬SameVerdict (binary default default .eq (.int 1) (.bool true) .int .bool)
      (binary default default .eq (.bool true) (.int 1) .bool .int) := by
  refine ⟨trivial, trivial, ?_⟩
  rintro (⟨b, impossible, -⟩ | ⟨-, cause, impossible⟩) <;> cases impossible

end Arith

end Strand
