import Mathlib.Data.List.Forall2
import Mathlib.Logic.Relator
import Strand.Thread.Step

/-!
# Values alike

Two runs of a program may hold the same objects under different identities. A `Pairing` says which frame
or object of one stands for which of the other, and two values are alike if they are the same scalar, the
same declaration, or objects that stand for each other.

What an operator does with scalars does not depend on identities, so on values that are alike it gives
the very same results. Whatever takes objects apart gives results that `Agree`: both succeed, and with
what stands for each other, or both end in the same way.
-/

set_option autoImplicit false

namespace Strand

/-! ## 1. What stands for what -/

/-- The identity of a frame or of an object. -/
inductive Place where
  | frame (f : FrameId)
  | array (a : ArrayId)
  | record (r : RecordId)
deriving DecidableEq

/-- Which place of one world stands for which of another. -/
abbrev Pairing := Place → Place → Prop

/-- Two values that are the same if identities are left aside. Of functions only those count that are
known. -/
inductive Value.Like (known : Decl → Prop) (R : Pairing) : Value → Value → Prop
  | int (n : Int64) : Like known R (.int n) (.int n)
  | float (x : Float) : Like known R (.float x) (.float x)
  | bool (b : Bool) : Like known R (.bool b) (.bool b)
  | str (s : String) : Like known R (.str s) (.str s)
  | null : Like known R .null .null
  | void : Like known R .void .void
  | array (a a' : ArrayId) (pair : R (.array a) (.array a')) : Like known R (.array a) (.array a')
  | struct (r r' : RecordId) (pair : R (.record r) (.record r')) :
      Like known R (.struct r) (.struct r')
  | function (d : Decl) (knows : known d) : Like known R (.function d) (.function d)
  | type (d : Decl) : Like known R (.type d) (.type d)
  | constructor (struct : NodeId) : Like known R (.constructor struct) (.constructor struct)

/-- A value that has no identity: it is like itself where nothing stands for anything. -/
def Value.Scalar (v : Value) : Prop := v.Like (fun _ => False) (fun _ _ => False) v

namespace Value.Like

variable {known known' : Decl → Prop} {R R' : Pairing} {v v' w w' : Value}

theorem mono (h : v.Like known R v') (knows : ∀ d, known d → known' d)
    (more : ∀ x x', R x x' → R' x x') : v.Like known' R' v' := by
  cases h with
  | array a a' pair => exact .array a a' (more _ _ pair)
  | struct r r' pair => exact .struct r r' (more _ _ pair)
  | function d here => exact .function d (knows d here)
  | _ => constructor

theorem ofScalar (scalar : v.Scalar) : v.Like known R v := scalar.mono (fun _ => False.elim) nofun

theorem typeName (h : v.Like known R v') : v.typeName = v'.typeName := by cases h <;> rfl

theorem asBool? (h : v.Like known R v') : v.asBool? = v'.asBool? := by cases h <;> rfl

theorem asInt? (h : v.Like known R v') : v.asInt? = v'.asInt? := by cases h <;> rfl

theorem asFloat? (h : v.Like known R v') : v.asFloat? = v'.asFloat? := by cases h <;> rfl

theorem widen (h : v.Like known R v') (ty : Ty) : (v.widen ty).Like known R (v'.widen ty) := by
  cases h with
  | int n => cases ty <;> constructor
  | array a a' pair => exact .array a a' pair
  | struct r r' pair => exact .struct r r' pair
  | function d knows => exact .function d knows
  | _ => constructor

/-- Objects that stand for each other one to one are the same on both sides or on none. -/
theorem sameReference (one : Relator.BiUnique R) (h : v.Like known R v') (h' : w.Like known R w') :
    v.sameReference w = v'.sameReference w' := by
  have same : ∀ {x x' y y'}, R x x' → R y y' → (x = y ↔ x' = y') := fun pair pair' =>
    ⟨fun same => one.2 pair (same ▸ pair'), fun same => one.1 pair (same ▸ pair')⟩
  cases h with
  | array a a' pair =>
    cases h' with
    | array b b' pair' =>
      exact Bool.eq_iff_iff.mpr (by simpa [Value.sameReference] using same pair pair')
    | _ => rfl
  | struct r r' pair =>
    cases h' with
    | struct s s' pair' =>
      exact Bool.eq_iff_iff.mpr (by simpa [Value.sameReference] using same pair pair')
    | _ => rfl
  | _ => cases h' <;> rfl

theorem primitiveEq (one : Relator.BiUnique R) (h : v.Like known R v') (h' : w.Like known R w') :
    v.primitiveEq w = v'.primitiveEq w' := by
  have reference := sameReference one h h'
  cases h <;> cases h' <;> first | rfl | exact reference

end Value.Like

/-! ## 2. Results that agree -/

/-- Two computations that give what stands for each other, or end alike. -/
inductive Agree {ε α β : Type} (r : α → β → Prop) : Except ε α → Except ε β → Prop
  | ok (a : α) (b : β) (pair : r a b) : Agree r (.ok a) (.ok b)
  | error (e : ε) : Agree r (.error e) (.error e)

namespace Agree

variable {ε α β γ δ : Type} {r : α → β → Prop} {q : γ → δ → Prop}

theorem ofEq {x y : Except ε α} (same : x = y) : Agree (fun a b => a = b) x y := by
  subst same
  cases x with
  | ok a => exact .ok a a rfl
  | error e => exact .error e

theorem bind {x : Except ε α} {y : Except ε β} {f : α → Except ε γ} {g : β → Except ε δ}
    (h : Agree r x y) (next : ∀ a b, r a b → Agree q (f a) (g b)) : Agree q (x >>= f) (y >>= g) := by
  cases h with
  | ok a b pair => exact next a b pair
  | error e => exact .error e

theorem mapM {f : α → Except ε γ} {g : β → Except ε δ} {l : List α} {l' : List β}
    (h : List.Forall₂ r l l') (each : ∀ a b, r a b → Agree q (f a) (g b)) :
    Agree (List.Forall₂ q) (l.mapM f) (l'.mapM g) := by
  induction h with
  | nil => exact .ok _ _ .nil
  | cons pair _ ih =>
    simp only [List.mapM_cons]
    exact (each _ _ pair).bind fun c d first => ih.bind fun cs ds rest => .ok _ _ (.cons first rest)

theorem ofFault {x : Except Cause α} {y : Except Cause β} (h : Agree r x y) :
    Agree r (Abort.ofFault x) (Abort.ofFault y) := by
  cases h with
  | ok a b pair => exact .ok a b pair
  | error e => exact .error _

theorem ofRead {x : Except OutOfRange α} {y : Except OutOfRange β} (h : Agree r x y) :
    Agree r (Abort.ofRead x) (Abort.ofRead y) := by
  cases h with
  | ok a b pair => exact .ok a b pair
  | error e => exact .error _

end Agree

/-! ## 3. Operators on scalars -/

/-- Values in nested rows, none of which has an identity. -/
inductive Nest.Scalar : Nest → Prop
  | leaf (v : Value) (scalar : v.Scalar) : Scalar (.leaf v)
  | row (elements : List Nest) (scalar : ∀ n ∈ elements, n.Scalar) : Scalar (.row elements)

namespace Arith

variable {known : Decl → Prop} {R : Pairing} {l l' r r' v v' : Value}

theorem expectBool_like (h : v.Like known R v') : expectBool v = expectBool v' := by
  simp only [expectBool, h.asBool?, h.typeName]

theorem expectInt_like (h : v.Like known R v') : expectInt v = expectInt v' := by
  simp only [expectInt, h.asInt?, h.typeName]

theorem expectNumber_like (h : v.Like known R v') : expectNumber v = expectNumber v' := by
  simp only [expectNumber, h.asFloat?, h.typeName]

theorem expectArray_like (h : v.Like known R v') :
    Agree (fun a a' => R (.array a) (.array a')) (expectArray v) (expectArray v') := by
  cases h with
  | array a a' pair => exact .ok a a' pair
  | null => exact .error _
  | _ => exact .error _

theorem numericOp_like (op : BinaryOp) (floating : Bool) (h : l.Like known R l')
    (h' : r.Like known R r') : numericOp op floating l r = numericOp op floating l' r' := by
  simp only [numericOp, expectNumber_like h, expectNumber_like h', expectInt_like h, expectInt_like h']

/-- An operator on numbers gives a number or a truth value. -/
theorem scalar_of_floatOp {op : BinaryOp} {x y : Float} (result : floatOp op x y = .ok v) :
    v.Scalar := by
  cases op <;> cases result <;> constructor

theorem scalar_of_intOp {op : BinaryOp} {m n : Int64} (result : intOp op m n = .ok v) : v.Scalar := by
  cases op with
  | div | rem =>
    simp only [intOp] at result
    split at result
    · cases result
    · cases result
      constructor
  | _ => cases result <;> constructor

theorem scalar_of_numericOp {op : BinaryOp} {floating : Bool}
    (result : numericOp op floating l r = .ok v) : v.Scalar := by
  cases floating with
  | true =>
    obtain ⟨x, -, result⟩ := of_bind_eq_ok result
    obtain ⟨y, -, result⟩ := of_bind_eq_ok result
    exact scalar_of_floatOp result
  | false =>
    obtain ⟨m, -, result⟩ := of_bind_eq_ok result
    obtain ⟨n, -, result⟩ := of_bind_eq_ok result
    exact scalar_of_intOp result

theorem equals_like (one : Relator.BiUnique R) (h : l.Like known R l') (h' : r.Like known R r')
    (ty : Ty) : equals l r ty = equals l' r' ty := by
  simp only [equals, h.primitiveEq one h', h.sameReference one h']

end Arith

theorem checkIndex_like {known : Decl → Prop} {R : Pairing} {v v' : Value} (h : v.Like known R v') :
    checkIndex v = checkIndex v' := by
  simp only [checkIndex, Arith.expectInt_like h]

end Strand
