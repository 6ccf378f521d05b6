import Mathlib.Data.Finset.Card
import Strand.Proofs.Alike.Objects

/-!
# The text of values alike

Values that are alike have the same text. No identity is written, and an object is on the path of the
one writer just if its counterpart is on the path of the other.

The two heaps need not have equally many objects, and so the writers may be allowed different depths. Both
depths are enough: the objects of a path exist and are distinct, so there are no more of them than objects.
-/

set_option autoImplicit false

namespace Strand

variable {known : Decl → Prop} {R : Pairing} {h h' : Heap} {p : Program}

/-! ## 1. Paths -/

/-- An object as a place. -/
def Address.place : Address → Place
  | array a => .array a
  | record r => .record r

theorem Address.place_inj {x y : Address} : x.place = y.place ↔ x = y := by
  cases x <;> cases y <;> simp [place]

/-- The number of an object among all, the arrays first. -/
def Address.number (h : Heap) : Address → Nat
  | array a => a.index
  | record r => h.arrays.size + r.index

/-- An object that exists. -/
def Address.Exists (h : Heap) : Address → Prop
  | array a => a.index < h.arrays.size
  | record r => r.index < h.records.size

theorem Address.number_lt {x : Address} (here : x.Exists h) : x.number h < h.size := by
  cases x <;> simp only [Exists, number, Heap.size] at * <;> omega

theorem Address.number_inj {x y : Address} (here : x.Exists h) (there : y.Exists h)
    (same : x.number h = y.number h) : x = y := by
  cases x <;> cases y <;> simp only [Exists, number] at *
  · exact congrArg array (congrArg ArrayId.mk same)
  · omega
  · omega
  · exact congrArg record (congrArg RecordId.mk (by omega))

/-- A depth that is enough for a writer with a path. -/
structure Enough (h : Heap) (depth : Nat) (path : List Address) : Prop where
  distinct : path.Nodup
  exist : ∀ x ∈ path, x.Exists h
  deep : h.size ≤ depth + path.length

/-- A writer that is inside of no object needs no more depth than there are objects. -/
theorem enough_size (h : Heap) : Enough h h.size [] :=
  ⟨List.nodup_nil, nofun, Nat.le_add_right _ _⟩

/-- There are no more objects on a path than there are objects. -/
theorem length_le_of_nodup {path : List Address} (distinct : path.Nodup)
    (exist : ∀ x ∈ path, x.Exists h) : path.length ≤ h.size := by
  have numbers : (path.map (Address.number h)).Nodup :=
    distinct.map_on fun x inside y inside' => Address.number_inj (exist x inside) (exist y inside')
  have bounded : (path.map (Address.number h)).toFinset ⊆ Finset.range h.size := by
    intro n member
    obtain ⟨x, inside, rfl⟩ := List.mem_map.mp (List.mem_toFinset.mp member)
    exact Finset.mem_range.mpr (Address.number_lt (exist x inside))
  have count := Finset.card_le_card bounded
  rwa [List.toFinset_card_of_nodup numbers, List.length_map, Finset.card_range] at count

theorem Enough.cons {depth : Nat} {path : List Address} {x : Address} (enough : Enough h depth path)
    (here : x.Exists h) (new : x ∉ path) :
    ∃ less, depth = less + 1 ∧ Enough h less (x :: path) := by
  have distinct : (x :: path).Nodup := List.nodup_cons.mpr ⟨new, enough.distinct⟩
  have exist : ∀ y ∈ x :: path, y.Exists h := List.forall_mem_cons.mpr ⟨here, enough.exist⟩
  have few := length_le_of_nodup distinct exist
  have deep := enough.deep
  rw [List.length_cons] at few
  obtain ⟨less, rfl⟩ := Nat.exists_eq_add_of_le' (show 1 ≤ depth by omega)
  exact ⟨less, rfl, distinct, exist, by rw [List.length_cons]; omega⟩

/-- What stands for what on two paths. -/
def Paths (R : Pairing) : List Address → List Address → Prop :=
  List.Forall₂ fun x x' => R x.place x'.place

theorem Paths.mem_iff {path path' : List Address} (paths : Paths R path path')
    (one : Relator.BiUnique R) {x x' : Address} (pair : R x.place x'.place) :
    x ∈ path ↔ x' ∈ path' := by
  induction paths with
  | nil => simp
  | @cons y y' _ _ first _ ih =>
    have same : x = y ↔ x' = y' := by
      rw [← Address.place_inj, ← Address.place_inj]
      exact ⟨fun same => one.2 pair (same ▸ first), fun same => one.1 pair (same ▸ first)⟩
    rw [List.mem_cons, List.mem_cons, same, ih]

/-! ## 2. Steps of writing -/

namespace Writer

variable {path path' : List Address} {m m' n n' : WriteM Unit}

/-- Two steps that write the same and leave the paths as they were. -/
def Same (path path' : List Address) (m m' : WriteM Unit) : Prop :=
  ∀ text, Agree (fun x x' => ∃ after, x = ((), ⟨after, path⟩) ∧ x' = ((), ⟨after, path'⟩))
    (m.run ⟨text, path⟩) (m'.run ⟨text, path'⟩)

theorem Same.put (s : String) : Same path path' (put s) (put s) :=
  fun text => .ok _ _ ⟨text ++ s, rfl, rfl⟩

theorem Same.pure : Same path path' (pure ()) (pure ()) := fun text => .ok _ _ ⟨text, rfl, rfl⟩

theorem Same.bind (first : Same path path' m m') (second : Same path path' n n') :
    Same path path' (m >>= fun _ => n) (m' >>= fun _ => n') := by
  intro text
  rw [StateT.run_bind, StateT.run_bind]
  refine (first text).bind fun x x' pair => ?_
  obtain ⟨after, rfl, rfl⟩ := pair
  exact second after

/-- What is read from the program is the same. -/
theorem Same.read {α : Type} (result : Except OutOfRange α) {f f' : α → WriteM Unit}
    (next : ∀ a, Same path path' (f a) (f' a)) :
    Same path path' (liftM result >>= f) (liftM result >>= f') := by
  intro text
  rw [StateT.run_bind, StateT.run_bind]
  cases result with
  | ok a => exact next a text
  | error e => exact .error e

theorem Same.separated {α β : Type} {write : α → WriteM Unit} {write' : β → WriteM Unit} {l : List α}
    {l' : List β} (each : List.Forall₂ (fun a b => Same path path' (write a) (write' b)) l l') :
    Same path path' (separated write l) (separated write' l') := by
  induction each with
  | nil => exact .pure
  | cons first rest ih =>
    cases rest with
    | nil => exact first
    | cons second rest => exact first.bind ((Same.put ", ").bind ih)

theorem run_enclosed_of_mem {x : Address} (inside : x ∈ path) (left right text : String) :
    (enclosed x left right m).run ⟨text, path⟩ = .ok ((), ⟨text ++ (left ++ "..." ++ right), path⟩) := by
  show StateT.run (if path.contains x = true then _ else _) _ = _
  rw [if_pos (List.contains_iff_mem.mpr inside)]
  rfl

theorem run_enclosed_of_not_mem {x : Address} (outside : x ∉ path) (left right text : String) :
    (enclosed x left right m).run ⟨text, path⟩ = (do
      let after ← m.run ⟨text ++ left, x :: path⟩
      return ((), ⟨after.2.text ++ right, after.2.path.tail⟩)) := by
  show StateT.run (if path.contains x = true then _ else _) _ = _
  rw [if_neg fun inside => outside (List.contains_iff_mem.mp inside)]
  rfl

theorem Same.enclosed {x x' : Address} (left right : String) (on : x ∈ path ↔ x' ∈ path')
    (body : x ∉ path → Same (x :: path) (x' :: path') m m') :
    Same path path' (enclosed x left right m) (enclosed x' left right m') := by
  intro text
  by_cases inside : x ∈ path
  · rw [run_enclosed_of_mem inside, run_enclosed_of_mem (on.mp inside)]
    exact .ok _ _ ⟨_, rfl, rfl⟩
  · rw [run_enclosed_of_not_mem inside, run_enclosed_of_not_mem fun there => inside (on.mpr there)]
    refine (body inside (text ++ left)).bind fun y y' pair => ?_
    obtain ⟨after, rfl, rfl⟩ := pair
    exact .ok _ _ ⟨_, rfl, rfl⟩

/-! ## 3. Values -/

theorem value_array (depth : Nat) (a : ArrayId) : ∃ body,
    value p h depth (.array a) = Writer.enclosed (.array a) "[" "]" body ∧
      ∀ less, depth = less + 1 ∨ (h.elements a).toList = [] →
        body = Writer.separated (value p h less) (h.elements a).toList := by
  cases depth with
  | zero =>
    refine ⟨_, rfl, fun less same => ?_⟩
    rw [same.resolve_left nofun]
    rfl
  | succ depth =>
    refine ⟨_, rfl, fun less same => ?_⟩
    obtain same | none := same
    · cases same
      rfl
    · rw [none]
      rfl

/-- The text of a field. -/
def field (p : Program) (h : Heap) (depth : Nat) (f : Name × Value) : WriteM Unit := do
  Writer.put (p.text f.1 ++ "=")
  value p h depth f.2

theorem value_struct (depth : Nat) (r : RecordId) : ∃ body,
    value p h depth (.struct r) = Writer.enclosed (.record r) "\x7b" "\x7d" body ∧
      ∀ less, depth = less + 1 ∨ (h.record r).fields = [] →
        body = Writer.separated (field p h less) (h.record r).fields := by
  cases depth with
  | zero =>
    refine ⟨_, rfl, fun less same => ?_⟩
    rw [same.resolve_left nofun]
    rfl
  | succ depth =>
    refine ⟨_, rfl, fun less same => ?_⟩
    obtain same | none := same
    · cases same
      rfl
    · rw [none]
      rfl

theorem Same.value (like : h.Like known R h') (one : Relator.BiUnique R) {depth depth' : Nat}
    (paths : Paths R path path') (enough : Enough h depth path) (enough' : Enough h' depth' path')
    {v v' : Value} (alike : v.Like known R v') :
    Same path path' (value p h depth v) (value p h' depth' v') := by
  induction depth using Nat.strongRecOn generalizing depth' path path' v v' with
  | ind depth ih =>
    cases alike with
    | int | float | bool | str | null | void => cases depth <;> cases depth' <;> exact .put _
    | function d | type d =>
      cases depth <;> cases depth' <;> exact .read (p.declName d) fun s => .put s
    | constructor n =>
      cases depth <;> cases depth' <;> exact .read (p.declName (.node n)) fun s => .put ("$" ++ s)
    | array a a' pair =>
      obtain ⟨es, es', found, found', -⟩ := like.arrays a a' pair
      have here : (Address.array a).Exists h := (Array.getElem?_eq_some_iff.mp found).1
      have here' : (Address.array a').Exists h' := (Array.getElem?_eq_some_iff.mp found').1
      have longer : Paths R (.array a :: path) (.array a' :: path') := .cons pair paths
      have on : Address.array a ∈ path ↔ Address.array a' ∈ path' := paths.mem_iff one pair
      obtain ⟨body, unfolds, inner⟩ := value_array (p := p) (h := h) depth a
      obtain ⟨body', unfolds', inner'⟩ := value_array (p := p) (h := h') depth' a'
      rw [unfolds, unfolds']
      refine .enclosed _ _ on fun new => ?_
      obtain ⟨less, rfl, deeper⟩ := enough.cons here new
      obtain ⟨less', rfl, deeper'⟩ := enough'.cons here' fun there => new (on.mpr there)
      rw [inner less (.inl rfl), inner' less' (.inl rfl)]
      exact .separated ((like.elements pair).imp fun v v' alike =>
        ih less (Nat.lt_succ_self _) longer deeper deeper' alike)
    | struct r r' pair =>
      obtain ⟨o, o', found, found', -⟩ := like.records r r' pair
      have here : (Address.record r).Exists h := (Array.getElem?_eq_some_iff.mp found).1
      have here' : (Address.record r').Exists h' := (Array.getElem?_eq_some_iff.mp found').1
      have longer : Paths R (.record r :: path) (.record r' :: path') := .cons pair paths
      have on : Address.record r ∈ path ↔ Address.record r' ∈ path' := paths.mem_iff one pair
      obtain ⟨body, unfolds, inner⟩ := value_struct (p := p) (h := h) depth r
      obtain ⟨body', unfolds', inner'⟩ := value_struct (p := p) (h := h') depth' r'
      rw [unfolds, unfolds']
      refine .enclosed _ _ on fun new => ?_
      obtain ⟨less, rfl, deeper⟩ := enough.cons here new
      obtain ⟨less', rfl, deeper'⟩ := enough'.cons here' fun there => new (on.mpr there)
      rw [inner less (.inl rfl), inner' less' (.inl rfl)]
      refine .separated ((like.record pair).fields.imp fun f f' alike => ?_)
      unfold field
      rw [alike.1]
      exact (Same.put _).bind (ih less (Nat.lt_succ_self _) longer deeper deeper' alike.2)

end Writer

/-- Values that are alike have the same text. -/
theorem render_like (like : h.Like known R h') (one : Relator.BiUnique R) {v v' : Value}
    (alike : v.Like known R v') : render p h v = render p h' v' := by
  have writes := Writer.Same.value (p := p) like one .nil (enough_size h) (enough_size h') alike ""
  unfold render
  generalize StateT.run (Writer.value p h h.size v) ⟨"", []⟩ = x at writes
  generalize StateT.run (Writer.value p h' h'.size v') ⟨"", []⟩ = x' at writes
  cases writes with
  | ok y y' pair =>
    obtain ⟨after, rfl, rfl⟩ := pair
    rfl
  | error e => rfl

/-! ## 4. Binary operators -/

namespace Arith

variable {l l' r r' : Value}

theorem concat_like (like : h.Like known R h') (one : Relator.BiUnique R) (left : l.Like known R l')
    (right : r.Like known R r') : concat p h l r = concat p h' l' r' := by
  simp only [concat, render_like like one left, render_like like one right]

/-- On values alike, a binary operator ends alike, and without new identities. -/
theorem binary_like (like : h.Like known R h') (one : Relator.BiUnique R) (op : BinaryOp)
    (left : l.Like known R l') (right : r.Like known R r') (leftTy rightTy : Ty) :
    binary p h op l r leftTy rightTy = binary p h' op l' r' leftTy rightTy := by
  simp only [binary, concat_like like one left right, numericOp_like op _ left right,
    equals_like one left right leftTy, left.typeName]
  have first := expectArray_like left
  have second := expectArray_like right
  generalize expectArray l = x at first
  generalize expectArray l' = x' at first
  generalize expectArray r = y at second
  generalize expectArray r' = y' at second
  cases first with
  | error e => rfl
  | ok a a' pair =>
    cases second with
    | error e => rfl
    | ok b b' pair' => simp only [Abort.ofFault, bind, Except.bind, elementwise_like like op _ pair pair']

theorem scalar_of_binary {op : BinaryOp} {leftTy rightTy : Ty} {nest : Nest}
    (result : binary p h op l r leftTy rightTy = .ok nest) : nest.Scalar := by
  simp only [binary] at result
  split at result
  · obtain ⟨s, -, result⟩ := of_bind_eq_ok result
    obtain ⟨s', -, result⟩ := of_bind_eq_ok result
    cases result
    exact .leaf _ (.str _)
  · split at result
    · obtain ⟨v, computed, rfl⟩ := of_map_eq_ok (of_ofFault_eq_ok result)
      exact .leaf v (scalar_of_numericOp computed)
    · split at result
      · obtain ⟨a, -, result⟩ := of_bind_eq_ok result
        obtain ⟨b, -, result⟩ := of_bind_eq_ok result
        exact scalar_of_combineTo result
      · split at result <;> cases result <;> exact .leaf _ (.bool _)

end Arith

end Strand
