import Mathlib.Logic.Relation
import Strand.Proofs.Alike.Text

/-!
# The text of a value is that of its unfolding

A value unfolds to a tree: an array to its elements, an instance to the values of its fields, and these unfold
in turn. An object that one is already inside of is not entered again, so the tree is finite even where
objects reach themselves. The tree is given by rules, without a bound on its depth (`Unfolds`), and each value
has exactly one. Its text is put together from the texts of its parts (`Unfolding.text`).

The writer goes through the objects instead, puts one piece of text after the other, and keeps its path on the
way. What it appends is the text of the tree, and it leaves the path as it found it (`renders_unfolding`). The
depth that it is allowed does not matter: a path has distinct objects, so the writer never gets that deep.
-/

set_option autoImplicit false

namespace Strand

open Relation (ReflTransGen TransGen)

/-! ## 1. The unfolding of a value -/

/-- The object that a value refers to. -/
def Value.address? : Value → Option Address
  | array a => some (.array a)
  | struct r => some (.record r)
  | _ => none

/-- How the parts of an object are written: in a row, or each with the name of its field. -/
inductive Layout where
  | row
  | fields (names : List Name)

namespace Heap

/-- The values in an object, in their order. -/
def contents (h : Heap) : Address → List Value
  | .array a => (h.elements a).toList
  | .record r => (h.record r).fields.map Prod.snd

def layout (h : Heap) : Address → Layout
  | .array _ => .row
  | .record r => .fields ((h.record r).fields.map Prod.fst)

/-- One object is in another. -/
def Contains (h : Heap) (x y : Address) : Prop := ∃ v ∈ h.contents x, v.address? = some y

/-- No object that a value reaches reaches itself. -/
def NoCycle (h : Heap) (v : Value) : Prop :=
  ∀ x y, v.address? = some x → ReflTransGen h.Contains x y → ¬ TransGen h.Contains y y

end Heap

/-- A value with what it unfolds to. A leaf is a scalar, or an object that is not entered. -/
inductive Unfolding where
  | leaf (v : Value)
  | object (layout : Layout) (parts : List Unfolding)

/-- The unfolding of a value inside the objects on a path. An object on the path is not entered, and every
other one is. -/
inductive Unfolds (h : Heap) : List Address → Value → Unfolding → Prop
  | scalar {path : List Address} {v : Value} (scalar : v.address? = none) : Unfolds h path v (.leaf v)
  | again {path : List Address} {v : Value} {x : Address} (object : v.address? = some x)
    (inside : x ∈ path) : Unfolds h path v (.leaf v)
  | enter {path : List Address} {v : Value} {x : Address} {parts : List Unfolding}
    (object : v.address? = some x) (outside : x ∉ path) (length : parts.length = (h.contents x).length)
    (each : ∀ (i : Nat) (w : Value) (t : Unfolding), (h.contents x)[i]? = some w → parts[i]? = some t →
      Unfolds h (x :: path) w t) :
    Unfolds h path v (.object (h.layout x) parts)

/-- The unfolding of a value by plain recursion: every object is entered wherever it occurs. -/
inductive Structural (h : Heap) : Value → Unfolding → Prop
  | scalar {v : Value} (scalar : v.address? = none) : Structural h v (.leaf v)
  | enter {v : Value} {x : Address} {parts : List Unfolding} (object : v.address? = some x)
    (length : parts.length = (h.contents x).length)
    (each : ∀ (i : Nat) (w : Value) (t : Unfolding), (h.contents x)[i]? = some w → parts[i]? = some t →
      Structural h w t) :
    Structural h v (.object (h.layout x) parts)

variable {h : Heap} {p : Program} {path : List Address} {v w : Value} {t t' : Unfolding}

/-- A value has one unfolding. -/
theorem Unfolds.unique (one : Unfolds h path v t) (other : Unfolds h path v t') : t = t' := by
  induction one generalizing t' with
  | scalar scalar =>
    cases other with
    | scalar | again => rfl
    | enter object => cases scalar.symm.trans object
  | again object inside =>
    cases other with
    | scalar | again => rfl
    | enter object' outside =>
      cases object.symm.trans object'
      exact absurd inside outside
  | enter object outside length each ih =>
    cases other with
    | scalar scalar => cases scalar.symm.trans object
    | again object' inside =>
      cases object.symm.trans object'
      exact absurd inside outside
    | enter object' outside' length' each' =>
      cases object.symm.trans object'
      refine congrArg (Unfolding.object _) (List.ext_getElem (length.trans length'.symm) ?_)
      intro i inside inside'
      have value := List.getElem?_eq_getElem (length ▸ inside)
      exact ih i _ _ value (List.getElem?_eq_getElem inside)
        (each' i _ _ value (List.getElem?_eq_getElem inside'))

/-- No object that a value reaches reaches itself, and each one on the path reaches the value. -/
structure Clear (h : Heap) (path : List Address) (v : Value) : Prop where
  acyclic : h.NoCycle v
  around : ∀ x ∈ path, ∀ y, v.address? = some y → TransGen h.Contains x y

theorem Clear.outside {x : Address} (clear : Clear h path v) (object : v.address? = some x) : x ∉ path :=
  fun inside => clear.acyclic x x object .refl (clear.around x inside x object)

theorem Clear.enter {x : Address} (clear : Clear h path v) (object : v.address? = some x)
    (member : w ∈ h.contents x) : Clear h (x :: path) w := by
  have held : ∀ y, w.address? = some y → h.Contains x y := fun y there => ⟨w, member, there⟩
  constructor
  · intro y z there reaches
    exact clear.acyclic x z object (.head (held y there) reaches)
  · intro z inside y there
    rcases List.mem_cons.mp inside with rfl | inside
    · exact .single (held y there)
    · exact (clear.around z inside x object).tail (held y there)

/-- Where no object reaches itself, the path has no part in the unfolding. -/
theorem Clear.structural_iff (clear : Clear h path v) : Structural h v t ↔ Unfolds h path v t := by
  constructor
  · intro structural
    induction structural generalizing path with
    | scalar scalar => exact .scalar scalar
    | enter object length each ih =>
      refine .enter object (clear.outside object) length fun i w t value part => ?_
      exact ih i w t value part (clear.enter object (List.mem_of_getElem? value))
  · intro unfolds
    induction unfolds with
    | scalar scalar => exact .scalar scalar
    | again object inside => exact absurd inside (clear.outside object)
    | enter object outside length each ih =>
      refine .enter object length fun i w t value part => ?_
      exact ih i w t value part (clear.enter object (List.mem_of_getElem? value))

/-! ## 2. The text of an unfolding -/

/-- The text of a value by itself. That of an object is its ellipsis. -/
def Value.word (p : Program) : Value → Except OutOfRange String
  | int n => .ok (toString n)
  | float x => .ok (Decimal.floatText x)
  | bool b => .ok (if b then "true" else "false")
  | str s => .ok s
  | null | void => .ok "null"
  | function d | type d => p.declName d
  | constructor n => (p.declName (.node n)).map ("$" ++ ·)
  | array _ => .ok "[...]"
  | struct _ => .ok "\x7b...\x7d"

/-- The texts of the parts of an object between its brackets: `[e₁, e₂, …]` or `\x7bf₁=v₁, f₂=v₂, …\x7d`. -/
def Layout.join (p : Program) : Layout → List String → String
  | row, parts => "[" ++ ", ".intercalate parts ++ "]"
  | fields names, parts =>
    "\x7b" ++ ", ".intercalate (names.zipWith (fun name part => p.text name ++ "=" ++ part) parts) ++ "\x7d"

namespace Unfolding

mutual

/-- The text of an unfolding. There is none if the name of a declaration in it cannot be read. -/
def text (p : Program) : Unfolding → Except OutOfRange String
  | leaf v => v.word p
  | object layout parts => (texts p parts).map (layout.join p)

/-- The texts of several unfoldings. -/
def texts (p : Program) : List Unfolding → Except OutOfRange (List String)
  | [] => .ok []
  | t :: rest => do
    let first ← text p t
    let others ← texts p rest
    return first :: others

end

mutual

/-- The values at the leaves, from left to right. -/
def leaves : Unfolding → List Value
  | leaf v => [v]
  | object _ parts => allLeaves parts

/-- The values at the leaves of several unfoldings. -/
def allLeaves : List Unfolding → List Value
  | [] => []
  | t :: rest => leaves t ++ allLeaves rest

end

mutual

/-- An unfolding has a text if each of its leaves has a word. -/
theorem exists_text_iff (p : Program) :
    ∀ t : Unfolding, (∃ s, t.text p = .ok s) ↔ ∀ v ∈ t.leaves, ∃ s, v.word p = .ok s
  | leaf v => by simp [text, leaves]
  | object layout parts => by
    rw [leaves, ← exists_texts_iff p parts, text]
    cases texts p parts <;> simp [Except.map]

theorem exists_texts_iff (p : Program) :
    ∀ parts, (∃ s, texts p parts = .ok s) ↔ ∀ v ∈ allLeaves parts, ∃ s, v.word p = .ok s
  | [] => by simp [texts, allLeaves]
  | t :: rest => by
    simp only [allLeaves, List.forall_mem_append, ← exists_text_iff p t, ← exists_texts_iff p rest, texts]
    cases text p t <;> cases texts p rest <;> simp [bind, Except.bind, pure, Except.pure]

end

/-- The names are put before the texts of the parts when these are known. -/
theorem labelled_texts (p : Program) {names : List Name} {parts : List Unfolding}
    (length : names.length = parts.length) :
    (names.zipWith (fun name t => (text p t).map (p.text name ++ "=" ++ ·)) parts).mapM id =
      (texts p parts).map (names.zipWith fun name part => p.text name ++ "=" ++ part) := by
  induction names generalizing parts with
  | nil =>
    cases parts with
    | nil => rfl
    | cons t rest => cases length
  | cons name names ih =>
    cases parts with
    | nil => cases length
    | cons t rest =>
      simp only [List.zipWith_cons_cons, List.mapM_cons, texts, ih (Nat.succ.inj length), id]
      cases text p t with
      | error e => rfl
      | ok first => cases texts p rest <;> rfl

theorem texts_eq (p : Program) (parts : List Unfolding) :
    texts p parts = (parts.map (text p)).mapM id := by
  induction parts with
  | nil => rfl
  | cons t rest ih => simp only [List.map_cons, List.mapM_cons, texts, ih, id]

end Unfolding

/-! ## 3. Writing -/

namespace Writer

variable {m n : WriteM Unit} {first second : Except OutOfRange String} {depth : Nat}

/-- A step of writing that appends a text, or ends with the error instead, and leaves the path as it was. -/
def Writes (path : List Address) (m : WriteM Unit) (result : Except OutOfRange String) : Prop :=
  ∀ text, m.run ⟨text, path⟩ = result.map fun s => ((), ⟨text ++ s, path⟩)

theorem Writes.put (s : String) : Writes path (put s) (.ok s) := fun _ => rfl

theorem Writes.nothing : Writes path (pure ()) (.ok "") := by
  intro text
  rw [Except.map, String.append_empty]
  rfl

theorem Writes.bind (one : Writes path m first) (other : Writes path n second) :
    Writes path (m >>= fun _ => n) (do
      let s ← first
      let s' ← second
      return s ++ s') := by
  intro text
  rw [StateT.run_bind, one text]
  cases first with
  | error e => rfl
  | ok s =>
    show n.run ⟨text ++ s, path⟩ = _
    rw [other (text ++ s)]
    cases second with
    | error e => rfl
    | ok s' => simp [Except.map, bind, Except.bind, pure, Except.pure, String.append_assoc]

/-- What is written after a text that is known. -/
theorem Writes.after (s : String) (other : Writes path n second) :
    Writes path (Writer.put s >>= fun _ => n) (second.map (s ++ ·)) := by
  have both := (Writes.put s).bind other
  cases second <;> exact both

theorem Writes.read (result : Except OutOfRange String) (f : String → String) :
    Writes path (liftM result >>= fun s => Writer.put (f s)) (result.map f) := by
  intro text
  cases result <;> rfl

theorem Writes.separated {α : Type} {write : α → WriteM Unit} {items : List α}
    {results : List (Except OutOfRange String)}
    (each : List.Forall₂ (fun x r => Writes path (write x) r) items results) :
    Writes path (Writer.separated write items) ((results.mapM id).map (", ".intercalate ·)) := by
  induction each with
  | nil => exact .nothing
  | @cons x r items results first rest ih =>
    rw [List.mapM_cons]
    intro text
    cases rest with
    | nil =>
      rw [Writer.separated, first text]
      cases r with
      | error e => rfl
      | ok s =>
        show _ = Except.ok ((), (⟨text ++ ", ".intercalate [s], path⟩ : Writer))
        rw [String.intercalate_singleton]
        rfl
    | @cons y r' items results second rest =>
      have whole := first.bind (Writes.after ", " ih) text
      rw [List.mapM_cons] at whole ⊢
      refine whole.trans ?_
      cases r with
      | error e => rfl
      | ok s =>
        cases r' with
        | error e => rfl
        | ok s' =>
          generalize results.mapM id = result
          cases result with
          | error e => rfl
          | ok others =>
            show Except.ok ((), (⟨text ++ (s ++ (", " ++ ", ".intercalate (s' :: others))), path⟩ : Writer)) =
              Except.ok ((), ⟨text ++ ", ".intercalate (s :: s' :: others), path⟩)
            rw [String.intercalate_cons_cons, String.append_assoc]

theorem Writes.enclosed {x : Address} {parts : Except OutOfRange (List String)} (left right : String)
    (outside : x ∉ path) (body : Writes (x :: path) m (parts.map (", ".intercalate ·))) :
    Writes path (Writer.enclosed x left right m)
      (parts.map fun parts => left ++ ", ".intercalate parts ++ right) := by
  intro text
  rw [run_enclosed_of_not_mem outside, body]
  cases parts with
  | error e => rfl
  | ok parts =>
    show Except.ok ((), (⟨text ++ left ++ ", ".intercalate parts ++ right, path⟩ : Writer)) =
      Except.ok ((), ⟨text ++ (left ++ ", ".intercalate parts ++ right), path⟩)
    simp only [String.append_assoc]

/-- A scalar is written as its word. -/
theorem writes_scalar (scalar : v.address? = none) : Writes path (value p h depth v) (v.word p) := by
  cases v with
  | array a => cases scalar
  | struct r => cases scalar
  | int | float | bool | str | null | void => cases depth <;> exact .put _
  | function d | type d =>
    have read : Writes path _ _ := Writes.read (p.declName d) id
    have same : (p.declName d).map id = p.declName d := by cases p.declName d <;> rfl
    rw [same] at read
    cases depth <;> exact read
  | constructor n => cases depth <;> exact .read _ _

/-- An object on the path is written as its ellipsis. -/
theorem writes_again {x : Address} (object : v.address? = some x) (inside : x ∈ path) :
    Writes path (value p h depth v) (v.word p) := by
  intro text
  cases v with
  | array a =>
    obtain ⟨body, enclosed, -⟩ := value_array (p := p) (h := h) depth a
    cases object
    rw [enclosed, run_enclosed_of_mem inside]
    rfl
  | struct r =>
    obtain ⟨body, enclosed, -⟩ := value_struct (p := p) (h := h) depth r
    cases object
    rw [enclosed, run_enclosed_of_mem inside]
    rfl
  | _ => cases object

/-- Parts that are written as their unfoldings are. -/
def Shows (p : Program) (h : Heap) (depth : Nat) (path : List Address) (v : Value) (t : Unfolding) : Prop :=
  Unfolds h path v t ∧ Writes path (value p h depth v) (t.text p)

/-- A field is written as its name before its value. -/
theorem writes_fields {fields : List (Name × Value)} {parts : List Unfolding}
    (shows : List.Forall₂ (Shows p h depth path) (fields.map Prod.snd) parts) :
    List.Forall₂ (fun f result => Writes path (field p h depth f) result) fields
      ((fields.map Prod.fst).zipWith (fun name t => (Unfolding.text p t).map (p.text name ++ "=" ++ ·))
        parts) := by
  induction fields generalizing parts with
  | nil => exact .nil
  | cons f fields ih =>
    cases shows with
    | cons first rest => exact .cons (.after (p.text f.1 ++ "=") first.2) (ih rest)

/-- An object off the path is written as the texts of its parts between brackets. -/
theorem writes_object {x : Address} {less : Nat} {parts : List Unfolding} (object : v.address? = some x)
    (outside : x ∉ path) (deeper : depth = less + 1 ∨ h.contents x = [])
    (shows : List.Forall₂ (Shows p h less (x :: path)) (h.contents x) parts) :
    Writes path (value p h depth v) ((Unfolding.object (h.layout x) parts).text p) := by
  cases v with
  | array a =>
    cases object
    obtain ⟨body, enclosed, inner⟩ := value_array (p := p) (h := h) depth a
    have each : List.Forall₂ (fun v r => Writes (.array a :: path) (value p h less v) r)
        (h.elements a).toList (parts.map (Unfolding.text p)) :=
      List.forall₂_map_right_iff.mpr (shows.imp fun v t shows => shows.2)
    rw [enclosed, inner less deeper, Unfolding.text, Unfolding.texts_eq]
    exact .enclosed "[" "]" outside (.separated each)
  | struct r =>
    cases object
    obtain ⟨body, enclosed, inner⟩ := value_struct (p := p) (h := h) depth r
    have length : ((h.record r).fields.map Prod.fst).length = parts.length := by
      have := shows.length_eq
      simpa [Heap.contents] using this
    have each : List.Forall₂ (fun f result => Writes (.record r :: path) (field p h less f) result)
        (h.record r).fields (((h.record r).fields.map Prod.fst).zipWith
          (fun name t => (Unfolding.text p t).map (p.text name ++ "=" ++ ·)) parts) :=
      writes_fields shows
    have deeper : depth = less + 1 ∨ (h.record r).fields = [] := by simpa [Heap.contents] using deeper
    have written := Writes.enclosed "\x7b" "\x7d" outside (.separated each)
    rw [Unfolding.labelled_texts p length] at written
    rw [enclosed, inner less deeper, Unfolding.text]
    cases texts : Unfolding.texts p parts <;> rw [texts] at written <;> exact written
  | _ => cases object

/-- A writer that is allowed enough depth can enter an object that it is not in, unless that one is empty. -/
theorem exists_less {x : Address} (enough : Enough h depth path) (outside : x ∉ path) :
    ∃ less, (depth = less + 1 ∨ h.contents x = []) ∧ (h.contents x ≠ [] → Enough h less (x :: path)) := by
  by_cases here : x.Exists h
  · obtain ⟨less, deeper, enough⟩ := enough.cons here outside
    exact ⟨less, .inl deeper, fun _ => enough⟩
  · have empty : h.contents x = [] := by
      cases x with
      | array a => simp [Heap.contents, Heap.elements, Array.getElem?_eq_none (Nat.le_of_not_lt here)]
      | record r => simp [Heap.contents, Heap.record, Array.getElem?_eq_none (Nat.le_of_not_lt here)]
    exact ⟨0, .inr empty, fun full => absurd empty full⟩

/-- A writer that is allowed enough depth writes the unfolding. -/
theorem exists_shows (enough : Enough h depth path) (v : Value) : ∃ t, Shows p h depth path v t := by
  induction depth using Nat.strongRecOn generalizing path v with
  | ind depth ih =>
    cases object : v.address? with
    | none => exact ⟨.leaf v, .scalar object, writes_scalar object⟩
    | some x =>
      by_cases inside : x ∈ path
      · exact ⟨.leaf v, .again object inside, writes_again object inside⟩
      · obtain ⟨less, deeper, enough⟩ := exists_less enough inside
        obtain ⟨parts, shows⟩ : ∃ parts, List.Forall₂ (Shows p h less (x :: path)) (h.contents x) parts := by
          apply exists_forall₂
          intro w member
          have full : h.contents x ≠ [] := List.ne_nil_of_mem member
          have shorter : less < depth := by
            rcases deeper with rfl | empty
            · exact Nat.lt_succ_self less
            · exact absurd empty full
          exact ih less shorter (enough full) w
        refine ⟨.object (h.layout x) parts, .enter object inside shows.length_eq.symm ?_,
          writes_object object inside deeper shows⟩
        intro i w t value part
        have pair := getElem?_rel shows i
        rw [value, part] at pair
        cases pair with
        | some shows => exact shows.1

end Writer

/-! ## 4. The text -/

/-- The text of a value is that of its one unfolding. There is none only where the name of a declaration
cannot be read. If no object in it reaches itself, then its unfolding is the one by plain recursion. A writer
inside other objects appends such a text too, and its path is afterwards what it was. Any depth is enough that
leaves room for the objects outside the path. -/
theorem renders_unfolding (p : Program) (h : Heap) (v : Value) :
    (∃ t, Unfolds h [] v t ∧ (∀ t', Unfolds h [] v t' → t' = t) ∧ render p h v = t.text p ∧
      ((∃ s, render p h v = .ok s) ↔ ∀ w ∈ t.leaves, ∃ s, w.word p = .ok s) ∧
      (h.NoCycle v → ∀ t', Structural h v t' ↔ t' = t)) ∧
    ∀ depth path, Enough h depth path → ∃ t, Unfolds h path v t ∧ (∀ t', Unfolds h path v t' → t' = t) ∧
      ∀ text, (Writer.value p h depth v).run ⟨text, path⟩ =
        (t.text p).map fun s => ((), ⟨text ++ s, path⟩) := by
  constructor
  · obtain ⟨t, unfolds, writes⟩ := Writer.exists_shows (p := p) (enough_size h) v
    have same : render p h v = t.text p := by
      rw [render, writes ""]
      cases t.text p with
      | error e => rfl
      | ok s => exact congrArg Except.ok String.empty_append
    refine ⟨t, unfolds, fun t' other => other.unique unfolds, same, same ▸ t.exists_text_iff p, ?_⟩
    intro acyclic t'
    have clear : Clear h [] v := ⟨acyclic, nofun⟩
    rw [clear.structural_iff]
    exact ⟨fun other => other.unique unfolds, fun same => same ▸ unfolds⟩
  · intro depth path enough
    obtain ⟨t, unfolds, writes⟩ := Writer.exists_shows (p := p) enough v
    exact ⟨t, unfolds, fun t' other => other.unique unfolds, writes⟩

/-- What is shared is written twice, and what contains itself is cut off. -/
example (p : Program) :
    render p ⟨#[#[.array ⟨1⟩, .array ⟨1⟩, .array ⟨0⟩], #[.null]], #[]⟩ (.array ⟨0⟩) =
      .ok "[[null], [null], [...]]" :=
  rfl

end Strand
