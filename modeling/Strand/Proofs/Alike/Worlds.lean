import Strand.Proofs.Alike.Text
import Strand.Proofs.Scope.Path

/-!
# Worlds alike

Two worlds are alike if what is at places that stand for each other is alike: frames of one scope, inside
frames that stand for each other, with bindings that are alike, and objects that are. In the root frame
only some names are compared, those that a `Region` of the program may use.

Writing to two places that stand for each other, and making two new ones that do from then on, keeps
worlds alike, and leaves everything else as it was (`World.Evolves`).
-/

set_option autoImplicit false

namespace Strand

/-! ## 1. Cells -/

/-- What is at a place. -/
inductive Cell where
  | frame (f : Frame)
  | array (elements : Array Value)
  | record (r : Record)

namespace World

/-- What is at a place of a world. -/
def cell? (w : World) : Place → Option Cell
  | .frame f => (w.frames.frame? f).map .frame
  | .array a => w.heap.arrays[a.index]?.map .array
  | .record r => w.heap.records[r.index]?.map .record

/-- One world is the other with something at a place, new or in place of what was there. -/
structure Puts (w : World) (y : Place) (c : Cell) (w₁ : World) : Prop where
  cell : ∀ x, w₁.cell? x = if x = y then some c else w.cell? x
  linked : ∀ rootScope, w.frames.Linked rootScope → w₁.frames.Linked rootScope
  output : w₁.output = w.output

variable {w : World}

theorem cell?_frame {f : FrameId} {frame : Frame} :
    w.cell? (.frame f) = some (.frame frame) ↔ w.frames.frame? f = some frame := by
  simp [cell?]

theorem puts_define {f : FrameId} {frame : Frame} (found : w.frames.frame? f = some frame)
    (name : Name) (v : Value) :
    w.Puts (.frame f) (.frame { frame with bindings := frame.bindings.insert name v })
      { w with frames := w.frames.define f name v } := by
  refine ⟨fun x => ?_, fun rootScope linked => linked.define f name v, rfl⟩
  cases x with
  | frame g =>
    simp only [cell?, Frames.frame?_define, Place.frame.injEq]
    split
    · next same => rw [same, found]; rfl
    · rfl
  | array | record => rfl

/-- The place of the frame that is made next. -/
def nextFrame (w : World) : Place := .frame ⟨w.frames.frames.size⟩

def nextArray (w : World) : Place := .array ⟨w.heap.arrays.size⟩

def nextRecord (w : World) : Place := .record ⟨w.heap.records.size⟩

@[simp] theorem cell?_nextFrame (w : World) : w.cell? w.nextFrame = none := by
  simp [cell?, nextFrame, Frames.frame?]

@[simp] theorem cell?_nextArray (w : World) : w.cell? w.nextArray = none := by
  simp [cell?, nextArray]

@[simp] theorem cell?_nextRecord (w : World) : w.cell? w.nextRecord = none := by
  simp [cell?, nextRecord]

theorem puts_push {g : FrameId} (live : w.frames.Live g) (scope : ScopeId) (bindings : Bindings) :
    w.Puts w.nextFrame (.frame ⟨scope, bindings, some g⟩)
      { w with frames := (w.frames.push scope bindings (some g)).2 } := by
  refine ⟨fun x => ?_, fun rootScope linked => linked.push live scope bindings, rfl⟩
  cases x with
  | frame f =>
    simp only [cell?, Frames.frame?_push_eq, nextFrame, Place.frame.injEq]
    exact apply_ite _ _ _ _
  | array | record => rfl

theorem puts_newArray (elements : Array Value) :
    w.Puts w.nextArray (.array elements) { w with heap := (w.heap.newArray elements).2 } := by
  refine ⟨fun x => ?_, fun _ linked => linked, rfl⟩
  cases x with
  | array a =>
    obtain ⟨i⟩ := a
    simp only [cell?, Heap.newArray, Array.getElem?_push, nextArray, Place.array.injEq, ArrayId.mk.injEq]
    split <;> rfl
  | frame | record => rfl

theorem puts_newRecord (r : Record) :
    w.Puts w.nextRecord (.record r) { w with heap := (w.heap.newRecord r).2 } := by
  refine ⟨fun x => ?_, fun _ linked => linked, rfl⟩
  cases x with
  | record a =>
    obtain ⟨i⟩ := a
    simp only [cell?, Heap.newRecord, Array.getElem?_push, nextRecord, Place.record.injEq,
      RecordId.mk.injEq]
    split <;> rfl
  | frame | array => rfl

theorem puts_setElement {a : ArrayId} {elements : Array Value}
    (found : w.heap.arrays[a.index]? = some elements) (i : Nat) (v : Value) :
    w.Puts (.array a) (.array (elements.setIfInBounds i v))
      { w with heap := w.heap.setElement a i v } := by
  refine ⟨fun x => ?_, fun _ linked => linked, rfl⟩
  obtain ⟨k⟩ := a
  cases x with
  | array b =>
    obtain ⟨j⟩ := b
    simp only [cell?, Heap.setElement, Array.getElem?_modify, Place.array.injEq, ArrayId.mk.injEq]
    by_cases same : k = j
    · subst same
      simp only [if_true, found]
      rfl
    · simp only [same, Ne.symm same, if_false]
  | frame | record => rfl

theorem puts_setField {r : RecordId} {o : Record} (found : w.heap.records[r.index]? = some o)
    (name : Name) (v : Value) :
    w.Puts (.record r) (.record { o with fields := Record.setField name v o.fields })
      { w with heap := w.heap.setField r name v } := by
  refine ⟨fun x => ?_, fun _ linked => linked, rfl⟩
  obtain ⟨k⟩ := r
  cases x with
  | record b =>
    obtain ⟨j⟩ := b
    simp only [cell?, Heap.setField, Array.getElem?_modify, Place.record.injEq, RecordId.mk.injEq]
    by_cases same : k = j
    · subst same
      simp only [if_true, found]
      rfl
    · simp only [same, Ne.symm same, if_false]
  | frame | array => rfl

end World

/-! ## 2. Cells and worlds alike -/

/-- A part of a program: its nodes, the functions that it knows, the names that it may use in the root
frame, the nodes that stand for a variable which it may bind, the frame of the root scope, and whether it
leaves alone the root frame and the output. -/
structure Region where
  nodes : NodeId → Prop
  functions : Decl → Prop
  names : Name → Prop
  locals : NodeId → Prop
  rootScope : ScopeId
  guarded : Prop

/-- The names that are compared at a place. -/
def Region.Sees (Z : Region) (x : Place) (name : Name) : Prop :=
  x = .frame Frames.root → Z.names name

/-- Two sets of bindings that are alike for the names that are seen. -/
def Bindings.Like (known : Decl → Prop) (R : Pairing) (sees : Name → Prop) (b b' : Bindings) : Prop :=
  ∀ name, sees name → Option.Rel (Value.Like known R) (b.find? name) (b'.find? name)

/-- Two activations of one scope, inside frames that stand for each other. -/
structure Frame.Like (known : Decl → Prop) (R : Pairing) (sees : Name → Prop) (f f' : Frame) : Prop where
  scope : f.scope = f'.scope
  parent : Option.Rel (fun g g' => R (.frame g) (.frame g')) f.parent f'.parent
  bindings : f.bindings.Like known R sees f'.bindings

/-- Two cells that are alike. -/
inductive Cell.Like (known : Decl → Prop) (R : Pairing) (sees : Name → Prop) : Cell → Cell → Prop
  | frame (f f' : Frame) (like : f.Like known R sees f') : Like known R sees (.frame f) (.frame f')
  | array (es es' : Array Value) (like : List.Forall₂ (Value.Like known R) es.toList es'.toList) :
      Like known R sees (.array es) (.array es')
  | record (r r' : Record) (like : r.Like known R r') : Like known R sees (.record r) (.record r')

/-- Two outputs to which the same has been printed. A line may be written by different threads. -/
structure Output.Like (o o' : Output) : Prop where
  printer : o.printer = o'.printer
  text : o.text = o'.text
  available : o.available = o'.available

/-- Two worlds in which what stands for each other is alike. -/
structure World.Like (Z : Region) (R : Pairing) (w w' : World) : Prop where
  one : Relator.BiUnique R
  root : R (.frame Frames.root) (.frame Frames.root)
  cells : ∀ x x', R x x' → ∃ c c', w.cell? x = some c ∧ w'.cell? x' = some c' ∧
    c.Like Z.functions R (Z.Sees x) c'
  linked : w.frames.Linked Z.rootScope
  linked' : w'.frames.Linked Z.rootScope
  output : w.output.Like w'.output

theorem Output.Like.refl (o : Output) : o.Like o := ⟨rfl, rfl, rfl⟩

theorem Output.Like.meet {o o' o₁ : Output} (h : o.Like o₁) (h' : o'.Like o₁) : o.Like o' :=
  ⟨h.printer.trans h'.printer.symm, h.text.trans h'.text.symm, h.available.trans h'.available.symm⟩

theorem Output.Like.isSilent {o o' : Output} (h : o.Like o') : o.isSilent = o'.isSilent := by
  rw [Output.isSilent, Output.isSilent, h.printer]

theorem Output.Like.acquire {o o' : Output} (h : o.Like o') (who who' : ThreadId) :
    (o.acquire who).Like (o'.acquire who') := ⟨h.printer, h.text, rfl⟩

theorem Output.Like.append {o o' : Output} (h : o.Like o') (text : String) :
    (o.append text).Like (o'.append text) := ⟨h.printer, congrArg (· ++ text) h.text, h.available⟩

theorem Output.Like.release {o o' : Output} (h : o.Like o') : o.release.Like o'.release :=
  ⟨h.printer, h.text, rfl⟩

section

variable {known known' : Decl → Prop} {R R' : Pairing} {sees sees' : Name → Prop}

theorem optionRel_mono {α β : Type} {r r' : α → β → Prop} {x : Option α} {y : Option β}
    (h : Option.Rel r x y) (more : ∀ a b, r a b → r' a b) : Option.Rel r' x y := by
  cases h with
  | some pair => exact .some (more _ _ pair)
  | none => exact .none

theorem Bindings.Like.mono {b b' : Bindings} (like : b.Like known R sees b')
    (knows : ∀ d, known d → known' d) (more : ∀ x x', R x x' → R' x x')
    (fewer : ∀ name, sees' name → sees name) : b.Like known' R' sees' b' :=
  fun name seen => optionRel_mono (like name (fewer name seen)) fun _ _ pair => pair.mono knows more

theorem Bindings.Like.insert {b b' : Bindings} (like : b.Like known R sees b') (name : Name)
    {v v' : Value} (alike : v.Like known R v') :
    (b.insert name v).Like known R sees (b'.insert name v') := by
  intro other seen
  rw [Bindings.find?_insert, Bindings.find?_insert]
  split
  · exact .some alike
  · exact like other seen

theorem Record.Like.mono {o o' : Record} (like : o.Like known R o') (knows : ∀ d, known d → known' d)
    (more : ∀ x x', R x x' → R' x x') : o.Like known' R' o' :=
  ⟨like.decl, like.fields.imp fun _ _ pair => ⟨pair.1, pair.2.mono knows more⟩⟩

theorem Cell.Like.mono {c c' : Cell} (like : c.Like known R sees c') (knows : ∀ d, known d → known' d)
    (more : ∀ x x', R x x' → R' x x') (fewer : ∀ name, sees' name → sees name) :
    c.Like known' R' sees' c' := by
  cases like with
  | frame f f' like =>
    exact .frame f f' ⟨like.scope, optionRel_mono like.parent fun _ _ => more _ _,
      like.bindings.mono knows more fewer⟩
  | array es es' like => exact .array es es' (like.imp fun _ _ pair => pair.mono knows more)
  | record r r' like => exact .record r r' (like.mono knows more)

theorem forall₂_set {α β : Type} {r : α → β → Prop} {l : List α} {l' : List β}
    (alike : List.Forall₂ r l l') (i : Nat) {a : α} {b : β} (pair : r a b) :
    List.Forall₂ r (l.set i a) (l'.set i b) := by
  induction alike generalizing i with
  | nil => exact .nil
  | cons first rest ih =>
    cases i with
    | zero => exact .cons pair rest
    | succ i => exact .cons first (ih i)

theorem Record.Like.setField {o o' : Record} (like : o.Like known R o') (name : Name) {v v' : Value}
    (alike : v.Like known R v') :
    ({ o with fields := Record.setField name v o.fields } : Record).Like known R
      { o' with fields := Record.setField name v' o'.fields } := by
  refine ⟨like.decl, ?_⟩
  have fields := like.fields
  generalize o.fields = l at fields
  generalize o'.fields = l' at fields
  induction fields with
  | nil => exact .nil
  | @cons f f' l l' pair rest ih =>
    obtain ⟨n, u⟩ := f
    obtain ⟨n', u'⟩ := f'
    obtain ⟨same, pair⟩ := pair
    obtain rfl : n = n' := same
    simp only [Record.setField]
    split
    · exact .cons ⟨rfl, alike⟩ rest
    · exact .cons ⟨rfl, pair⟩ ih

end

namespace World.Like

variable {Z : Region} {R : Pairing} {w w' : World} (like : w.Like Z R w')

include like

theorem heap : w.heap.Like Z.functions R w'.heap := by
  refine ⟨fun a a' pair => ?_, fun r r' pair => ?_⟩
  · obtain ⟨c, c', found, found', alike⟩ := like.cells _ _ pair
    obtain ⟨es, here, rfl⟩ := Option.map_eq_some_iff.mp found
    obtain ⟨es', here', rfl⟩ := Option.map_eq_some_iff.mp found'
    cases alike with
    | array _ _ alike => exact ⟨es, es', here, here', alike⟩
  · obtain ⟨c, c', found, found', alike⟩ := like.cells _ _ pair
    obtain ⟨o, here, rfl⟩ := Option.map_eq_some_iff.mp found
    obtain ⟨o', here', rfl⟩ := Option.map_eq_some_iff.mp found'
    cases alike with
    | record _ _ alike => exact ⟨o, o', here, here', alike⟩

theorem frame {f f' : FrameId} (pair : R (.frame f) (.frame f')) :
    ∃ frame frame', w.frames.frame? f = some frame ∧ w'.frames.frame? f' = some frame' ∧
      frame.Like Z.functions R (Z.Sees (.frame f)) frame' := by
  obtain ⟨c, c', found, found', alike⟩ := like.cells _ _ pair
  obtain ⟨frame, here, rfl⟩ := Option.map_eq_some_iff.mp found
  obtain ⟨frame', here', rfl⟩ := Option.map_eq_some_iff.mp found'
  cases alike with
  | frame _ _ alike => exact ⟨frame, frame', here, here', alike⟩

theorem live {f f' : FrameId} (pair : R (.frame f) (.frame f')) :
    w.frames.Live f ∧ w'.frames.Live f' := by
  obtain ⟨frame, frame', here, here', -⟩ := like.frame pair
  exact ⟨Frames.live_of_found here, Frames.live_of_found here'⟩

theorem scope {f f' : FrameId} (pair : R (.frame f) (.frame f')) :
    w.frames.scope? f = w'.frames.scope? f' := by
  obtain ⟨frame, frame', here, here', alike⟩ := like.frame pair
  rw [Frames.scope?, Frames.scope?, here, here', Option.map_some, Option.map_some, alike.scope]

theorem lookup {f f' : FrameId} (pair : R (.frame f) (.frame f')) {name : Name}
    (seen : Z.Sees (.frame f) name) :
    Option.Rel (Value.Like Z.functions R) (w.frames.lookup f name) (w'.frames.lookup f' name) := by
  obtain ⟨frame, frame', here, here', alike⟩ := like.frame pair
  rw [Frames.lookup, Frames.lookup, here, here']
  exact alike.bindings name seen

end World.Like

/-! ## 3. Worlds that go on alike -/

/-- A world goes on, alike with another one. What stood for something still does, what does so from now on
is new, and what stands for nothing is as it was. In a guarded region the root frame is only read, and
nothing is printed. -/
structure World.Evolves (Z : Region) (R : Pairing) (w : World) (R₁ : Pairing) (w₁ w₁' : World) :
    Prop where
  more : ∀ x x', R x x' → R₁ x x'
  new : ∀ x x', R₁ x x' → R x x' ∨ w.cell? x = none
  kept : ∀ x c, w.cell? x = some c → (∀ x', ¬ R x x') → w₁.cell? x = some c
  live : ∀ x, (w.cell? x).isSome → (w₁.cell? x).isSome
  base : Z.guarded → w₁.cell? (.frame Frames.root) = w.cell? (.frame Frames.root)
  silent : Z.guarded → w₁.output = w.output
  like : w₁.Like Z R₁ w₁'

namespace World.Evolves

variable {Z : Region} {R R₁ R₂ : Pairing} {w w' w₁ w₁' w₂ w₂' : World}

theorem refl (like : w.Like Z R w') : Evolves Z R w R w w' :=
  ⟨fun _ _ => id, fun _ _ => .inl, fun _ _ found _ => found, fun _ => id, fun _ => rfl, fun _ => rfl, like⟩

theorem trans (h : Evolves Z R w R₁ w₁ w₁') (h' : Evolves Z R₁ w₁ R₂ w₂ w₂') :
    Evolves Z R w R₂ w₂ w₂' := by
  refine ⟨fun x x' pair => h'.more x x' (h.more x x' pair), fun x x' pair => ?_, fun x c found alone => ?_,
    fun x here => h'.live x (h.live x here), fun guarded => (h'.base guarded).trans (h.base guarded),
    fun guarded => (h'.silent guarded).trans (h.silent guarded), h'.like⟩
  · rcases h'.new x x' pair with before | fresh
    · exact h.new x x' before
    · refine .inr (Option.not_isSome_iff_eq_none.mp fun here => ?_)
      have still := h.live x here
      rw [fresh] at still
      cases still
  · refine h'.kept x c (h.kept x c found alone) fun x' pair => ?_
    rcases h.new x x' pair with before | fresh
    · exact alone x' before
    · rw [fresh] at found
      cases found

variable {y y' : Place} {c c' : Cell}

/-- Two places that stand for each other are written. -/
theorem write (like : w.Like Z R w') (pair : R y y') (inner : Z.guarded → y ≠ .frame Frames.root)
    (puts : w.Puts y c w₁) (puts' : w'.Puts y' c' w₁')
    (alike : c.Like Z.functions R (Z.Sees y) c') : Evolves Z R w R w₁ w₁' := by
  have output : w₁.output.Like w₁'.output := by
    rw [puts.output, puts'.output]
    exact like.output
  refine ⟨fun _ _ => id, fun _ _ => .inl, fun x d found alone => ?_, fun x here => ?_, fun guarded => ?_,
    fun _ => puts.output, like.one, like.root, fun x x' here => ?_, puts.linked _ like.linked,
    puts'.linked _ like.linked', output⟩
  · rw [puts.cell, if_neg, found]
    rintro rfl
    exact alone y' pair
  · rw [puts.cell]
    split
    · rfl
    · exact here
  · rw [puts.cell, if_neg (Ne.symm (inner guarded))]
  · have same : x = y ↔ x' = y' := by
      constructor
      · rintro rfl
        exact like.one.2 here pair
      · rintro rfl
        exact like.one.1 here pair
    rw [puts.cell, puts'.cell]
    by_cases first : x = y
    · subst first
      rw [if_pos rfl, if_pos (same.mp rfl)]
      exact ⟨c, c', rfl, rfl, alike⟩
    · rw [if_neg first, if_neg fun second => first (same.mpr second)]
      exact like.cells x x' here

/-- Two new places from now on stand for each other. -/
def add (R : Pairing) (y y' : Place) : Pairing := fun x x' => R x x' ∨ x = y ∧ x' = y'

/-- Two new places stand for each other. -/
theorem make (like : w.Like Z R w') (fresh : w.cell? y = none) (fresh' : w'.cell? y' = none)
    (puts : w.Puts y c w₁) (puts' : w'.Puts y' c' w₁')
    (alike : c.Like Z.functions (add R y y') (Z.Sees y) c') :
    Evolves Z R w (add R y y') w₁ w₁' := by
  have old : ∀ {x x'}, R x x' → x ≠ y ∧ x' ≠ y' := by
    intro x x' pair
    obtain ⟨d, d', found, found', -⟩ := like.cells x x' pair
    refine ⟨fun same => ?_, fun same => ?_⟩
    · rw [same, fresh] at found
      cases found
    · rw [same, fresh'] at found'
      cases found'
  have more : ∀ x x', R x x' → add R y y' x x' := fun _ _ => .inl
  have output : w₁.output.Like w₁'.output := by
    rw [puts.output, puts'.output]
    exact like.output
  refine ⟨more, fun x x' pair => ?_, fun x d found alone => ?_, fun x here => ?_, fun _ => ?_,
    fun _ => puts.output, ⟨?_, ?_⟩, more _ _ like.root, fun x x' here => ?_, puts.linked _ like.linked,
    puts'.linked _ like.linked', output⟩
  · rcases pair with before | ⟨rfl, rfl⟩
    · exact .inl before
    · exact .inr fresh
  · rw [puts.cell, if_neg, found]
    rintro rfl
    rw [fresh] at found
    cases found
  · rw [puts.cell]
    split
    · rfl
    · exact here
  · rw [puts.cell, if_neg (old like.root).1]
  · rintro a b d (pair | ⟨rfl, rfl⟩) (pair' | ⟨same, same'⟩)
    · exact like.one.1 pair pair'
    · exact absurd same' (old pair).2
    · exact absurd rfl (old pair').2
    · exact same.symm
  · rintro a b d (pair | ⟨rfl, rfl⟩) (pair' | ⟨same, same'⟩)
    · exact like.one.2 pair pair'
    · exact absurd same (old pair).1
    · exact absurd rfl (old pair').1
    · exact same'.symm
  · rw [puts.cell, puts'.cell]
    rcases here with before | ⟨rfl, rfl⟩
    · rw [if_neg (old before).1, if_neg (old before).2]
      obtain ⟨d, d', found, found', same⟩ := like.cells x x' before
      exact ⟨d, d', found, found', same.mono (fun _ => id) more fun _ => id⟩
    · rw [if_pos rfl, if_pos rfl]
      exact ⟨c, c', rfl, rfl, alike⟩

/-! ### What the evaluator writes and makes -/

theorem define (like : w.Like Z R w') {f f' : FrameId} (pair : R (.frame f) (.frame f'))
    (inner : Z.guarded → f ≠ Frames.root) (name : Name) {v v' : Value} (alike : v.Like Z.functions R v') :
    Evolves Z R w R { w with frames := w.frames.define f name v }
      { w' with frames := w'.frames.define f' name v' } := by
  obtain ⟨frame, frame', found, found', same⟩ := like.frame pair
  exact write like pair (fun guarded same => inner guarded (Place.frame.inj same))
    (puts_define found name v) (puts_define found' name v')
    (.frame _ _ ⟨same.scope, same.parent, same.bindings.insert name alike⟩)

theorem push (like : w.Like Z R w') {g g' : FrameId} (pair : R (.frame g) (.frame g'))
    (scope : ScopeId) {bindings bindings' : Bindings}
    (alike : bindings.Like Z.functions R (fun _ => True) bindings') :
    Evolves Z R w (add R w.nextFrame w'.nextFrame)
      { w with frames := (w.frames.push scope bindings (some g)).2 }
      { w' with frames := (w'.frames.push scope bindings' (some g')).2 } := by
  obtain ⟨live, live'⟩ := like.live pair
  refine make like (cell?_nextFrame w) (cell?_nextFrame w') (puts_push live scope bindings)
    (puts_push live' scope bindings') (.frame _ _ ⟨rfl, .some (.inl pair), ?_⟩)
  exact alike.mono (fun _ => id) (fun _ _ => .inl) fun _ _ => trivial

theorem newArray (like : w.Like Z R w') {elements elements' : Array Value}
    (alike : List.Forall₂ (Value.Like Z.functions R) elements.toList elements'.toList) :
    Evolves Z R w (add R w.nextArray w'.nextArray)
      { w with heap := (w.heap.newArray elements).2 }
      { w' with heap := (w'.heap.newArray elements').2 } :=
  make like (cell?_nextArray w) (cell?_nextArray w') (puts_newArray elements) (puts_newArray elements')
    (.array _ _ (alike.imp fun _ _ pair => pair.mono (fun _ => id) fun _ _ => .inl))

theorem newRecord (like : w.Like Z R w') {r r' : Record} (alike : r.Like Z.functions R r') :
    Evolves Z R w (add R w.nextRecord w'.nextRecord)
      { w with heap := (w.heap.newRecord r).2 } { w' with heap := (w'.heap.newRecord r').2 } :=
  make like (cell?_nextRecord w) (cell?_nextRecord w') (puts_newRecord r) (puts_newRecord r')
    (.record _ _ (alike.mono (fun _ => id) fun _ _ => .inl))

theorem setElement (like : w.Like Z R w') {a a' : ArrayId} (pair : R (.array a) (.array a')) (i : Nat)
    {v v' : Value} (alike : v.Like Z.functions R v') :
    Evolves Z R w R { w with heap := w.heap.setElement a i v }
      { w' with heap := w'.heap.setElement a' i v' } := by
  obtain ⟨es, es', found, found', same⟩ := like.heap.arrays a a' pair
  refine write like pair (fun _ => by simp) (puts_setElement found i v) (puts_setElement found' i v')
    (.array _ _ ?_)
  rw [Array.toList_setIfInBounds, Array.toList_setIfInBounds]
  exact forall₂_set same i alike

theorem setField (like : w.Like Z R w') {r r' : RecordId} (pair : R (.record r) (.record r'))
    (name : Name) {v v' : Value} (alike : v.Like Z.functions R v') :
    Evolves Z R w R { w with heap := w.heap.setField r name v }
      { w' with heap := w'.heap.setField r' name v' } := by
  obtain ⟨o, o', found, found', same⟩ := like.heap.records r r' pair
  exact write like pair (fun _ => by simp) (puts_setField found name v) (puts_setField found' name v')
    (.record _ _ (same.setField name alike))

/-- The same is printed by both, which no guarded region does. -/
theorem print (like : w.Like Z R w') (open_ : ¬ Z.guarded) {o o' : Output} (same : o.Like o') :
    Evolves Z R w R { w with output := o } { w' with output := o' } :=
  ⟨fun _ _ => id, fun _ _ => .inl, fun _ _ found _ => found, fun _ => id, fun _ => rfl,
    fun guarded => absurd guarded open_, like.one, like.root, like.cells, like.linked, like.linked', same⟩

mutual

/-- Values in nested rows are placed on both heaps. -/
theorem place : ∀ {nest : Nest}, nest.Scalar → ∀ {R : Pairing} {w w' : World}, w.Like Z R w' →
    ∃ R₁, Evolves Z R w R₁ { w with heap := (w.heap.place nest).2 }
      { w' with heap := (w'.heap.place nest).2 } ∧
      (w.heap.place nest).1.Like Z.functions R₁ (w'.heap.place nest).1
  | .leaf v, .leaf _ scalar, R, w, w', like => ⟨R, refl like, .ofScalar scalar⟩
  | .row elements, .row _ scalar, R, w, w', like => by
    obtain ⟨R₁, evolves, alike⟩ := placeAll elements scalar like
    have values : List.Forall₂ (Value.Like Z.functions R₁)
        (w.heap.placeAll elements).1.toArray.toList (w'.heap.placeAll elements).1.toArray.toList := by
      simpa only using alike
    exact ⟨_, evolves.trans (newArray evolves.like values), .array _ _ (.inr ⟨rfl, rfl⟩)⟩

theorem placeAll : ∀ (elements : List Nest), (∀ n ∈ elements, n.Scalar) →
    ∀ {R : Pairing} {w w' : World}, w.Like Z R w' →
    ∃ R₁, Evolves Z R w R₁ { w with heap := (w.heap.placeAll elements).2 }
      { w' with heap := (w'.heap.placeAll elements).2 } ∧
      List.Forall₂ (Value.Like Z.functions R₁) (w.heap.placeAll elements).1
        (w'.heap.placeAll elements).1
  | [], _, R, w, w', like => ⟨R, refl like, .nil⟩
  | n :: rest, scalar, R, w, w', like => by
    obtain ⟨R₁, evolves, alike⟩ := place (scalar n List.mem_cons_self) like
    obtain ⟨R₂, evolves', alikes⟩ :=
      placeAll rest (fun m member => scalar m (List.mem_cons_of_mem _ member)) evolves.like
    exact ⟨R₂, evolves.trans evolves', .cons (alike.mono (fun _ => id) evolves'.more) alikes⟩

end

end World.Evolves

end Strand
