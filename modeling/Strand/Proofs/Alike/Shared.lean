import Strand.Proofs.Alike.Steps

/-!
# Worlds that several computations share

Several computations in one world, each of which is alike to one that has a world of its own. What they
make is apart: only the root frame stands for something in more than one of the other worlds. So a step
of one of them keeps what is alike for the others (`World.Shared.evolve`).

Two worlds that the same computations share are alike, if what they have in the root frame is: a place of
one stands for a place of the other when both stand for the same place of one of the worlds apart
(`World.Shared.meet`).
-/

set_option autoImplicit false

namespace Strand

/-! ## 1. What one computation leaves to the others -/

/-- The root frames stand for each other, and nothing else does. -/
def rootPair : Pairing := fun x x' => x = .frame Frames.root ∧ x' = .frame Frames.root

namespace World

variable {Z : Region} {R R₁ : Pairing} {w w' w₁ w₁' : World} {kept : Place → Prop}

/-- Nothing changes at places of some kind, nor under the names that a region uses in the root frame. -/
structure Keeps (Z : Region) (kept : Place → Prop) (w w₁ : World) : Prop where
  cells : ∀ x c, x ≠ .frame Frames.root → kept x → w.cell? x = some c → w₁.cell? x = some c
  base : ∀ frame, w.frames.frame? Frames.root = some frame → ∃ bindings,
    w₁.frames.frame? Frames.root = some { frame with bindings } ∧
      ∀ name, Z.names name → bindings.find? name = frame.bindings.find? name
  linked : w.frames.Linked Z.rootScope → w₁.frames.Linked Z.rootScope
  output : w₁.output = w.output

theorem Like.keeps (like : w.Like Z R w') (keeps : w.Keeps Z kept w₁)
    (mine : ∀ x x', R x x' → x ≠ .frame Frames.root → kept x) : w₁.Like Z R w' := by
  refine ⟨like.one, like.root, fun x x' pair => ?_, keeps.linked like.linked, like.linked',
    keeps.output ▸ like.output⟩
  obtain ⟨c, c', found, found', alike⟩ := like.cells x x' pair
  by_cases outermost : x = .frame Frames.root
  · subst outermost
    obtain ⟨frame, here, rfl⟩ := Option.map_eq_some_iff.mp found
    obtain ⟨bindings, there, same⟩ := keeps.base frame here
    cases alike with
    | frame _ frame' alike =>
      refine ⟨_, _, cell?_frame.mpr there, found', .frame _ _ ⟨alike.scope, alike.parent, ?_⟩⟩
      intro name seen
      rw [same name (seen rfl)]
      exact alike.bindings name seen
  · exact ⟨c, c', keeps.cells x c outermost (mine x x' pair outermost) found, found', alike⟩

/-- A computation that goes on leaves alone what is not its own. -/
theorem Evolves.keeps (h : Evolves Z R w R₁ w₁ w₁') (guarded : Z.guarded) :
    w.Keeps Z (fun x => ∀ x', ¬ R x x') w₁ := by
  refine ⟨fun x c _ alone found => h.kept x c found alone, fun frame found => ?_, fun _ => h.like.linked,
    h.silent guarded⟩
  refine ⟨frame.bindings, ?_, fun _ _ => rfl⟩
  rw [← cell?_frame, h.base guarded, cell?_frame]
  exact found

/-- A name of the root frame is bound that the region does not use. -/
theorem keeps_define {name : Name} (hidden : ¬ Z.names name) (v : Value) :
    w.Keeps Z (fun _ => True) { w with frames := w.frames.define Frames.root name v } := by
  refine ⟨fun x c outside _ found => ?_, fun frame found => ?_, fun linked => linked.define _ name v, rfl⟩
  · cases x with
    | frame f =>
      have other : f ≠ Frames.root := fun same => outside (congrArg Place.frame same)
      simp only [cell?, Frames.frame?_define, if_neg other] at found ⊢
      exact found
    | array | record => exact found
  · refine ⟨frame.bindings.insert name v, ?_, fun other uses => ?_⟩
    · rw [Frames.frame?_define, if_pos rfl, found]
      rfl
    · rw [Bindings.find?_insert, if_neg]
      rintro rfl
      exact hidden uses

theorem keeps_of_eq (frames : w₁.frames = w.frames) (heap : w₁.heap = w.heap)
    (output : w₁.output = w.output) : w.Keeps Z (fun _ => True) w₁ := by
  refine ⟨fun x c _ _ found => ?_, fun frame found => ⟨frame.bindings, ?_, fun _ _ => rfl⟩, fun linked => ?_,
    output⟩
  · cases x <;> simpa only [cell?, frames, heap] using found
  · rw [frames]
    exact found
  · rw [frames]
    exact linked

end World

/-! ## 2. Worlds that are shared -/

/-- A world that a number of computations share: each is alike in a world of its own, and what they have
made is apart. -/
structure World.Shared (Z : Region) (w₀ : World) (count : Nat) (R : Nat → Pairing) (ws : Nat → World)
    (w : World) : Prop where
  base : w.Like Z rootPair w₀
  each : ∀ i < count, w.Like Z (R i) (ws i)
  apart : ∀ i < count, ∀ j < count, ∀ x z z', R i x z → R j x z' → i = j ∨ x = .frame Frames.root

namespace World.Shared

variable {Z : Region} {w₀ w w₁ w₁' : World} {count i : Nat} {R : Nat → Pairing} {R₁ : Pairing}
  {ws : Nat → World}

theorem keeps (h : Shared Z w₀ count R ws w) (keeps : w.Keeps Z (fun _ => True) w₁) :
    Shared Z w₀ count R ws w₁ :=
  ⟨h.base.keeps keeps fun _ _ _ _ => trivial,
    fun i inside => (h.each i inside).keeps keeps fun _ _ _ _ => trivial, h.apart⟩

/-- One of the computations goes on. -/
theorem evolve (h : Shared Z w₀ count R ws w) (guarded : Z.guarded) (inside : i < count)
    (evolves : World.Evolves Z (R i) w R₁ w₁ w₁') :
    Shared Z w₀ count (Function.update R i R₁) (Function.update ws i w₁') w₁ := by
  refine ⟨h.base.keeps (evolves.keeps guarded) ?_, fun j inside' => ?_, ?_⟩
  · rintro x x' ⟨outermost, -⟩ inner
    exact absurd outermost inner
  · by_cases same : j = i
    · subst same
      rw [Function.update_self, Function.update_self]
      exact evolves.like
    · rw [Function.update_of_ne same, Function.update_of_ne same]
      refine (h.each j inside').keeps (evolves.keeps guarded) fun x x' pair inner z mine => ?_
      rcases h.apart j inside' i inside x x' z pair mine with rfl | outermost
      · exact same rfl
      · exact inner outermost
  · -- what is new in the world has been nobody's
    have mine : ∀ j < count, j ≠ i → ∀ x z z', R₁ x z → R j x z' → x = .frame Frames.root := by
      intro j inside' other x z z' pair theirs
      rcases evolves.new x z pair with before | fresh
      · exact (h.apart i inside j inside' x z z' before theirs).resolve_left (Ne.symm other)
      · obtain ⟨c, c', found, -⟩ := (h.each j inside').cells x z' theirs
        rw [fresh] at found
        cases found
    intro a inside' b inside'' x z z' first second
    by_cases here : a = i
    · by_cases there : b = i
      · exact .inl (here.trans there.symm)
      · subst here
        rw [Function.update_self] at first
        rw [Function.update_of_ne there] at second
        exact .inr (mine b inside'' there x z z' first second)
    · rw [Function.update_of_ne here] at first
      by_cases there : b = i
      · subst there
        rw [Function.update_self] at second
        exact .inr (mine a inside' here x z' z second first)
      · rw [Function.update_of_ne there] at second
        exact h.apart a inside' b inside'' x z z' first second

/-- One more computation, which has made nothing yet. -/
theorem grow (h : Shared Z w₀ count R ws w) :
    Shared Z w₀ (count + 1) (Function.update R count rootPair) (Function.update ws count w₀) w := by
  refine ⟨h.base, fun j inside => ?_, fun a inside b inside' x z z' first second => ?_⟩
  · by_cases same : j = count
    · subst same
      rw [Function.update_self, Function.update_self]
      exact h.base
    · rw [Function.update_of_ne same, Function.update_of_ne same]
      exact h.each j (by omega)
  · by_cases here : a = count
    · subst here
      rw [Function.update_self] at first
      exact .inr first.1
    · by_cases there : b = count
      · subst there
        rw [Function.update_self] at second
        exact .inr second.1
      · rw [Function.update_of_ne here] at first
        rw [Function.update_of_ne there] at second
        exact h.apart a (by omega) b (by omega) x z z' first second

end World.Shared

/-! ## 3. Two worlds that the same computations share -/

theorem forall₂_meet {α : Type} {r q j : α → α → Prop} (meet : ∀ a b c, r a c → q b c → j a b)
    {l l' m : List α} (h : List.Forall₂ r l m) (h' : List.Forall₂ q l' m) : List.Forall₂ j l l' := by
  induction h generalizing l' with
  | nil =>
    cases h'
    exact .nil
  | cons first _ ih =>
    cases h' with
    | cons first' rest => exact .cons (meet _ _ _ first first') (ih rest)

theorem optionRel_meet {α : Type} {r q j : α → α → Prop} (meet : ∀ a b c, r a c → q b c → j a b)
    {x y z : Option α} (h : Option.Rel r x z) (h' : Option.Rel q y z) : Option.Rel j x y := by
  cases h with
  | none =>
    cases h'
    exact .none
  | some first =>
    cases h' with
    | some second => exact .some (meet _ _ _ first second)

section

variable {known : Decl → Prop} {R Q J : Pairing} (both : ∀ x y z, R x z → Q y z → J x y)

include both

theorem Value.Like.meet {v v' u : Value} (h : v.Like known R u) (h' : v'.Like known Q u) :
    v.Like known J v' := by
  cases h with
  | array a b pair =>
    cases h' with
    | array a' _ pair' => exact .array a a' (both _ _ _ pair pair')
  | struct r b pair =>
    cases h' with
    | struct r' _ pair' => exact .struct r r' (both _ _ _ pair pair')
  | function d knows =>
    cases h'
    exact .function d knows
  | _ =>
    cases h'
    constructor

theorem Cell.Like.meet {sees sees' : Name → Prop} {c c' d : Cell} (h : c.Like known R sees d)
    (h' : c'.Like known Q sees' d) (fewer : ∀ name, sees name → sees' name) :
    c.Like known J sees c' := by
  have values : ∀ a b u : Value, a.Like known R u → b.Like known Q u → a.Like known J b :=
    fun _ _ _ => Value.Like.meet both
  cases h with
  | frame f d like =>
    cases h' with
    | frame f' _ like' =>
      refine .frame f f' ⟨like.scope.trans like'.scope.symm,
        optionRel_meet (fun a b u => both (.frame a) (.frame b) (.frame u)) like.parent like'.parent,
        fun name seen => ?_⟩
      exact optionRel_meet values (like.bindings name seen) (like'.bindings name (fewer name seen))
  | array es ds like =>
    cases h' with
    | array es' _ like' => exact .array es es' (forall₂_meet values like like')
  | record r d like =>
    cases h' with
    | record r' _ like' =>
      refine .record r r' ⟨like.decl.trans like'.decl.symm, forall₂_meet ?_ like.fields like'.fields⟩
      rintro f g e ⟨name, value⟩ ⟨name', value'⟩
      exact ⟨name.trans name'.symm, values _ _ _ value value'⟩

end

/-- What stands for the same place of one of the worlds apart. -/
def joined (count : Nat) (R Q : Nat → Pairing) : Pairing := fun x y =>
  rootPair x y ∨ ∃ i < count, ∃ z, R i x z ∧ Q i y z

theorem joined_flip {count : Nat} {R Q : Nat → Pairing} {x y : Place} (h : joined count R Q x y) :
    joined count Q R y x := by
  rcases h with ⟨first, second⟩ | ⟨i, inside, z, pair, pair'⟩
  · exact .inl ⟨second, first⟩
  · exact .inr ⟨i, inside, z, pair', pair⟩

namespace World.Shared

variable {Z Z' : Region} {w₀ w w' : World} {count : Nat} {R Q : Nat → Pairing} {ws : Nat → World}
  (h : Shared Z w₀ count R ws w) (h' : Shared Z w₀ count Q ws w')

include h h'

/-- Only the root frame is joined with the root frame. -/
theorem root_of_joined {x : Place} (pair : joined count R Q x (.frame Frames.root)) :
    x = .frame Frames.root := by
  rcases pair with ⟨first, -⟩ | ⟨i, inside, z, pair, pair'⟩
  · exact first
  · obtain rfl : z = .frame Frames.root := (h'.each i inside).one.2 pair' (h'.each i inside).root
    exact (h.each i inside).one.1 pair (h.each i inside).root

theorem leftUnique_joined : Relator.LeftUnique (joined count R Q) := by
  intro x x' y pair pair'
  by_cases outermost : y = .frame Frames.root
  · subst outermost
    exact (h.root_of_joined h' pair).trans (h.root_of_joined h' pair').symm
  · rcases pair with ⟨-, there⟩ | ⟨i, inside, z, first, second⟩
    · exact absurd there outermost
    rcases pair' with ⟨-, there⟩ | ⟨j, inside', z', first', second'⟩
    · exact absurd there outermost
    obtain rfl : i = j := (h'.apart i inside j inside' y z z' second second').resolve_right outermost
    obtain rfl : z = z' := (h'.each i inside).one.2 second second'
    exact (h.each i inside).one.1 first first'

theorem biUnique_joined : Relator.BiUnique (joined count R Q) :=
  ⟨h.leftUnique_joined h', fun _ _ _ pair pair' =>
    h'.leftUnique_joined h (joined_flip pair) (joined_flip pair')⟩

/-- Two worlds that the same computations share are alike if what the root frames bind is. -/
theorem meet (knows : ∀ d, Z.functions d → Z'.functions d) (same : Z.rootScope = Z'.rootScope)
    (base : ∀ name, Z'.names name → Option.Rel (Value.Like Z'.functions (joined count R Q))
      (w.frames.lookup Frames.root name) (w'.frames.lookup Frames.root name)) :
    w.Like Z' (joined count R Q) w' := by
  refine ⟨h.biUnique_joined h', .inl ⟨rfl, rfl⟩, fun x y pair => ?_, same ▸ h.base.linked,
    same ▸ h'.base.linked, h.base.output.meet h'.base.output⟩
  by_cases outermost : y = .frame Frames.root
  · subst outermost
    obtain rfl := h.root_of_joined h' pair
    obtain ⟨bindings, found⟩ := h.base.linked.base
    obtain ⟨bindings', found'⟩ := h'.base.linked.base
    refine ⟨_, _, cell?_frame.mpr found, cell?_frame.mpr found', .frame _ _ ⟨rfl, .none, ?_⟩⟩
    intro name seen
    have alike := base name (seen rfl)
    rw [Frames.lookup, Frames.lookup, found, found'] at alike
    exact alike
  · rcases pair with ⟨-, there⟩ | ⟨i, inside, z, first, second⟩
    · exact absurd there outermost
    obtain ⟨c, d, found, there, alike⟩ := (h.each i inside).cells x z first
    obtain ⟨c', d', found', there', alike'⟩ := (h'.each i inside).cells y z second
    cases there.symm.trans there'
    have inner : x ≠ .frame Frames.root := by
      rintro rfl
      exact outermost (h'.root_of_joined h (joined_flip (.inr ⟨i, inside, z, first, second⟩)))
    have both : ∀ a b u, R i a u → Q i b u → joined count R Q a b :=
      fun a b u pair pair' => .inr ⟨i, inside, u, pair, pair'⟩
    exact ⟨c, c', found, found', (alike.meet both alike' fun _ _ same => absurd same outermost).mono
      knows (fun _ _ => id) fun _ _ same => absurd same inner⟩

end World.Shared

end Strand
