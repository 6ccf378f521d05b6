import Strand.Frame

/-!
# Frames grow

Whatever an evaluation does to the frames, it makes new ones and binds names in old ones. The frames
that are there keep their scope and their parent, and no name that is bound in them is unbound again.
-/

set_option autoImplicit false

namespace Strand.Frames

/-- The frames of `fs` are those of `fs'` that were there before, with no fewer names bound. -/
def Grows (fs fs' : Frames) : Prop :=
  ∀ f frame, fs.frame? f = some frame → ∃ bindings,
    fs'.frame? f = some ⟨frame.scope, bindings, frame.parent⟩ ∧
      ∀ name, (frame.bindings.find? name).isSome → (bindings.find? name).isSome

variable {fs fs' fs'' : Frames}

theorem Grows.refl (fs : Frames) : fs.Grows fs := by
  intro f frame found
  exact ⟨frame.bindings, found, fun _ bound => bound⟩

theorem Grows.trans (h : fs.Grows fs') (h' : fs'.Grows fs'') : fs.Grows fs'' := by
  intro f frame found
  obtain ⟨bindings, found', more⟩ := h f frame found
  obtain ⟨bindings', found'', more'⟩ := h' f _ found'
  exact ⟨bindings', found'', fun name bound => more' name (more name bound)⟩

theorem grows_define (fs : Frames) (g : FrameId) (name : Name) (value : Value) :
    fs.Grows (fs.define g name value) := by
  intro f frame found
  rw [frame?_define, found]
  by_cases same : f = g
  · refine ⟨frame.bindings.insert name value, ?_, fun other bound => ?_⟩
    · rw [if_pos same]
      rfl
    · rw [Bindings.find?_insert]
      split
      · rfl
      · exact bound
  · rw [if_neg same]
    exact ⟨frame.bindings, rfl, fun _ bound => bound⟩

/-- Every frame that was there before a push is there after it. -/
theorem frame?_push {f : FrameId} {frame : Frame} (found : fs.frame? f = some frame)
    (scope : ScopeId) (bindings : Bindings) (parent : Option FrameId) :
    (fs.push scope bindings parent).2.frame? f = some frame := by
  obtain ⟨inside, _⟩ := Array.getElem?_eq_some_iff.mp found
  unfold frame? push at *
  rw [Array.getElem?_push_lt inside, ← found, Array.getElem?_eq_getElem inside]

theorem lookup_push {f : FrameId} {name : Name} {value : Value}
    (bound : fs.lookup f name = some value) (scope : ScopeId) (bindings : Bindings)
    (parent : Option FrameId) : (fs.push scope bindings parent).2.lookup f name = some value := by
  obtain ⟨frame, found, here⟩ := Option.bind_eq_some_iff.mp bound
  rw [lookup, frame?_push found]
  exact here

theorem grows_push (fs : Frames) (scope : ScopeId) (bindings : Bindings) (parent : Option FrameId) :
    fs.Grows (fs.push scope bindings parent).2 := by
  intro f frame found
  exact ⟨frame.bindings, frame?_push found scope bindings parent, fun _ bound => bound⟩

theorem Grows.scope? (h : fs.Grows fs') {f : FrameId} {scope : ScopeId}
    (owned : fs.scope? f = some scope) : fs'.scope? f = some scope := by
  obtain ⟨frame, found, rfl⟩ := Option.map_eq_some_iff.mp owned
  obtain ⟨bindings, found', -⟩ := h f frame found
  rw [Frames.scope?, found']
  rfl

theorem Grows.lookup (h : fs.Grows fs') {f : FrameId} {name : Name}
    (bound : (fs.lookup f name).isSome) : (fs'.lookup f name).isSome := by
  cases found : fs.frame? f with
  | none =>
    rw [Frames.lookup, found] at bound
    cases bound
  | some frame =>
    obtain ⟨bindings, found', more⟩ := h f frame found
    rw [Frames.lookup, found] at bound
    rw [Frames.lookup, found']
    exact more name bound

end Strand.Frames
