import Mathlib.Data.List.Nodup
import Mathlib.Data.List.Pairwise
import Strand.Proofs.Interleaving
import Strand.Proofs.Scope.Context

/-!
# The way outward

The frames from a frame outward are activations of scopes, one inside the other: they have a *path* of
scopes. While a program runs no path has the same scope twice, so a scope on the path has one frame
that owns it there, and that is the frame in which its names are looked up.

`Sees fs f Γ` says that what a context promises is there from the frame `f` on: its scopes are the
outer part of the path, and its variables are bound. Frames only grow, so it is never lost.
-/

set_option autoImplicit false

namespace Strand

/-- Two ends of a list without repetitions that begin alike are the same. -/
theorem suffix_unique {α : Type} {l a b : List α} {x : α} (nodup : l.Nodup) (first : a <:+ l)
    (second : b <:+ l) (head : a.head? = some x) (head' : b.head? = some x) : a = b := by
  have key : ∀ {c d : List α}, d <:+ l → c <:+ d → c.head? = some x → d.head? = some x → c = d := by
    intro c d inside within head head'
    obtain ⟨before, rfl⟩ := within
    cases before with
    | nil => rfl
    | cons y before =>
      cases head'
      have twice : (x :: (before ++ c)).Nodup := nodup.sublist inside.sublist
      exact absurd (List.mem_append_right before (List.mem_of_mem_head? head))
        (List.nodup_cons.mp twice).1
  rcases List.suffix_or_suffix_of_suffix first second with within | within
  · exact key second within head head'
  · exact (key first within head' head).symm

namespace Frames

/-- A frame that exists. -/
def Live (fs : Frames) (f : FrameId) : Prop := (fs.frame? f).isSome

/-- The scopes of the frames from a frame outward. -/
def path (fs : Frames) (f : FrameId) : List ScopeId := (fs.chain f).filterMap fs.scope?

/-- Every parent is older. -/
def Descending (fs : Frames) : Prop :=
  ∀ f frame g, fs.frame? f = some frame → frame.parent = some g → g.index < f.index

/-- Every frame but the root frame has a parent, which is older. -/
structure Linked (fs : Frames) (rootScope : ScopeId) : Prop where
  base : ∃ bindings, fs.frame? Frames.root = some ⟨rootScope, bindings, none⟩
  older : ∀ f frame, fs.frame? f = some frame →
    f = Frames.root ∨ ∃ g, frame.parent = some g ∧ g.index < f.index

/-- No way outward passes a scope twice. -/
structure Sound (fs : Frames) (rootScope : ScopeId) : Prop extends Linked fs rootScope where
  distinct : ∀ f, (fs.path f).Nodup

variable {fs fs' : Frames} {rootScope : ScopeId} {f g : FrameId}

theorem live_of_found {frame : Frame} (found : fs.frame? f = some frame) : fs.Live f := by
  rw [Live, found]
  rfl

theorem live_iff : fs.Live f ↔ f.index < fs.frames.size := by
  unfold Live frame?
  rw [isSome_getElem?]

theorem live_of_lt (live : fs.Live f) (older : g.index < f.index) : fs.Live g := by
  rw [live_iff] at *
  omega

/-! ## 1. Chains and paths -/

theorem chain_of_none (missing : fs.frame? f = none) : fs.chain f = [] := by
  simp only [chain, outward, missing]

theorem live_of_mem_chain (member : g ∈ fs.chain f) : fs.Live f := by
  cases found : fs.frame? f with
  | none =>
    rw [chain_of_none found] at member
    cases member
  | some frame => exact live_of_found found

/-- The way from a frame is the same however many frames it may have at most. -/
theorem Descending.outward_eq (h : fs.Descending) {count : Nat} (enough : f.index < count) :
    fs.outward count f = fs.chain f := by
  induction i : f.index using Nat.strongRecOn generalizing f count with
  | ind i ih =>
    subst i
    obtain ⟨count, rfl⟩ : ∃ k, count = k + 1 := ⟨count - 1, by omega⟩
    simp only [chain, outward]
    split
    · rfl
    · next frame found =>
      split
      · rfl
      · next g parent =>
        -- the parent is older, so both numbers are enough for it
        have older := h f frame g found parent
        rw [ih g.index older (by omega) rfl, ih g.index older older rfl]

theorem Descending.chain_cons (h : fs.Descending) {frame : Frame} (found : fs.frame? f = some frame)
    (parent : frame.parent = some g) : fs.chain f = f :: fs.chain g := by
  rw [← h.outward_eq (h f frame g found parent)]
  simp only [chain, outward, found, parent]

theorem Linked.descending (h : fs.Linked rootScope) : fs.Descending := by
  intro f frame g found parent
  rcases h.older f frame found with rfl | ⟨g', inside, older⟩
  · obtain ⟨bindings, found'⟩ := h.base
    cases found.symm.trans found'
    cases parent
  · cases inside.symm.trans parent
    exact older

theorem Linked.chain_root (h : fs.Linked rootScope) : fs.chain root = [root] := by
  obtain ⟨bindings, found⟩ := h.base
  simp only [chain, outward, found]

theorem Linked.chain_cons (h : fs.Linked rootScope) {frame : Frame} (found : fs.frame? f = some frame)
    (parent : frame.parent = some g) : fs.chain f = f :: fs.chain g :=
  h.descending.chain_cons found parent

/-- What holds of the root frame, and of a frame inside of a frame of which it holds, holds of every
frame. -/
theorem Linked.induction (h : fs.Linked rootScope) (holds : FrameId → Prop) (start : holds root)
    (inner : ∀ f g frame, fs.frame? f = some frame → frame.parent = some g → g.index < f.index →
      holds g → holds f) (f : FrameId) (live : fs.Live f) : holds f := by
  induction i : f.index using Nat.strongRecOn generalizing f with
  | ind i ih =>
    subst i
    obtain ⟨frame, found⟩ := Option.isSome_iff_exists.mp live
    rcases h.older f frame found with rfl | ⟨g, parent, older⟩
    · exact start
    · exact inner f g frame found parent older (ih g.index older g (live_of_lt live older) rfl)

theorem Linked.live_root (h : fs.Linked rootScope) : fs.Live root := by
  obtain ⟨bindings, found⟩ := h.base
  exact live_of_found found

theorem Linked.scope?_root (h : fs.Linked rootScope) : fs.scope? root = some rootScope := by
  obtain ⟨bindings, found⟩ := h.base
  rw [scope?, found]
  rfl

theorem Linked.self_mem (h : fs.Linked rootScope) (live : fs.Live f) : f ∈ fs.chain f := by
  obtain ⟨frame, found⟩ := Option.isSome_iff_exists.mp live
  rcases h.older f frame found with rfl | ⟨g, parent, -⟩
  · rw [h.chain_root]
    exact List.mem_singleton_self _
  · rw [h.chain_cons found parent]
    exact List.mem_cons_self

theorem Linked.root_mem (h : fs.Linked rootScope) (live : fs.Live f) : root ∈ fs.chain f := by
  refine h.induction (root ∈ fs.chain ·) ?_ ?_ f live
  · exact h.self_mem h.live_root
  · intro f g frame found parent _ ih
    rw [h.chain_cons found parent]
    exact List.mem_cons_of_mem _ ih

/-- Every frame on the way outward exists, and the way goes on from it as it does from itself. -/
theorem Linked.of_mem_chain (h : fs.Linked rootScope) (member : g ∈ fs.chain f) :
    fs.Live g ∧ fs.chain g <:+ fs.chain f := by
  refine h.induction (fun f => g ∈ fs.chain f → fs.Live g ∧ fs.chain g <:+ fs.chain f) ?_ ?_ f
    (live_of_mem_chain member) member
  · intro member
    rw [h.chain_root, List.mem_singleton] at member
    subst member
    exact ⟨h.live_root, List.suffix_refl _⟩
  · intro f parent frame found within _ ih member
    rw [h.chain_cons found within] at member ⊢
    rcases List.mem_cons.mp member with rfl | member
    · rw [h.chain_cons found within]
      exact ⟨live_of_found found, List.suffix_refl _⟩
    · exact ⟨(ih member).1, (ih member).2.trans (List.suffix_cons _ _)⟩

theorem Linked.path_root (h : fs.Linked rootScope) : fs.path root = [rootScope] := by
  obtain ⟨bindings, found⟩ := h.base
  simp [path, h.chain_root, scope?, found]

theorem Linked.path_cons (h : fs.Linked rootScope) {frame : Frame} (found : fs.frame? f = some frame)
    (parent : frame.parent = some g) : fs.path f = frame.scope :: fs.path g := by
  simp [path, h.chain_cons found parent, scope?, found]

theorem Linked.path_suffix (h : fs.Linked rootScope) (member : g ∈ fs.chain f) :
    fs.path g <:+ fs.path f :=
  (h.of_mem_chain member).2.filterMap _

theorem Linked.path_head (h : fs.Linked rootScope) {scope : ScopeId} (owned : fs.scope? f = some scope) :
    (fs.path f).head? = some scope := by
  obtain ⟨frame, found, rfl⟩ := Option.map_eq_some_iff.mp owned
  rcases h.older f frame found with rfl | ⟨g, parent, -⟩
  · obtain ⟨bindings, found'⟩ := h.base
    cases found.symm.trans found'
    rw [h.path_root]
    rfl
  · rw [h.path_cons found parent]
    rfl

theorem mem_path {scope : ScopeId} :
    scope ∈ fs.path f ↔ ∃ g ∈ fs.chain f, fs.scope? g = some scope := List.mem_filterMap

/-- A scope on the path has one owner there. -/
theorem Sound.owner_unique (h : fs.Sound rootScope) {scope : ScopeId} {g' : FrameId}
    (member : g ∈ fs.chain f) (owns : fs.scope? g = some scope) (member' : g' ∈ fs.chain f)
    (owns' : fs.scope? g' = some scope) : g = g' := by
  by_contra differ
  have apart := List.pairwise_filterMap.mp (h.distinct f)
  have : Std.Symm fun a b => ∀ s, fs.scope? a = some s → ∀ t, fs.scope? b = some t → s ≠ t :=
    ⟨fun a b different s owns t owns' => (different t owns' s owns).symm⟩
  exact apart.forall member member' differ scope owns scope owns' rfl

theorem Sound.countP_chain (h : fs.Sound rootScope) {scope : ScopeId} (inside : scope ∈ fs.path f) :
    (fs.chain f).countP (fun g => fs.scope? g = some scope) = 1 := by
  rw [← List.count_eq_one_of_mem (h.distinct f) inside, path, List.count_filterMap]
  refine List.countP_congr fun g _ => ?_
  rw [decide_eq_true_iff, beq_iff_eq]

/-! ## 2. What a frame sees -/

/-- A variable is bound in a frame of its scope, on the way outward. -/
def Bound (fs : Frames) (f : FrameId) (x : ScopeId × Name) : Prop :=
  ∃ g ∈ fs.chain f, fs.scope? g = some x.1 ∧ (fs.lookup g x.2).isSome

/-- What a context promises is there from a frame on. -/
def Sees (fs : Frames) (f : FrameId) (Γ : Context) : Prop :=
  Γ.scopes <:+ fs.path f ∧ ∀ x ∈ Γ.names, fs.Bound f x

variable {Γ Δ : Context}

theorem Sees.anti (sees : fs.Sees f Δ) (h : Γ ≤ Δ) : fs.Sees f Γ :=
  ⟨h.1.trans sees.1, fun x member => sees.2 x (h.2 member)⟩

theorem Sound.bound_inward (h : fs.Sound rootScope) {x : ScopeId × Name} (bound : fs.Bound g x)
    (member : g ∈ fs.chain f) : fs.Bound f x := by
  obtain ⟨owner, inside, here⟩ := bound
  exact ⟨owner, (h.of_mem_chain member).2.subset inside, here⟩

/-- Further in one sees what one sees outside. -/
theorem Sound.sees_inward (h : fs.Sound rootScope) (sees : fs.Sees g Γ) (member : g ∈ fs.chain f) :
    fs.Sees f Γ :=
  ⟨sees.1.trans (h.path_suffix member), fun x inside => h.bound_inward (sees.2 x inside) member⟩

/-- The frame that owns the innermost scope of a context stands just in that context. -/
theorem Sound.sees_outward (h : fs.Sound rootScope) (sees : fs.Sees f Γ) (wf : Γ.WellFormed)
    {scope : ScopeId} (head : Γ.scopes.head? = some scope) (member : g ∈ fs.chain f)
    (owns : fs.scope? g = some scope) : fs.path g = Γ.scopes ∧ fs.Sees g Γ := by
  have same : fs.path g = Γ.scopes :=
    suffix_unique (h.distinct f) (h.path_suffix member) sees.1 (h.path_head owns) head
  refine ⟨same, same ▸ List.suffix_refl _, fun x inside => ?_⟩
  obtain ⟨owner, outside, here, bound⟩ := sees.2 x inside
  -- the owner is on the way from `g`, because the scope is, and there is only one on the way from `f`
  have within : x.1 ∈ fs.path g := same ▸ wf x inside
  obtain ⟨owner', outside', here'⟩ := mem_path.mp within
  obtain rfl := h.owner_unique ((h.of_mem_chain member).2.subset outside') here' outside here
  exact ⟨owner', outside', here, bound⟩

/-- A scope on the path is found, in the frame that owns it. -/
theorem Sound.frameFor (h : fs.Sound rootScope) {env : Env} (rooted : env.root = root)
    {scope : ScopeId} (inside : scope ∈ fs.path env.current) :
    ∃ g ∈ fs.chain env.current, env.frameFor fs scope = some g ∧ fs.scope? g = some scope := by
  obtain ⟨owner, member, owns⟩ := mem_path.mp inside
  unfold Env.frameFor
  rw [rooted]
  split
  · next atRoot =>
    obtain rfl := h.owner_unique member owns (h.root_mem (live_of_mem_chain member)) atRoot
    exact ⟨_, member, rfl, owns⟩
  · rw [owner?_eq_find?]
    cases found : (fs.chain env.current).find? fun g => fs.scope? g = some scope with
    | none => exact absurd owns (by simpa using List.find?_eq_none.mp found owner member)
    | some g => exact ⟨g, List.mem_of_find?_eq_some found, rfl, by simpa using List.find?_some found⟩

/-! ## 3. Frames that grow -/

theorem Grows.live (grows : fs.Grows fs') (live : fs.Live f) : fs'.Live f := by
  obtain ⟨frame, found⟩ := Option.isSome_iff_exists.mp live
  obtain ⟨bindings, found', -⟩ := grows f frame found
  exact live_of_found found'

/-- Frames that are there keep their parents, so the way outward stays. -/
theorem Grows.outward (grows : fs.Grows fs') (descending : fs.Descending) (live : fs.Live f)
    (count : Nat) : fs'.outward count f = fs.outward count f := by
  induction count generalizing f with
  | zero => rfl
  | succ count ih =>
    obtain ⟨frame, found⟩ := Option.isSome_iff_exists.mp live
    obtain ⟨bindings, found', -⟩ := grows f frame found
    simp only [Frames.outward, found, found']
    cases parent : frame.parent with
    | none => rfl
    | some g =>
      have older := descending f frame g found parent
      simp only [ih (live_of_lt live older)]

theorem Grows.chain (grows : fs.Grows fs') (descending : fs.Descending) (live : fs.Live f) :
    fs'.chain f = fs.chain f := grows.outward descending live _

/-- Frames that have grown, with all parents older before and after. -/
structure Onward (rootScope : ScopeId) (fs fs' : Frames) : Prop where
  grows : fs.Grows fs'
  before : fs.Linked rootScope
  after : fs'.Linked rootScope

theorem Onward.chain (onward : Onward rootScope fs fs') (live : fs.Live f) :
    fs'.chain f = fs.chain f := onward.grows.chain onward.before.descending live

theorem Onward.path (onward : Onward rootScope fs fs') (live : fs.Live f) :
    fs'.path f = fs.path f := by
  unfold Frames.path
  rw [onward.chain live]
  refine List.filterMap_congr fun g member => ?_
  obtain ⟨frame, found⟩ := Option.isSome_iff_exists.mp (onward.before.of_mem_chain member).1
  have owns : fs.scope? g = some frame.scope := by simp [Frames.scope?, found]
  rw [owns, onward.grows.scope? owns]

theorem Onward.bound (onward : Onward rootScope fs fs') (live : fs.Live f) {x : ScopeId × Name}
    (bound : fs.Bound f x) : fs'.Bound f x := by
  obtain ⟨g, member, owns, value⟩ := bound
  rw [← onward.chain live] at member
  exact ⟨g, member, onward.grows.scope? owns, onward.grows.lookup value⟩

theorem Onward.sees (onward : Onward rootScope fs fs') (live : fs.Live f) (sees : fs.Sees f Γ) :
    fs'.Sees f Γ := by
  refine ⟨?_, fun x member => onward.bound live (sees.2 x member)⟩
  rw [onward.path live]
  exact sees.1

theorem frame?_push_eq (fs : Frames) (scope : ScopeId) (bindings : Bindings)
    (parent : Option FrameId) (f : FrameId) :
    (fs.push scope bindings parent).2.frame? f =
      if f = (fs.push scope bindings parent).1 then some ⟨scope, bindings, parent⟩
      else fs.frame? f := by
  obtain ⟨i⟩ := f
  simp only [frame?, push, Array.getElem?_push, FrameId.mk.injEq]

theorem Linked.define (h : fs.Linked rootScope) (g : FrameId) (name : Name) (value : Value) :
    (fs.define g name value).Linked rootScope := by
  obtain ⟨bindings, found⟩ := h.base
  refine ⟨?_, fun f frame found' => ?_⟩
  · obtain ⟨bindings', found', -⟩ := grows_define fs g name value root _ found
    exact ⟨bindings', found'⟩
  · rw [frame?_define] at found'
    split at found'
    · obtain ⟨before, found, rfl⟩ := Option.map_eq_some_iff.mp found'
      exact h.older f before found
    · exact h.older f frame found'

/-- Binding a name changes no way outward. -/
theorem Sound.define (h : fs.Sound rootScope) (g : FrameId) (name : Name) (value : Value) :
    (fs.define g name value).Sound rootScope := by
  refine ⟨h.toLinked.define g name value, fun f => ?_⟩
  have same : (fs.define g name value).path f = fs.path f := by
    unfold path
    rw [chain_define]
    exact List.filterMap_congr fun g' _ => scope?_define ..
  rw [same]
  exact h.distinct f

theorem index_lt_push (live : fs.Live g) (scope : ScopeId) (bindings : Bindings)
    (parent : Option FrameId) : g.index < (fs.push scope bindings parent).1.index :=
  live_iff.mp live

/-- A frame that is made inside of another stands one scope further in. -/
theorem Linked.push (h : fs.Linked rootScope) (live : fs.Live g) (scope : ScopeId)
    (bindings : Bindings) :
    (fs.push scope bindings (some g)).2.Linked rootScope := by
  obtain ⟨bindings', found⟩ := h.base
  refine ⟨⟨bindings', frame?_push found ..⟩, fun f frame found' => ?_⟩
  rw [frame?_push_eq] at found'
  split at found'
  · next new =>
    cases found'
    exact .inr ⟨g, rfl, new ▸ index_lt_push live ..⟩
  · exact h.older f frame found'

theorem Linked.onward_push (h : fs.Linked rootScope) (live : fs.Live g) (scope : ScopeId)
    (bindings : Bindings) : Onward rootScope fs (fs.push scope bindings (some g)).2 :=
  ⟨grows_push fs scope bindings (some g), h, h.push live scope bindings⟩

theorem Linked.onward_define (h : fs.Linked rootScope) (g : FrameId) (name : Name) (value : Value) :
    Onward rootScope fs (fs.define g name value) :=
  ⟨grows_define fs g name value, h, h.define g name value⟩

/-- The way outward from a new frame begins with the frame and goes on from the one outside. -/
theorem Linked.chain_push (h : fs.Linked rootScope) (live : fs.Live g) (scope : ScopeId)
    (bindings : Bindings) :
    (fs.push scope bindings (some g)).2.chain (fs.push scope bindings (some g)).1 =
      (fs.push scope bindings (some g)).1 :: fs.chain g := by
  have found : (fs.push scope bindings (some g)).2.frame? (fs.push scope bindings (some g)).1 =
      some ⟨scope, bindings, some g⟩ := by
    rw [frame?_push_eq, if_pos rfl]
  rw [(h.push live scope bindings).chain_cons found rfl, (h.onward_push live scope bindings).chain live]

theorem scope?_push (fs : Frames) (scope : ScopeId) (bindings : Bindings)
    (parent : Option FrameId) :
    (fs.push scope bindings parent).2.scope? (fs.push scope bindings parent).1 = some scope := by
  rw [scope?, frame?_push_eq, if_pos rfl]
  rfl

theorem Linked.path_push (h : fs.Linked rootScope) (live : fs.Live g) (scope : ScopeId)
    (bindings : Bindings) :
    (fs.push scope bindings (some g)).2.path (fs.push scope bindings (some g)).1 =
      scope :: fs.path g := by
  have later := h.onward_push live scope bindings
  rw [path, h.chain_push live, List.filterMap_cons_some (scope?_push ..), ← later.chain live]
  exact congrArg (scope :: ·) (later.path live)

/-- What is bound after a push was bound before it, or is bound in the new frame. -/
theorem lookup_push_eq (fs : Frames) (scope : ScopeId) (bindings : Bindings)
    (parent : Option FrameId) (f : FrameId) (name : Name) :
    (fs.push scope bindings parent).2.lookup f name =
      if f = (fs.push scope bindings parent).1 then bindings.find? name else fs.lookup f name := by
  simp only [lookup, frame?_push_eq]
  split <;> rfl

theorem lookup_push_self (fs : Frames) (scope : ScopeId) (bindings : Bindings)
    (parent : Option FrameId) (name : Name) :
    (fs.push scope bindings parent).2.lookup (fs.push scope bindings parent).1 name =
      bindings.find? name := by
  rw [lookup_push_eq, if_pos rfl]

/-- In a new frame is bound what is bound outside, and what the frame was made with. -/
theorem Linked.bound_push (h : fs.Linked rootScope) (live : fs.Live g) (scope : ScopeId)
    (bindings : Bindings) {x : ScopeId × Name}
    (bound : fs.Bound g x ∨ x.1 = scope ∧ (bindings.find? x.2).isSome) :
    (fs.push scope bindings (some g)).2.Bound (fs.push scope bindings (some g)).1 x := by
  rw [Bound, h.chain_push live]
  rcases bound with ⟨owner, inside, owns, value⟩ | ⟨rfl, value⟩
  · have grows := grows_push fs scope bindings (some g)
    exact ⟨owner, List.mem_cons_of_mem _ inside, grows.scope? owns, grows.lookup value⟩
  · refine ⟨_, List.mem_cons_self, scope?_push .., ?_⟩
    rwa [lookup_push_self]

theorem not_live_push (fs : Frames) (scope : ScopeId) (bindings : Bindings) (parent : Option FrameId) :
    ¬ fs.Live (fs.push scope bindings parent).1 :=
  fun live => Nat.lt_irrefl _ (index_lt_push live scope bindings parent)

theorem live_push (fs : Frames) (scope : ScopeId) (bindings : Bindings) (parent : Option FrameId) :
    (fs.push scope bindings parent).2.Live (fs.push scope bindings parent).1 := by
  rw [Live, frame?_push_eq, if_pos rfl]
  rfl

theorem Sound.push (h : fs.Sound rootScope) (live : fs.Live g) {scope : ScopeId}
    (new : scope ∉ fs.path g) (bindings : Bindings) :
    (fs.push scope bindings (some g)).2.Sound rootScope := by
  have linked := h.toLinked.push live scope bindings
  refine ⟨linked, fun f => ?_⟩
  cases found : fs.frame? f with
  | some frame =>
    rw [(h.toLinked.onward_push live scope bindings).path (live_of_found found)]
    exact h.distinct f
  | none =>
    by_cases last : f = (fs.push scope bindings (some g)).1
    · rw [last, h.path_push live]
      exact List.nodup_cons.mpr ⟨new, h.distinct g⟩
    · have missing : (fs.push scope bindings (some g)).2.frame? f = none := by
        rw [frame?_push_eq, if_neg last, found]
      rw [path, chain_of_none missing]
      exact List.nodup_nil

/-! ## 4. The frames of a run that begins -/

/-- The root frame alone. -/
def single (rootScope : ScopeId) (bindings : Bindings) : Frames := ⟨#[⟨rootScope, bindings, none⟩]⟩

theorem define_single (rootScope : ScopeId) (bindings : Bindings) (name : Name) (v : Value) :
    (single rootScope bindings).define root name v = single rootScope (bindings.insert name v) := rfl

theorem frame?_single {rootScope : ScopeId} {bindings : Bindings} {f : FrameId} {frame : Frame}
    (found : (single rootScope bindings).frame? f = some frame) :
    f = root ∧ frame = ⟨rootScope, bindings, none⟩ := by
  obtain ⟨i⟩ := f
  cases i with
  | zero => exact ⟨rfl, (Option.some.inj found).symm⟩
  | succ i => simp [frame?, single] at found

theorem lookup_single {rootScope : ScopeId} {bindings : Bindings} {f : FrameId} {name : Name}
    {v : Value} (found : (single rootScope bindings).lookup f name = some v) :
    bindings.find? name = some v := by
  obtain ⟨frame, here, bound⟩ := Option.bind_eq_some_iff.mp found
  obtain ⟨-, rfl⟩ := frame?_single here
  exact bound

theorem sound_single (rootScope : ScopeId) (bindings : Bindings) :
    (single rootScope bindings).Sound rootScope := by
  have linked : (single rootScope bindings).Linked rootScope :=
    ⟨⟨bindings, rfl⟩, fun f frame found => .inl (frame?_single found).1⟩
  refine ⟨linked, fun f => ?_⟩
  cases found : (single rootScope bindings).frame? f with
  | none =>
    rw [path, chain_of_none found]
    exact List.nodup_nil
  | some frame =>
    obtain ⟨rfl, -⟩ := frame?_single found
    rw [linked.path_root]
    exact List.nodup_singleton _

end Frames

/-- The constants that are bound before a program runs. -/
def hostConstants : List (String × Value) :=
  [("true", .bool true), ("false", .bool false), ("null", .null)]

namespace Run

theorem bindConstants_single (s : Session) {rootScope : ScopeId} {bindings : Bindings}
    (root : s.env.root = Frames.root) (alone : s.world.frames = .single rootScope bindings) :
    ∃ bindings', s.bindConstants.world.frames = .single rootScope bindings' ∧
      (∀ name v, bindings'.find? name = some v →
        bindings.find? name = some v ∨ ∃ text, (text, v) ∈ hostConstants) ∧
      ∀ name, ((bindings.find? name).isSome ∨ ∃ constant ∈ hostConstants,
        s.program.interner.find? constant.1 = some name) → (bindings'.find? name).isSome := by
  unfold Session.bindConstants
  rw [← hostConstants]
  generalize hostConstants = constants
  induction constants generalizing s bindings with
  | nil => exact ⟨bindings, alone, fun _ _ => .inl, fun name h => h.elim id nofun⟩
  | cons constant constants ih =>
    obtain ⟨text, v⟩ := constant
    rw [List.foldl_cons]
    cases mentioned : s.program.interner.find? text with
    | none =>
      simp only [mentioned]
      obtain ⟨bindings', same, only, all⟩ := ih s root alone
      refine ⟨bindings', same, fun name v bound => (only name v bound).imp_right ?_, fun name h => ?_⟩
      · exact fun ⟨text, member⟩ => ⟨text, List.mem_cons_of_mem _ member⟩
      · refine all name (h.imp_right fun ⟨constant, member, here⟩ => ?_)
        rcases List.mem_cons.mp member with rfl | member
        · cases mentioned.symm.trans here
        · exact ⟨constant, member, here⟩
    | some known =>
      simp only [mentioned]
      have alone' : (s.define s.env.root known v).world.frames =
          .single rootScope (bindings.insert known v) := by
        show s.world.frames.define s.env.root known v = _
        rw [root, alone, Frames.define_single]
      obtain ⟨bindings', same, only, all⟩ := ih (s.define s.env.root known v) root alone'
      refine ⟨bindings', same, fun name v' bound => ?_, fun name h => all name ?_⟩
      · rcases only name v' bound with before | ⟨text', member⟩
        · rw [Bindings.find?_insert] at before
          split at before
          · cases before
            exact .inr ⟨text, List.mem_cons_self⟩
          · exact .inl before
        · exact .inr ⟨text', List.mem_cons_of_mem _ member⟩
      · rw [Bindings.find?_insert]
        split
        · exact .inl rfl
        · next differ =>
          refine h.imp_right fun ⟨constant, member, here⟩ => ?_
          rcases List.mem_cons.mp member with rfl | member
          · exact absurd (Option.some.inj (here.symm.trans mentioned)) differ
          · exact ⟨constant, member, here⟩

/-- Before the first move there is the root frame, which binds the constants, and the main program in
it. -/
theorem machine_initial_single (p : Program) (c : RunConfig) : ∃ bindings,
    (initial p c).machine =
      ⟨{ World.new c.printer with frames := .single p.attrs.rootScope bindings },
        ⟨⟨Frames.root, Frames.root⟩, .give .void, [.statements p.rootStatements]⟩, #[]⟩ ∧
      (∀ name v, bindings.find? name = some v → ∃ text, (text, v) ∈ hostConstants) ∧
      ∀ constant ∈ hostConstants, ∀ name, p.interner.find? constant.1 = some name →
        (bindings.find? name).isSome := by
  obtain ⟨frames, -, bound⟩ := pool_bindConstants (Session.start p c)
  obtain ⟨bindings, alone, only, all⟩ :=
    bindConstants_single (Session.start p c) rfl
      (rfl : (Session.start p c).world.frames = .single p.attrs.rootScope .empty)
  refine ⟨bindings, ?_, fun name v found => (only name v found).resolve_left nofun,
    fun constant member name found => all name (.inr ⟨constant, member, found⟩)⟩
  rw [← alone]
  unfold initial Session.setMain Session.env Session.world
  rw [bound]
  rfl

end Run

end Strand
