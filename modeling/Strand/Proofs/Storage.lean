import Mathlib.Data.List.Induction
import Strand.Proofs.Scope.Path

/-!
# Environments that share frames

Any number of environments stand among the same frames. Each of them enters frames inside of whichever frame
it is given, goes outward, and goes back to frames that another one has left. Who reaches a frame sees what is
bound there, so what a name means could depend on all that anyone has done.

It does not. An environment resolves a scope to one frame: its root frame if the scope is the one of that frame,
else the nearest frame outward that owns the scope (`Env.Resolves`). There a name has the value that was bound
last, through whichever environment (`Storage.Latest`). `Storage.play` makes any list of calls, and
`Storage.shows_latest` says that all that its environments show afterwards is this plain store.

What carries the proof is that every parent is older than the frames inside of it. Calls keep that
(`Storage.Sound`), so every way outward ends, wherever an environment has been put.
-/

set_option autoImplicit false

namespace Strand

/-! ## 1. The way outward -/

namespace Frames

/-- The whole way outward from a frame, up to one that has no parent. -/
inductive Way (fs : Frames) : FrameId → List FrameId → Prop
  | last {f : FrameId} {frame : Frame} (found : fs.frame? f = some frame)
      (outermost : frame.parent = none) : Way fs f [f]
  | inside {f g : FrameId} {frame : Frame} {way : List FrameId} (found : fs.frame? f = some frame)
      (parent : frame.parent = some g) (rest : Way fs g way) : Way fs f (f :: way)

variable {fs : Frames} {f g : FrameId}

theorem Way.unique {way way' : List FrameId} (whole : fs.Way f way) (whole' : fs.Way f way') :
    way = way' := by
  induction whole generalizing way' with
  | last found outermost =>
    cases whole' with
    | last => rfl
    | inside found' parent =>
      cases found.symm.trans found'
      cases outermost.symm.trans parent
  | inside found parent rest ih =>
    cases whole' with
    | last found' outermost =>
      cases found.symm.trans found'
      cases outermost.symm.trans parent
    | inside found' parent' rest' =>
      cases found.symm.trans found'
      cases parent.symm.trans parent'
      rw [ih rest']

theorem Way.exists_cons {way : List FrameId} (whole : fs.Way f way) : ∃ outer, way = f :: outer := by
  cases whole with
  | last => exact ⟨[], rfl⟩
  | inside => exact ⟨_, rfl⟩

/-- The way outward from every frame ends, and the chain of the frame is the whole of it. -/
theorem Descending.way_chain (h : fs.Descending) (live : fs.Live f) : fs.Way f (fs.chain f) := by
  induction i : f.index using Nat.strongRecOn generalizing f with
  | ind i ih =>
    subst i
    obtain ⟨frame, found⟩ := Option.isSome_iff_exists.mp live
    cases parent : frame.parent with
    | none =>
      have alone : fs.chain f = [f] := by simp only [chain, outward, found, parent]
      rw [alone]
      exact .last found parent
    | some g =>
      have older := h f frame g found parent
      rw [h.chain_cons found parent]
      exact .inside found parent (ih g.index older (live_of_lt live older) rfl)

theorem descending_empty : empty.Descending := by
  intro f frame g found
  simp [frame?, empty] at found

/-- A new frame is younger than the one that it is made in. -/
theorem Descending.push (h : fs.Descending) {parent : Option FrameId}
    (outside : ∀ g, parent = some g → fs.Live g) (scope : ScopeId) (bindings : Bindings) :
    (fs.push scope bindings parent).2.Descending := by
  intro f frame g found inside
  rw [frame?_push_eq] at found
  split at found
  · next new =>
    cases found
    exact new ▸ index_lt_push (outside g inside) scope bindings parent
  · exact h f frame g found inside

theorem Descending.define (h : fs.Descending) (f : FrameId) (name : Name) (v : Value) :
    (fs.define f name v).Descending := by
  intro g frame outside found inside
  rw [frame?_define] at found
  split at found
  · obtain ⟨before, found', rfl⟩ := Option.map_eq_some_iff.mp found
    exact h g before outside found' inside
  · exact h g frame outside found inside

theorem live_of_lookup {name : Name} {v : Value} (bound : fs.lookup f name = some v) : fs.Live f := by
  obtain ⟨frame, found, -⟩ := Option.bind_eq_some_iff.mp bound
  exact live_of_found found

/-- A new frame without bindings binds nothing, and no frame that was there had its identity. -/
theorem lookup_push_empty (fs : Frames) (scope : ScopeId) (parent : Option FrameId) (f : FrameId)
    (name : Name) : (fs.push scope .empty parent).2.lookup f name = fs.lookup f name := by
  rw [lookup_push_eq]
  split
  · next new =>
    cases bound : fs.lookup f name with
    | none => rfl
    | some v => exact absurd (new ▸ live_of_lookup bound) (not_live_push fs scope .empty parent)
  · rfl

end Frames

/-! ## 2. Resolution -/

namespace Env

/-- The frame to which an environment resolves a scope: its root frame for the scope of that frame, else the
nearest frame on the way outward that owns the scope. -/
inductive Resolves (env : Env) (fs : Frames) (scope : ScopeId) : FrameId → Prop
  | root (owns : fs.scope? env.root = some scope) : Resolves env fs scope env.root
  | outward {inner outer : List FrameId} {f : FrameId} (elsewhere : fs.scope? env.root ≠ some scope)
      (whole : fs.Way env.current (inner ++ f :: outer)) (owns : fs.scope? f = some scope)
      (nearest : ∀ g ∈ inner, fs.scope? g ≠ some scope) : Resolves env fs scope f

/-- An environment that stands in frames that exist. -/
structure Placed (env : Env) (fs : Frames) : Prop where
  current : fs.Live env.current
  root : fs.Live env.root

variable {env : Env} {fs : Frames} {scope : ScopeId} {f : FrameId}

theorem Placed.of_grows {fs' : Frames} (placed : env.Placed fs) (grows : fs.Grows fs') : env.Placed fs' :=
  ⟨grows.live placed.current, grows.live placed.root⟩

theorem Resolves.live (resolves : env.Resolves fs scope f) : fs.Live f := by
  have owner : ∀ {g}, fs.scope? g = some scope → fs.Live g := by
    intro g owns
    obtain ⟨frame, found, -⟩ := Option.map_eq_some_iff.mp owns
    exact Frames.live_of_found found
  cases resolves with
  | root owns => exact owner owns
  | outward _ _ owns => exact owner owns

section
variable (descending : fs.Descending) (placed : env.Placed fs)
include descending placed

theorem frameFor_eq_some_iff : env.frameFor fs scope = some f ↔ env.Resolves fs scope f := by
  have whole := descending.way_chain placed.current
  unfold frameFor
  split
  · next owns =>
    constructor
    · rintro ⟨⟩
      exact .root owns
    · intro resolves
      cases resolves with
      | root => rfl
      | outward elsewhere => exact absurd owns elsewhere
  · next elsewhere =>
    rw [Frames.owner?_eq_find?, List.find?_eq_some_iff_append]
    constructor
    · rintro ⟨owns, inner, outer, split, nearest⟩
      rw [split] at whole
      exact .outward elsewhere whole (by simpa using owns) (by simpa using nearest)
    · intro resolves
      cases resolves with
      | root owns => exact absurd owns elsewhere
      | outward _ whole' owns nearest =>
        exact ⟨by simpa using owns, _, _, whole.unique whole', by simpa using nearest⟩

theorem frameFor_eq_none_iff : env.frameFor fs scope = none ↔ ¬ ∃ f, env.Resolves fs scope f := by
  simp only [← frameFor_eq_some_iff descending placed, Option.eq_none_iff_forall_ne_some, not_exists]

theorem Resolves.unique {g : FrameId} (resolves : env.Resolves fs scope f)
    (other : env.Resolves fs scope g) : f = g := by
  rw [← frameFor_eq_some_iff descending placed] at resolves other
  exact Option.some.inj (resolves.symm.trans other)

theorem get_eq_ok_iff (name : Name) (text : String) (v : Value) :
    env.get fs scope name text = .ok v ↔ ∃ f, env.Resolves fs scope f ∧ fs.lookup f name = some v := by
  simp only [← frameFor_eq_some_iff descending placed, ← Option.bind_eq_some_iff]
  unfold get
  split
  · next w found => rw [found, Except.ok.injEq, Option.some.injEq]
  · next missing => simp [missing]

theorem get_eq_error_iff (name : Name) (text : String) :
    env.get fs scope name text = .error (.unboundName text) ↔
      ¬ ∃ f v, env.Resolves fs scope f ∧ fs.lookup f name = some v := by
  rw [exists_comm, not_exists]
  simp only [← get_eq_ok_iff descending placed name text]
  unfold get
  split
  · next w found => simp
  · next missing => simp

theorem set_of_resolves (resolves : env.Resolves fs scope f) (name : Name) (v : Value) (text : String) :
    env.set fs scope name v text = .ok (fs.define f name v) := by
  rw [set, frameToSet, (frameFor_eq_some_iff descending placed).mpr resolves]
  rfl

theorem set_of_unresolved (unresolved : ¬ ∃ f, env.Resolves fs scope f) (name : Name) (v : Value)
    (text : String) : env.set fs scope name v text = .error (.unboundName text) := by
  rw [set, frameToSet, (frameFor_eq_none_iff descending placed).mpr unresolved]
  rfl

/-- Going outward takes the innermost frame from the chain, except from a chain of one frame. -/
theorem chain_pop : env.chain fs = [env.current] ∧ env.pop fs = env ∨
    env.chain fs = env.current :: (env.pop fs).chain fs := by
  obtain ⟨frame, found⟩ := Option.isSome_iff_exists.mp placed.current
  have whole := descending.way_chain placed.current
  cases parent : frame.parent with
  | none =>
    refine .inl ⟨whole.unique (.last found parent), ?_⟩
    simp [pop, Frames.parent?, found, parent]
  | some g =>
    have moved : env.pop fs = { env with current := g } := by
      simp [pop, Frames.parent?, found, parent]
    rw [moved]
    exact .inr (descending.chain_cons found parent)

theorem Placed.pop : (env.pop fs).Placed fs := by
  unfold Env.pop
  split
  · next g outside =>
    obtain ⟨frame, found, parent⟩ := Option.bind_eq_some_iff.mp outside
    exact ⟨Frames.live_of_lt placed.current (descending _ _ _ found parent), placed.root⟩
  · exact placed

end

@[simp] theorem root_pop (env : Env) (fs : Frames) : (env.pop fs).root = env.root := by
  unfold pop
  split <;> rfl

end Env

/-! ## 3. Calls -/

/-- Frames, and every environment that was made to stand among them. -/
structure Storage where
  frames : Frames
  envs : List Env

/-- A call on an environment, which is given by its number, or on a frame. -/
inductive StorageCall where
  | new (rootScope : ScopeId)
  | clone (who : Nat)
  | push (who : Nat) (scope : ScopeId)
  | pushUnder (who : Nat) (scope : ScopeId) (outside : FrameId)
  | pop (who : Nat)
  | restore (who : Nat) (f : FrameId)
  | define (f : FrameId) (name : Name) (v : Value)
  | get (who : Nat) (scope : ScopeId) (name : Name) (text : String)
  | set (who : Nat) (scope : ScopeId) (name : Name) (v : Value) (text : String)

/-- What a call gives. -/
inductive StorageAnswer where
  | done
  | value (v : Value)
  | fault (cause : Cause)

namespace Storage

def new : Storage := ⟨.empty, []⟩

/-- An environment goes somewhere else. -/
def move (s : Storage) (who : Nat) (env : Env) : Storage := { s with envs := s.envs.set who env }

/-- What a call gives, and the storage after it. No call is made on an environment or on a frame that does not
exist. -/
def call? (s : Storage) : StorageCall → Option (StorageAnswer × Storage)
  | .new rootScope =>
    let (env, frames) := Env.new s.frames rootScope
    some (.done, ⟨frames, s.envs ++ [env]⟩)
  | .clone who => s.envs[who]?.map fun env => (.done, { s with envs := s.envs ++ [env] })
  | .push who scope => s.envs[who]?.map fun env =>
    let (env, frames) := env.push s.frames scope
    (.done, { s with frames }.move who env)
  | .pushUnder who scope outside =>
    (s.frames.frame? outside).bind fun _ => s.envs[who]?.map fun env =>
      let (env, frames) := env.pushUnder s.frames scope outside
      (.done, { s with frames }.move who env)
  | .pop who => s.envs[who]?.map fun env => (.done, s.move who (env.pop s.frames))
  | .restore who f =>
    (s.frames.frame? f).bind fun _ => s.envs[who]?.map fun env => (.done, s.move who (env.restore f))
  | .define f name v =>
    (s.frames.frame? f).map fun _ => (.done, { s with frames := s.frames.define f name v })
  | .get who scope name text => s.envs[who]?.map fun env =>
    match env.get s.frames scope name text with
    | .ok v => (.value v, s)
    | .error cause => (.fault cause, s)
  | .set who scope name v text => s.envs[who]?.map fun env =>
    match env.set s.frames scope name v text with
    | .ok frames => (.done, { s with frames })
    | .error cause => (.fault cause, s)

/-- The storage after a list of calls. -/
def play (s : Storage) : List StorageCall → Option Storage
  | [] => some s
  | call :: calls => (s.call? call).bind fun (_, s') => s'.play calls

/-- A call succeeds in binding a name: in the frame that it is made on, or in the one to which its environment
resolves the scope. -/
inductive Binds (s : Storage) : StorageCall → FrameId → Name → Value → Prop
  | define {f : FrameId} {name : Name} {v : Value} (live : s.frames.Live f) :
      Binds s (.define f name v) f name v
  | set {who : Nat} {env : Env} {scope : ScopeId} {f : FrameId} {name : Name} {v : Value} {text : String}
      (here : s.envs[who]? = some env) (resolves : env.Resolves s.frames scope f) :
      Binds s (.set who scope name v text) f name v

/-- Every parent is older, and every environment stands in frames that exist. -/
structure Sound (s : Storage) : Prop where
  descending : s.frames.Descending
  placed : ∀ env ∈ s.envs, env.Placed s.frames

/-- What a call does with the frames: nothing, or it makes one, or it binds one name in one frame. -/
inductive Effect (s : Storage) (call : StorageCall) (s' : Storage) : Prop
  | none (silent : ∀ f name v, ¬ s.Binds call f name v) (frames : s'.frames = s.frames)
      (placed : ∀ env ∈ s'.envs, env.Placed s'.frames)
  | frame (silent : ∀ f name v, ¬ s.Binds call f name v) (scope : ScopeId) (parent : Option FrameId)
      (outside : ∀ g, parent = some g → s.frames.Live g)
      (frames : s'.frames = (s.frames.push scope .empty parent).2)
      (placed : ∀ env ∈ s'.envs, env.Placed s'.frames)
  | binding (f : FrameId) (name : Name) (v : Value)
      (only : ∀ g other w, s.Binds call g other w ↔ g = f ∧ other = name ∧ w = v)
      (frames : s'.frames = s.frames.define f name v) (envs : s'.envs = s.envs)

variable {s s' : Storage} {call : StorageCall} {answer : StorageAnswer} {env : Env} {who : Nat}

theorem Sound.of_here (h : s.Sound) (here : s.envs[who]? = some env) : env.Placed s.frames :=
  h.placed env (List.mem_of_getElem? here)

theorem Binds.live {f : FrameId} {name : Name} {v : Value} (binds : s.Binds call f name v) :
    s.frames.Live f := by
  cases binds with
  | define live => exact live
  | set _ resolves => exact resolves.live

section
variable {envs : List Env} {fs : Frames} (others : ∀ env ∈ envs, env.Placed fs) (placed : env.Placed fs)
include others placed

theorem placed_append : ∀ other ∈ envs ++ [env], other.Placed fs := by
  intro other member
  rcases List.mem_append.mp member with member | member
  · exact others other member
  · rwa [List.mem_singleton.mp member]

theorem placed_set (who : Nat) : ∀ other ∈ envs.set who env, other.Placed fs := by
  intro other member
  rcases List.mem_or_eq_of_mem_set member with member | rfl
  · exact others other member
  · exact placed

end

/-- An environment enters a new frame inside of one that exists. -/
theorem Sound.enters (h : s.Sound) (here : s.envs[who]? = some env) {outside : FrameId}
    (live : s.frames.Live outside) (silent : ∀ f name v, ¬ s.Binds call f name v) (scope : ScopeId) :
    Effect s call ({ s with frames := (env.pushUnder s.frames scope outside).2 }.move who
      (env.pushUnder s.frames scope outside).1) := by
  have grows := Frames.grows_push s.frames scope .empty (some outside)
  refine .frame silent scope (some outside) ?_ rfl ?_
  · rintro g ⟨⟩
    exact live
  · refine placed_set (fun other member => (h.placed other member).of_grows grows) ⟨?_, ?_⟩ who
    · exact Frames.live_push ..
    · exact grows.live (h.of_here here).root

/-- A call of `set` binds the name in the frame that the scope is resolved to. If there is none, it fails and
does nothing. -/
theorem Sound.sets (h : s.Sound) (here : s.envs[who]? = some env) {scope : ScopeId} {name : Name} {v : Value}
    {text : String} (made : s.call? (.set who scope name v text) = some (answer, s')) :
    Effect s (.set who scope name v text) s' := by
  have placed := h.of_here here
  simp only [call?, here, Option.map_some] at made
  by_cases resolved : ∃ f, env.Resolves s.frames scope f
  · obtain ⟨f, resolves⟩ := resolved
    rw [Env.set_of_resolves h.descending placed resolves] at made
    cases made
    refine .binding f name v (fun g other w => ⟨?_, ?_⟩) rfl rfl
    · intro binds
      cases binds with
      | set here' resolves' =>
        cases here.symm.trans here'
        exact ⟨resolves'.unique h.descending placed resolves, rfl, rfl⟩
    · rintro ⟨rfl, rfl, rfl⟩
      exact .set here resolves
  · rw [Env.set_of_unresolved h.descending placed resolved] at made
    cases made
    refine .none (fun g other w binds => ?_) rfl h.placed
    cases binds with
    | set here' resolves =>
      cases here.symm.trans here'
      exact resolved ⟨g, resolves⟩

/-- All that a call can do. -/
theorem Sound.effect (h : s.Sound) (made : s.call? call = some (answer, s')) : Effect s call s' := by
  cases call with
  | new rootScope =>
    cases made
    have grows := Frames.grows_push s.frames rootScope .empty none
    have inside : Env.Placed ⟨_, _⟩ (s.frames.push rootScope .empty none).2 :=
      ⟨Frames.live_push .., Frames.live_push ..⟩
    exact .frame nofun rootScope none nofun rfl
      (placed_append (fun other member => (h.placed other member).of_grows grows) inside)
  | clone who =>
    obtain ⟨env, here, same⟩ := Option.map_eq_some_iff.mp made
    cases same
    exact .none nofun rfl (placed_append h.placed (h.of_here here))
  | push who scope =>
    obtain ⟨env, here, same⟩ := Option.map_eq_some_iff.mp made
    cases same
    refine h.enters here (h.of_here here).current ?_ scope
    nofun
  | pushUnder who scope outside =>
    obtain ⟨frame, found, made⟩ := Option.bind_eq_some_iff.mp made
    obtain ⟨env, here, same⟩ := Option.map_eq_some_iff.mp made
    cases same
    refine h.enters here (Frames.live_of_found found) ?_ scope
    nofun
  | pop who =>
    obtain ⟨env, here, same⟩ := Option.map_eq_some_iff.mp made
    cases same
    exact .none nofun rfl (placed_set h.placed ((h.of_here here).pop h.descending) who)
  | restore who f =>
    obtain ⟨frame, found, made⟩ := Option.bind_eq_some_iff.mp made
    obtain ⟨env, here, same⟩ := Option.map_eq_some_iff.mp made
    cases same
    have placed : (env.restore f).Placed s.frames := ⟨Frames.live_of_found found, (h.of_here here).root⟩
    exact .none nofun rfl (placed_set h.placed placed who)
  | define f name v =>
    obtain ⟨frame, found, same⟩ := Option.map_eq_some_iff.mp made
    cases same
    refine .binding f name v (fun g other w => ⟨?_, ?_⟩) rfl rfl
    · rintro ⟨⟩
      exact ⟨rfl, rfl, rfl⟩
    · rintro ⟨rfl, rfl, rfl⟩
      exact .define (Frames.live_of_found found)
  | get who scope name text =>
    obtain ⟨env, here, same⟩ := Option.map_eq_some_iff.mp made
    have kept : s' = s := by
      split at same <;> cases same <;> rfl
    subst kept
    exact .none nofun rfl h.placed
  | set who scope name v text =>
    obtain ⟨env, here, -⟩ := Option.map_eq_some_iff.mp made
    exact h.sets here made

/-- A call keeps the storage sound. -/
theorem Sound.after (h : s.Sound) (made : s.call? call = some (answer, s')) : s'.Sound := by
  cases h.effect made with
  | none silent frames placed => exact ⟨frames ▸ h.descending, placed⟩
  | frame silent scope parent outside frames placed =>
    exact ⟨frames ▸ h.descending.push outside scope .empty, placed⟩
  | binding f name v only frames envs =>
    refine ⟨frames ▸ h.descending.define f name v, ?_⟩
    have grows := Frames.grows_define s.frames f name v
    rw [frames, envs]
    exact fun env member => (h.placed env member).of_grows grows

/-- After a call a name has the value to which the call binds it, or else the one that it had. -/
theorem Sound.lookup_after (h : s.Sound) (made : s.call? call = some (answer, s')) (f : FrameId)
    (name : Name) (v : Value) :
    s'.frames.lookup f name = some v ↔
      s.Binds call f name v ∨ (∀ w, ¬ s.Binds call f name w) ∧ s.frames.lookup f name = some v := by
  cases h.effect made with
  | none silent frames placed => simp [frames, silent]
  | frame silent scope parent outside frames placed => simp [frames, silent, Frames.lookup_push_empty]
  | binding g other w only frames envs =>
    have live : s.frames.Live g := ((only g other w).mpr ⟨rfl, rfl, rfl⟩).live
    rw [frames, Frames.lookup_define]
    simp only [only]
    by_cases here : f = g ∧ name = other
    · obtain ⟨rfl, rfl⟩ := here
      have there : (s.frames.frame? f).isSome := live
      simp [there, eq_comm]
    · have elsewhere : ¬ (f = g ∧ name = other ∧ (s.frames.frame? g).isSome) :=
        fun ⟨first, second, _⟩ => here ⟨first, second⟩
      rw [if_neg elsewhere]
      simp [← and_assoc, here]

/-! ## 4. Histories -/

/-- The call at a position of the list, which is played from the start, binds a name in a frame. -/
def BindsAt (calls : List StorageCall) (i : Nat) (f : FrameId) (name : Name) (v : Value) : Prop :=
  ∃ s call, new.play (calls.take i) = some s ∧ calls[i]? = some call ∧ s.Binds call f name v

/-- Of the calls that bind a name in a frame, the last one binds it to `v`. -/
def Latest (calls : List StorageCall) (f : FrameId) (name : Name) (v : Value) : Prop :=
  ∃ i, BindsAt calls i f name v ∧ ∀ j, i < j → ∀ w, ¬ BindsAt calls j f name w

variable {calls : List StorageCall} {f : FrameId} {name : Name} {v : Value}

theorem play_concat (s : Storage) (calls : List StorageCall) (call : StorageCall) :
    s.play (calls ++ [call]) = (s.play calls).bind fun s' => (s'.call? call).map Prod.snd := by
  induction calls generalizing s with
  | nil =>
    simp only [List.nil_append, play, Option.bind_some]
    cases s.call? call <;> rfl
  | cons first calls ih =>
    simp only [List.cons_append, play]
    cases s.call? first with
    | none => rfl
    | some made => exact ih made.2

theorem exists_of_play_concat (played : new.play (calls ++ [call]) = some s') :
    ∃ s answer, new.play calls = some s ∧ s.call? call = some (answer, s') := by
  rw [play_concat] at played
  obtain ⟨s, before, made⟩ := Option.bind_eq_some_iff.mp played
  obtain ⟨⟨answer, after⟩, made', rfl⟩ := Option.map_eq_some_iff.mp made
  exact ⟨s, answer, before, made'⟩

theorem sound_play (played : new.play calls = some s) : s.Sound := by
  induction calls using List.reverseRecOn generalizing s with
  | nil =>
    cases played
    exact ⟨Frames.descending_empty, nofun⟩
  | append_singleton calls call ih =>
    obtain ⟨before, answer, played', made⟩ := exists_of_play_concat played
    exact (ih played').after made

theorem BindsAt.lt {i : Nat} (binds : BindsAt calls i f name v) : i < calls.length := by
  obtain ⟨s, call, -, here, -⟩ := binds
  exact (List.getElem?_eq_some_iff.mp here).1

/-- One more call binds what it binds, and takes nothing from what the others have bound. -/
theorem bindsAt_concat (played : new.play calls = some s) {i : Nat} :
    BindsAt (calls ++ [call]) i f name v ↔
      BindsAt calls i f name v ∨ i = calls.length ∧ s.Binds call f name v := by
  constructor
  · rintro ⟨before, made, playedBefore, here, binds⟩
    rcases Nat.lt_trichotomy i calls.length with inside | rfl | outside
    · rw [List.take_append_of_le_length inside.le] at playedBefore
      rw [List.getElem?_append_left inside] at here
      exact .inl ⟨before, made, playedBefore, here, binds⟩
    · rw [List.take_left, played] at playedBefore
      rw [List.getElem?_concat_length] at here
      cases playedBefore
      cases here
      exact .inr ⟨rfl, binds⟩
    · have beyond : (calls ++ [call]).length ≤ i := by
        rw [List.length_append, List.length_singleton]
        exact outside
      rw [List.getElem?_eq_none beyond] at here
      cases here
  · rintro (binds | ⟨rfl, binds⟩)
    · have inside := binds.lt
      obtain ⟨before, made, playedBefore, here, binds⟩ := binds
      refine ⟨before, made, ?_, ?_, binds⟩
      · rwa [List.take_append_of_le_length inside.le]
      · rwa [List.getElem?_append_left inside]
    · exact ⟨s, call, by rwa [List.take_left], List.getElem?_concat_length, binds⟩

/-- What one more call binds is the latest, and what it does not bind stays what it was. -/
theorem latest_concat (played : new.play calls = some s) :
    Latest (calls ++ [call]) f name v ↔
      s.Binds call f name v ∨ (∀ w, ¬ s.Binds call f name w) ∧ Latest calls f name v := by
  constructor
  · rintro ⟨i, binds, last⟩
    rcases (bindsAt_concat played).mp binds with before | ⟨rfl, now⟩
    · refine .inr ⟨fun w now => ?_, i, before, fun j later w binds => ?_⟩
      · exact last calls.length before.lt w ((bindsAt_concat played).mpr (.inr ⟨rfl, now⟩))
      · exact last j later w ((bindsAt_concat played).mpr (.inl binds))
    · exact .inl now
  · rintro (now | ⟨silent, i, before, last⟩)
    · refine ⟨calls.length, (bindsAt_concat played).mpr (.inr ⟨rfl, now⟩), fun j later w binds => ?_⟩
      rcases (bindsAt_concat played).mp binds with before | ⟨rfl, -⟩
      · exact absurd before.lt later.not_gt
      · exact absurd later (Nat.lt_irrefl _)
    · refine ⟨i, (bindsAt_concat played).mpr (.inl before), fun j later w binds => ?_⟩
      rcases (bindsAt_concat played).mp binds with before | ⟨-, now⟩
      · exact last j later w before
      · exact silent w now

/-- In every frame every name has the value to which it was bound last there. -/
theorem lookup_play (played : new.play calls = some s) (f : FrameId) (name : Name) (v : Value) :
    s.frames.lookup f name = some v ↔ Latest calls f name v := by
  induction calls using List.reverseRecOn generalizing s v with
  | nil =>
    cases played
    constructor
    · intro bound
      simp [new, Frames.lookup, Frames.frame?, Frames.empty] at bound
    · rintro ⟨i, binds, -⟩
      exact absurd binds.lt (Nat.not_lt_zero i)
  | append_singleton calls call ih =>
    obtain ⟨before, answer, played', made⟩ := exists_of_play_concat played
    rw [(sound_play played').lookup_after made, latest_concat played', ih played']

/-! ## 5. What an environment shows -/

/-- An environment shows a plain store, in which a name of a frame is bound to at most one value. -/
structure Shows (s : Storage) (bound : FrameId → Name → Value → Prop) (who : Nat) (env : Env) : Prop where
  /-- The way outward ends. -/
  way : s.frames.Way env.current (env.chain s.frames)
  /-- Asked for a name of a scope, it gives the value in the frame that the scope is resolved to. -/
  gives : ∀ scope name text v, s.call? (.get who scope name text) = some (.value v, s) ↔
    ∃ f, env.Resolves s.frames scope f ∧ bound f name v
  /-- It fails exactly if there is no such frame, or if the name has no value there. -/
  misses : ∀ scope name text, s.call? (.get who scope name text) = some (.fault (.unboundName text), s) ↔
    ¬ ∃ f v, env.Resolves s.frames scope f ∧ bound f name v
  /-- To set a name of a scope changes the name in that frame, and no other name or frame. -/
  sets : ∀ scope f, env.Resolves s.frames scope f → ∀ name v text, ∃ s',
    s.call? (.set who scope name v text) = some (.done, s') ∧ s'.envs = s.envs ∧
      (∀ g, s'.frames.scope? g = s.frames.scope? g ∧ s'.frames.parent? g = s.frames.parent? g) ∧
        ∀ g other, s'.frames.lookup g other =
          if g = f ∧ other = name then some v else s.frames.lookup g other
  /-- Where there is no such frame, to set a name fails and changes nothing. -/
  fails : ∀ scope, (¬ ∃ f, env.Resolves s.frames scope f) → ∀ name v text,
    s.call? (.set who scope name v text) = some (.fault (.unboundName text), s)
  /-- It goes outward by one frame, and stays in the last one. -/
  pops : ∃ env', s.call? (.pop who) = some (.done, s.move who env') ∧ env'.root = env.root ∧
    (env.chain s.frames = [env.current] ∧ env' = env ∨
      ∃ outer, env.chain s.frames = env.current :: env'.chain s.frames ∧
        env'.chain s.frames = env'.current :: outer)

theorem call?_get_eq_value (here : s.envs[who]? = some env) {scope : ScopeId} {text : String} :
    s.call? (.get who scope name text) = some (.value v, s) ↔ env.get s.frames scope name text = .ok v := by
  simp only [call?, here, Option.map_some]
  cases env.get s.frames scope name text <;> simp

theorem call?_get_eq_fault (here : s.envs[who]? = some env) {scope : ScopeId} {text : String} {cause : Cause} :
    s.call? (.get who scope name text) = some (.fault cause, s) ↔
      env.get s.frames scope name text = .error cause := by
  simp only [call?, here, Option.map_some]
  cases env.get s.frames scope name text <;> simp

/-- After any list of calls, on any number of environments that share frames, every environment shows the store
in which a name of a frame has the value to which it was bound last there, through whichever environment. -/
theorem shows_latest (played : new.play calls = some s) :
    (∀ f name v, s.frames.lookup f name = some v ↔ Latest calls f name v) ∧
      ∀ who env, s.envs[who]? = some env → s.Shows (Latest calls) who env := by
  refine ⟨lookup_play played, fun who env here => ?_⟩
  have h := sound_play played
  have placed := h.of_here here
  have bound := lookup_play played
  constructor
  case way => exact h.descending.way_chain placed.current
  case gives =>
    intro scope name text v
    rw [call?_get_eq_value here, Env.get_eq_ok_iff h.descending placed]
    simp only [bound]
  case misses =>
    intro scope name text
    rw [call?_get_eq_fault here, Env.get_eq_error_iff h.descending placed]
    simp only [bound]
  case sets =>
    intro scope f resolves name v text
    refine ⟨{ s with frames := s.frames.define f name v }, ?_, rfl, fun g => ⟨?_, ?_⟩, fun g other => ?_⟩
    · simp only [call?, here, Option.map_some]
      rw [Env.set_of_resolves h.descending placed resolves]
    · exact Frames.scope?_define ..
    · exact Frames.parent?_define ..
    · have live : (s.frames.frame? f).isSome := resolves.live
      simp only [Frames.lookup_define, live, and_true]
  case fails =>
    intro scope unresolved name v text
    simp only [call?, here, Option.map_some]
    rw [Env.set_of_unresolved h.descending placed unresolved]
  case pops =>
    refine ⟨env.pop s.frames, ?_, env.root_pop s.frames, ?_⟩
    · simp only [call?, here, Option.map_some]
    · rcases Env.chain_pop h.descending placed with last | inner
      · exact .inl last
      · have onward := h.descending.way_chain (placed.pop h.descending).current
        obtain ⟨outer, first⟩ := onward.exists_cons
        exact .inr ⟨outer, inner, first⟩

/-- The first environment enters a frame inside of one that the second has entered, which owns the same scope
as the one around it. The second goes on writing there and goes away, and the name is bound anew further out. -/
def grafting : List StorageCall :=
  [.new ⟨0⟩, .push 0 ⟨1⟩, .set 0 ⟨1⟩ ⟨1⟩ (.int 1) "x", .clone 0, .push 1 ⟨1⟩, .pushUnder 0 ⟨2⟩ ⟨2⟩,
    .set 1 ⟨1⟩ ⟨1⟩ (.int 2) "x", .restore 1 ⟨0⟩, .define ⟨1⟩ ⟨1⟩ (.int 3)]

def grafted : Storage := (new.play grafting).getD new

theorem grafting_shows_latest :
    new.play grafting = some grafted ∧ grafted.Shows (Latest grafting) 0 ⟨⟨3⟩, ⟨0⟩⟩ ∧
      grafted.call? (.get 0 ⟨1⟩ ⟨1⟩ "x") = some (.value (.int 2), grafted) ∧
        ∃ f, Env.Resolves ⟨⟨3⟩, ⟨0⟩⟩ grafted.frames ⟨1⟩ f ∧ Latest grafting f ⟨1⟩ (.int 2) := by
  have played : new.play grafting = some grafted := rfl
  have shows := (shows_latest played).2 0 ⟨⟨3⟩, ⟨0⟩⟩ rfl
  have given : grafted.call? (.get 0 ⟨1⟩ ⟨1⟩ "x") = some (.value (.int 2), grafted) := rfl
  exact ⟨played, shows, given, (shows.gives _ _ _ _).mp given⟩

end Storage

end Strand
