import Mathlib.Logic.Relation
import Strand.Proofs.Course
import Strand.Proofs.Scope.Path

/-!
# What a thread can reach

A thread holds the frame where it stands and the frames to which it will go back; from there it reaches
the frames outward, and no other. A step reaches nothing new but the frame that it makes, and a task
begins where the launching thread stood.

So a frame that is made inside a call or a block stays with the thread that made it and with those that
were launched, directly or through further launches, from within that call or block. The others neither
read its variables nor write them: their moves are the same whatever is bound there, and leave it as it
is (`Run.frames_isolated`).
-/

set_option autoImplicit false

namespace Strand

/-! ## 1. Held and reached -/

/-- The frame where a thread stands, and those to which it goes back. -/
def held (f : FrameId) (stack : List Pending) : List FrameId := f :: stack.filterMap Pending.saved?

/-- The frames that a control waits for a variable of. -/
def Control.watched : Control → List FrameId
  | await _ f _ => [f]
  | _ => []

namespace Thread

variable (t : Thread)

/-- A thread reaches the frames outward of those that it holds. -/
def Reaches (fs : Frames) (f : FrameId) : Prop := ∃ g ∈ held t.env.current t.stack, f ∈ fs.chain g

/-- A thread whose frames exist, and that waits for a variable only of a frame outward. -/
structure Anchored (fs : Frames) : Prop where
  control : t.control.FromProgram
  root : t.env.root = Frames.root
  live : ∀ f ∈ held t.env.current t.stack, fs.Live f
  watched : ∀ f ∈ t.control.watched, f ∈ fs.chain t.env.current

end Thread

namespace Thread.Anchored

variable {fs fs' : Frames} {t : Thread} {rootScope : ScopeId}

theorem here (h : t.Anchored fs) : fs.Live t.env.current := h.live _ List.mem_cons_self

theorem onward (h : t.Anchored fs) (later : Frames.Onward rootScope fs fs') : t.Anchored fs' := by
  refine ⟨h.control, h.root, fun f member => later.grows.live (h.live f member), fun f member => ?_⟩
  rw [later.chain h.here]
  exact h.watched f member

/-- A task begins in the frame of the thread that launched it. -/
theorem start {env : Env} {n : NodeId} (root : env.root = Frames.root) (live : fs.Live env.current) :
    (Thread.start env (.eval n)).Anchored fs := by
  refine ⟨trivial, root, fun f member => ?_, nofun⟩
  cases List.mem_singleton.mp member
  exact live

end Thread.Anchored

@[simp] theorem held_cons (f : FrameId) (waiting : Pending) (stack : List Pending) :
    held f (waiting :: stack) = f :: waiting.saved?.toList ++ stack.filterMap Pending.saved? := by
  unfold held
  rw [List.filterMap_cons]
  cases waiting.saved? <;> rfl

theorem Control.IsIdle.watched {control : Control} (idle : control.IsIdle) : control.watched = [] := by
  cases control <;> first | rfl | cases idle

theorem Control.LeadsTo.watched {control : Control} {n : NodeId} (leads : control.LeadsTo n) :
    control.watched = [] := by
  cases leads <;> rfl

theorem Frames.live_define {fs : Frames} {f g : FrameId} {name : Name} {value : Value} :
    (fs.define g name value).Live f ↔ fs.Live f := by
  unfold Frames.Live
  rw [Frames.frame?_define]
  split
  · rw [Option.isSome_map]
  · rfl

namespace Env

variable {env : Env} {fs : Frames} {rootScope : ScopeId}

/-- The frame that is found for a scope owns it, and is outward of where one stands. -/
theorem frameFor_eq_some (linked : fs.Linked rootScope) (rooted : env.root = Frames.root)
    (live : fs.Live env.current) {scope : ScopeId} {f : FrameId}
    (found : env.frameFor fs scope = some f) :
    f ∈ fs.chain env.current ∧ fs.scope? f = some scope := by
  unfold frameFor at found
  split at found
  · next owns =>
    cases found
    exact ⟨rooted ▸ linked.root_mem live, owns⟩
  · rw [Frames.owner?_eq_find?] at found
    exact ⟨List.mem_of_find?_eq_some found, by simpa using List.find?_some found⟩

theorem declaringFrame_mem (linked : fs.Linked rootScope) (rooted : env.root = Frames.root)
    (live : fs.Live env.current) (p : Program) (scope : ScopeId) :
    p.declaringFrame env fs scope ∈ fs.chain env.current := by
  unfold Program.declaringFrame
  cases found : (p.attrs.parent? scope).bind fun outside => env.frameFor fs outside with
  | none => exact rooted ▸ linked.root_mem live
  | some f =>
    obtain ⟨outside, -, found⟩ := Option.bind_eq_some_iff.mp found
    exact (frameFor_eq_some linked rooted live found).1

end Env

/-! ## 2. Steps -/

namespace Turn

variable {p : Program} {s s' : Turn} {rootScope : ScopeId}

/-- What a step does with the frames that a thread holds. -/
inductive Holds (rootScope : ScopeId) (s s' : Turn) : Prop
  | fewer (later : Frames.Onward rootScope s.world.frames s'.world.frames)
      (held : held s'.env.current s'.stack ⊆ held s.env.current s.stack)
      (new : ∀ f, s'.world.frames.Live f → s.world.frames.Live f)
      (watched : ∀ f ∈ s'.control.watched, f ∈ s.world.frames.chain s'.env.current)
  /-- A frame is made inside a frame outward, and the thread stands in it. -/
  | enter (scope : ScopeId) (bindings : Bindings) (outside : FrameId)
      (inside : outside ∈ s.world.frames.chain s.env.current)
      (current : s'.env.current = (s.world.frames.push scope bindings (some outside)).1)
      (frames : s'.world.frames = (s.world.frames.push scope bindings (some outside)).2)
      (held : s'.stack.filterMap Pending.saved? = Strand.held s.env.current s.stack)
      (watched : s'.control.watched = [])

/-- What is taken saves no frame. -/
theorem Under.saved {stack : List Pending} (under : s.Under stack) :
    stack.filterMap Pending.saved? = s.stack.filterMap Pending.saved? := by
  obtain rfl | ⟨waiting, waits, unsaved, -⟩ := under
  · rfl
  · rw [waits, List.filterMap_cons_none unsaved]

theorem Course.holds (course : Course p s s') (linked : s.world.frames.Linked rootScope)
    (anchored : s.thread.Anchored s.world.frames) : Holds rootScope s s' := by
  obtain ⟨simple, rooted, live, watched⟩ := anchored
  have here : s.world.frames.Live s.env.current := live _ List.mem_cons_self
  have refl : Frames.Onward rootScope s.world.frames s.world.frames := ⟨.refl _, linked, linked⟩
  -- most steps touch no frame and hold the same ones
  have same : s'.world.frames = s.world.frames → s'.env = s.env →
      s'.stack.filterMap Pending.saved? = s.stack.filterMap Pending.saved? →
      (∀ f ∈ s'.control.watched, f ∈ s.world.frames.chain s.env.current) → Holds rootScope s s' := by
    intro frames env stack watched
    refine .fewer (frames ▸ refl) ?_ (frames ▸ fun _ => id) (env ▸ watched)
    rw [held, held, env, stack]
    exact List.Subset.refl _
  cases course with
  | still same' =>
    subst same'
    exact same rfl rfl rfl watched
  | idle frames env stack control =>
    exact same frames env (Under.saved stack) (control.watched ▸ nofun)
  | back saved waiting frames env stack saves control =>
    refine .fewer (frames ▸ refl) ?_ (frames ▸ fun _ => id) (control.watched ▸ nofun)
    rw [held, held, env, stack, List.filterMap_cons_some saves]
    exact List.subset_cons_self _ _
  | watch waiting target id name scope f frames env stack saves refers owns found control hands =>
    refine same frames env ?_ ?_
    · exact Under.saved (.inr ⟨waiting, stack, saves, hands⟩)
    · rw [control]
      intro g member
      cases List.mem_singleton.mp member
      exact (Env.frameFor_eq_some linked rooted here found).1
  | store v waiting n name scope f gives stack stores owns found env frames control =>
    obtain ⟨w, control⟩ := control
    refine .fewer (frames ▸ linked.onward_define ..) ?_ ?_ (control ▸ nofun)
    · rw [held, held, env, stack, List.filterMap_cons_none stores.saved?]
      exact List.Subset.refl _
    · exact frames ▸ fun f live => Frames.live_define.mp live
  | part nodes stack n left source member frames env control leaves leftBy others =>
    refine same frames env ?_ (control.watched ▸ nofun)
    rw [leaves, ← (source.under member).saved]
    cases left with
    | none => rfl
    | some waiting => exact List.filterMap_cons_none (leftBy waiting rfl).saved?
  | run n rest stack runs frames env control leaves =>
    refine same frames env ?_ (control ▸ nofun)
    rw [leaves, ← runs.under.saved]
    rfl
  | block n statements scope evaluates kind owns current frames begins =>
    refine .enter scope .empty s.env.current (linked.self_mem here) current frames ?_ ?_
    · cases statements <;> rw [begins.2] <;> rfl
    · cases statements <;> rw [begins.1] <;> rfl
  | call span function arguments name parameters body scope bindings invokes kind opens bound current
      frames control stack =>
    refine .enter scope bindings _ (Env.declaringFrame_mem linked rooted here p scope) current frames
      ?_ ?_
    · rw [stack]
      rfl
    · rw [control]
      rfl
  | launch n call evaluates kind frames env control stack =>
    exact same frames env (by rw [stack]) (control ▸ nofun)
  | launchDecl n declaration initializer name scope f evaluates kind declares owns found frames env
      control stack =>
    refine .fewer (frames ▸ linked.onward_define ..) ?_ ?_ (control ▸ nofun)
    · rw [held, held, env, stack]
      exact List.Subset.refl _
    · exact frames ▸ fun f live => Frames.live_define.mp live
  | take lock takes =>
    have simple : s.control.FromProgram := simple
    rw [takes] at simple
    exact simple.elim

/-- A step keeps a thread anchored, and the frames linked. -/
theorem Course.anchored (course : Course p s s') (linked : s.world.frames.Linked rootScope)
    (anchored : s.thread.Anchored s.world.frames) (root : s'.env.root = s.env.root) :
    Frames.Onward rootScope s.world.frames s'.world.frames ∧ s'.thread.Anchored s'.world.frames := by
  have simple : s'.control.FromProgram := course.fromProgram anchored.control
  have rooted : s'.env.root = Frames.root := root.trans anchored.root
  cases course.holds linked anchored with
  | fewer later held new watched =>
    have live : ∀ f ∈ Strand.held s'.env.current s'.stack, s.world.frames.Live f :=
      fun f member => anchored.live f (held member)
    refine ⟨later, simple, rooted, fun f member => later.grows.live (live f member), fun f member => ?_⟩
    rw [Turn.thread, later.chain (live _ List.mem_cons_self)]
    exact watched f member
  | enter scope bindings outside inside current frames held watched =>
    have liveOutside : s.world.frames.Live outside := (linked.of_mem_chain inside).1
    have later : Frames.Onward rootScope s.world.frames s'.world.frames :=
      frames ▸ linked.onward_push liveOutside scope bindings
    refine ⟨later, simple, rooted, fun f member => ?_, fun f member => ?_⟩
    · rcases List.mem_cons.mp member with rfl | old
      · rw [frames, Turn.thread, current]
        exact Frames.live_push ..
      · exact later.grows.live (anchored.live f (held ▸ old))
    · exact absurd (watched ▸ member) List.not_mem_nil

/-- A thread reaches after a step what it reached before, and maybe a frame that is new. -/
theorem Course.reaches (course : Course p s s') (linked : s.world.frames.Linked rootScope)
    (anchored : s.thread.Anchored s.world.frames) {f : FrameId}
    (reaches : s'.thread.Reaches s'.world.frames f) :
    s.thread.Reaches s.world.frames f ∨ ¬ s.world.frames.Live f ∧ s'.world.frames.Live f := by
  obtain ⟨g, member, inside⟩ := reaches
  cases course.holds linked anchored with
  | fewer later held new watched =>
    have member := held member
    rw [later.chain (anchored.live g member)] at inside
    exact .inl ⟨g, member, inside⟩
  | enter scope bindings outside within current frames held watched =>
    have liveOutside : s.world.frames.Live outside := (linked.of_mem_chain within).1
    have later : Frames.Onward rootScope s.world.frames s'.world.frames :=
      frames ▸ linked.onward_push liveOutside scope bindings
    rcases List.mem_cons.mp member with rfl | old
    · rw [Turn.thread, current, frames, linked.chain_push liveOutside] at inside
      rcases List.mem_cons.mp inside with rfl | outward
      · refine .inr ⟨?_, ?_⟩
        · exact Frames.not_live_push _ _ _ _
        · rw [frames]
          exact Frames.live_push ..
      · exact .inl ⟨s.env.current, List.mem_cons_self, (linked.of_mem_chain within).2.subset outward⟩
    · have member : g ∈ Strand.held s.env.current s.stack := held ▸ old
      rw [later.chain (anchored.live g member)] at inside
      exact .inl ⟨g, member, inside⟩

end Turn

/-! ## 3. Machines -/

namespace Machine

variable {p : Program} {m m' : Machine} {seen : Option Sighting}

/-- Every thread is anchored, and every task that waits to begin is a node and will be. -/
structure Anchored (p : Program) (m : Machine) : Prop where
  frames : m.world.frames.Linked p.attrs.rootScope
  threads : ∀ who t, m.thread? who = some t → t.Anchored m.world.frames
  jobs : ∀ id env job, m.Waits id env job →
    (∃ n, job = .eval n) ∧ env.root = Frames.root ∧ m.world.frames.Live env.current

theorem Anchored.turn (h : m.Anchored p) {who : ThreadId} {t : Thread} (found : m.thread? who = some t) :
    Frames.Onward p.attrs.rootScope m.world.frames ((t.inside m.world).step p who).world.frames ∧
      ((t.inside m.world).step p who).thread.Anchored ((t.inside m.world).step p who).world.frames :=
  (Turn.step_course p who (t.inside m.world)).anchored h.frames (h.threads who t found)
    (Turn.step_moves p who (t.inside m.world)).keeps.2.1

theorem Anchored.onward (h : m.Anchored p) (next : Next p m seen m') :
    Frames.Onward p.attrs.rootScope m.world.frames m'.world.frames := by
  have refl : Frames.Onward p.attrs.rootScope m.world.frames m.world.frames :=
    ⟨.refl _, h.frames, h.frames⟩
  cases next with
  | turn who t found silent going => exact (h.turn found).1
  | launch who t rest job found launches =>
    have same : (m.setThread who rest).world = m.world := world_setThread m who rest
    exact (congrArg World.frames same).symm ▸ refl
  | _ => exact refl

theorem Anchored.next (h : m.Anchored p) (next : Next p m seen m') : m'.Anchored p := by
  have later := h.onward next
  have launch : ∀ who t rest job, m.thread? who = some t → t.launch? = some (job, rest) →
      (∃ n, job = .eval n) ∧ rest.Anchored m'.world.frames := by
    intro who t rest job found launches
    obtain ⟨jobs, submits, rfl⟩ := launch?_eq_some launches
    obtain ⟨simple, rooted, live, watched⟩ := (h.threads who t found).onward later
    rw [submits] at simple
    exact ⟨simple job List.mem_cons_self,
      fun other member => simple other (List.mem_cons_of_mem _ member), rooted, live, nofun⟩
  refine ⟨later.after, ?_, fun id env job waits => ?_⟩
  · refine next.forall_threads (fun who t found => (h.threads who t found).onward later)
      (fun who t found _ turned => ?_) (fun who t rest job found launches => (launch _ _ _ _ found launches).2)
      fun id env job waits => ?_
    · subst turned
      exact (h.turn found).2
    · obtain ⟨⟨n, rfl⟩, rooted, live⟩ := h.jobs id env job waits
      exact .start rooted (later.grows.live live)
  · obtain waited | ⟨who, t, rest, found, launches, rfl, -⟩ := next.waits waits
    · obtain ⟨node, rooted, live⟩ := h.jobs id env job waited
      exact ⟨node, rooted, later.grows.live live⟩
    · obtain ⟨node, anchored⟩ := launch who t rest job found launches
      exact ⟨node, anchored.root, anchored.here⟩

end Machine

theorem Run.anchored_play (p : Program) (c : RunConfig) (moves : List Move) :
    ((initial p c).play p c moves).machine.Anchored p := by
  refine holds_play (fun r => r.machine.Anchored p) ?_ (fun r r' _ h next => ?_) moves
  · obtain ⟨bindings, machine, -⟩ := machine_initial_single p c
    have linked := (Frames.sound_single p.attrs.rootScope bindings).toLinked
    rw [machine]
    refine ⟨linked, fun who t found => ?_, fun id env job waits => nomatch waits⟩
    cases who with
    | main =>
      cases found
      refine ⟨trivial, rfl, fun f member => ?_, nofun⟩
      cases List.mem_singleton.mp member
      exact linked.live_root
    | task id => cases found
  · cases next with
    | same | look | giveUp => exact h
    | step seen machine next here => exact h.next next
    | close | report => exact ⟨h.frames, h.threads, h.jobs⟩

/-- A frame that exists goes on to exist. -/
theorem Run.live_play {p : Program} {c : RunConfig} {r : Run} (numbered : r.machine.Numbered)
    {f : FrameId} (live : r.machine.world.frames.Live f) (more : List Move) :
    (r.play p c more).machine.world.frames.Live f := by
  have kept : ∀ r r' : Run, r.machine.Numbered → r.machine.world.frames.Live f → Next p c r r' →
      r'.machine.world.frames.Live f := by
    intro r r' _ live next
    cases next with
    | same | look | giveUp | close | report => exact live
    | step seen machine next here => exact next.frames.live live
  exact (play_induction numbered live kept more).2

end Strand
