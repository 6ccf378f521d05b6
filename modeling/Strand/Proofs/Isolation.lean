import Strand.Builder.Script
import Strand.Proofs.Reach

/-!
# Frames stay where they were made

A frame that is made inside a call or a block stays with the thread that made it and with those that
were launched, directly or through further launches, from within that call or block. To the others it is
as if it were not there: their moves are the same whatever is bound in it, and leave it as it is.
-/

set_option autoImplicit false

namespace Strand

/-! ## 1. Who reaches a frame -/

namespace Machine

variable {p : Program} {m m' : Machine} {seen : Option Sighting}

/-- A thread reaches a frame, or will reach it from the beginning when it is started. -/
inductive Reaches (m : Machine) : ThreadId → FrameId → Prop
  | thread {who : ThreadId} {t : Thread} {f : FrameId} (found : m.thread? who = some t)
      (reaches : t.Reaches m.world.frames f) : Reaches m who f
  | waiting {id : TaskId} {env : Env} {job : Control} {f : FrameId} (waits : m.Waits id env job)
      (inside : f ∈ env.chain m.world.frames) : Reaches m (.task id) f

/-- A thread reaches a frame that it has reached before, or that it has made, or that the thread reached
that has just launched it. -/
theorem Next.reaches (h : m.Anchored p) (next : Next p m seen m') {u : ThreadId} {f : FrameId}
    (reaches : m'.Reaches u f) :
    m.Reaches u f ∨
      (∃ t, seen = some ⟨u, t⟩) ∧ ¬ m.world.frames.Live f ∧ m'.world.frames.Live f ∨
      ∃ v t job rest, seen = some ⟨v, t⟩ ∧ m.thread? v = some t ∧ t.launch? = some (job, rest) ∧
        u = .task ⟨m.tasks.size⟩ ∧ f ∈ t.env.chain m.world.frames := by
  have later := h.onward next
  have before : ∀ {t : Thread}, t.Anchored m.world.frames → t.Reaches m'.world.frames f →
      t.Reaches m.world.frames f := by
    rintro t anchored ⟨g, member, inside⟩
    rw [later.chain (anchored.live g member)] at inside
    exact ⟨g, member, inside⟩
  have starts : ∀ {id env job}, m.Waits id env job → f ∈ env.chain m'.world.frames →
      m.Reaches (.task id) f := by
    intro id env job waits inside
    obtain ⟨-, -, live⟩ := h.jobs id env job waits
    rw [Env.chain, later.chain live] at inside
    exact .waiting waits inside
  cases reaches with
  | @thread _ t f found reaches =>
    revert reaches
    revert found
    revert u t
    refine @(next.forall_threads (fun u t found reaches => ?_)
      (fun u t found seen turned reaches => ?_) (fun u t rest job found launches reaches => ?_)
      fun id env job waits reaches => ?_)
    · exact .inl (.thread found (before (h.threads u t found) reaches))
    · subst turned
      rcases (Turn.step_course p u (t.inside m.world)).reaches h.frames (h.threads u t found) reaches
        with old | ⟨new, made⟩
      · exact .inl (.thread found old)
      · exact .inr (.inl ⟨⟨t, seen⟩, new, made⟩)
    · obtain ⟨jobs, -, rfl⟩ := launch?_eq_some launches
      exact .inl (.thread found (before (t := t) (h.threads u t found) reaches))
    · obtain ⟨g, member, inside⟩ := reaches
      cases List.mem_singleton.mp member
      exact .inl (starts waits inside)
  | @waiting id env job f waits inside =>
    obtain waited | ⟨v, t, rest, found, launches, rfl, seen, last⟩ := next.waits waits
    · exact .inl (starts waited inside)
    · refine .inr (.inr ⟨v, t, job, rest, seen, found, launches, ?_, ?_⟩)
      · rw [← last]
      · obtain ⟨jobs, -, rfl⟩ := launch?_eq_some launches
        rwa [Env.chain, later.chain (h.threads v t found).here] at inside

end Machine

namespace Run

/-- Something that happens when one of the moves is made. -/
def Happens (p : Program) (c : RunConfig) (moves : List Move) (event : Run → Move → Prop) : Prop :=
  ∃ before first after, moves = before ++ first :: after ∧
    event ((initial p c).play p c before) first

/-- A thread makes a frame. -/
def Makes (p : Program) (c : RunConfig) (moves : List Move) (who : ThreadId) (f : FrameId) : Prop :=
  Happens p c moves fun r first =>
    (∃ t, r.mover? first = some ⟨who, t⟩) ∧ ¬ r.machine.world.frames.Live f ∧
      (r.move p c first).machine.world.frames.Live f

/-- A thread launches another while it has a frame on its way outward. -/
def Hands (p : Program) (c : RunConfig) (moves : List Move) (f : FrameId) (v u : ThreadId) : Prop :=
  Happens p c moves fun r first =>
    ∃ t job rest, r.mover? first = some ⟨v, t⟩ ∧ t.launch? = some (job, rest) ∧
      u = .task ⟨r.machine.tasks.size⟩ ∧ f ∈ t.env.chain r.machine.world.frames

variable {p : Program} {c : RunConfig} {moves : List Move} {event : Run → Move → Prop}

theorem Happens.append (h : Happens p c moves event) (more : List Move) :
    Happens p c (moves ++ more) event := by
  obtain ⟨before, first, after, rfl, happens⟩ := h
  exact ⟨before, first, after ++ more, List.append_assoc .., happens⟩

theorem Happens.last {first : Move} (h : event ((initial p c).play p c moves) first) :
    Happens p c (moves ++ [first]) event := ⟨moves, first, [], rfl, h⟩

theorem live_of_move {before after : List Move} {first : Move} {f : FrameId}
    (live : (((initial p c).play p c before).move p c first).machine.world.frames.Live f) :
    ((initial p c).play p c (before ++ first :: after)).machine.world.frames.Live f := by
  have numbered := numbered_play p c before
  rw [play_append, play_cons]
  exact live_play ((next_move p c numbered first).numbered numbered) live after

theorem Makes.live {t : ThreadId} {f : FrameId} (h : Makes p c moves t f) :
    ((initial p c).play p c moves).machine.world.frames.Live f := by
  obtain ⟨before, first, after, rfl, -, -, made⟩ := h
  exact live_of_move made

theorem Makes.ne_root {t : ThreadId} {f : FrameId} (h : Makes p c moves t f) : f ≠ Frames.root := by
  obtain ⟨before, first, after, rfl, -, new, -⟩ := h
  rintro rfl
  exact new (anchored_play p c before).frames.live_root

/-- A frame is made once. -/
theorem Makes.unique {t t' : ThreadId} {f : FrameId} (h : Makes p c moves t f)
    (h' : Makes p c moves t' f) : t = t' := by
  obtain ⟨before, first, after, rfl, ⟨seen, mover⟩, new, made⟩ := h
  obtain ⟨before', first', after', same, ⟨seen', mover'⟩, new', made'⟩ := h'
  rcases List.append_eq_append_iff.mp same with ⟨between, rfl, rest⟩ | ⟨between, rfl, rest⟩
  · cases between with
    | nil =>
      cases rest
      rw [List.append_nil, mover] at mover'
      cases mover'
      rfl
    | cons _ between =>
      cases rest
      exact absurd (live_of_move made) new'
  · cases between with
    | nil =>
      cases rest
      rw [List.append_nil, mover'] at mover
      cases mover
      rfl
    | cons _ between =>
      cases rest
      exact absurd (live_of_move made') new

/-- Whoever reaches a frame other than the root frame has made it, or was launched, directly or through
further launches, by whom made it, and each time from within the frame. -/
theorem reached_by (p : Program) (c : RunConfig) (moves : List Move) {u : ThreadId} {f : FrameId}
    (reaches : ((initial p c).play p c moves).machine.Reaches u f) (inner : f ≠ Frames.root) :
    ∃ t, Makes p c moves t f ∧ Relation.ReflTransGen (Hands p c moves f) t u := by
  induction moves using List.reverseRecOn generalizing u with
  | nil =>
    obtain ⟨bindings, machine, -⟩ := machine_initial_single p c
    have linked := (Frames.sound_single p.attrs.rootScope bindings).toLinked
    rw [play_nil, machine] at reaches
    cases reaches with
    | @thread _ t _ found reaches =>
      cases u with
      | task id => cases found
      | main =>
        cases found
        obtain ⟨g, member, inside⟩ := reaches
        cases List.mem_singleton.mp member
        have inside : f ∈ (Frames.single p.attrs.rootScope bindings).chain Frames.root := inside
        rw [linked.chain_root] at inside
        exact absurd (List.mem_singleton.mp inside) inner
    | waiting waits => cases waits
  | append_singleton moves first ih =>
    have numbered := numbered_play p c moves
    have anchored := anchored_play p c moves
    have old : ∀ {u}, ((initial p c).play p c moves).machine.Reaches u f →
        ∃ t, Makes p c (moves ++ [first]) t f ∧
          Relation.ReflTransGen (Hands p c (moves ++ [first]) f) t u := by
      intro u reaches
      obtain ⟨t, makes, handed⟩ := ih reaches
      exact ⟨t, makes.append _, handed.lift id fun _ _ hands => Happens.append hands _⟩
    rw [play_append, play_cons, play_nil] at reaches
    rcases machine_move p c numbered first with next | ⟨-, ledger, same⟩
    · rcases next.reaches anchored reaches with before | ⟨mover, new, made⟩ |
        ⟨v, t, job, rest, seen, found, launches, rfl, inside⟩
      · exact old before
      · exact ⟨u, .last ⟨mover, new, made⟩, .refl⟩
      · obtain ⟨maker, makes, handed⟩ := old (.thread found ⟨_, List.mem_cons_self, inside⟩)
        exact ⟨maker, makes, handed.tail (.last ⟨t, job, rest, seen, launches, rfl, inside⟩)⟩
    · rw [same] at reaches
      cases reaches with
      | thread found reaches => exact old (.thread found reaches)
      | waiting waits inside => exact old (.waiting waits inside)

end Run

/-! ## 2. What is bound in a frame that is not reached -/

namespace Frames

/-- Other values in a frame. -/
def rebind (fs : Frames) (f : FrameId) (bindings : Bindings) : Frames :=
  ⟨fs.frames.modify f.index fun frame => { frame with bindings }⟩

variable {fs : Frames} {f g : FrameId} {bindings : Bindings}

theorem frame?_rebind (fs : Frames) (f g : FrameId) (bindings : Bindings) :
    (fs.rebind f bindings).frame? g =
      if g = f then (fs.frame? g).map fun frame => { frame with bindings } else fs.frame? g := by
  obtain ⟨i⟩ := f
  obtain ⟨j⟩ := g
  simp only [frame?, rebind, Array.getElem?_modify, FrameId.mk.injEq]
  by_cases same : i = j
  · simp [same]
  · simp [same, Ne.symm same]

@[simp] theorem scope?_rebind : (fs.rebind f bindings).scope? g = fs.scope? g := by
  simp only [scope?, frame?_rebind]
  split
  · cases fs.frame? g <;> rfl
  · rfl

theorem rebind_self {frame : Frame} (found : fs.frame? f = some frame) :
    fs.rebind f frame.bindings = fs := by
  obtain ⟨i⟩ := f
  have found : fs.frames[i]? = some frame := found
  show (⟨_⟩ : Frames) = ⟨fs.frames⟩
  refine congrArg Frames.mk (Array.ext_getElem? fun k => ?_)
  rw [Array.getElem?_modify]
  split
  · next same =>
    subst same
    rw [found]
    rfl
  · rfl

theorem lookup_rebind (other : g ≠ f) (name : Name) :
    (fs.rebind f bindings).lookup g name = fs.lookup g name := by
  rw [lookup, frame?_rebind, if_neg other, lookup]

@[simp] theorem findOutward_rebind (scope : ScopeId) (count : Nat) (g : FrameId) :
    (fs.rebind f bindings).findOutward scope count g = fs.findOutward scope count g := by
  induction count generalizing g with
  | zero => rfl
  | succ count ih =>
    simp only [findOutward, frame?_rebind, ih]
    by_cases same : g = f
    · cases fs.frame? g <;> simp [same]
    · simp [same]

@[simp] theorem frameFor_rebind (env : Env) (scope : ScopeId) :
    env.frameFor (fs.rebind f bindings) scope = env.frameFor fs scope := by
  simp only [Env.frameFor, owner?, scope?_rebind, findOutward_rebind]

@[simp] theorem frameToSet_rebind (env : Env) (scope : ScopeId) (text : String) :
    env.frameToSet (fs.rebind f bindings) scope text = env.frameToSet fs scope text := by
  simp only [Env.frameToSet, frameFor_rebind]

@[simp] theorem declaringFrame_rebind (p : Program) (env : Env) (scope : ScopeId) :
    p.declaringFrame env (fs.rebind f bindings) scope = p.declaringFrame env fs scope := by
  simp only [Program.declaringFrame, frameFor_rebind]

@[simp] theorem watched_rebind (p : Program) (env : Env) (target : NodeId) :
    p.watched env (fs.rebind f bindings) target = p.watched env fs target := by
  simp only [Program.watched, frameFor_rebind]

theorem define_rebind (other : g ≠ f) (name : Name) (value : Value) :
    (fs.rebind f bindings).define g name value = (fs.define g name value).rebind f bindings := by
  obtain ⟨i⟩ := f
  obtain ⟨j⟩ := g
  have differ : i ≠ j := fun same => other (by rw [same])
  simp only [rebind, define, Frames.mk.injEq]
  apply Array.ext_getElem?
  intro k
  simp only [Array.getElem?_modify]
  by_cases first : i = k
  · simp [first, Ne.symm (first ▸ differ)]
  · simp [first]

theorem push_rebind (live : fs.Live f) (scope : ScopeId) (new : Bindings) (parent : Option FrameId) :
    (fs.rebind f bindings).push scope new parent =
      ((fs.push scope new parent).1, (fs.push scope new parent).2.rebind f bindings) := by
  obtain ⟨i⟩ := f
  have inside : i < fs.frames.size := by
    unfold Live frame? at live
    rwa [isSome_getElem?] at live
  simp only [push, rebind, Array.size_modify, Prod.mk.injEq, Frames.mk.injEq, true_and]
  apply Array.ext_getElem?
  intro k
  simp only [Array.getElem?_push, Array.getElem?_modify, Array.size_modify]
  by_cases last : k = fs.frames.size
  · simp [last, Nat.ne_of_lt inside]
  · simp [last]

end Frames

namespace Turn

/-- Other values in a frame. -/
def rebind (s : Turn) (f : FrameId) (bindings : Bindings) : Turn :=
  { s with world.frames := s.world.frames.rebind f bindings }

/-- A frame that exists and is not reached from where a thread stands. -/
structure Apart (s : Turn) (f : FrameId) : Prop where
  live : s.world.frames.Live f
  root : f ≠ s.env.root
  chain : f ∉ s.world.frames.chain s.env.current
  watched : f ∉ s.control.watched

variable {p : Program} {s : Turn} {f : FrameId} {bindings : Bindings}

theorem Apart.ne_owner (apart : Apart s f) {scope : ScopeId} {g : FrameId}
    (found : s.env.frameFor s.world.frames scope = some g) : g ≠ f := by
  rintro rfl
  unfold Env.frameFor at found
  split at found
  · exact apart.root (Option.some.inj found).symm
  · rw [Frames.owner?_eq_find?] at found
    exact apart.chain (List.mem_of_find?_eq_some found)

theorem Apart.get (apart : Apart s f) (scope : ScopeId) (name : Name) (text : String) :
    s.env.get (s.world.frames.rebind f bindings) scope name text =
      s.env.get s.world.frames scope name text := by
  simp only [Env.get, Frames.frameFor_rebind]
  cases found : s.env.frameFor s.world.frames scope with
  | none => rfl
  | some g => simp only [Option.bind_some, Frames.lookup_rebind (apart.ne_owner found)]

theorem Apart.readName (apart : Apart s f) (id : NodeId) (name : Name) :
    p.readName s.env (s.world.frames.rebind f bindings) id name =
      p.readName s.env s.world.frames id name := by
  simp only [Program.readName, apart.get, Frames.lookup_rebind (Ne.symm apart.root)]

theorem orFault_rebind {α : Type} {node : NodeId} {result : Except Cause α} {next next' : α → Turn}
    (goesOn : ∀ a, result = .ok a → next a = (next' a).rebind f bindings) :
    (s.rebind f bindings).orFault p node result next =
      (s.orFault p node result next').rebind f bindings := by
  cases result with
  | ok a => exact goesOn a rfl
  | error cause => rfl

theorem orAbort_rebind {α : Type} {node : NodeId} {result : Except Abort α} {next next' : α → Turn}
    (goesOn : ∀ a, result = .ok a → next a = (next' a).rebind f bindings) :
    (s.rebind f bindings).orAbort p node result next =
      (s.orAbort p node result next').rebind f bindings := by
  cases result with
  | ok a => exact goesOn a rfl
  | error e => cases e <;> rfl

theorem ofNest_rebind (node : NodeId) (result : Except Abort Nest) :
    (s.rebind f bindings).ofNest p node result = (s.ofNest p node result).rebind f bindings := by
  cases result with
  | ok nest => cases nest <;> rfl
  | error e => cases e <;> rfl

/-- A name is bound in a frame other than the one that is not reached. -/
theorem store_rebind (apart : Apart s f) (node n : NodeId) (label text : String) (name : Name) (v : Value)
    (control : Control) :
    (s.rebind f bindings).orFault p node (p.scopeOf n label) (fun scope =>
      (s.rebind f bindings).orFault p node
        (s.env.frameToSet (s.world.frames.rebind f bindings) scope text) fun g =>
        { s.rebind f bindings with
          world.frames := (s.world.frames.rebind f bindings).define g name v
          control }) =
      (s.orFault p node (p.scopeOf n label) fun scope =>
        s.orFault p node (s.env.frameToSet s.world.frames scope text) fun g =>
          { s with world.frames := s.world.frames.define g name v, control }).rebind f bindings := by
  refine orFault_rebind fun scope _ => ?_
  rw [Frames.frameToSet_rebind]
  refine orFault_rebind fun g owner => ?_
  rw [Frames.define_rebind (apart.ne_owner (Env.frameToSet_eq_ok.mp owner))]
  rfl

theorem enter_rebind (apart : Apart s f) (id : NodeId) (kind : NodeKind) :
    enter p (s.rebind f bindings) id kind = (enter p s id kind).rebind f bindings := by
  cases kind with
  | reference name =>
    show (s.rebind f bindings).orAbort p id
      (p.readName s.env (s.world.frames.rebind f bindings) id name) _ = _
    rw [apart.readName]
    exact orAbort_rebind fun v _ => rfl
  | constructor reference =>
    simp only [enter]
    split <;> rfl
  | arrayLiteral elements => cases elements <;> rfl
  | binary op left right =>
    simp only [enter]
    split <;> rfl
  | assignment target value =>
    refine orAbort_rebind fun kind _ => ?_
    cases kind <;> rfl
  | root statements => cases statements <;> rfl
  | block statements =>
    refine orFault_rebind fun scope _ => ?_
    have entered : s.env.push (s.world.frames.rebind f bindings) scope =
        ((s.env.push s.world.frames scope).1, (s.env.push s.world.frames scope).2.rebind f bindings) := by
      simp only [Env.push, Env.pushUnder, Frames.push_rebind apart.live]
    simp only [rebind, entered]
    cases statements <;> rfl
  | ret value => cases value <;> rfl
  | launchDecl declaration =>
    refine orAbort_rebind fun kind _ => ?_
    cases kind with
    | varDecl name initializer => exact store_rebind apart ..
    | _ => rfl
  | _ => rfl

theorem callBuiltin_rebind (id : NodeId) (name : String) (first : Option NodeId) (values : List Value) :
    callBuiltin p (s.rebind f bindings) id name first values =
      (callBuiltin p s id name first values).rebind f bindings := by
  simp only [callBuiltin]
  split
  · split
    · refine orAbort_rebind fun text _ => ?_
      show (if s.world.output.isSilent then _ else _) = _
      split <;> rfl
    · rfl
  · split
    · split
      · rw [show (s.rebind f bindings).world.frames = s.world.frames.rebind f bindings from rfl,
          Frames.watched_rebind]
        exact orAbort_rebind fun _ _ => rfl
      · rfl
    · rfl

theorem apply_rebind (id : NodeId) (callee : Value) (first : Option NodeId) (values : List Value) :
    apply p (s.rebind f bindings) id callee first values =
      (apply p s id callee first values).rebind f bindings := by
  simp only [apply]
  split
  · exact callBuiltin_rebind ..
  · rfl
  · exact orAbort_rebind fun _ _ => rfl
  · rfl
  · rfl

theorem resume_rebind (apart : Apart s f) (v : Value) (waiting : Pending) :
    resume p (s.rebind f bindings) v waiting = (resume p s v waiting).rebind f bindings := by
  cases waiting with
  | element id done rest => cases rest <;> rfl
  | accessedArray id index => exact orFault_rebind fun _ _ => rfl
  | accessIndex id a =>
    refine orFault_rebind fun i _ => ?_
    have same : (s.rebind f bindings).world.heap = s.world.heap := rfl
    rw [same]
    cases s.world.heap.element? a i <;> rfl
  | readStem id field => exact orFault_rebind fun _ _ => rfl
  | callee id arguments =>
    cases arguments with
    | nil => exact apply_rebind ..
    | cons => rfl
  | argument id callee first done rest =>
    cases rest with
    | nil => exact apply_rebind ..
    | cons => rfl
  | negated | truth => exact orFault_rebind fun _ _ => rfl
  | shortCircuit id op right =>
    refine orFault_rebind fun b _ => ?_
    split <;> rfl
  | rightOperand id op left right l =>
    simp only [resume]
    split <;> exact ofNest_rebind ..
  | assignName id target name => exact store_rebind apart ..
  | storeArray | storeIndex => exact orFault_rebind fun _ _ => rfl
  | storeElement id target a i =>
    show (if i < s.world.heap.length a then _ else _) = _
    simp only [resume]
    split <;> rfl
  | storeField id target stem field =>
    simp only [resume]
    split
    · rfl
    · show (if (s.world.heap.field? _ field).isSome = true then _ else _) = _
      split <;> rfl
    · rfl
  | statements rest => cases rest <;> rfl
  | branch id thenBranch elseBranch =>
    refine orFault_rebind fun b _ => ?_
    split
    · rfl
    · cases elseBranch <;> rfl
  | loopTest id condition body =>
    refine orFault_rebind fun b _ => ?_
    split <;> rfl
  | declaration id name => exact store_rebind apart ..
  | _ => rfl

theorem unwind_rebind (e : Exit) (waiting : Pending) :
    unwind (s.rebind f bindings) e waiting = (unwind s e waiting).rebind f bindings := by
  cases waiting <;> rfl

theorem invoke_rebind (live : s.world.frames.Live f) (span : Option Span) (function : NodeId)
    (arguments : List Value) :
    invoke p (s.rebind f bindings) span function arguments =
      (invoke p s span function arguments).rebind f bindings := by
  simp only [invoke]
  split
  · rfl
  · split
    · rfl
    · split
      · rfl
      · next scope _ =>
        split
        · rfl
        · next new _ =>
          simp only [rebind, Frames.declaringFrame_rebind, Frames.push_rebind live]
  · rfl

/-- A step is the same whatever is bound in a frame that is not reached. -/
theorem step_rebind (apart : Apart s f) (p : Program) (who : ThreadId) :
    (s.rebind f bindings).step p who = (s.step p who).rebind f bindings := by
  obtain ⟨world, env, control, stack⟩ := s
  cases control with
  | eval id =>
    simp only [step, rebind]
    split
    · exact enter_rebind apart ..
    · rfl
  | give v =>
    cases stack with
    | nil => rfl
    | cons waiting stack =>
      exact resume_rebind (s := ⟨world, env, .give v, stack⟩)
        ⟨apart.live, apart.root, apart.chain, apart.watched⟩ v waiting
  | leave e =>
    cases stack with
    | nil => rfl
    | cons waiting stack => exact unwind_rebind (s := ⟨world, env, .leave e, stack⟩) e waiting
  | invoke span function arguments => exact invoke_rebind apart.live ..
  | await id g name =>
    have other : g ≠ f := fun same => apart.watched (same ▸ List.mem_singleton_self _)
    show (if ((world.frames.rebind f bindings).lookup g name).any (fun v => !v.isVoid) then _
      else if world.ledger.closed then _ else _) = _
    rw [Frames.lookup_rebind other]
    simp only [step]
    split
    · rfl
    · split <;> rfl
  | submit jobs => cases jobs <;> rfl
  | findSite site block =>
    simp only [step, rebind]
    split <;> rfl
  | enterSite site lock block | acquire lock inside =>
    show (if world.locks.available lock who then _ else _) = _
    simp only [step]
    split <;> rfl
  | startLine text =>
    show (if world.output.available then _ else _) = _
    simp only [step]
    split <;> rfl
  | _ => rfl

/-- The step of a thread does not depend on what is bound in a frame, and leaves it as it is. -/
def Ignores (p : Program) (s : Turn) (f : FrameId) : Prop :=
  ∀ who bindings, (s.rebind f bindings).step p who = (s.step p who).rebind f bindings

theorem Apart.ignores (apart : Apart s f) (p : Program) : s.Ignores p f :=
  fun who _ => step_rebind apart p who

end Turn

/-- Other values in a frame. -/
def Machine.rebind (m : Machine) (f : FrameId) (bindings : Bindings) : Machine :=
  { m with world.frames := m.world.frames.rebind f bindings }

namespace Machine

variable {p : Program} {m : Machine} {f : FrameId} {bindings : Bindings}

theorem stepMain_rebind (ignores : (m.main.inside m.world).Ignores p f) :
    (m.rebind f bindings).stepMain p = (m.stepMain p).rebind f bindings := by
  obtain ⟨world, main, tasks⟩ := m
  have step : (main.inside { world with frames := world.frames.rebind f bindings }).step p .main =
    ((main.inside world).step p .main).rebind f bindings := ignores _ bindings
  simp only [stepMain, rebind]
  split
  · rfl
  · rw [step]
    rfl

theorem stepTask_rebind {i : Nat} {id : TaskId} {t : Thread}
    (found : m.tasks[i]? = some ⟨id, .running t⟩) (ignores : (t.inside m.world).Ignores p f) :
    (m.rebind f bindings).stepTask p i = (m.stepTask p i).rebind f bindings := by
  obtain ⟨world, main, tasks⟩ := m
  have found : tasks[i]? = some ⟨id, .running t⟩ := found
  have step : (t.inside { world with frames := world.frames.rebind f bindings }).step p (.task id) =
    ((t.inside world).step p (.task id)).rebind f bindings := ignores _ bindings
  simp only [stepTask, rebind, found]
  split
  · rfl
  · split
    · rfl
    · rw [step]
      rfl

end Machine

namespace Run

/-- Other values in a frame. -/
def rebind (r : Run) (f : FrameId) (bindings : Bindings) : Run :=
  { r with machine := r.machine.rebind f bindings }

variable {p : Program} {c : RunConfig} {r : Run} {f : FrameId} {bindings : Bindings} {first : Move}
  {seen : Sighting}

/-- A move is the same whatever is bound in a frame that the step of the thread that moves ignores. -/
theorem move_of_ignores (mover : r.mover? first = some seen)
    (ignores : (seen.thread.inside r.machine.world).Ignores p f) :
    (r.rebind f bindings).move p c first = (r.move p c first).rebind f bindings := by
  cases first with
  | main =>
    simp only [mover?] at mover
    split at mover
    · next evaluating =>
      cases mover
      have evaluates : (r.rebind f bindings).phase = .evaluating := evaluating
      simp only [move, if_pos evaluating, if_pos evaluates]
      rw [show (r.rebind f bindings).machine = r.machine.rebind f bindings from rfl,
        Machine.stepMain_rebind ignores]
      rfl
    · cases mover
  | task i =>
    obtain ⟨t, found, rfl⟩ := Option.map_eq_some_iff.mp mover
    obtain ⟨id, at_⟩ := Machine.thread?_task found
    simp only [move]
    rw [show (r.rebind f bindings).machine = r.machine.rebind f bindings from rfl,
      Machine.stepTask_rebind at_ ignores]
    rfl
  | start | look | giveUp | close | report => cases mover

/-- A move that no thread makes is the same whatever is bound. -/
theorem move_of_still (still : r.mover? first = none) :
    (r.rebind f bindings).move p c first = (r.move p c first).rebind f bindings := by
  obtain ⟨⟨world, main, tasks⟩, phase, history⟩ := r
  -- what the host does is told by its phase, the main program and the ledger
  have of_phase : ∀ phase', (∀ fs, move p c ⟨⟨{ world with frames := fs }, main, tasks⟩, phase, history⟩ first =
      ⟨⟨{ world with frames := fs }, main, tasks⟩, phase', history⟩) →
      (rebind ⟨⟨world, main, tasks⟩, phase, history⟩ f bindings).move p c first =
        (move p c ⟨⟨world, main, tasks⟩, phase, history⟩ first).rebind f bindings := by
    intro phase' moved
    exact (moved _).trans (congrArg (fun r : Run => r.rebind f bindings) (moved world.frames)).symm
  cases first with
  | start i => rfl
  | main =>
    have other : phase ≠ .evaluating := by
      intro evaluating
      simp only [mover?, if_pos evaluating] at still
      cases still
    exact of_phase phase fun fs => if_neg other
  | task i =>
    have idle := Option.map_eq_none_iff.mp still
    simp only [move, rebind, Machine.rebind, Machine.stepTask]
    cases found : tasks[i]? with
    | none => rfl
    | some task =>
      obtain ⟨id, state⟩ := task
      cases state with
      | running t =>
        simp only [Machine.thread?, found] at idle
        cases idle
      | submitted | failing | ending | ended => rfl
  | look =>
    by_cases idle : phase = .evaluating ∧ main.isDone ∧ world.ledger.pending = 0
    · exact of_phase _ fun fs => if_pos idle
    · exact of_phase _ fun fs => if_neg idle
  | giveUp =>
    by_cases late : phase = .evaluating ∧ main.isDone ∧ world.ledger.pending ≠ 0 ∧ c.drainTimeout.isSome
    · exact of_phase (.drained (.incomplete world.ledger.pending)) fun fs => if_pos late
    · exact of_phase _ fun fs => if_neg late
  | close | report => cases phase <;> rfl

/-- Such a move leaves the frame as it is. -/
theorem frame?_of_ignores (numbered : r.machine.Numbered) (mover : r.mover? first = some seen)
    (live : r.machine.world.frames.Live f)
    (ignores : (seen.thread.inside r.machine.world).Ignores p f) :
    (r.move p c first).machine.world.frames.frame? f = r.machine.world.frames.frame? f := by
  obtain ⟨frame, found⟩ := Option.isSome_iff_exists.mp live
  have same : r.rebind f frame.bindings = r := by
    unfold rebind Machine.rebind
    rw [Frames.rebind_self found]
  have moved : r.move p c first = (r.move p c first).rebind f frame.bindings := by
    rw [← move_of_ignores mover ignores, same]
  have next : Machine.Next p r.machine (some seen) (r.move p c first).machine := by
    rcases machine_move p c numbered first with next | ⟨none, -⟩
    · exact mover ▸ next
    · cases mover.symm.trans none
  obtain ⟨bindings, later, -⟩ := next.frames f frame found
  have rebound : (r.move p c first).machine.world.frames.frame? f =
      ((r.move p c first).machine.world.frames.rebind f frame.bindings).frame? f :=
    congrArg (fun r : Run => r.machine.world.frames.frame? f) moved
  rw [rebound, Frames.frame?_rebind, if_pos rfl, later, found]
  rfl

/-- A move is the same whatever is bound in a frame that the thread that moves does not reach. -/
theorem move_rebind (mover : r.mover? first = some seen)
    (apart : (seen.thread.inside r.machine.world).Apart f) :
    (r.rebind f bindings).move p c first = (r.move p c first).rebind f bindings :=
  move_of_ignores mover (apart.ignores p)

/-- A move leaves a frame as it is that the thread that moves does not reach. -/
theorem frame?_move (numbered : r.machine.Numbered) (mover : r.mover? first = some seen)
    (apart : (seen.thread.inside r.machine.world).Apart f) :
    (r.move p c first).machine.world.frames.frame? f = r.machine.world.frames.frame? f :=
  frame?_of_ignores numbered mover apart.live (apart.ignores p)

theorem found_of_mover (numbered : r.machine.Numbered) (mover : r.mover? first = some seen) :
    r.machine.thread? seen.who = some seen.thread := by
  rcases machine_move default default numbered first with next | ⟨none, -⟩
  · exact (mover ▸ next : Machine.Next default r.machine (some seen) _).seen
  · cases mover.symm.trans none

/-- Only the thread that made a frame reaches it, and those that were launched, directly or through
further launches, by a thread that had the frame on its way outward. To a move of any other thread it
does not matter what is bound in the frame, and the move leaves it as it is. -/
theorem frames_isolated {moves : List Move} {t : ThreadId} (made : Makes p c moves t f) :
    let r := (initial p c).play p c moves
    (∀ u, r.machine.Reaches u f → Relation.ReflTransGen (Hands p c moves f) t u) ∧
    ∀ first seen, r.mover? first = some seen →
      Relation.ReflTransGen (Hands p c moves f) t seen.who ∨
      (∀ bindings, (r.rebind f bindings).move p c first = (r.move p c first).rebind f bindings) ∧
        (r.move p c first).machine.world.frames.frame? f = r.machine.world.frames.frame? f := by
  intro r
  have anchored : r.machine.Anchored p := anchored_play p c moves
  have numbered : r.machine.Numbered := numbered_play p c moves
  have reached : ∀ u, r.machine.Reaches u f → Relation.ReflTransGen (Hands p c moves f) t u := by
    intro u reaches
    obtain ⟨t', makes, handed⟩ := reached_by p c moves reaches made.ne_root
    rwa [made.unique makes]
  refine ⟨reached, fun first seen mover => ?_⟩
  have found := found_of_mover numbered mover
  have ⟨simple, root, lives, watched⟩ := anchored.threads _ _ found
  by_cases inside : f ∈ r.machine.world.frames.chain seen.thread.env.current
  · exact .inl (reached _ (.thread found ⟨_, List.mem_cons_self, inside⟩))
  · have apart : (seen.thread.inside r.machine.world).Apart f :=
      ⟨made.live, fun same => made.ne_root (same.trans root), inside, fun member => inside (watched f member)⟩
    exact .inr ⟨fun bindings => move_rebind mover apart, frame?_move numbered mover apart⟩

theorem mover_task {i : Nat} (moves : (r.mover? (.task i)).isSome = true) :
    ∃ t, r.mover? (.task i) = some ⟨.task ⟨i⟩, t⟩ := by
  obtain ⟨seen, mover⟩ := Option.isSome_iff_exists.mp moves
  obtain ⟨t, -, rfl⟩ := Option.map_eq_some_iff.mp mover
  exact ⟨t, mover⟩

/-! ### Two calls of a function that launches from within -/

def sharing : Script :=
  [.function "work" [("n", .plain .int)] (.plain .int)
      [.function "step" [] (.plain .int) [.ret (some (.binary .add (.reference "n") (.int 1)))],
        .launch "step" [],
        .ret (some (.reference "n"))],
    .launch "work" [.int 1],
    .launch "work" [.int 2]]

def sharingProgram : Program := sharing.program.toOption.getD default

/-- Both calls are launched, and the first one makes its frame. -/
def sharingBefore : List Move :=
  List.replicate 11 .main ++ [.start 0, .start 1] ++ List.replicate 5 (.task 0)

/-- From within the first call a task is launched and begins; the second call makes its frame, too. -/
def sharingAfter : List Move := List.replicate 6 (.task 0) ++ .start 2 :: List.replicate 6 (.task 1)

theorem sharing_makes : Makes sharingProgram default (sharingBefore ++ .task 0 :: sharingAfter)
    (.task ⟨0⟩) ⟨1⟩ := by
  refine ⟨sharingBefore, .task 0, sharingAfter, rfl, ?_, ?_, ?_⟩
  · exact mover_task (by decide +kernel)
  · unfold Frames.Live
    decide +kernel
  · unfold Frames.Live
    decide +kernel

theorem sharing_isolated :
    let moves := sharingBefore ++ .task 0 :: sharingAfter
    let r := (initial sharingProgram default).play sharingProgram default moves
    (∀ u, r.machine.Reaches u ⟨1⟩ →
      Relation.ReflTransGen (Hands sharingProgram default moves ⟨1⟩) (.task ⟨0⟩) u) ∧
    ∀ first seen, r.mover? first = some seen →
      Relation.ReflTransGen (Hands sharingProgram default moves ⟨1⟩) (.task ⟨0⟩) seen.who ∨
      (∀ bindings, (r.rebind ⟨1⟩ bindings).move sharingProgram default first =
        (r.move sharingProgram default first).rebind ⟨1⟩ bindings) ∧
        (r.move sharingProgram default first).machine.world.frames.frame? ⟨1⟩ =
          r.machine.world.frames.frame? ⟨1⟩ :=
  frames_isolated sharing_makes

end Run

end Strand
