import Strand.Proofs.Confined.Renaming
import Strand.Proofs.Isolation
import Strand.Proofs.Returns.Expressions

/-!
# What a call can touch

The frame of a call is made inside the frame where the function was declared, and not inside the one of the
caller. So of the frames that were there before, the evaluation of the call reaches those outward of the
declaring frame, and the root frame, which is one of them (`Invocation.around`). Whatever else it reaches it has
made itself.

What carries this is the part of the stack above the place where the call began (`Thread.Calls`). Taken by itself
it is a thread that reaches nothing else, and a step does not look beneath it.
-/

set_option autoImplicit false

namespace Strand

/-! ## 1. The frames around a call -/

/-- A call that a thread is about to make: where it stands, what it calls, and what waits for the result. -/
structure Invocation where
  env : Env
  span : Option Span
  function : NodeId
  arguments : List Value
  base : List Pending
deriving Inhabited

namespace Invocation

variable (call : Invocation) (p : Program) (fs : Frames)

/-- The thread that makes the call. -/
def thread : Thread := ⟨call.env, .invoke call.span call.function call.arguments, call.base⟩

/-- The frame where a function is declared whose parameters have a scope: the nearest on the way outward that
owns the scope around, else the root frame. -/
def declaring (scope : ScopeId) : FrameId :=
  ((p.attrs.parent? scope).bind fun outside =>
    (call.env.chain fs).find? fun f => fs.scope? f = some outside).getD call.env.root

/-- The root frame, and the frames outward of the one where the function is declared. -/
def around : List FrameId :=
  call.env.root :: ((p.attrs.bodyScope? call.function).map fun scope => fs.chain (call.declaring p fs scope)).getD []

/-- The frames that a call may have to do with: those around it, and those that are not there yet. -/
def own (f : FrameId) : Prop := f ∈ call.around p fs ∨ ¬ fs.Live f

variable {call p fs} {fs' : Frames} {rootScope scope : ScopeId} {f : FrameId}

/-- The frame of the call is made inside the declaring frame, or inside the root frame if that owns the scope
around the parameters. -/
theorem declaringFrame_eq (linked : fs.Linked rootScope) (rooted : call.env.root = Frames.root) (scope : ScopeId) :
    p.declaringFrame call.env fs scope =
      if p.attrs.parent? scope = some rootScope then Frames.root else call.declaring p fs scope := by
  unfold Program.declaringFrame declaring
  cases p.attrs.parent? scope with
  | none => rfl
  | some outside =>
    simp only [Option.bind_some, Env.frameFor, rooted, linked.scope?_root, Option.some.injEq]
    by_cases outermost : rootScope = outside
    · rw [if_pos outermost, if_pos outermost.symm]
      rfl
    · rw [if_neg outermost, if_neg (Ne.symm outermost), Frames.owner?_eq_find?]
      rfl

theorem chain_declaringFrame (linked : fs.Linked rootScope) (rooted : call.env.root = Frames.root)
    (opens : p.attrs.bodyScope? call.function = some scope)
    (member : f ∈ fs.chain (p.declaringFrame call.env fs scope)) : f ∈ call.around p fs := by
  rw [declaringFrame_eq linked rooted] at member
  split at member
  · rw [linked.chain_root] at member
    rw [List.mem_singleton.mp member, ← rooted]
    exact List.mem_cons_self
  · apply List.mem_cons_of_mem
    rw [opens]
    exact member

theorem root_mem_around (rooted : call.env.root = Frames.root) : Frames.root ∈ call.around p fs := by
  rw [← rooted]
  exact List.mem_cons_self

/-- The declaring frame stays the same. -/
theorem declaring_onward (later : Frames.Onward rootScope fs fs') (rooted : call.env.root = Frames.root)
    (live : fs.Live call.env.current) (scope : ScopeId) :
    call.declaring p fs' scope = call.declaring p fs scope ∧ fs.Live (call.declaring p fs scope) := by
  unfold declaring
  cases p.attrs.parent? scope with
  | none => exact ⟨rfl, rooted ▸ later.before.live_root⟩
  | some outside =>
    have way : call.env.chain fs' = call.env.chain fs := later.chain live
    have same : (call.env.chain fs').find? (fun f => fs'.scope? f = some outside) =
        (call.env.chain fs).find? fun f => fs.scope? f = some outside := by
      rw [way]
      apply List.find?_congr
      intro f member
      obtain ⟨frame, found⟩ := Option.isSome_iff_exists.mp (later.before.of_mem_chain member).1
      have owns : fs.scope? f = some frame.scope := by rw [Frames.scope?, found]; rfl
      rw [owns, later.grows.scope? owns]
    simp only [Option.bind_some, same]
    refine ⟨trivial, ?_⟩
    cases found : (call.env.chain fs).find? fun f => fs.scope? f = some outside with
    | none => exact rooted ▸ later.before.live_root
    | some f => exact (later.before.of_mem_chain (List.mem_of_find?_eq_some found)).1

theorem declaringFrame_onward (later : Frames.Onward rootScope fs fs') (rooted : call.env.root = Frames.root)
    (live : fs.Live call.env.current) (scope : ScopeId) :
    p.declaringFrame call.env fs' scope = p.declaringFrame call.env fs scope := by
  rw [declaringFrame_eq later.before rooted, declaringFrame_eq later.after rooted,
    (declaring_onward later rooted live scope).1]

/-- The frames around a call stay the same. -/
theorem around_onward (later : Frames.Onward rootScope fs fs') (rooted : call.env.root = Frames.root)
    (live : fs.Live call.env.current) : call.around p fs' = call.around p fs := by
  unfold around
  cases p.attrs.bodyScope? call.function with
  | none => rfl
  | some scope =>
    obtain ⟨same, live⟩ := declaring_onward (p := p) later rooted live scope
    simp only [Option.map_some, Option.getD_some, same, later.chain live]

end Invocation

/-! ## 2. The thread of a call -/

/-- How far a thread has come with a call: it is about to make it, or what it has left above the return of the
call reaches only frames of its own, or the call has come back. -/
inductive Thread.Calls (own : FrameId → Prop) (call : Invocation) (fs : Frames) (t : Thread) : Prop
  | before (at_ : t = call.thread)
  | inside (top : Thread) (saved : FrameId) (split : t = top.onto (.leaveCall saved :: call.base))
    (reaches : ∀ f, top.Reaches fs f → own f)
  | back (stack : t.stack = call.base) (hands : t.control.Hands)

namespace Thread

variable {own : FrameId → Prop} {call : Invocation} {fs fs' : Frames} {t : Thread} {rootScope : ScopeId}

/-- What has come back is not going on. -/
theorem not_above {base : List Pending} (stack : t.stack = base) (hands : t.control.Hands) : ¬ t.Above base := by
  rintro ⟨top, split, busy⟩
  have nothing : top = [] := List.append_cancel_right ((split.symm.trans stack).trans (List.nil_append _).symm)
  exact busy nothing hands

theorem Anchored.of_onto {beneath : List Pending} (anchored : (t.onto beneath).Anchored fs) :
    t.Anchored fs := by
  obtain ⟨control, root, live, watched⟩ := anchored
  refine ⟨control, root, ?_, watched⟩
  intro f member
  apply live f
  rcases List.mem_cons.mp member with rfl | saved
  · exact List.mem_cons_self
  · apply List.mem_cons_of_mem
    rw [onto, List.filterMap_append]
    exact List.mem_append_left _ saved

theorem Anchored.launch {job : Control} {rest : Thread} (anchored : t.Anchored fs)
    (launches : t.launch? = some (job, rest)) : rest.Anchored fs := by
  obtain ⟨jobs, submits, rfl⟩ := Machine.launch?_eq_some launches
  obtain ⟨simple, root, live, -⟩ := anchored
  rw [submits] at simple
  exact ⟨fun job member => simple job (List.mem_cons_of_mem _ member), root, live, nofun⟩

/-- A thread reaches what it reached, when others have moved. -/
theorem Reaches.of_onward (anchored : t.Anchored fs) (later : Frames.Onward rootScope fs fs') {f : FrameId}
    (reaches : t.Reaches fs' f) : t.Reaches fs f := by
  obtain ⟨g, member, inside⟩ := reaches
  rw [later.chain (anchored.live g member)] at inside
  exact ⟨g, member, inside⟩

theorem Calls.onward (calls : t.Calls own call fs) (anchored : t.Anchored fs)
    (later : Frames.Onward rootScope fs fs') : t.Calls own call fs' := by
  cases calls with
  | before at_ => exact .before at_
  | back stack hands => exact .back stack hands
  | inside top saved split reaches =>
    subst split
    refine .inside top saved rfl ?_
    intro f after
    exact reaches f (after.of_onward anchored.of_onto later)

/-- What a call has left above its return reaches what the call may have to do with. -/
theorem Calls.of_onto {saved : FrameId} (calls : (t.onto (.leaveCall saved :: call.base)).Calls own call fs) :
    ∀ f, t.Reaches fs f → own f := by
  -- the return is still there, so the call is neither about to be made nor back
  have longer : t.stack ++ .leaveCall saved :: call.base ≠ call.base := by
    intro same
    have length := congrArg List.length same
    simp only [List.length_append, List.length_cons] at length
    omega
  cases calls with
  | before at_ => exact absurd (congrArg stack at_) longer
  | back stack hands => exact absurd stack longer
  | inside top saved' split reaches =>
    obtain ⟨env, control, stack⟩ := t
    obtain ⟨env', control', stack'⟩ := top
    simp only [onto, Thread.mk.injEq] at split
    obtain ⟨rfl, rfl, same⟩ := split
    obtain ⟨rfl, -⟩ := List.append_inj' same rfl
    exact reaches

/-- A call that launches stands where its part of the stack does. -/
theorem Calls.stands {job : Control} {rest : Thread} (calls : t.Calls own call fs)
    (launches : t.launch? = some (job, rest)) : ∀ f ∈ t.env.chain fs, own f := by
  intro f inside
  obtain ⟨jobs, submits, -⟩ := Machine.launch?_eq_some launches
  cases calls with
  | before at_ =>
    subst at_
    cases submits
  | inside top saved split reaches =>
    subst split
    exact reaches f ⟨_, List.mem_cons_self, inside⟩
  | back stack hands =>
    rw [submits] at hands
    exact hands.elim

theorem Calls.launch {job : Control} {rest : Thread} (calls : t.Calls own call fs)
    (launches : t.launch? = some (job, rest)) : rest.Calls own call fs := by
  obtain ⟨jobs, submits, rfl⟩ := Machine.launch?_eq_some launches
  cases calls with
  | before at_ =>
    subst at_
    cases submits
  | inside top saved split reaches =>
    subst split
    exact .inside ⟨top.env, .submit jobs, top.stack⟩ saved rfl reaches
  | back stack hands =>
    rw [submits] at hands
    exact hands.elim

end Thread

namespace Turn

variable {p : Program} {own : FrameId → Prop} {call : Invocation} {s : Turn} {rootScope : ScopeId} {g : FrameId}

/-- A call is made inside a frame around it, or fails at once. -/
theorem invoke_calls (linked : s.world.frames.Linked rootScope) (anchored : s.thread.Anchored s.world.frames)
    (at_ : s.thread = call.thread) (around : ∀ f ∈ call.around p s.world.frames, own f)
    (made : ∀ f, ¬ s.world.frames.Live f → own f) :
    (s.invoke p call.span call.function call.arguments).thread.Calls own call
      (s.invoke p call.span call.function call.arguments).world.frames := by
  obtain ⟨world, env, control, stack⟩ := s
  obtain ⟨env', span, function, arguments, base⟩ := call
  cases at_
  have back : ∀ e, (⟨env, .leave e, stack⟩ : Thread).Calls own ⟨env, span, function, arguments, stack⟩
      world.frames := fun e => .back rfl trivial
  simp only [invoke]
  split
  · exact back _
  · split
    · exact back _
    · split
      · exact back _
      · next scope opens =>
        split
        · exact back _
        · next bindings bound =>
          refine .inside ⟨_, .eval _, []⟩ env.current rfl ?_
          rintro f ⟨h, member, reached⟩
          obtain rfl := List.mem_singleton.mp member
          -- the way outward from the new frame begins with it, and goes on around the call
          have outside : world.frames.Live (p.declaringFrame env world.frames scope) :=
            (linked.of_mem_chain (Env.declaringFrame_mem linked anchored.root anchored.here p scope)).1
          have way := linked.chain_push outside scope bindings
          replace reached := way ▸ reached
          rcases List.mem_cons.mp reached with rfl | outward
          · apply made
            rw [Frames.live_iff]
            exact Nat.lt_irrefl _
          · have inside : f ∈ Invocation.around ⟨env, span, function, arguments, stack⟩ p world.frames :=
              Invocation.chain_declaringFrame linked anchored.root opens outward
            exact around f inside
  · exact back _

/-- A step of a call reaches nothing but frames around it and frames made since. -/
theorem step_calls (linked : s.world.frames.Linked rootScope) (anchored : s.thread.Anchored s.world.frames)
    (around : ∀ f ∈ call.around p s.world.frames, own f) (made : ∀ f, ¬ s.world.frames.Live f → own f)
    (above : s.thread.Above call.base) (calls : s.thread.Calls own call s.world.frames) (who : ThreadId) :
    (s.step p who).thread.Calls own call (s.step p who).world.frames := by
  cases calls with
  | before at_ =>
    have control : s.control = .invoke call.span call.function call.arguments :=
      congrArg Thread.control at_
    rw [step, control]
    exact invoke_calls linked anchored at_ around made
  | back stack hands => exact absurd above (Thread.not_above stack hands)
  | inside top saved split reaches =>
    obtain ⟨world, env, control, stack⟩ := s
    obtain ⟨env', control', stack'⟩ := top
    cases split
    by_cases isOver : stack' = [] ∧ control.Hands
    · -- the frame of the call is left
      obtain ⟨rfl, hands⟩ := isOver
      cases control with
      | give v => exact .back rfl trivial
      | leave e =>
        refine .back ?_ ?_
        · cases e <;> rfl
        · cases e <;> trivial
      | _ => exact hands.elim
    · have own' : (⟨env, control, stack'⟩ : Thread).Anchored world.frames :=
        Thread.Anchored.of_onto anchored
      have busy : stack' = [] → ¬ control.Hands := fun nothing hands => isOver ⟨nothing, hands⟩
      let part : Turn := ⟨world, env, control, stack'⟩
      have step := step_onto (s := part) busy p who (.leaveCall saved :: call.base)
      show Thread.Calls own call ((part.onto (.leaveCall saved :: call.base)).step p who).world.frames
        ((part.onto (.leaveCall saved :: call.base)).step p who).thread
      rw [step]
      refine .inside (part.step p who).thread saved rfl ?_
      intro f reached
      -- a step reaches what it reached, or the frame that it has made
      rcases (step_course p who part).reaches linked own' reached with old | ⟨new, -⟩
      · exact reaches f old
      · exact made f new

/-- A step of a call does not depend on what is bound in a frame that is neither around it nor made since. -/
theorem ignores_calls (anchored : s.thread.Anchored s.world.frames)
    (root : own Frames.root) (above : s.thread.Above call.base)
    (calls : s.thread.Calls own call s.world.frames) (live : s.world.frames.Live g) (hidden : ¬ own g) :
    s.Ignores p g := by
  cases calls with
  | before at_ =>
    intro who bindings
    have control : s.control = .invoke call.span call.function call.arguments :=
      congrArg Thread.control at_
    have control' : (s.rebind g bindings).control = .invoke call.span call.function call.arguments := control
    rw [step, step, control, control']
    exact invoke_rebind live ..
  | back stack hands => exact absurd above (Thread.not_above stack hands)
  | inside top saved split reaches =>
    have outside : g ∉ s.world.frames.chain s.env.current := by
      intro inside
      have here : s.env.current = top.env.current := congrArg (fun t => t.env.current) split
      exact hidden (reaches g ⟨_, List.mem_cons_self, here ▸ inside⟩)
    refine Apart.ignores ⟨live, ?_, outside, ?_⟩ p
    · rintro rfl
      exact hidden (anchored.root ▸ root)
    · intro watched
      exact outside (anchored.watched g watched)

end Turn

/-! ## 3. Runs in which a call is made -/

namespace Machine

variable {p : Program} {m m' : Machine} {seen : Option Sighting}

/-- A thread is there as long as it is not over. -/
theorem Next.stays (next : Next p m seen m') {who : ThreadId} {t : Thread} (here : m.thread? who = some t)
    (unfinished : seen = some ⟨who, t⟩ → t.outcome? = none) : ∃ t', m'.thread? who = some t' := by
  have put : ∀ {other : ThreadId} {t? : Option Thread}, (who = other → ∃ t', t? = some t') →
      ∃ t', Function.update m.thread? other t? who = some t' := by
    intro other t? new
    rw [Function.update_apply]
    split
    · next same => exact new same
    · exact ⟨t, here⟩
  have waiting : ∀ {id : TaskId} {task : Task}, m.tasks[id.index]? = some task →
      task.state.thread? = none → who ≠ .task id := by
    rintro id task found none rfl
    rw [thread?_of_found found, none] at here
    cases here
  cases next with
  | idle => exact ⟨t, here⟩
  | turn other t₁ found silent going =>
    rw [thread?_afterTurn found]
    exact put fun _ => ⟨_, rfl⟩
  | launch other t₁ rest job found launches =>
    rw [thread?_submit, thread?_setThread found]
    exact put fun _ => ⟨_, rfl⟩
  | start id env job found =>
    rw [thread?_setTask found]
    exact put fun _ => ⟨_, rfl⟩
  | finished id t₁ outcome found ended =>
    obtain ⟨task, at_⟩ := thread?_task found
    rw [thread?_setTask at_]
    refine put ?_
    rintro rfl
    cases here.symm.trans found
    cases ended.symm.trans (unfinished rfl)
  | record id f found =>
    show ∃ t', (m.setTask id .ending).thread? who = some t'
    rw [thread?_setTask found]
    exact put fun same => absurd same (waiting found rfl)
  | release id found =>
    show ∃ t', (m.setTask id .ended).thread? who = some t'
    rw [thread?_setTask found]
    exact put fun same => absurd same (waiting found rfl)

end Machine

/-- A thread in the middle of something is not over. -/
theorem Thread.Above.unfinished {base : List Pending} {t : Thread} (above : t.Above base) :
    t.outcome? = none := by
  obtain ⟨top, stack, busy⟩ := above
  rw [← Thread.above_nil_iff]
  refine ⟨t.stack, (List.append_nil _).symm, ?_⟩
  intro nothing
  rw [stack] at nothing
  exact busy (List.append_eq_nil_iff.mp nothing).1

namespace Run

variable {p : Program} {c : RunConfig} {who : ThreadId} {call : Invocation} {own : FrameId → Prop} {r : Run}
  {g : FrameId}

/-- The frames only grow, whoever moves. -/
theorem onward_move (numbered : r.machine.Numbered) (anchored : r.machine.Anchored p) (first : Move) :
    (r.move p c first).machine.Anchored p ∧
      Frames.Onward p.attrs.rootScope r.machine.world.frames (r.move p c first).machine.world.frames := by
  rcases machine_move p c numbered first with next | ⟨still, ledger, moved⟩
  · exact ⟨anchored.next next, anchored.onward next⟩
  · rw [moved]
    exact ⟨⟨anchored.frames, anchored.threads, anchored.jobs⟩, .refl _, anchored.frames, anchored.frames⟩

/-- A thread makes a call, or has made it, and what it reaches meanwhile is around the call or made since. -/
structure Confines (p : Program) (who : ThreadId) (call : Invocation) (own : FrameId → Prop) (r : Run) : Prop where
  numbered : r.machine.Numbered
  anchored : r.machine.Anchored p
  rooted : call.env.root = Frames.root
  standing : r.machine.world.frames.Live call.env.current
  around : ∀ f ∈ call.around p r.machine.world.frames, own f
  made : ∀ f, ¬ r.machine.world.frames.Live f → own f
  caller : ∃ t, r.machine.thread? who = some t ∧ t.Calls own call r.machine.world.frames

theorem confines_call (numbered : r.machine.Numbered) (anchored : r.machine.Anchored p)
    (calls : r.machine.thread? who = some call.thread) :
    r.Confines p who call (call.own p r.machine.world.frames) := by
  have stands := anchored.threads who _ calls
  exact ⟨numbered, anchored, stands.root, stands.here, fun f => .inl, fun f => .inr, _, calls, .before rfl⟩

namespace Confines

variable (confines : r.Confines p who call own)

include confines

/-- The call goes on as it has begun, whoever moves. -/
theorem move (first : Move) (above : ∀ t, r.mover? first = some ⟨who, t⟩ → t.Above call.base) :
    (r.move p c first).Confines p who call own := by
  obtain ⟨numbered, anchored, rooted, standing, around, made, t, here, calls⟩ := confines
  obtain ⟨anchored', later⟩ := onward_move (c := c) numbered anchored first
  have stands := anchored.threads who t here
  have numbered' := (next_move p c numbered first).numbered numbered
  refine ⟨numbered', anchored', rooted, later.grows.live standing, ?_, ?_, ?_⟩
  · rw [Invocation.around_onward later rooted standing]
    exact around
  · intro f new
    exact made f fun live => new (later.grows.live live)
  · rcases machine_move p c numbered first with next | ⟨still, ledger, moved⟩
    · obtain ⟨t', after⟩ := next.stays here fun mover => (above t mover).unfinished
      refine ⟨t', after, ?_⟩
      have each : ∀ u t, (r.move p c first).machine.thread? u = some t →
          u = who → t.Calls own call (r.move p c first).machine.world.frames := by
        refine next.forall_threads ?_ ?_ ?_ ?_
        · rintro u t₁ there rfl
          cases here.symm.trans there
          exact calls.onward stands later
        · rintro u t₁ there mover turned rfl
          cases here.symm.trans there
          rw [turned]
          exact Turn.step_calls (s := t.inside r.machine.world) anchored.frames stands around made
            (above t mover) calls u
        · rintro u t₁ rest job there launches rfl
          cases here.symm.trans there
          exact (calls.launch launches).onward (stands.launch launches) later
        · rintro id env job waits same
          rw [← same, Machine.thread?_of_found waits] at here
          cases here
      exact each who t' after rfl
    · rw [moved]
      exact ⟨t, here, calls⟩

/-- The caller's own moves leave a frame alone that is neither around the call nor made since. -/
theorem ignores {first : Move} {t : Thread} (mover : r.mover? first = some ⟨who, t⟩) (above : t.Above call.base)
    (live : r.machine.world.frames.Live g) (hidden : ¬ own g) :
    (t.inside r.machine.world).Ignores p g := by
  obtain ⟨t', here, calls⟩ := confines.caller
  cases here.symm.trans (found_of_mover confines.numbered mover)
  exact Turn.ignores_calls (s := t.inside r.machine.world) (confines.anchored.threads who t here)
    (confines.around _ (Invocation.root_mem_around confines.rooted)) above calls live hidden

theorem play {moves : List Move} (goesOn : Evaluating p c who call.base r moves) :
    (r.play p c moves).Confines p who call own := by
  induction moves generalizing r with
  | nil => exact confines
  | cons first moves ih =>
    obtain ⟨⟨t, here, above⟩, later⟩ := goesOn
    refine ih (confines.move first ?_) later
    intro t' mover
    cases here.symm.trans (found_of_mover confines.numbered mover)
    exact above

end Confines

theorem evaluating_append {base : List Pending} {moves more : List Move}
    (goesOn : Evaluating p c who base r (moves ++ more)) :
    Evaluating p c who base r moves ∧ Evaluating p c who base (r.play p c moves) more := by
  induction moves generalizing r with
  | nil => exact ⟨trivial, goesOn⟩
  | cons first moves ih =>
    obtain ⟨here, later⟩ := goesOn
    obtain ⟨before, after⟩ := ih later
    exact ⟨⟨here, before⟩, after⟩

/-! ## 4. A call by itself -/

/-- A move of a call that a thread has begun above `base`, or of the tasks launched since there were `count`. -/
def Belongs (who : ThreadId) (base : List Pending) (count : Nat) (r : Run) : Move → Prop
  | .main => who = .main ∧ r.machine.main.Above base
  | .task i => count ≤ i ∨ who = .task ⟨i⟩ ∧ ∃ t, r.machine.thread? who = some t ∧ t.Above base
  | .start i => count ≤ i
  | .look | .giveUp | .close | .report => False

/-- No other task takes part in the moves. -/
def ByItself (p : Program) (c : RunConfig) (who : ThreadId) (base : List Pending) (count : Nat) :
    Run → List Move → Prop
  | _, [] => True
  | r, first :: moves => r.Belongs who base count first ∧ ByItself p c who base count (r.move p c first) moves

theorem Belongs.mover {base : List Pending} {count : Nat} {first : Move} (belongs : r.Belongs who base count first)
    {seen : Sighting} (mover : r.mover? first = some seen) :
    seen.who = who ∧ seen.thread.Above base ∨ ∃ i, count ≤ i ∧ seen.who = .task ⟨i⟩ := by
  cases first with
  | main =>
    obtain ⟨rfl, above⟩ := belongs
    simp only [mover?] at mover
    split at mover
    · cases mover
      exact .inl ⟨rfl, above⟩
    · cases mover
  | task i =>
    obtain ⟨t, found, rfl⟩ := Option.map_eq_some_iff.mp mover
    rcases belongs with since | ⟨rfl, t', here, above⟩
    · exact .inr ⟨i, since, rfl⟩
    · cases here.symm.trans found
      exact .inl ⟨rfl, above⟩
  | start | look | giveUp | close | report => cases mover

/-- Beside the call there may be tasks launched since, and they, too, reach only frames that it may have to do
with. -/
structure Secludes (p : Program) (who : ThreadId) (call : Invocation) (own : FrameId → Prop) (count : Nat)
    (r : Run) : Prop extends Confines p who call own r where
  beside : ∀ i, count ≤ i → ∀ f, r.machine.Reaches (.task ⟨i⟩) f → own f
  caller_before : ∀ i, count ≤ i → who ≠ .task ⟨i⟩

theorem secludes_call (numbered : r.machine.Numbered) (anchored : r.machine.Anchored p)
    (calls : r.machine.thread? who = some call.thread) :
    r.Secludes p who call (call.own p r.machine.world.frames) r.machine.tasks.size := by
  have missing : ∀ i, r.machine.tasks.size ≤ i → r.machine.tasks[i]? = none :=
    fun i outside => Array.getElem?_eq_none outside
  refine ⟨confines_call numbered anchored calls, ?_, ?_⟩
  · intro i outside f reaches
    cases reaches with
    | thread found =>
      obtain ⟨id, at_⟩ := Machine.thread?_task found
      cases (missing i outside).symm.trans at_
    | waiting waits => cases (missing i outside).symm.trans waits
  · rintro i outside rfl
    obtain ⟨id, at_⟩ := Machine.thread?_task calls
    cases (missing i outside).symm.trans at_

namespace Secludes

variable {count : Nat} (secludes : r.Secludes p who call own count) {first : Move}
  (belongs : r.Belongs who call.base count first)

include secludes belongs

theorem move : (r.move p c first).Secludes p who call own count := by
  have confines := secludes.toConfines
  have confines' : (r.move p c first).Confines p who call own := by
    refine confines.move first ?_
    intro t mover
    rcases belongs.mover mover with ⟨-, above⟩ | ⟨i, since, same⟩
    · exact above
    · exact absurd same (secludes.caller_before i since)
  refine ⟨confines', ?_, secludes.caller_before⟩
  intro i since f reaches
  rcases machine_move p c confines.numbered first with next | ⟨still, ledger, moved⟩
  · rcases next.reaches confines.anchored reaches with before | ⟨-, new, -⟩ | ⟨v, t, job, rest, seen, found,
      launches, -, inside⟩
    · exact secludes.beside i since f before
    · exact confines.made f new
    · -- a task that is launched begins where the launching thread stands
      rcases belongs.mover seen with ⟨rfl, above⟩ | ⟨j, since', rfl⟩
      · obtain ⟨t', here, calls⟩ := confines.caller
        cases here.symm.trans found
        exact calls.stands launches f inside
      · exact secludes.beside j since' f (.thread found ⟨_, List.mem_cons_self, inside⟩)
  · rw [moved] at reaches
    apply secludes.beside i since f
    cases reaches with
    | thread found reaches => exact .thread found reaches
    | waiting waits inside => exact .waiting waits inside

/-- No move depends on what is bound in a frame that is neither around the call nor made since. -/
theorem move_rebind (live : r.machine.world.frames.Live g) (hidden : ¬ own g) (bindings : Bindings) :
    (r.rebind g bindings).move p c first = (r.move p c first).rebind g bindings := by
  have confines := secludes.toConfines
  cases mover : r.mover? first with
  | none => exact move_of_still mover
  | some seen =>
    apply move_of_ignores mover
    have found := found_of_mover confines.numbered mover
    obtain ⟨u, t⟩ := seen
    rcases belongs.mover mover with ⟨rfl, above⟩ | ⟨i, since, rfl⟩
    · exact confines.ignores mover above live hidden
    · have stands := confines.anchored.threads _ t found
      have outside : g ∉ r.machine.world.frames.chain t.env.current := by
        intro inside
        exact hidden (secludes.beside i since g (.thread found ⟨_, List.mem_cons_self, inside⟩))
      refine Turn.Apart.ignores ⟨live, ?_, outside, fun watched => outside (stands.watched g watched)⟩ p
      rintro rfl
      have root := confines.around _ (Invocation.root_mem_around confines.rooted)
      exact hidden (stands.root ▸ root)

end Secludes

/-- A call by itself goes the same way whatever is bound in a frame that it has nothing to do with, and leaves
that as it is. -/
theorem Secludes.play_rebind {count : Nat} (secludes : r.Secludes p who call own count) {moves : List Move}
    (alone : ByItself p c who call.base count r moves) (live : r.machine.world.frames.Live g) (hidden : ¬ own g)
    (bindings : Bindings) : (r.rebind g bindings).play p c moves = (r.play p c moves).rebind g bindings := by
  induction moves generalizing r with
  | nil => rfl
  | cons first moves ih =>
    obtain ⟨belongs, later⟩ := alone
    rw [play_cons, play_cons, secludes.move_rebind belongs live hidden]
    exact ih (secludes.move belongs) later (live_play secludes.numbered live [first])

end Run

end Strand
