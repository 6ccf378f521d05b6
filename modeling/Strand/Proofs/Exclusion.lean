import Strand.Proofs.Interleaving

/-!
# Protected blocks exclude each other

A protected block is entered in three steps that others may interleave: a look at the table of sites,
a second look that makes the lock where the first one missed, and the taking of the lock. It is left
in one, whatever the reason.

The invariant, `Guarded`, reads the holds off the stacks: how often a thread holds a lock is how often
its stack has still to give it back. So a thread can neither lose a hold nor leave with one, and two
threads inside of the block of one site would both be the holder of one lock.
-/

set_option autoImplicit false

namespace Strand

/-! ## 1. Holds -/

namespace Locks

/-- How often a thread holds a lock. -/
def holds (ls : Locks) (lock : LockId) (who : ThreadId) : Nat :=
  if (ls.lock lock).holder = some who then (ls.lock lock).count else 0

/-- A table of sites in which every site has a lock of its own. -/
structure WellFormed (ls : Locks) : Prop where
  inside : ∀ {site lock}, ls.find? site = some lock → lock.index < ls.locks.size
  apart : ∀ {site other lock}, ls.find? site = some lock → ls.find? other = some lock → site = other
  free : ∀ lock, (ls.lock lock).holder = none ↔ (ls.lock lock).count = 0

variable {ls : Locks} {lock other : LockId} {site : NodeId} {who : ThreadId}

theorem wellFormed_empty : empty.WellFormed := by
  refine ⟨?_, ?_, ?_⟩
  · intro site lock found
    cases found
  · intro site other lock found
    cases found
  · intro lock
    exact ⟨fun _ => rfl, fun _ => rfl⟩

theorem holds_empty (lock : LockId) (who : ThreadId) : empty.holds lock who = 0 := rfl

@[simp] theorem find?_acquire (ls : Locks) (lock : LockId) (who : ThreadId) (site : NodeId) :
    (ls.acquire lock who).find? site = ls.find? site := rfl

@[simp] theorem find?_release (ls : Locks) (lock : LockId) (site : NodeId) :
    (ls.release lock).find? site = ls.find? site := rfl

/-- A site keeps the lock that it has. -/
theorem find?_addIfMissing_of_some {before : NodeId} (found : ls.find? before = some lock)
    (site : NodeId) : (ls.addIfMissing site).2.find? before = some lock := by
  by_cases same : before = site
  · subst same
    unfold addIfMissing
    rw [found]
    exact found
  · rw [find?_addIfMissing_of_ne ls same]
    exact found

/-- A new lock is free, as is one that does not exist. -/
theorem lock_addIfMissing (ls : Locks) (site : NodeId) (lock : LockId) :
    (ls.addIfMissing site).2.lock lock = ls.lock lock := by
  unfold addIfMissing
  cases ls.find? site with
  | some found => rfl
  | none =>
    simp only [newLock, Locks.lock, Array.getD_eq_getD_getElem?, Array.getElem?_push]
    split
    · next last => simp [last]
    · rfl

@[simp] theorem holds_addIfMissing (ls : Locks) (site : NodeId) (lock : LockId) (who : ThreadId) :
    (ls.addIfMissing site).2.holds lock who = ls.holds lock who := by
  unfold holds
  rw [lock_addIfMissing]

theorem WellFormed.addIfMissing (h : ls.WellFormed) (site : NodeId) :
    (ls.addIfMissing site).2.WellFormed := by
  have free : ∀ lock, ((ls.addIfMissing site).2.lock lock).holder = none ↔
      ((ls.addIfMissing site).2.lock lock).count = 0 := by
    intro lock
    rw [lock_addIfMissing]
    exact h.free lock
  cases found : ls.find? site with
  | some lock =>
    have same : (ls.addIfMissing site).2 = ls := by
      unfold Locks.addIfMissing
      rw [found]
    rw [same]
    exact h
  | none =>
    -- the new lock comes after all others, so no other site has it
    have grown : (ls.addIfMissing site).2.locks.size = ls.locks.size + 1 := by
      unfold Locks.addIfMissing
      simp only [found, newLock, Array.size_push]
    have fresh : (ls.addIfMissing site).2.find? site = some ⟨ls.locks.size⟩ := by
      rw [find?_addIfMissing]
      unfold Locks.addIfMissing
      simp only [found, newLock]
    have old : ∀ {other lock}, other ≠ site →
        (ls.addIfMissing site).2.find? other = some lock → lock.index < ls.locks.size := by
      intro other lock ne found
      rw [find?_addIfMissing_of_ne ls ne] at found
      exact h.inside found
    refine ⟨?_, ?_, free⟩
    · intro other lock found
      rw [grown]
      by_cases same : other = site
      · rw [same, fresh] at found
        cases found
        exact Nat.lt_succ_self _
      · exact Nat.lt_succ_of_lt (old same found)
    · intro one other lock foundOne foundOther
      by_cases isOne : one = site <;> by_cases isOther : other = site
      · rw [isOne, isOther]
      · rw [isOne, fresh] at foundOne
        cases foundOne
        exact absurd (old isOther foundOther) (Nat.lt_irrefl _)
      · rw [isOther, fresh] at foundOther
        cases foundOther
        exact absurd (old isOne foundOne) (Nat.lt_irrefl _)
      · rw [find?_addIfMissing_of_ne ls isOne] at foundOne
        rw [find?_addIfMissing_of_ne ls isOther] at foundOther
        exact h.apart foundOne foundOther

theorem WellFormed.acquire (h : ls.WellFormed) (inside : lock.index < ls.locks.size)
    (who : ThreadId) : (ls.acquire lock who).WellFormed := by
  refine ⟨?_, h.apart, ?_⟩
  · intro site found lookedUp
    have := h.inside lookedUp
    simpa [Locks.acquire] using this
  · intro other
    rw [lock_acquire ls lock other who inside]
    split
    · simp [Lock.acquire]
    · exact h.free other

theorem WellFormed.release (h : ls.WellFormed) (lock : LockId) : (ls.release lock).WellFormed := by
  refine ⟨?_, h.apart, ?_⟩
  · intro site found lookedUp
    have := h.inside lookedUp
    simpa [Locks.release] using this
  · intro other
    rw [lock_release]
    split
    · unfold Lock.release
      split
      · exact ⟨fun _ => rfl, fun _ => rfl⟩
      · next many =>
        show (ls.lock other).holder = none ↔ (ls.lock other).count - 1 = 0
        rw [h.free other]
        omega
    · exact h.free other

/-- Whoever takes an available lock holds it once more. -/
theorem holds_acquire (h : ls.WellFormed) (inside : lock.index < ls.locks.size)
    (available : ls.available lock who) (other : LockId) (whom : ThreadId) :
    (ls.acquire lock who).holds other whom =
      ls.holds other whom + if other = lock ∧ whom = who then 1 else 0 := by
  unfold holds
  rw [lock_acquire ls lock other who inside]
  by_cases same : other = lock
  · subst same
    simp only [if_true, true_and, Lock.acquire, Option.some.injEq]
    unfold Locks.available Lock.available at available
    split at available
    · next nobody =>
      have none := (h.free other).mp nobody
      by_cases mine : who = whom
      · subst mine
        simp [nobody, none]
      · simp [nobody, mine, Ne.symm mine]
    · next holder held =>
      obtain rfl : holder = who := by simpa using available
      by_cases mine : holder = whom
      · subst mine
        simp [held]
      · simp [held, mine, Ne.symm mine]
  · simp [same]

/-- Whoever gives back a lock that it holds, holds it once less. -/
theorem holds_release (held : 0 < ls.holds lock who) (other : LockId) (whom : ThreadId) :
    (ls.release lock).holds other whom =
      ls.holds other whom - if other = lock ∧ whom = who then 1 else 0 := by
  have holder : (ls.lock lock).holder = some who := by
    by_contra notMine
    unfold holds at held
    rw [if_neg notMine] at held
    exact Nat.lt_irrefl 0 held
  unfold holds
  rw [lock_release]
  by_cases same : other = lock
  · subst same
    simp only [if_true, true_and, holder, Option.some.injEq]
    unfold Lock.release
    by_cases mine : whom = who
    · subst mine
      split
      · next last =>
        simp only [Lock.free, if_true, reduceCtorEq, if_false]
        omega
      · simp
    · split
      · simp [Lock.free, Ne.symm mine]
      · simp [holder, Ne.symm mine]
  · simp [same]

/-- Two threads do not hold one lock. -/
theorem holder_unique {one two : ThreadId} (first : 0 < ls.holds lock one)
    (second : 0 < ls.holds lock two) : one = two := by
  unfold holds at first second
  split at first
  · next mine =>
    split at second
    · next also =>
      rw [mine] at also
      exact Option.some.inj also
    · exact absurd second (Nat.lt_irrefl 0)
  · exact absurd first (Nat.lt_irrefl 0)

/-- A lock is kept from a thread by another one that holds it, and by nothing else. -/
theorem available_iff (h : ls.WellFormed) (lock : LockId) (who : ThreadId) :
    ls.available lock who ↔ ∀ other, other ≠ who → ls.holds lock other = 0 := by
  unfold Locks.available Lock.available holds
  cases holder : (ls.lock lock).holder with
  | none => simp
  | some someone =>
    have counted : (ls.lock lock).count ≠ 0 := by
      intro zero
      rw [(h.free lock).mpr zero] at holder
      cases holder
    simp only [decide_eq_true_eq, Option.some.injEq]
    constructor
    · rintro rfl other ne
      rw [if_neg (Ne.symm ne)]
    · intro none
      by_contra ne
      have := none someone ne
      rw [if_pos rfl] at this
      exact counted this

end Locks

/-! ## 2. What a step does to locks -/

/-- A control that fits the table: the lock that it is about to take is the one of its site, and it
takes no other. -/
def Control.Fits (ls : Locks) : Control → Prop
  | .enterSite site lock _ => ls.find? site = some lock
  | .acquire .. => False
  | .submit jobs => ∀ job ∈ jobs, ∃ node, job = .eval node
  | _ => True

theorem Control.IsQuiet.fits {control : Control} (quiet : control.IsQuiet) (ls : Locks) :
    control.Fits ls := by
  cases control <;> trivial

/-! ## 3. The invariant -/

/-- What waits here is the end of the block of a site. -/
def Pending.isEndOf (site : NodeId) : Pending → Bool
  | .leaveSite site' _ => site' = site
  | _ => false

theorem Pending.eq_of_isEndOf {site : NodeId} {waiting : Pending}
    (isEnd : waiting.isEndOf site = true) : ∃ lock, waiting = .leaveSite site lock := by
  unfold isEndOf at isEnd
  split at isEnd
  · next site' lock =>
    obtain rfl : site' = site := of_decide_eq_true isEnd
    exact ⟨lock, rfl⟩
  · cases isEnd

/-- A thread whose marks belong to sites of the table, and whose control fits it. -/
structure Thread.Fits (ls : Locks) (t : Thread) : Prop where
  marks : ∀ mark ∈ marks t.stack, ∃ site, mark.1 = some site ∧ ls.find? site = some mark.2
  control : t.control.Fits ls

/-- How often a thread is inside of blocks that are protected by a lock. -/
def depth (lock : LockId) (t? : Option Thread) : Nat :=
  match t? with
  | some t => (marks t.stack).countP fun mark => mark.2 = lock
  | none => 0

/-- The holds of every thread can be read off its stack. -/
structure Guarded (ls : Locks) (threads : ThreadId → Option Thread) : Prop where
  table : ls.WellFormed
  holds : ∀ lock who, ls.holds lock who = depth lock (threads who)
  fits : ∀ who t, threads who = some t → t.Fits ls

theorem Thread.Fits.mono {ls ls' : Locks} {t : Thread} (h : t.Fits ls)
    (grows : ∀ site lock, ls.find? site = some lock → ls'.find? site = some lock) : t.Fits ls' := by
  obtain ⟨marks, control⟩ := h
  refine ⟨fun mark member => ?_, ?_⟩
  · obtain ⟨site, named, found⟩ := marks mark member
    exact ⟨site, named, grows site _ found⟩
  · cases at_ : t.control <;> rw [at_] at control <;> first | trivial | exact grows _ _ control

namespace Guarded

variable {ls : Locks} {threads : ThreadId → Option Thread} {who : ThreadId} {t : Thread}

/-- A thread is replaced by one with as many marks, or by none if it has none. -/
theorem put (h : Guarded ls threads) (t? : Option Thread)
    (marks : ∀ lock, depth lock t? = depth lock (threads who))
    (fits : ∀ t, t? = some t → t.Fits ls) : Guarded ls (Function.update threads who t?) := by
  refine ⟨h.table, fun lock other => ?_, fun other t found => ?_⟩
  · rw [h.holds, Function.update_apply]
    split
    · next same => rw [same, marks]
    · rfl
  · rw [Function.update_apply] at found
    split at found
    · exact fits t found
    · exact h.fits other t found

/-- A new lock changes nothing for the threads. -/
theorem addIfMissing (h : Guarded ls threads) (site : NodeId) :
    Guarded (ls.addIfMissing site).2 threads := by
  refine ⟨h.table.addIfMissing site, fun lock who => ?_, fun who t found => ?_⟩
  · rw [Locks.holds_addIfMissing]
    exact h.holds lock who
  · exact (h.fits who t found).mono fun _ _ found => Locks.find?_addIfMissing_of_some found site

theorem depth_eq (found : threads who = some t) (lock : LockId) :
    depth lock (threads who) = (marks t.stack).countP fun mark => mark.2 = lock := by
  rw [found]
  rfl

/-- A thread takes an available lock of a site, and has a mark for it. -/
theorem acquire (h : Guarded ls threads) (found : threads who = some t) {site : NodeId} {lock : LockId}
    (lookedUp : ls.find? site = some lock) (available : ls.available lock who) {t' : Thread}
    (marks : Strand.marks t'.stack = (some site, lock) :: Strand.marks t.stack)
    (control : t'.control.Fits ls) :
    Guarded (ls.acquire lock who) (Function.update threads who (some t')) := by
  have inRange := h.table.inside lookedUp
  refine ⟨h.table.acquire inRange who, fun other whom => ?_, fun whom u here => ?_⟩
  · rw [Locks.holds_acquire h.table inRange available, h.holds, Function.update_apply]
    by_cases mine : whom = who
    · subst mine
      rw [if_pos rfl, depth_eq found, depth, marks, List.countP_cons]
      simp only [and_true, decide_eq_true_eq, eq_comm (a := lock)]
    · rw [if_neg mine, if_neg fun both => mine both.2]
      rfl
  · have fits : u.Fits ls := by
      rw [Function.update_apply] at here
      split at here
      · cases here
        refine ⟨?_, control⟩
        rw [marks]
        exact List.forall_mem_cons.mpr ⟨⟨site, rfl, lookedUp⟩, (h.fits who t found).marks⟩
      · exact h.fits whom u here
    exact fits.mono fun _ _ found => found

/-- A thread gives back the lock of its innermost mark. -/
theorem release (h : Guarded ls threads) (found : threads who = some t) {mark : Option NodeId × LockId}
    {t' : Thread} (marks : Strand.marks t.stack = mark :: Strand.marks t'.stack)
    (control : t'.control.Fits ls) :
    Guarded (ls.release mark.2) (Function.update threads who (some t')) := by
  have counted : ∀ lock, depth lock (threads who) =
      depth lock (some t') + if lock = mark.2 then 1 else 0 := by
    intro lock
    rw [depth_eq found, marks, List.countP_cons]
    simp only [decide_eq_true_eq, eq_comm (a := lock)]
    rfl
  have held : 0 < ls.holds mark.2 who := by
    rw [h.holds, counted, if_pos rfl]
    exact Nat.succ_pos _
  refine ⟨h.table.release mark.2, fun other whom => ?_, fun whom u here => ?_⟩
  · rw [Locks.holds_release held, h.holds, Function.update_apply]
    by_cases mine : whom = who
    · subst mine
      rw [if_pos rfl, counted]
      simp only [and_true, Nat.add_sub_cancel]
    · rw [if_neg mine, if_neg fun both => mine both.2, Nat.sub_zero]
  · have fits : u.Fits ls := by
      rw [Function.update_apply] at here
      split at here
      · cases here
        have marked := (h.fits who t found).marks
        rw [marks] at marked
        exact ⟨(List.forall_mem_cons.mp marked).2, control⟩
      · exact h.fits whom u here
    exact fits.mono fun _ _ found => found

/-- A step of a thread keeps the invariant. -/
theorem step (p : Program) (h : Guarded ls threads) (found : threads who = some t) {w : World}
    (locks : w.locks = ls) :
    Guarded ((t.inside w).step p who).world.locks
      (Function.update threads who (some ((t.inside w).step p who).thread)) := by
  obtain ⟨marked, control⟩ := h.fits who t found
  have same : ∀ lock, (marks t.stack).countP (fun mark => mark.2 = lock) = depth lock (threads who) :=
    fun lock => (depth_eq found lock).symm
  subst locks
  have moves := Turn.step_moves p who (t.inside w)
  generalize (t.inside w).step p who = s' at moves
  cases moves with
  | still => exact h.put _ same fun t' here => (Option.some.inj here) ▸ ⟨marked, control⟩
  | quiet quiet =>
    have marks : Strand.marks s'.stack = Strand.marks t.stack := quiet.marks
    rw [quiet.locks]
    refine h.put _ (fun lock => ?_) fun t' here => ?_
    · rw [← same, ← marks]
      rfl
    · cases here
      refine ⟨?_, quiet.control.fits _⟩
      rw [show Strand.marks s'.thread.stack = _ from marks]
      exact marked
  | print output control quiet =>
    exact h.put _ same fun t' here => (Option.some.inj here) ▸ ⟨marked, quiet.fits _⟩
  | visit site block => exact h.put _ same fun t' here => (Option.some.inj here) ▸ ⟨marked, trivial⟩
  | take lock inside at_ =>
    rw [show t.control = _ from at_] at control
    exact control.elim
  | hit site block lock at_ lookedUp =>
    exact h.put _ same fun t' here => (Option.some.inj here) ▸ ⟨marked, lookedUp⟩
  | miss site block at_ => exact h.put _ same fun t' here => (Option.some.inj here) ▸ ⟨marked, trivial⟩
  | add site block at_ =>
    have grown := h.addIfMissing site
    have marked := (grown.fits who t found).marks
    exact grown.put _ same fun t' here =>
      (Option.some.inj here) ▸ ⟨marked, Locks.find?_addIfMissing w.locks site⟩
  | enter site block lock at_ available =>
    rw [show t.control = _ from at_] at control
    exact h.acquire found control available (marks_cons _ _) trivial
  | leave waiting stack mark control at_ waits quiet =>
    have marks : Strand.marks t.stack = mark :: Strand.marks stack := by
      rw [show t.stack = _ from at_, marks_cons, waits]
      rfl
    exact h.release found marks (quiet.fits _)

/-- A thread that stands in a block of a site is the only one there. -/
theorem alone (h : Guarded ls threads) {site : NodeId} {one two : ThreadId} {t u : Thread}
    (first : threads one = some t) (second : threads two = some u)
    (inFirst : t.stack.any (Pending.isEndOf site)) (inSecond : u.stack.any (Pending.isEndOf site)) :
    one = two := by
  have held : ∀ {who v}, threads who = some v → v.stack.any (Pending.isEndOf site) →
      ∃ lock, ls.find? site = some lock ∧ 0 < ls.holds lock who := by
    intro who v found inside
    obtain ⟨waiting, member, isEnd⟩ := List.any_eq_true.mp inside
    obtain ⟨lock, rfl⟩ := Pending.eq_of_isEndOf isEnd
    have member : (some site, lock) ∈ marks v.stack :=
      List.mem_filterMap.mpr ⟨_, member, rfl⟩
    obtain ⟨site', named, lookedUp⟩ := (h.fits who v found).marks _ member
    cases named
    refine ⟨lock, lookedUp, ?_⟩
    rw [h.holds, found]
    exact List.countP_pos_iff.mpr ⟨_, member, by simp⟩
  obtain ⟨lock, lookedUp, holds⟩ := held first inFirst
  obtain ⟨lock', also, holdsToo⟩ := held second inSecond
  rw [lookedUp] at also
  cases also
  exact Locks.holder_unique holds holdsToo

end Guarded

/-! ## 4. The invariant along a run -/

/-- The threads of a machine are guarded, and what waits to be started begins with a node. -/
structure Machine.Guarded (m : Machine) : Prop where
  threads : Strand.Guarded m.world.locks m.thread?
  jobs : ∀ id env job, m.Waits id env job → ∃ node, job = .eval node

namespace Machine

variable {p : Program} {m m' : Machine} {seen : Option Sighting}

theorem launch?_fits {ls : Locks} {t rest : Thread} {job : Control} (h : t.Fits ls)
    (launches : t.launch? = some (job, rest)) :
    (∃ node, job = .eval node) ∧ rest.Fits ls ∧ rest.stack = t.stack := by
  obtain ⟨marks, control⟩ := h
  obtain ⟨jobs, at_, rfl⟩ := launch?_eq_some launches
  rw [at_] at control
  exact ⟨control _ List.mem_cons_self,
    ⟨marks, fun job member => control job (List.mem_cons_of_mem _ member)⟩, rfl⟩

theorem guarded_next (h : m.Guarded) (next : Next p m seen m') : m'.Guarded := by
  obtain ⟨threads, jobs⟩ := h
  refine ⟨?_, fun id env job waits => ?_⟩
  · cases next with
    | idle => exact threads
    | turn who t found silent going =>
      rw [thread?_afterTurn found]
      exact threads.step p found rfl
    | launch who t rest job found launches =>
      obtain ⟨-, fits, stack⟩ := launch?_fits (threads.fits who t found) launches
      rw [thread?_submit, thread?_setThread found]
      show Strand.Guarded (m.setThread who rest).world.locks _
      rw [world_setThread]
      refine threads.put _ (fun lock => ?_) fun t' same => (Option.some.inj same) ▸ fits
      rw [found]
      simp only [depth, stack]
    | start id env job found =>
      obtain ⟨node, rfl⟩ := jobs id env job found
      rw [thread?_setTask found]
      refine threads.put _ (fun lock => ?_) fun t' same => ?_
      · rw [thread?_of_found found]
        rfl
      · cases same
        exact ⟨fun mark member => (by cases member), trivial⟩
    | finished id t outcome found ended =>
      obtain ⟨task, at_⟩ := thread?_task found
      have empty := (Thread.outcome?_eq_some ended).1
      rw [thread?_setTask at_, thread?_ofOutcome]
      refine threads.put none (fun lock => ?_) fun t' same => by cases same
      rw [found]
      simp only [depth, empty, marks_nil, List.countP_nil]
    | record id f found =>
      show Strand.Guarded m.world.locks (m.setTask id .ending).thread?
      rw [thread?_setTask found]
      refine threads.put none (fun lock => ?_) fun t' same => by cases same
      rw [thread?_of_found found]
      rfl
    | release id found =>
      show Strand.Guarded m.world.locks (m.setTask id .ended).thread?
      rw [thread?_setTask found]
      refine threads.put none (fun lock => ?_) fun t' same => by cases same
      rw [thread?_of_found found]
      rfl
  · obtain waited | ⟨who, t, rest, found, launches, -⟩ := next.waits waits
    · exact jobs id env job waited
    · exact (launch?_fits (threads.fits who t found) launches).1

/-- The table of sites only grows. -/
theorem find?_next (next : Next p m seen m') {site : NodeId} {lock : LockId}
    (found : m.world.locks.find? site = some lock) : m'.world.locks.find? site = some lock := by
  cases next with
  | turn who t here silent going =>
    show ((t.inside m.world).step p who).world.locks.find? site = some lock
    have moves := Turn.step_moves p who (t.inside m.world)
    generalize (t.inside m.world).step p who = s' at moves
    cases moves with
    | quiet quiet =>
      rw [quiet.locks]
      exact found
    | add => exact Locks.find?_addIfMissing_of_some found _
    | _ => exact found
  | launch who t rest job here launches =>
    show (m.setThread who rest).world.locks.find? site = some lock
    rw [world_setThread]
    exact found
  | _ => exact found

end Machine

namespace Run

/-- Every thread that was seen before a lock stood before the lock of its site. -/
def EntriesFit (r : Run) : Prop :=
  ∀ seen ∈ r.history, ∀ site lock block, seen.thread.control = .enterSite site lock block →
    r.machine.world.locks.find? site = some lock

variable {p : Program} {c : RunConfig}

theorem guarded_initial (p : Program) (c : RunConfig) : (initial p c).machine.Guarded := by
  obtain ⟨frames, -, begun⟩ := machine_initial p c
  rw [begun]
  refine ⟨⟨Locks.wellFormed_empty, fun lock who => ?_, fun who t found => ?_⟩, fun id env job waits => ?_⟩
  · rcases who with _ | id
    · rfl
    · rfl
  · cases who with
    | main =>
      cases found
      exact ⟨fun mark member => (by cases member), trivial⟩
    | task id => cases found
  · cases waits

theorem guarded_next {r r' : Run} (h : r.machine.Guarded ∧ r.EntriesFit) (next : Next p c r r') :
    r'.machine.Guarded ∧ r'.EntriesFit := by
  obtain ⟨guarded, entries⟩ := h
  cases next with
  | step seen machine next here =>
    refine ⟨Machine.guarded_next guarded next, ?_⟩
    intro old member site lock block at_
    refine Machine.find?_next next ?_
    rcases List.mem_append.mp member with now | before
    · obtain rfl : seen = some old := by simpa using now
      have control := (guarded.threads.fits _ _ next.seen).control
      rw [at_] at control
      exact control
    · exact entries old before site lock block at_
  | same => exact ⟨guarded, entries⟩
  | look | giveUp => exact ⟨guarded, entries⟩
  | close | report => exact ⟨⟨guarded.threads, guarded.jobs⟩, entries⟩

theorem guarded_play (p : Program) (c : RunConfig) (moves : List Move) :
    ((initial p c).play p c moves).machine.Guarded ∧ ((initial p c).play p c moves).EntriesFit :=
  holds_play (fun r => r.machine.Guarded ∧ r.EntriesFit)
    ⟨guarded_initial p c, fun seen member => by cases member⟩
    (fun _ _ _ h next => guarded_next h next) moves

end Run

/-! ## 5. Sites -/

namespace Machine

/-- How often a thread is inside of the block of a site. -/
def nesting (m : Machine) (site : NodeId) (who : ThreadId) : Nat :=
  match m.thread? who with
  | some t => t.stack.countP (Pending.isEndOf site)
  | none => 0

/-- How often a thread holds the lock of a site. -/
def siteHolds (m : Machine) (site : NodeId) (who : ThreadId) : Nat :=
  match m.world.locks.find? site with
  | some lock => m.world.locks.holds lock who
  | none => 0

theorem countP_isEndOf (site : NodeId) (stack : List Pending) :
    stack.countP (Pending.isEndOf site) = (marks stack).countP fun mark => mark.1 = some site := by
  induction stack with
  | nil => rfl
  | cons waiting stack ih =>
    rw [List.countP_cons, marks_cons, List.countP_append, ih, Nat.add_comm]
    congr 1
    cases waiting <;> simp [Pending.isEndOf, Pending.mark?]

variable {m : Machine}

/-- A thread holds the lock of a site as often as it is inside. -/
theorem siteHolds_eq_nesting (h : m.Guarded) (site : NodeId) (who : ThreadId) :
    m.siteHolds site who = m.nesting site who := by
  unfold siteHolds nesting
  cases here : m.thread? who with
  | none =>
    cases m.world.locks.find? site with
    | none => rfl
    | some lock =>
      show m.world.locks.holds lock who = 0
      rw [h.threads.holds, here]
      rfl
  | some t =>
    have fits := (h.threads.fits who t here).marks
    show _ = t.stack.countP (Pending.isEndOf site)
    rw [countP_isEndOf]
    cases found : m.world.locks.find? site with
    | none =>
      refine (List.countP_eq_zero.mpr fun mark member => ?_).symm
      obtain ⟨site', named, lookedUp⟩ := fits mark member
      intro same
      have same : mark.1 = some site := by simpa using same
      rw [named] at same
      cases same
      rw [found] at lookedUp
      cases lookedUp
    | some lock =>
      show m.world.locks.holds lock who = _
      rw [h.threads.holds, here]
      refine List.countP_congr fun mark member => ?_
      obtain ⟨site', named, lookedUp⟩ := fits mark member
      simp only [named, Option.some.injEq, decide_eq_true_eq]
      constructor
      · rintro rfl
        exact h.threads.table.apart lookedUp found
      · rintro rfl
        rw [found] at lookedUp
        exact (Option.some.inj lookedUp).symm

/-- Two threads are not inside of the block of one site. -/
theorem nesting_unique (h : m.Guarded) {site : NodeId} {one two : ThreadId}
    (first : 0 < m.nesting site one) (second : 0 < m.nesting site two) : one = two := by
  rw [← siteHolds_eq_nesting h] at first second
  unfold siteHolds at first second
  cases found : m.world.locks.find? site with
  | none =>
    rw [found] at first
    exact absurd first (Nat.lt_irrefl 0)
  | some lock =>
    rw [found] at first second
    exact Locks.holder_unique first second

end Machine

namespace Run

/-- Protected blocks exclude each other, whatever the order of steps. Two entries share a lock if they
are entries of one site. No two threads are inside of one site's block, and nothing but another
thread inside keeps a thread from entering, which may be inside already. A thread holds a site's lock
as often as it is inside; so an evaluation of a site leaves as many holds as it found, however it
ends, and a thread that is over holds no lock. -/
theorem sites_exclude (p : Program) (c : RunConfig) (moves moves' : List Move) :
    let r := (initial p c).play p c moves
    let r' := r.play p c moves'
    (∀ one ∈ r.history, ∀ two ∈ r.history, ∀ site site' lock lock' block block',
      one.thread.control = .enterSite site lock block →
      two.thread.control = .enterSite site' lock' block' → (lock = lock' ↔ site = site')) ∧
    (∀ site who who', 0 < r.machine.nesting site who → 0 < r.machine.nesting site who' →
      who = who') ∧
    (∀ who t site lock block, r.machine.thread? who = some t →
      t.control = .enterSite site lock block →
      (r.machine.world.locks.available lock who ↔
        ∀ other, other ≠ who → r.machine.nesting site other = 0)) ∧
    (∀ site who, r.machine.siteHolds site who = r.machine.nesting site who) ∧
    (∀ site block who t t', p.kind site = .ok (.protect block) →
      r.machine.thread? who = some t → t.control = .eval site →
      r'.machine.thread? who = some t' → t'.stack = t.stack →
      (∃ v, t'.control = .give v) ∨ (∃ e, t'.control = .leave e) →
      r'.machine.siteHolds site who = r.machine.siteHolds site who) ∧
    (∀ who, (∀ t, r.machine.thread? who = some t → t.outcome?.isSome) →
      ∀ lock, r.machine.world.locks.holds lock who = 0) := by
  intro r r'
  obtain ⟨guarded, entries⟩ := guarded_play p c moves
  have guarded' : r'.machine.Guarded := by
    show (((initial p c).play p c moves).play p c moves').machine.Guarded
    rw [← play_append]
    exact (guarded_play p c _).1
  refine ⟨?_, ?_, ?_, ?_, ?_, ?_⟩
  · intro one first two second site site' lock lock' block block' at_ at_'
    have found := entries one first site lock block at_
    have found' := entries two second site' lock' block' at_'
    constructor
    · rintro rfl
      exact guarded.threads.table.apart found found'
    · rintro rfl
      exact Option.some.inj (found.symm.trans found')
  · intro site who who' first second
    exact Machine.nesting_unique guarded first second
  · intro who t site lock block here at_
    have found : r.machine.world.locks.find? site = some lock := by
      have control := (guarded.threads.fits who t here).control
      rwa [at_] at control
    have holds : ∀ other, r.machine.nesting site other = r.machine.world.locks.holds lock other := by
      intro other
      rw [← Machine.siteHolds_eq_nesting guarded]
      unfold Machine.siteHolds
      rw [found]
    simp only [holds]
    exact Locks.available_iff guarded.threads.table lock who
  · exact Machine.siteHolds_eq_nesting guarded
  · intro site block who t t' _ here _ here' same _
    rw [Machine.siteHolds_eq_nesting guarded', Machine.siteHolds_eq_nesting guarded]
    unfold Machine.nesting
    rw [here, here']
    simp only [same]
  · intro who finished lock
    rw [guarded.threads.holds]
    cases here : r.machine.thread? who with
    | none => rfl
    | some t =>
      obtain ⟨outcome, ended⟩ := Option.isSome_iff_exists.mp (finished t here)
      have empty := (Thread.outcome?_eq_some ended).1
      simp only [depth, empty, marks_nil, List.countP_nil]

end Run

end Strand
