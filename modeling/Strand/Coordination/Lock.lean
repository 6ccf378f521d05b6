import Strand.Coordination.Task

/-!
# Locks

A lock is held by at most one thread, which may take it several times and must release it as often.
A protected block is a lock site: each site has one lock, made when the site is first entered.

Finding the lock of a site takes two looks at the table. The first only reads; a miss is followed by
`addIfMissing`, which looks again before it makes a lock, because another thread may have made it in
between. Each of the two is atomic, the pair is not.
-/

set_option autoImplicit false

namespace Strand

/-- The identity of a lock. -/
structure LockId where
  index : Nat
deriving DecidableEq, Inhabited, Repr

/-- A lock: who holds it, and how often. -/
structure Lock where
  holder : Option ThreadId
  count : Nat
deriving DecidableEq, Inhabited, Repr

namespace Lock

/-- A lock that nobody holds. -/
def free : Lock := ⟨none, 0⟩

/-- Whether a thread may take the lock: nobody else holds it. -/
def available (l : Lock) (who : ThreadId) : Bool :=
  match l.holder with
  | none => true
  | some holder => holder = who

/-- One more hold of a thread. -/
def acquire (l : Lock) (who : ThreadId) : Lock := ⟨some who, l.count + 1⟩

/-- One hold less; the last one frees the lock. -/
def release (l : Lock) : Lock :=
  if l.count ≤ 1 then free else { l with count := l.count - 1 }

/-- Giving back the hold that was taken last leaves the lock as it was before. -/
theorem release_acquire (l : Lock) (who : ThreadId) (held : l.holder = some who)
    (counted : 0 < l.count) : (l.acquire who).release = l := by
  obtain ⟨holder, count⟩ := l
  subst held
  simp [acquire, release, Nat.not_le.mpr (Nat.succ_lt_succ counted)]

@[simp] theorem release_acquire_free (who : ThreadId) : (free.acquire who).release = free := rfl

end Lock

/-- Every lock, and the locks of the sites. -/
structure Locks where
  locks : Array Lock
  sites : List (NodeId × LockId)
deriving Inhabited

namespace Locks

def empty : Locks := ⟨#[], []⟩

/-- The lock of a site, if the site was entered before. -/
def find? (ls : Locks) (site : NodeId) : Option LockId := ls.sites.lookup site

/-- Makes a lock that belongs to no site. -/
def newLock (ls : Locks) : LockId × Locks :=
  (⟨ls.locks.size⟩, { ls with locks := ls.locks.push .free })

/-- The lock of a site, made now if the table lacks it. -/
def addIfMissing (ls : Locks) (site : NodeId) : LockId × Locks :=
  match ls.find? site with
  | some lock => (lock, ls)
  | none =>
    let (lock, ls) := ls.newLock
    (lock, { ls with sites := (site, lock) :: ls.sites })

/-- The lock of a site. -/
def lockFor (ls : Locks) (site : NodeId) : LockId × Locks :=
  match ls.find? site with
  | some lock => (lock, ls)
  | none => ls.addIfMissing site

def lock (ls : Locks) (id : LockId) : Lock := ls.locks.getD id.index .free

def available (ls : Locks) (id : LockId) (who : ThreadId) : Bool := (ls.lock id).available who

def acquire (ls : Locks) (id : LockId) (who : ThreadId) : Locks :=
  { ls with locks := ls.locks.modify id.index fun l => l.acquire who }

def release (ls : Locks) (id : LockId) : Locks :=
  { ls with locks := ls.locks.modify id.index Lock.release }

/-! ### Laws -/

/-- The lock that is found or made for a site is the lock of the site from then on. -/
theorem find?_addIfMissing (ls : Locks) (site : NodeId) :
    (ls.addIfMissing site).2.find? site = some (ls.addIfMissing site).1 := by
  unfold addIfMissing
  cases found : ls.find? site with
  | some lock => exact found
  | none => simp [newLock, find?]

/-- The other sites keep their locks. -/
theorem find?_addIfMissing_of_ne (ls : Locks) {site other : NodeId} (ne : other ≠ site) :
    (ls.addIfMissing site).2.find? other = ls.find? other := by
  unfold addIfMissing
  cases ls.find? site with
  | some lock => rfl
  | none =>
    have differs : (other == site) = false := by simpa using ne
    simp [newLock, find?, List.lookup_cons, differs]

theorem lock_acquire (ls : Locks) (id other : LockId) (who : ThreadId) (h : id.index < ls.locks.size) :
    (ls.acquire id who).lock other =
      if other = id then (ls.lock other).acquire who else ls.lock other := by
  obtain ⟨i⟩ := id
  obtain ⟨j⟩ := other
  simp only [lock, acquire, Array.getD_eq_getD_getElem?, Array.getElem?_modify, LockId.mk.injEq]
  by_cases same : i = j
  · subst same
    simp [Array.getElem?_eq_getElem h]
  · simp [same, Ne.symm same]

theorem lock_release (ls : Locks) (id other : LockId) :
    (ls.release id).lock other = if other = id then (ls.lock other).release else ls.lock other := by
  obtain ⟨i⟩ := id
  obtain ⟨j⟩ := other
  simp only [lock, release, Array.getD_eq_getD_getElem?, Array.getElem?_modify, LockId.mk.injEq]
  by_cases same : i = j
  · subst same
    cases ls.locks[i]? <;> simp [Lock.release, Lock.free]
  · simp [same, Ne.symm same]

/-- The number of sites that were entered. -/
def siteCount (ls : Locks) : Nat := ls.sites.length

end Locks

end Strand
