import Strand.Proofs.Alike.Steps
import Strand.Proofs.Return

/-!
# Threads that run alike

A thread by itself has one way to go, as long as it launches nothing (`Turn.Reaches`). A thread that is
alike to it comes along: when the one has come to its end, the other has come to its tail, with a value
that is alike or by an exit that is (`Turn.Like.run`, `Turn.Like.ends`).
-/

set_option autoImplicit false

namespace Strand

/-- What waits above the tail waits in the second thread, too. -/
theorem StackLike.top {Z : Region} {tail stack stack' : List Pending} {R : Pairing}
    (waits : StackLike Z tail R stack stack') :
    ∃ top, stack = top ++ tail ∧ (top = [] → stack' = []) := by
  induction waits with
  | bottom => exact ⟨[], rfl, fun _ => rfl⟩
  | @cons waiting waiting' _ _ first within rest ih =>
    obtain ⟨top, rfl, -⟩ := ih
    exact ⟨waiting :: top, rfl, nofun⟩

namespace Turn

variable {p : Program} {Z : Region} {tail : List Pending} {R : Pairing} {s s' t t' : Turn}

/-! ## 1. A thread by itself -/

/-- A step of the main program that launches nothing and does not begin the program anew. -/
def Goes (p : Program) (s s' : Turn) : Prop :=
  s.thread.launch? = none ∧ s.control ≠ .eval p.root ∧ s' = s.step p .main

/-- Any number of such steps. -/
abbrev Reaches (p : Program) : Turn → Turn → Prop := Relation.ReflTransGen (Goes p)

theorem rightUnique_goes : Relator.RightUnique (Goes p) := by
  rintro s s' s'' ⟨-, -, rfl⟩ ⟨-, -, rfl⟩
  rfl

/-- Of two turns that are reached the one reaches the other. -/
theorem Reaches.total (first : Reaches p s t) (second : Reaches p s t') :
    Reaches p t t' ∨ Reaches p t' t :=
  Relation.ReflTransGen.total_of_right_unique rightUnique_goes first second

/-- A turn that is over reaches only itself. -/
theorem Reaches.eq_of_outcome {outcome : Outcome} (ended : s.thread.outcome? = some outcome)
    (reaches : Reaches p s s') : s' = s := by
  induction reaches with
  | refl => rfl
  | tail _ goes ih =>
    subst ih
    obtain ⟨-, -, rfl⟩ := goes
    exact step_of_outcome p _ .main ended

/-- All turns in which a thread ends are the same. -/
theorem Reaches.unique {o o' : Outcome} (first : Reaches p s t) (ended : t.thread.outcome? = some o)
    (second : Reaches p s t') (ended' : t'.thread.outcome? = some o') : t = t' := by
  rcases first.total second with later | later
  · exact (later.eq_of_outcome ended).symm
  · exact later.eq_of_outcome ended'

/-! ## 2. Side by side -/

theorem going_of_outcome (unfinished : t.thread.outcome? = none) : t.stack = [] → ¬ t.control.Hands := by
  obtain ⟨w, env, control, stack⟩ := t
  intro none hands
  obtain rfl : stack = [] := none
  cases control with
  | give | leave => cases unfinished
  | _ => exact hands

namespace Like

theorem launch? (like : s.Like Z tail R t) : s.thread.launch? = none ∧ t.thread.launch? = none := by
  obtain ⟨w, env, control, stack⟩ := s
  obtain ⟨w', env', control', stack'⟩ := t
  have same := like.control
  cases same <;> exact ⟨rfl, rfl⟩

theorem ne_root (like : s.Like Z tail R t) (closed : Z.Closed p)
    (root : ∃ l, p.arena.kind? p.root = some (.root l)) :
    s.control ≠ .eval p.root ∧ t.control ≠ .eval p.root := by
  obtain ⟨l, root⟩ := root
  have outside : ¬ Z.nodes p.root := fun inside => closed.quiet _ _ inside root
  obtain ⟨w, env, control, stack⟩ := s
  obtain ⟨w', env', control', stack'⟩ := t
  have same := like.control
  cases same with
  | eval n inside =>
    have other : n ≠ p.root := fun same => outside (same ▸ inside)
    exact ⟨fun same => other (Control.eval.inj same), fun same => other (Control.eval.inj same)⟩
  | _ => exact ⟨by simp, by simp⟩

/-- When the second thread has come to its end, the first one has come to its tail. -/
theorem ends (like : s.Like Z tail R t) {o' : Outcome} (ended : t.thread.outcome? = some o') :
    s.stack = tail ∧
      ((∃ v v', s.control = .give v ∧ o' = .value v' ∧ v.Like Z.functions R v') ∨
        ∃ e e', s.control = .leave e ∧ o' = .exit e' ∧ e.Like Z.functions R e') := by
  obtain ⟨w, env, control, stack⟩ := s
  obtain ⟨w', env', control', stack'⟩ := t
  obtain ⟨world, env, alike, waits⟩ := like
  obtain ⟨none, hands⟩ := Thread.outcome?_eq_some ended
  obtain rfl : stack' = [] := none
  cases waits
  refine ⟨rfl, ?_⟩
  rcases hands with ⟨v', at_, rfl⟩ | ⟨e', at_, rfl⟩
  · obtain rfl : control' = .give v' := at_
    cases alike with
    | give v _ alike => exact .inl ⟨v, v', rfl, rfl, alike⟩
  · obtain rfl : control' = .leave e' := at_
    cases alike with
    | leave e _ alike => exact .inr ⟨e, e', rfl, rfl, alike⟩

/-- Without a tail both come to their ends together, with outcomes that are alike. -/
theorem outcome (like : s.Like Z [] R t) :
    Option.Rel (Outcome.Like Z.functions R) s.thread.outcome? t.thread.outcome? := by
  obtain ⟨w, env, control, stack⟩ := s
  obtain ⟨w', env', control', stack'⟩ := t
  obtain ⟨world, env, alike, waits⟩ := like
  cases waits with
  | bottom =>
    cases alike with
    | give v v' same => exact .some (.value v v' same)
    | leave e e' same => exact .some (.exit e e' same)
    | _ => exact .none
  | cons => cases alike <;> exact .none

theorem goes (like : s.Like Z tail R t) (closed : Z.Closed p)
    (root : ∃ l, p.arena.kind? p.root = some (.root l)) :
    Goes p s (s.step p .main) ∧ Goes p t (t.step p .main) :=
  ⟨⟨like.launch?.1, (like.ne_root closed root).1, rfl⟩,
    ⟨like.launch?.2, (like.ne_root closed root).2, rfl⟩⟩

/-- Until the second thread has come to its end, the first one has not come to its tail. -/
theorem above (like : s.Like Z tail R t) (unfinished : t.thread.outcome? = none) : s.thread.Above tail := by
  obtain ⟨w, env, control, stack⟩ := s
  obtain ⟨w', env', control', stack'⟩ := t
  obtain ⟨-, -, alike, waits⟩ := like
  obtain ⟨top, same, none⟩ := StackLike.top waits
  refine ⟨top, same, fun empty hands => ?_⟩
  obtain rfl := none empty
  have alike : control.Like Z R control' := alike
  cases alike with
  | give | leave => cases unfinished
  | _ => exact hands

/-- Until the second thread has come to its end, the first one comes along, and the frames that it enters
lead back to where it began. -/
theorem run (closed : Z.Closed p) (root : ∃ l, p.arena.kind? p.root = some (.root l))
    (reaches : Reaches p t t') (like : s.Like Z tail R t) :
    ∃ s', Reaches p s s' ∧ Follows Z tail R s.world s' t' ∧
      ∀ env, s.thread.LeadsHome tail env → s'.thread.LeadsHome tail env := by
  induction reaches using Relation.ReflTransGen.head_induction_on generalizing s R with
  | refl => exact ⟨s, .refl, ⟨R, .refl like.world, like⟩, fun _ => id⟩
  | @head t t₁ first _ ih =>
    obtain ⟨-, -, rfl⟩ := first
    cases ended : t.thread.outcome? with
    | some o =>
      rw [show t.step p .main = t from step_of_outcome p t.world .main ended] at ih
      exact ih like
    | none =>
      obtain ⟨R₁, evolves, like₁⟩ := like.step closed .main .main (going_of_outcome ended)
      obtain ⟨s', rest, ⟨R₂, later, like₂⟩, home⟩ := ih like₁
      exact ⟨s', .head (like.goes closed root).1 rest, ⟨R₂, evolves.trans later, like₂⟩, fun env leads =>
        home env (step_leadsHome p .main s (like.above ended) leads)⟩

end Like

end Turn

end Strand
