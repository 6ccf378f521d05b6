/-!
# Source spans

A span is a half-open range of source positions. Nothing forces `start ≤ stop`: a span that ends
before it starts is empty.
-/

set_option autoImplicit false

namespace Strand

/-- A range of source positions, from `start` up to but not including `stop`. -/
structure Span where
  start : Nat
  stop : Nat
deriving DecidableEq, Inhabited, Repr

namespace Span

/-- The span of a node that has no place in a source text. -/
def dummy : Span := ⟨0, 0⟩

/-- The least span that starts no later and ends no earlier than either of two spans. -/
def merge (a b : Span) : Span := ⟨min a.start b.start, max a.stop b.stop⟩

/-- The number of positions in the span; none if it ends before it starts. -/
def length (s : Span) : Nat := s.stop - s.start

def isEmpty (s : Span) : Bool := s.length == 0

theorem merge_comm (a b : Span) : a.merge b = b.merge a := by
  simp [merge, Nat.min_comm, Nat.max_comm]

theorem merge_assoc (a b c : Span) : (a.merge b).merge c = a.merge (b.merge c) := by
  simp [merge, Nat.min_assoc, Nat.max_assoc]

@[simp] theorem merge_self (a : Span) : a.merge a = a := by simp [merge]

/-- Both ends, as in `4..9`. -/
def text (s : Span) : String := s!"{s.start}..{s.stop}"

end Span

end Strand
