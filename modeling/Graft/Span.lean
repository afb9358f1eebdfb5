/-!
# Spans

A span is a range of bytes in a source text. Every node of a tree, every token and every diagnostic
carries one. The span `0, 0` is reserved for nodes that stand nowhere in a text.
-/

namespace Graft

/-- A range of bytes: the first one and the one after the last. -/
structure Span where
  start : Nat
  stop : Nat
  deriving DecidableEq, Repr, Inhabited

namespace Span

/-- The span of a node that was made rather than read. -/
def dummy : Span := ⟨0, 0⟩

/-- A span says nothing about a place exactly when it is `dummy`. -/
def isDummy (s : Span) : Bool := s.start == 0 && s.stop == 0

/-- The smallest span around both; a dummy span adds nothing. -/
def merge (a b : Span) : Span :=
  if a.isDummy then b
  else if b.isDummy then a
  else ⟨min a.start b.start, max a.stop b.stop⟩

/-- The span itself if it says something, and `other` if not. -/
def orElse (s other : Span) : Span := if s.isDummy then other else s

/-- The line on which the span starts, counted from one: a line ends with a line feed. -/
def line (s : Span) (source : String) : Nat :=
  (source.toUTF8.data.toList.take s.start).count 10 + 1

theorem isDummy_iff {s : Span} : s.isDummy = true ↔ s = dummy := by
  cases s; simp [isDummy, dummy]

@[simp] theorem dummy_merge (s : Span) : dummy.merge s = s := by simp [merge, dummy, isDummy]

@[simp] theorem merge_dummy (s : Span) : s.merge dummy = s := by
  by_cases h : s.isDummy = true
  · simp [isDummy_iff.1 h]
  · simp [merge, h, show dummy.isDummy = true from rfl]

end Span

/-- A name together with the place where it is written. -/
structure Ident where
  text : String
  span : Span
  deriving DecidableEq, Repr, Inhabited

end Graft
