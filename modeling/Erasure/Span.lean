/-
Source spans.
-/

namespace Erasure

/-- A range of positions in a source file. -/
structure Span where
  start : Nat
  stop : Nat
  deriving DecidableEq, Repr, Inhabited

namespace Span

/-- The span of code that no source text stands for. -/
def generated : Span := ⟨0, 0⟩

/-- Whether the span marks generated code. -/
def isGenerated (s : Span) : Bool := s = generated

/-- The smallest span that covers both; generated code has no place and gives way. -/
def merge (s t : Span) : Span :=
  if s.isGenerated then t
  else if t.isGenerated then s
  else ⟨min s.start t.start, max s.stop t.stop⟩

/-- The printed form: `start..stop`. -/
def describe (s : Span) : String :=
  if s.isGenerated then "<generated>" else toString s.start ++ ".." ++ toString s.stop

end Span

end Erasure
