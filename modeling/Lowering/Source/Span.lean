/-!
# Ranges of bytes in a source text
-/

namespace Lowering

/-- The bytes from `start` up to, but not including, `stop`. -/
structure Span where
  start : UInt64 := 0
  stop : UInt64 := 0
deriving DecidableEq, Repr

namespace Span

instance : Inhabited Span := ⟨{}⟩

def point (offset : UInt64) : Span := ⟨offset, offset⟩

/-- The smallest span that covers two others. -/
def cover (a b : Span) : Span := ⟨min a.start b.start, max a.stop b.stop⟩

/-- Spans are ordered by their start, and those with one start by their end. -/
def order (a b : Span) : Ordering :=
  (compare a.start b.start).then (compare a.stop b.stop)

end Span

end Lowering
