/-!
# Places in a source text

A span is a range of characters, counted from the start of the text: the start belongs to it and the
end does not. Spans written by hand may be inverted; such a span is empty.
-/

namespace SignalLab

/-- The characters from `start` up to but not including `stop`. -/
structure Span where
  start : Nat
  stop : Nat
  deriving DecidableEq, Repr, Inhabited

namespace Span

/-- The span of the single character at an offset. -/
def single (offset : Nat) : Span := ⟨offset, offset + 1⟩

/-- The empty span at an offset. -/
def point (offset : Nat) : Span := ⟨offset, offset⟩

/-- The smallest span that covers two others. -/
def merge (a b : Span) : Span := ⟨min a.start b.start, max a.stop b.stop⟩

/-- How many characters a span holds. -/
def length (s : Span) : Nat := s.stop - s.start

/-- Whether a span holds no character. -/
def isEmpty (s : Span) : Bool := s.length == 0

/-- Moves a span towards the end of the text. -/
def shift (n : Nat) (s : Span) : Span := ⟨s.start + n, s.stop + n⟩

/-- The text of a span in messages. -/
def text (s : Span) : String := toString s.start ++ ":" ++ toString s.stop

end Span

end SignalLab
