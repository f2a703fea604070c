/-
# DeferFetch.Source.Span — stretches of source text.

A `Span` runs from its first position up to, and not including, its last, and may say which file it
belongs to. A `ByteSpan` is the same stretch as two 32-bit byte offsets.
-/
import DeferFetch.Source.Position

namespace DeferFetch

/-- **`Span`** — a half-open stretch of a source text. The default one stands at the very beginning
and belongs to tokens that were never read from a text. -/
structure Span where
  start : Position := {}
  stop : Position := {}
  file : Option String := none
deriving DecidableEq, Repr, Inhabited

/-- **`ByteSpan`** — byte offsets kept in 32 bits. -/
structure ByteSpan where
  start : UInt32
  stop : UInt32
deriving DecidableEq, Repr, Inhabited

namespace Span

/-- The empty span at one place, in no file. -/
def point (p : Position) : Span := ⟨p, p, none⟩

/-- From the start of `a` to the end of `b`, in the file of `a`. -/
def through (a b : Span) : Span := ⟨a.start, b.stop, a.file⟩

/-- **`s.location`** — `file:line:column` of the span's start, counted from one. -/
def location (s : Span) : String :=
  s.file.getD "<input>" ++ ":" ++ toString (s.start.line + 1) ++ ":"
    ++ toString (s.start.column + 1)

/-- The span's byte offsets, cut to 32 bits. -/
def bytes (s : Span) : ByteSpan := ⟨s.start.offset.toUInt32, s.stop.offset.toUInt32⟩

end Span

namespace ByteSpan

/-- The number of bytes; it wraps when the span ends before it starts. -/
def size (s : ByteSpan) : UInt32 := s.stop - s.start

/-- The span holds no byte. -/
def isEmpty (s : ByteSpan) : Bool := s.start == s.stop

/-- **`s.contains t`** — `t` lies within `s`. -/
def contains (s t : ByteSpan) : Bool := s.start ≤ t.start && t.stop ≤ s.stop

end ByteSpan

end DeferFetch
