/-
Places in a source text, and their lines and columns.

A `Range` counts bytes of the text's encoding, a `Position` counts lines from one and
characters of the line from zero, and a `Span` carries both for one stretch of text.
Covering and containing are decided on the two notations separately: which end of two
spans is the outer one is read off their byte ranges, whether a position lies inside is
read off lines and columns.

`positionFrom` walks the text once, spending the offset on each character's width.  An
offset beyond the end counts on from the last line, one column a byte, so the answer is
defined for every number.

Not covered: offsets, lines and columns have no bound here, so nothing is said of a program
that counts in 32 bits once a text has 4 GiB or more.
-/

namespace DomainModel

structure Position where
  line : Nat
  column : Nat
  deriving DecidableEq, Repr, Inhabited

/-- Bytes from `start` up to, not including, `stop`. -/
structure Range where
  start : Nat
  stop : Nat
  deriving DecidableEq, Repr, Inhabited

namespace Range

def length (r : Range) : Nat := r.stop - r.start

def isEmpty (r : Range) : Bool := r.start == r.stop

/-- The smallest range around both. -/
def cover (r s : Range) : Range := ⟨min r.start s.start, max r.stop s.stop⟩

end Range

structure Span where
  start : Position
  stop : Position
  range : Range
  deriving DecidableEq, Repr, Inhabited

namespace Span

def length (s : Span) : Nat := s.range.length

def isEmpty (s : Span) : Bool := s.range.isEmpty

/-- The smallest span around both; where two ends coincide the left operand's is kept. -/
def cover (s t : Span) : Span where
  start := if s.range.start ≤ t.range.start then s.start else t.start
  stop := if t.range.stop ≤ s.range.stop then s.stop else t.stop
  range := s.range.cover t.range

/-- Both ends belong to the span. -/
def contains (s : Span) (p : Position) : Bool :=
  s.start.line ≤ p.line && p.line ≤ s.stop.line &&
    !(p.line == s.start.line && p.column < s.start.column) &&
    !(p.line == s.stop.line && s.stop.column < p.column)

end Span

namespace Source

/-- Where `offset` bytes further on lies, when the text `cs` starts at `here`. -/
def positionFrom (here : Position) : List Char → Nat → Position
  | [], offset => { here with column := here.column + offset }
  | c :: cs, offset =>
    if offset = 0 then here
    else if c = '\n' then positionFrom ⟨here.line + 1, 0⟩ cs (offset - 1)
    else positionFrom ⟨here.line, here.column + 1⟩ cs (offset - c.utf8Size)

/-- The line and column of a byte offset. -/
def position (text : List Char) (offset : Nat) : Position :=
  positionFrom ⟨1, 0⟩ text offset

/-- The span of a byte range. -/
def span (text : List Char) (range : Range) : Span :=
  ⟨position text range.start, position text range.stop, range⟩

/-- How many lines there are; the text after the last line feed is a line too. -/
def lineCount (text : List Char) : Nat := text.count '\n' + 1

end Source

end DomainModel
