/-!
# Positions and spans

A program arrives as a tree whose nodes carry the region of text they were read from.  A `Span` is
such a region: two `Pos`itions, both included.  Line 0 stands for "nowhere", and a span that starts
nowhere is a *dummy*: the span of a node that some pass built.

`Span.merge` covers two spans with the least span that contains both, where a dummy counts for
nothing.  Positions are ordered by line, then by column.
-/

namespace ArrayFusion

/-- A position in a text: lines count from 1, and line 0 means that the position is unknown. -/
structure Pos where
  line : Nat
  column : Nat
deriving DecidableEq, Inhabited

namespace Pos

/-- The position of code that stands in no text. -/
def unknown : Pos := ⟨0, 0⟩

/-- Does the position refer to a place in a text? -/
def isKnown (p : Pos) : Bool := p.line != 0

/-- The order of reading: by line, then by column. -/
def ble (p q : Pos) : Bool := p.line < q.line || (p.line == q.line && p.column ≤ q.column)

/-- The earlier of two positions. -/
def earlier (p q : Pos) : Pos := if p.ble q then p else q

/-- The later of two positions. -/
def later (p q : Pos) : Pos := if p.ble q then q else p

/-- A position is written `line:column`. -/
def text (p : Pos) : String := s!"{p.line}:{p.column}"

end Pos

/-- The region of a text from `start` to `stop`, both included. -/
structure Span where
  start : Pos
  stop : Pos
deriving DecidableEq, Inhabited

namespace Span

/-- The span of code that stands in no text. -/
def dummy : Span := ⟨.unknown, .unknown⟩

/-- The span of a single position. -/
def point (line column : Nat) : Span := ⟨⟨line, column⟩, ⟨line, column⟩⟩

/-- A span is a dummy when it starts nowhere, wherever it ends. -/
def isDummy (s : Span) : Bool := !s.start.isKnown

/-- The least span that covers both; a dummy gives way to the other span. -/
def merge (s t : Span) : Span :=
  if s.isDummy then t
  else if t.isDummy then s
  else ⟨s.start.earlier t.start, s.stop.later t.stop⟩

/-- A dummy is written `<unknown>`, a single position once, and any other span as its two ends. -/
def text (s : Span) : String :=
  if s.isDummy then "<unknown>"
  else if s.start = s.stop then s.start.text
  else s!"{s.start.text}-{s.stop.text}"

end Span

end ArrayFusion
