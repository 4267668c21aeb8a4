import Routine.Scan

/-! # Feeds of tokens

A feed hands out tokens without end. They are read off a source text or replayed from a list; after
the last token of a list the feed gives the end of the input, at the position of the last token. A
feed keeps the tokens it has handed out. -/

namespace Routine

/-- Where tokens come from. -/
inductive Source where
  | text (scan : Scan)
  | replay (tokens : List Token)
deriving DecidableEq, Repr

namespace Source

/-- The position of a feed from which no token has been drawn. -/
def start : Source → Position
  | text _ => .start
  | replay _ => .origin

/-- A bound on the tokens that are left, the end of the input not counted. -/
def size : Source → Nat
  | text scan => scan.rest.length
  | replay tokens => tokens.length

/-- The next token, and the source behind it. A list that has run out gives the end of the input at
`position`. -/
def next (position : Position) : Source → Token × Source
  | text scan => (scan.next.1, text scan.next.2)
  | replay [] => (⟨.eof, position, none⟩, replay [])
  | replay (t :: ts) => (t, replay ts)

theorem size_next_le (p : Position) (s : Source) : (s.next p).2.size ≤ s.size := by
  match s with
  | text scan => exact scan.length_next_le
  | replay [] => exact Nat.le_refl _
  | replay (_ :: ts) => exact Nat.le_succ _

theorem size_next_lt {p : Position} {s : Source} (h : (s.next p).1.kind ≠ .eof) :
    (s.next p).2.size < s.size := by
  match s with
  | text scan => exact Scan.length_next_lt h
  | replay [] => simp [next] at h
  | replay (_ :: ts) => exact Nat.lt_succ_self _

end Source

/-- A source of tokens together with the tokens that have been drawn from it, in order. -/
structure Feed where
  source : Source
  drawn : Array Token := #[]
deriving DecidableEq, Repr

namespace Feed

/-- The tokens of a source text. -/
def ofString (s : String) : Feed := { source := .text (.ofString s) }

/-- The tokens of a list. -/
def ofTokens (ts : List Token) : Feed := { source := .replay ts }

/-- The position of the token drawn last. -/
def position (f : Feed) : Position :=
  match f.drawn.back? with
  | some t => t.position
  | none => f.source.start

/-- A bound on the tokens that are left, the end of the input not counted. -/
def size (f : Feed) : Nat := f.source.size

/-- How many tokens have been drawn. -/
def pulls (f : Feed) : Nat := f.drawn.size

/-- The next token, and the feed behind it. -/
def next (f : Feed) : Token × Feed :=
  let (t, source) := f.source.next f.position
  (t, ⟨source, f.drawn.push t⟩)

@[simp] theorem drawn_next (f : Feed) : f.next.2.drawn = f.drawn.push f.next.1 := rfl

/-- After a token has been drawn, the feed stands at it. -/
@[simp] theorem position_next (f : Feed) : f.next.2.position = f.next.1.position := by
  simp [position]

theorem size_next_le (f : Feed) : f.next.2.size ≤ f.size :=
  Source.size_next_le _ _

theorem size_next_lt {f : Feed} (h : f.next.1.kind ≠ .eof) : f.next.2.size < f.size :=
  Source.size_next_lt h

end Feed

end Routine
