import Routine.Parse

/-! # Tokens that are still to come

The tokens a feed will hand out are a stream without end; so are those of a cursor, which begins
with the token that was handed back, if there is one. Two cursors with the same stream to come are
alike for all that is read from them, whatever was read before. -/

namespace Routine

namespace Feed

/-- The feed behind its next `n` tokens. -/
def drop (f : Feed) : Nat → Feed
  | 0 => f
  | n + 1 => f.next.2.drop n

/-- The `n`th of the tokens to come, counted from zero. -/
def upcoming (f : Feed) (n : Nat) : Token := (f.drop n).next.1

@[simp] theorem upcoming_zero (f : Feed) : f.upcoming 0 = f.next.1 := rfl

@[simp] theorem upcoming_succ (f : Feed) (n : Nat) : f.upcoming (n + 1) = f.next.2.upcoming n := rfl

end Feed

namespace Cursor

/-- The `n`th of the tokens to come, invalid ones included, counted from zero. -/
def upcoming (s : Cursor) (n : Nat) : Token :=
  match s.slot, n with
  | .pending t, 0 => t
  | .pending _, n + 1 => s.feed.upcoming n
  | .empty, n | .taken _, n => s.feed.upcoming n

/-- The tokens that come first are `ts`. -/
def Begins (s : Cursor) (ts : List Token) : Prop :=
  ∀ (i : Nat) (h : i < ts.length), s.upcoming i = ts.get ⟨i, h⟩

end Cursor

end Routine
