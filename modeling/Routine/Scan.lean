import Routine.Lexeme
import Routine.Spacing

/-! # Reading tokens off a text

A scan is a place in a source text: what is left to read and where that stands. Each step passes
over spacing and takes one lexeme, so it shortens what is left until nothing but spacing is left;
from there on every step gives the end of the input, at the end of the text. `Lexer` gives the same
tokens from the offsets of bytes and lines. -/

namespace Routine

/-- What is left of a text, and the position at which it stands. -/
structure Scan where
  rest : List Char
  position : Position := .start
deriving DecidableEq, Repr

namespace Scan

/-- A scan of the whole text. -/
def ofString (s : String) : Scan := ⟨s.toList, .start⟩

/-- The next token, and the scan behind it. -/
def next (s : Scan) : Token × Scan :=
  let (blank, rest) := Spacing.split s.rest
  let here := s.position.afterAll blank
  match rest with
  | [] => (⟨.eof, here, none⟩, ⟨[], here⟩)
  | c :: cs =>
    let (lexeme, rest) := Lexeme.read c cs
    (⟨lexeme.kind, here, lexeme.literal⟩, ⟨rest, here.afterAll lexeme.text⟩)

theorem ofWord_kind_ne_eof (word : List Char) : (Lexeme.ofWord word).kind ≠ .eof := by
  simp only [Lexeme.ofWord]
  split
  · next k hk =>
    have := (Kind.ofReserved?_eq_some_iff.mp hk).1
    rintro rfl
    exact absurd this (by decide)
  · simp

theorem symbolKind_ne_eof (c : Char) : Lexeme.symbolKind c ≠ .eof := by
  unfold Lexeme.symbolKind
  split <;> simp

theorem pairKind?_ne_eof {c d : Char} {k : Kind} (h : Lexeme.pairKind? c d = some k) :
    k ≠ .eof := by
  unfold Lexeme.pairKind? at h
  split at h <;> simp_all <;> simp [← h]

/-- A lexeme never means the end of the input. -/
theorem read_kind_ne_eof (c : Char) (cs : List Char) : (Lexeme.read c cs).1.kind ≠ .eof := by
  unfold Lexeme.read
  split
  · simp only [Lexeme.readString]
    split <;> simp
  · split
    · unfold Lexeme.readChar
      repeat' split
      all_goals simp
    · split
      · simp only [Lexeme.readNumber, Lexeme.ofDigits]
        repeat' split
        all_goals simp
      · split
        · exact ofWord_kind_ne_eof _
        · unfold Lexeme.readSymbol
          split
          · split
            · next hk => exact pairKind?_ne_eof hk
            · exact symbolKind_ne_eof c
          · exact symbolKind_ne_eof c

/-- No step makes what is left longer. -/
theorem length_next_le (s : Scan) : s.next.2.rest.length ≤ s.rest.length := by
  have hblank := Spacing.length_split_le s.rest
  simp only [next]
  split
  · simp
  · next c cs h =>
    have := Lexeme.length_read_lt c cs
    rw [h] at hblank
    simp only
    omega

/-- A step that does not give the end of the input shortens what is left. -/
theorem length_next_lt {s : Scan} (h : s.next.1.kind ≠ .eof) :
    s.next.2.rest.length < s.rest.length := by
  have hblank := Spacing.length_split_le s.rest
  revert h
  simp only [next]
  split
  · simp
  · next c cs hs =>
    intro _
    have := Lexeme.length_read_lt c cs
    rw [hs] at hblank
    simp only
    omega

/-- All tokens of the text, the end of the input as the last. -/
def tokens (s : Scan) : List Token :=
  if s.next.1.kind = .eof then [s.next.1] else s.next.1 :: s.next.2.tokens
termination_by s.rest.length
decreasing_by exact length_next_lt ‹_›

end Scan

/-- All tokens of a source text, the end of the input as the last. -/
def tokenize (source : String) : List Token :=
  (Scan.ofString source).tokens

end Routine
