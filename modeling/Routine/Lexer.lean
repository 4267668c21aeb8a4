import Routine.Lexeme
import Routine.Spacing

/-! # The lexer

Here a text is read with the bookkeeping of a machine: the byte at which each character begins, the
number of the line and the byte at which the line begins. A column is the distance of two bytes, and
the value of a token is cut out of the source between two of them, so a step may fail. `Scan` reads
the same tokens off a list of characters. -/

namespace Routine

/-- The characters that are left of a text, and the byte at which they begin. -/
structure Walk where
  rest : List Char
  offset : Nat := 0
deriving DecidableEq, Repr

namespace Walk
variable {w w' : Walk} {p : Char → Bool} {c : Char}

/-- The next character and the byte at which it begins. -/
def peek (w : Walk) : Option (Nat × Char) :=
  w.rest.head?.map fun c => (w.offset, c)

/-- The walk behind the next character. -/
def next (w : Walk) : Walk :=
  match w.rest with
  | [] => w
  | c :: cs => ⟨cs, w.offset + c.utf8Size⟩

/-- The next character and the walk behind it, if `p` holds of it. -/
def nextIf (p : Char → Bool) (w : Walk) : Option (Char × Walk) :=
  match w.rest with
  | [] => none
  | c :: cs => if p c then some (c, ⟨cs, w.offset + c.utf8Size⟩) else none

theorem length_nextIf_lt (h : w.nextIf p = some (c, w')) : w'.rest.length < w.rest.length := by
  unfold nextIf at h
  split at h
  · cases h
  · next d ds hrest =>
    split at h
    · cases h
      simp [hrest]
    · cases h

/-- The walk behind all characters up to the first of which `p` does not hold. -/
def skipWhile (p : Char → Bool) (w : Walk) : Walk :=
  match _h : w.nextIf p with
  | some (_, w') => w'.skipWhile p
  | none => w
termination_by w.rest.length
decreasing_by exact length_nextIf_lt _h

theorem length_skipWhile_le (p : Char → Bool) (w : Walk) :
    (w.skipWhile p).rest.length ≤ w.rest.length := by
  rw [skipWhile]
  split
  · next c w' h =>
    have := length_nextIf_lt h
    have := length_skipWhile_le p w'
    omega
  · exact Nat.le_refl _
termination_by w.rest.length
decreasing_by exact length_nextIf_lt ‹_›

theorem length_next_le (w : Walk) : w.next.rest.length ≤ w.rest.length := by
  unfold next
  split
  · exact Nat.le_refl _
  · next h => simp [h]

variable {index : Nat}

theorem length_next_lt (h : w.peek = some (index, c)) : w.next.rest.length < w.rest.length := by
  cases hrest : w.rest with
  | nil => simp [peek, hrest] at h
  | cons d ds => simp [next, hrest]

theorem length_skipWhile_lt (h : w.peek = some (index, c)) (hc : p c) :
    (w.skipWhile p).rest.length < w.rest.length := by
  cases hrest : w.rest with
  | nil => simp [peek, hrest] at h
  | cons d ds =>
    obtain ⟨-, rfl⟩ : w.offset = index ∧ d = c := by simpa [peek, hrest] using h
    have hnext : w.nextIf p = some (d, ⟨ds, w.offset + d.utf8Size⟩) := by simp [nextIf, hrest, hc]
    rw [skipWhile, hnext]
    exact Nat.lt_succ_of_le (length_skipWhile_le p _)

end Walk

/-- A text that is read: the source, what is left of it, the number of the line, the byte at which
the line begins, and the position of the last token. -/
structure Lexer where
  source : String
  walk : Walk
  line : Nat := 1
  lineStart : Nat := 0
  position : Position := .start
deriving DecidableEq, Repr

namespace Lexer

/-- What stops a lexer: a byte in front of the line in which it should have a column, and a cut that
ends before it begins, behind the source or inside a character. -/
inductive Failure where
  | column (index lineStart : Nat)
  | cut (start stop : Nat)
deriving DecidableEq, Repr

def ofString (source : String) : Lexer :=
  { source, walk := ⟨source.toList, 0⟩ }

/-- The position of a byte of the line. -/
def positionAt (l : Lexer) (index : Nat) : Except Failure Position :=
  if index < l.lineStart then .error (.column index l.lineStart)
  else .ok ⟨l.line, index - l.lineStart + 1⟩

/-- The text from the byte `start` up to the byte `stop`. -/
def cut (l : Lexer) (start stop : Nat) : Except Failure String :=
  if start ≤ stop ∧ String.Pos.Raw.isValid l.source ⟨start⟩ ∧
      String.Pos.Raw.isValid l.source ⟨stop⟩ then
    .ok (String.Pos.Raw.extract l.source ⟨start⟩ ⟨stop⟩)
  else .error (.cut start stop)

/-- The byte at which the rest of the source begins. -/
def offsetOf (l : Lexer) (w : Walk) : Nat :=
  match w.peek with
  | some (index, _) => index
  | none => l.source.utf8ByteSize

/-- Spacing is passed over, a comment up to its newline. Lines are counted nowhere else. -/
def skipSpacing (l : Lexer) : Lexer :=
  match _h : l.walk.peek with
  | none => l
  | some (index, c) =>
    if c = '\n' then
      skipSpacing { l with walk := l.walk.next, line := l.line + 1, lineStart := index + 1 }
    else if Spacing.isBlank c then
      skipSpacing { l with walk := l.walk.next }
    else if c = '/' ∧ l.walk.next.peek.any (·.2 = '/') then
      skipSpacing { l with walk := l.walk.skipWhile (· != '\n') }
    else l
termination_by l.walk.rest.length
decreasing_by
  · exact Walk.length_next_lt _h
  · exact Walk.length_next_lt _h
  · exact Walk.length_skipWhile_lt _h (by simpa using ‹¬ c = '\n'›)

/-- The token of a lexeme that ends in front of `w`. -/
def give (l : Lexer) (w : Walk) (kind : Kind) (literal : Option Literal) :
    Except Failure (Token × Lexer) :=
  .ok (⟨kind, l.position, literal⟩, { l with walk := w })

/-- A string constant, whose opening quote stands at the byte `start`. -/
def string (l : Lexer) (start : Nat) : Except Failure (Token × Lexer) :=
  let w := l.walk.skipWhile Lexeme.isStringChar
  match w.nextIf (· == '"') with
  | some (_, w') => do
    let text ← l.cut (start + 1) w.offset
    l.give w' .stringConst (some (.string text))
  | none => l.give w .invalid none

/-- A character constant, whose opening quote has been read. -/
def character (l : Lexer) : Except Failure (Token × Lexer) :=
  match l.walk.nextIf (· != '\n') with
  | none => l.give l.walk .invalid none
  | some (c, w) =>
    if c = Lexeme.quote then l.give w .invalid none
    else
      match w.nextIf (· == Lexeme.quote) with
      | some (_, w') => l.give w' .charConst (some (.char c))
      | none => l.give w .invalid none

/-- The value of digits with a point between them. -/
def decimalOf (text : String) : Binary64 :=
  .ofDecimal (text.toList.takeWhile Char.isDigit) (text.toList.dropWhile Char.isDigit).tail

/-- The part of a number behind its point, at which the walk `point` stands. -/
def fraction (l : Lexer) (start : Nat) (point : Walk) : Except Failure (Token × Lexer) :=
  match point.nextIf Char.isDigit with
  | none => l.give point .invalid none
  | some (_, digit) => do
    let w := digit.skipWhile Char.isDigit
    let text ← l.cut start (l.offsetOf w)
    l.give w .floatConst (some (.float (decimalOf text)))

/-- A number, whose first digit stands at the byte `start`. -/
def number (l : Lexer) (start : Nat) : Except Failure (Token × Lexer) :=
  let w := l.walk.skipWhile Char.isDigit
  match w.nextIf (· == '.') with
  | none => do
    let text ← l.cut start (l.offsetOf w)
    let lexeme := Lexeme.ofDigits text.toList
    l.give w lexeme.kind lexeme.literal
  | some (_, point) => l.fraction start point

/-- A word, whose first character stands at the byte `start`. -/
def word (l : Lexer) (start : Nat) : Except Failure (Token × Lexer) := do
  let w := l.walk.skipWhile Lexeme.isWordChar
  let text ← l.cut start (l.offsetOf w)
  let lexeme := Lexeme.ofWord text.toList
  l.give w lexeme.kind lexeme.literal

/-- A symbol that begins with `c`, or the character `c` alone. -/
def symbol (l : Lexer) (c : Char) : Except Failure (Token × Lexer) :=
  match l.walk.peek.bind fun d => Lexeme.pairKind? c d.2 with
  | some k => l.give l.walk.next k none
  | none => l.give l.walk (Lexeme.symbolKind c) none

/-- The lexeme that begins with `c`, which has been read, at the byte `start`. -/
def lexeme (l : Lexer) (start : Nat) (c : Char) : Except Failure (Token × Lexer) :=
  if c = '"' then l.string start
  else if c = Lexeme.quote then l.character
  else if c.isDigit then l.number start
  else if Lexeme.isWordStart c then l.word start
  else l.symbol c

/-- The next token, and the lexer behind it. -/
def next (l : Lexer) : Except Failure (Token × Lexer) :=
  let l := l.skipSpacing
  match l.walk.peek with
  | none => do
    let here ← l.positionAt l.source.utf8ByteSize
    return (⟨.eof, here, none⟩, { l with position := here })
  | some (start, c) => do
    let here ← l.positionAt start
    lexeme { l with walk := l.walk.next, position := here } start c

variable {n : Nat} {l l' : Lexer} {t : Token}

theorem length_skipSpacing_le (l : Lexer) :
    l.skipSpacing.walk.rest.length ≤ l.walk.rest.length := by
  fun_induction skipSpacing l with
  | case1 | case5 => exact Nat.le_refl _
  | case2 l index h ih | case3 l index c h hline hc ih =>
    exact Nat.le_trans ih (Nat.le_of_lt (Walk.length_next_lt h))
  | case4 l index c h hline hc hcomment ih => exact Nat.le_trans ih (Walk.length_skipWhile_le _ _)

/-- If a token is given, at most `n` characters are left behind it. -/
def AtMost (n : Nat) (r : Except Failure (Token × Lexer)) : Prop :=
  ∀ t l, r = .ok (t, l) → l.walk.rest.length ≤ n

theorem atMost_give {w : Walk} {kind : Kind} {literal : Option Literal} (h : w.rest.length ≤ n) :
    AtMost n (l.give w kind literal) := by
  rintro t l ⟨⟩
  exact h

theorem AtMost.mono {m : Nat} {r : Except Failure (Token × Lexer)} (h : AtMost m r) (hle : m ≤ n) :
    AtMost n r :=
  fun t l hr => Nat.le_trans (h t l hr) hle

theorem AtMost.bind {α : Type} (x : Except Failure α) {f : α → Except Failure (Token × Lexer)}
    (h : ∀ a, AtMost n (f a)) : AtMost n (x >>= f) := by
  intro t l heq
  cases x with
  | error e => cases heq
  | ok a => exact h a t l heq

theorem atMost_string (l : Lexer) (start : Nat) : AtMost l.walk.rest.length (l.string start) := by
  have hskip := Walk.length_skipWhile_le Lexeme.isStringChar l.walk
  simp only [string]
  split
  · next h =>
    have hlt := Walk.length_nextIf_lt h
    exact .bind _ fun _ => atMost_give (by omega)
  · exact atMost_give hskip

theorem atMost_character (l : Lexer) : AtMost l.walk.rest.length l.character := by
  unfold character
  split
  · exact atMost_give (Nat.le_refl _)
  · next h =>
    have hlt := Walk.length_nextIf_lt h
    split
    · exact atMost_give (Nat.le_of_lt hlt)
    · split
      · next h' =>
        have hlt' := Walk.length_nextIf_lt h'
        exact atMost_give (by omega)
      · exact atMost_give (Nat.le_of_lt hlt)

theorem atMost_fraction (l : Lexer) (start : Nat) (point : Walk) :
    AtMost point.rest.length (l.fraction start point) := by
  unfold fraction
  split
  · exact atMost_give (Nat.le_refl _)
  · next _ digit h =>
    have hdigit := Walk.length_nextIf_lt h
    have hskip := Walk.length_skipWhile_le Char.isDigit digit
    exact .bind _ fun _ => atMost_give (by omega)

theorem atMost_number (l : Lexer) (start : Nat) : AtMost l.walk.rest.length (l.number start) := by
  have hskip := Walk.length_skipWhile_le Char.isDigit l.walk
  simp only [number]
  split
  · exact .bind _ fun _ => atMost_give hskip
  · next _ point h =>
    have hpoint := Walk.length_nextIf_lt h
    exact (atMost_fraction l start point).mono (by omega)

theorem atMost_lexeme (l : Lexer) (start : Nat) (c : Char) :
    AtMost l.walk.rest.length (l.lexeme start c) := by
  unfold lexeme
  split
  · exact atMost_string l start
  · split
    · exact atMost_character l
    · split
      · exact atMost_number l start
      · split
        · exact .bind _ fun _ => atMost_give (Walk.length_skipWhile_le _ _)
        · unfold symbol
          split
          · exact atMost_give (Walk.length_next_le _)
          · exact atMost_give (Nat.le_refl _)

/-- A step that does not give the end of the input shortens what is left. -/
theorem length_next_lt (h : l.next = .ok (t, l')) (ht : t.kind ≠ .eof) :
    l'.walk.rest.length < l.walk.rest.length := by
  have hspacing := l.length_skipSpacing_le
  simp only [next] at h
  split at h
  · cases hpos : l.skipSpacing.positionAt l.skipSpacing.source.utf8ByteSize with
    | error e =>
      rw [hpos] at h
      cases h
    | ok here =>
      rw [hpos] at h
      cases h
      exact absurd rfl ht
  · next start c hpeek =>
    have hlt := Walk.length_next_lt hpeek
    have hle : AtMost l.skipSpacing.walk.next.rest.length _ :=
      .bind (l.skipSpacing.positionAt start) fun here =>
        atMost_lexeme { l.skipSpacing with walk := l.skipSpacing.walk.next, position := here } start c
    have := hle t l' h
    omega

/-- All tokens up to the end of the input. -/
def tokens (l : Lexer) : Except Failure (List Token) :=
  match _h : l.next with
  | .error e => .error e
  | .ok (t, l') => if _ht : t.kind = .eof then .ok [t] else (t :: ·) <$> l'.tokens
termination_by l.walk.rest.length
decreasing_by exact length_next_lt _h _ht

/-- The tokens of `n` steps, and the lexer behind them. -/
def run (l : Lexer) : Nat → Except Failure (List Token × Lexer)
  | 0 => .ok ([], l)
  | n + 1 => do
    let (t, l) ← l.next
    let (ts, l) ← l.run n
    return (t :: ts, l)

theorem run_succ {l'' : Lexer} {ts : List Token} (hnext : l.next = .ok (t, l'))
    (hrun : l'.run n = .ok (ts, l'')) : l.run (n + 1) = .ok (t :: ts, l'') := by
  rw [run, hnext]
  simp only [bind, Except.bind, hrun]
  rfl

theorem exists_of_run_succ {l'' : Lexer} {ts : List Token} (h : l.run (n + 1) = .ok (ts, l'')) :
    ∃ t l' us, l.next = .ok (t, l') ∧ l'.run n = .ok (us, l'') ∧ ts = t :: us := by
  rw [run] at h
  rcases hnext : l.next with e | ⟨t, l'⟩
  · rw [hnext] at h
    cases h
  · rw [hnext] at h
    rcases hrun : l'.run n with e | ⟨us, l₁⟩
    · simp only [bind, Except.bind, hrun] at h
      cases h
    · simp only [bind, Except.bind, hrun] at h
      cases h
      exact ⟨t, l', us, rfl, hrun, rfl⟩

end Lexer

end Routine
