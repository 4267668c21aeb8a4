import Routine.Binary64.Nearest
import Routine.Token

/-! # Lexemes

A lexeme is the piece of text that makes one token. `Lexeme.read` takes the lexeme off the front of
a text that begins with neither a blank nor a comment: the longest word, number or symbol, or the
piece that is rejected as a whole. Nothing is lost (`read_append`), every lexeme has a character
(`read_text_ne_nil`), and none runs over the end of a line. -/

namespace Routine

/-- A piece of source text with the kind and the value it has as a token. -/
structure Lexeme where
  text : List Char
  kind : Kind
  literal : Option Literal := none
deriving DecidableEq, Repr

namespace Lexeme

/-- Words begin with a letter of the basic alphabet or an underscore. -/
def isWordStart (c : Char) : Bool :=
  c.isAlpha || c = '_'

/-- Words go on with letters, digits and underscores. -/
def isWordChar (c : Char) : Bool :=
  c.isAlphanum || c = '_'

/-- A word is a keyword if it is reserved, and otherwise a name. -/
def ofWord (word : List Char) : Lexeme :=
  let s := String.ofList word
  match Kind.ofReserved? s with
  | some k => ⟨word, k, none⟩
  | none => ⟨word, .identifier, some (.name s)⟩

/-- The longest word. -/
def readWord (cs : List Char) : Lexeme × List Char :=
  (ofWord (cs.takeWhile isWordChar), cs.dropWhile isWordChar)

/-- The greatest whole number that is an integer constant. -/
def greatestInt : Nat := Nat.pow 2 63 - 1

/-- The digits of an integer constant, rejected if their value is too great. -/
def ofDigits (digits : List Char) : Lexeme :=
  let n := Nat.ofDigitChars 10 digits 0
  if n ≤ greatestInt then ⟨digits, .intConst, some (.int n)⟩ else ⟨digits, .invalid, none⟩

/-- The longest number. A point belongs to the number before it, which is rejected if no digit
follows the point. -/
def readNumber (cs : List Char) : Lexeme × List Char :=
  let whole := cs.takeWhile Char.isDigit
  match cs.dropWhile Char.isDigit with
  | '.' :: rest =>
    let frac := rest.takeWhile Char.isDigit
    if frac.isEmpty then
      (⟨whole ++ ['.'], .invalid, none⟩, rest)
    else
      (⟨whole ++ '.' :: frac, .floatConst, some (.float (Binary64.ofDecimal whole frac))⟩,
        rest.dropWhile Char.isDigit)
  | rest => (ofDigits whole, rest)

/-- A character that may stand inside a string constant. -/
def isStringChar (c : Char) : Bool :=
  c != '"' && c != '\n'

/-- A string constant, whose opening quote has been read. Without a closing quote the rest of the
line is rejected. -/
def readString (cs : List Char) : Lexeme × List Char :=
  let inner := cs.takeWhile isStringChar
  match cs.dropWhile isStringChar with
  | '"' :: rest =>
    (⟨'"' :: inner ++ ['"'], .stringConst, some (.string (String.ofList inner))⟩, rest)
  | rest => (⟨'"' :: inner, .invalid, none⟩, rest)

/-- The quote of character constants. -/
def quote : Char := '\x27'

/-- A character constant, whose opening quote has been read: one character and the closing quote. A
quote at the end of its line, an empty constant and a constant that is not closed are rejected. -/
def readChar : List Char → Lexeme × List Char
  | [] => (⟨[quote], .invalid, none⟩, [])
  | c :: cs =>
    if c = '\n' then (⟨[quote], .invalid, none⟩, c :: cs)
    else if c = quote then (⟨[quote, c], .invalid, none⟩, cs)
    else
      match cs with
      | d :: rest =>
        if d = quote then (⟨[quote, c, d], .charConst, some (.char c)⟩, rest)
        else (⟨[quote, c], .invalid, none⟩, cs)
      | [] => (⟨[quote, c], .invalid, none⟩, cs)

/-- The kind of a symbol of one character. -/
def symbolKind (c : Char) : Kind :=
  match c with
  | '(' => .leftParen
  | ')' => .rightParen
  | ',' => .comma
  | ';' => .semicolon
  | '+' => .plus
  | '-' => .minus
  | '*' => .star
  | '/' => .slash
  | '=' => .equal
  | '<' => .less
  | '>' => .greater
  | _ => .invalid

/-- The kind of a symbol of two characters. -/
def pairKind? (c d : Char) : Option Kind :=
  match c, d with
  | ':', '=' => some .assign
  | '<', '>' => some .notEqual
  | '<', '=' => some .lessEqual
  | '>', '=' => some .greaterEqual
  | _, _ => none

/-- The longest symbol, or one character that begins no lexeme. -/
def readSymbol (c : Char) (cs : List Char) : Lexeme × List Char :=
  match cs with
  | d :: rest =>
    match pairKind? c d with
    | some k => (⟨[c, d], k, none⟩, rest)
    | none => (⟨[c], symbolKind c, none⟩, cs)
  | [] => (⟨[c], symbolKind c, none⟩, cs)

/-- The lexeme at the front of the text `c :: cs`, and the rest. -/
def read (c : Char) (cs : List Char) : Lexeme × List Char :=
  if c = '"' then readString cs
  else if c = quote then readChar cs
  else if c.isDigit then readNumber (c :: cs)
  else if isWordStart c then readWord (c :: cs)
  else readSymbol c cs

theorem ofWord_text (word : List Char) : (ofWord word).text = word := by
  simp only [ofWord]
  split <;> rfl

theorem ofDigits_text (digits : List Char) : (ofDigits digits).text = digits := by
  simp only [ofDigits]
  split <;> rfl

theorem readWord_append (cs : List Char) : (readWord cs).1.text ++ (readWord cs).2 = cs := by
  simp [readWord, ofWord_text]

theorem readNumber_append (cs : List Char) : (readNumber cs).1.text ++ (readNumber cs).2 = cs := by
  have h : cs.takeWhile Char.isDigit ++ cs.dropWhile Char.isDigit = cs :=
    List.takeWhile_append_dropWhile
  simp only [readNumber]
  split
  · next rest hr =>
    rw [hr] at h
    split <;> simpa using h
  · simp [ofDigits_text]

theorem readString_append (cs : List Char) :
    (readString cs).1.text ++ (readString cs).2 = '"' :: cs := by
  have h : cs.takeWhile isStringChar ++ cs.dropWhile isStringChar = cs :=
    List.takeWhile_append_dropWhile
  simp only [readString]
  split
  · next rest hr =>
    rw [hr] at h
    simpa using h
  · simp

theorem readChar_append (cs : List Char) :
    (readChar cs).1.text ++ (readChar cs).2 = quote :: cs := by
  unfold readChar
  split
  · rfl
  · split
    · rfl
    · split
      · rfl
      · split
        · split <;> rfl
        · rfl

theorem readSymbol_append (c : Char) (cs : List Char) :
    (readSymbol c cs).1.text ++ (readSymbol c cs).2 = c :: cs := by
  unfold readSymbol
  split
  · split <;> rfl
  · rfl

/-- Nothing is lost. -/
theorem read_append (c : Char) (cs : List Char) :
    (read c cs).1.text ++ (read c cs).2 = c :: cs := by
  unfold read
  split
  · next h => rw [readString_append, h]
  · split
    · next h => rw [readChar_append, h]
    · split
      · exact readNumber_append _
      · split
        · exact readWord_append _
        · exact readSymbol_append c cs

theorem isWordChar_of_isWordStart {c : Char} (h : isWordStart c) : isWordChar c := by
  simp only [isWordStart, isWordChar, Char.isAlphanum, Bool.or_eq_true] at *
  exact h.imp_left Or.inl

/-- Every lexeme has a character. -/
theorem read_text_ne_nil (c : Char) (cs : List Char) : (read c cs).1.text ≠ [] := by
  unfold read
  split
  · simp only [readString]
    split <;> simp
  · split
    · unfold readChar
      repeat' split
      all_goals simp
    · split
      · next h =>
        simp only [readNumber]
        split
        · split <;> simp
        · simp [ofDigits_text, h]
      · split
        · next h =>
          simp [readWord, ofWord_text, isWordChar_of_isWordStart h]
        · unfold readSymbol
          repeat' split
          all_goals simp

theorem length_read_lt (c : Char) (cs : List Char) : (read c cs).2.length < (c :: cs).length := by
  have h := congrArg List.length (read_append c cs)
  have := List.length_pos_iff.mpr (read_text_ne_nil c cs)
  rw [List.length_append] at h
  omega

end Lexeme

end Routine
