import Routine.Binary64.Text
import Routine.Kind
import Routine.Position
import Routine.Text.Column

/-! # Tokens

A token has a kind, the position of its first character and, if it is a word or a constant, its
value. A list of tokens is shown one token a line, in columns. -/

namespace Routine

/-- The value of a word or a constant. -/
inductive Literal where
  | name (text : String)
  | int (value : Int)
  | float (value : Binary64)
  | char (value : Char)
  | string (text : String)
deriving DecidableEq, Repr, Inhabited

/-- A whole number in decimal. -/
def decimalText : Int → String
  | .ofNat n => n.repr
  | .negSucc n => "-" ++ (n + 1).repr

/-- A character between quotes. -/
def charText (c : Char) : String :=
  String.ofList ['\x27', c, '\x27']

/-- A text between double quotes. -/
def stringText (s : String) : String :=
  "\"" ++ s ++ "\""

/-- Values are shown as they are spelled in a source text. -/
def Literal.text : Literal → String
  | name s => s
  | int n => decimalText n
  | float x => x.text
  | char c => charText c
  | string s => stringText s

/-- A lexeme of the source text, or its end. -/
structure Token where
  kind : Kind
  position : Position
  literal : Option Literal := none
deriving DecidableEq, Repr, Inhabited

namespace Token

/-- The token as a line: its position, its kind and its value. -/
def line (t : Token) : String :=
  let at' := Text.padRight 8 t.position.text ++ " "
  match t.literal with
  | some l => at' ++ Text.padRight 16 t.kind.label ++ " " ++ l.text
  | none => at' ++ t.kind.label

end Token

end Routine
