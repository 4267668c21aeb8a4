import Routine.Token

/-! # Expressions

An expression is a simple expression or the comparison of two. A simple expression joins terms by
additive operators, a term joins operands by multiplicative ones, and an operand is a name, a
constant or an expression in parentheses, perhaps under a sign. Operators and operands that could
not be read are gaps in the tree.

Expressions are shown with every operator in front of its two sides, in parentheses. The tails of a
term and of a simple expression lean to the left: each operator takes all that stands before it as
its first side. A gap is shown as a mark. -/

namespace Routine

/-- A name, and where it stands. -/
structure Ident where
  name : String
  position : Position
deriving DecidableEq, Repr, Inhabited

/-- The operators that join terms. -/
inductive AddOp where
  | add | sub | or
deriving DecidableEq, Repr, Inhabited

/-- The operators that join operands. -/
inductive MulOp where
  | mul | div | and
deriving DecidableEq, Repr, Inhabited

/-- The operators that compare two simple expressions. -/
inductive RelOp where
  | equal | notEqual | greater | less | greaterEqual | lessEqual
deriving DecidableEq, Repr, Inhabited

/-- What stands in front of an operand. -/
inductive Sign where
  | plain | not | minus
deriving DecidableEq, Repr, Inhabited

/-- A value that is spelled out. -/
inductive Constant where
  | int (value : Int)
  | float (value : Binary64)
  | char (value : Char)
deriving DecidableEq, Repr, Inhabited

mutual

/-- A simple expression, or the comparison of two. -/
inductive Expr where
  | simple (e : SimpleExpr)
  | compare (lhs : SimpleExpr) (op : Option RelOp) (rhs : SimpleExpr)

/-- Terms joined by additive operators. -/
inductive SimpleExpr where
  | mk (first : Term) (rest : SimpleTail)

/-- The operators and terms behind the first term. -/
inductive SimpleTail where
  | nil
  | cons (op : Option AddOp) (term : Term) (rest : SimpleTail)

/-- Operands joined by multiplicative operators. -/
inductive Term where
  | mk (first : Operand) (rest : TermTail)

/-- The operators and operands behind the first operand. -/
inductive TermTail where
  | nil
  | cons (op : Option MulOp) (operand : Operand) (rest : TermTail)

/-- A sign and what it stands in front of, which may be missing. -/
inductive Operand where
  | of (sign : Sign) (primary : Primary)
  | gap (sign : Sign)

/-- A name, a constant, or an expression in parentheses. -/
inductive Primary where
  | name (id : Ident)
  | constant (c : Constant)
  | group (e : Expr)

end

instance : Inhabited Primary := ⟨.name default⟩
instance : Inhabited Operand := ⟨.gap .plain⟩
instance : Inhabited TermTail := ⟨.nil⟩
instance : Inhabited Term := ⟨.mk default default⟩
instance : Inhabited SimpleTail := ⟨.nil⟩
instance : Inhabited SimpleExpr := ⟨.mk default default⟩
instance : Inhabited Expr := ⟨.simple default⟩

/-- The mark that is shown for a part that is missing. -/
def gapText : String := "<error>"

/-- The spelling of an additive operator. -/
def AddOp.text : AddOp → String
  | add => "+"
  | sub => "-"
  | or => "or"

/-- The spelling of a multiplicative operator. -/
def MulOp.text : MulOp → String
  | mul => "*"
  | div => "/"
  | and => "and"

/-- The spelling of a comparison. -/
def RelOp.text : RelOp → String
  | equal => "="
  | notEqual => "<>"
  | greater => ">"
  | less => "<"
  | greaterEqual => ">="
  | lessEqual => "<="

/-- Constants are shown as values are. -/
def Constant.text : Constant → String
  | int n => decimalText n
  | float x => x.text
  | char c => charText c

/-- An operand under a sign stands in parentheses. -/
def Sign.apply (sign : Sign) (operand : String) : String :=
  match sign with
  | plain => operand
  | not => "(not " ++ operand ++ ")"
  | minus => "(-" ++ operand ++ ")"

/-- An operator in front of its two sides, in parentheses. -/
def applied (op lhs rhs : String) : String :=
  "(" ++ op ++ " " ++ lhs ++ " " ++ rhs ++ ")"

/-- The text of a part, or the mark for a part that is missing. -/
def textOrGap {α : Type} (text : α → String) : Option α → String
  | some a => text a
  | none => gapText

mutual

/-- A comparison is shown in front of its two sides. -/
def Expr.text : Expr → String
  | .simple e => e.text
  | .compare lhs op rhs => applied (textOrGap RelOp.text op) lhs.text rhs.text

/-- The first term begins the text, and the tail builds on it. -/
def SimpleExpr.text : SimpleExpr → String
  | .mk first rest => rest.textAfter first.text

/-- Each operator takes the text so far as its first side. -/
def SimpleTail.textAfter (before : String) : SimpleTail → String
  | .nil => before
  | .cons op term rest => rest.textAfter (applied (textOrGap AddOp.text op) before term.text)

/-- The first operand begins the text, and the tail builds on it. -/
def Term.text : Term → String
  | .mk first rest => rest.textAfter first.text

/-- Each operator takes the text so far as its first side. -/
def TermTail.textAfter (before : String) : TermTail → String
  | .nil => before
  | .cons op operand rest =>
    rest.textAfter (applied (textOrGap MulOp.text op) before operand.text)

/-- The sign is applied to the operand, or to the mark if the operand is missing. -/
def Operand.text : Operand → String
  | .of sign primary => sign.apply primary.text
  | .gap sign => sign.apply gapText

/-- A group keeps its parentheses. -/
def Primary.text : Primary → String
  | .name id => id.name
  | .constant c => c.text
  | .group e => "(" ++ e.text ++ ")"

end

end Routine
