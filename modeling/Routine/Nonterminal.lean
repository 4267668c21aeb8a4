import Routine.KindSet
import Routine.Tree.Program

/-! # The nonterminals of the grammar

Each nonterminal stands for a part of a program. Its result is the tree of that part, optional where
the whole part may turn out to be missing. Its follow set holds the kinds of the tokens that can
come right behind the part in a program, together with the end of the input; recovery from a fault
in the part stops in front of them. -/

namespace Routine

/-- A part of a program. -/
inductive Nonterminal where
  | program | body
  -- declarations
  | declarations | declaration | scalarType | names
  -- statements
  | statements | statement | assignment | conditional | whileLoop | repeatLoop | reading | writing
  | writable | loopHead | loopExit
  -- expressions
  | condition | expression | simpleExpr | simpleTail | term | termTail | operand | primary
  | constant | addOp | mulOp | relOp
deriving DecidableEq, Repr, Inhabited

namespace Nonterminal

/-- The tree of a part. The tree of the head or the exit of a loop is its condition. -/
abbrev Result : Nonterminal → Type
  | program => Option Program
  | body => Option Body
  | declarations => Option (List Decl)
  | declaration => Decl
  | scalarType => Option ScalarType
  | names => Option (List Ident)
  | statements => Block
  | statement | assignment | conditional | whileLoop | repeatLoop | reading | writing => Option Stmt
  | writable => Option Writable
  | loopHead | loopExit => Option Expr
  | condition | expression => Expr
  | simpleExpr => SimpleExpr
  | simpleTail => SimpleTail
  | term => Term
  | termTail => TermTail
  | operand => Operand
  | primary => Option Primary
  | constant => Option Constant
  | addOp => Option AddOp
  | mulOp => Option MulOp
  | relOp => Option RelOp

/-- What may come right behind a block. -/
def behindBlock : List Kind := [.endKw, .elseKw, .untilKw, .eof]

/-- What may come right behind a statement. -/
def behindStatement : List Kind := .semicolon :: behindBlock

/-- What may come right behind a condition. -/
def behindCondition : List Kind := [.thenKw, .doKw] ++ behindStatement

/-- What may come right behind an expression. -/
def behindExpression : List Kind := .rightParen :: behindCondition

/-- The comparisons. -/
def comparisons : List Kind := [.equal, .notEqual, .greater, .less, .greaterEqual, .lessEqual]

/-- What may come right behind a simple expression. -/
def behindSimpleExpr : List Kind := comparisons ++ behindExpression

/-- What may come right behind a term. -/
def behindTerm : List Kind := [.plus, .minus, .orKw] ++ behindSimpleExpr

/-- What may come right behind an operand. -/
def behindOperand : List Kind := [.star, .slash, .andKw] ++ behindTerm

/-- What may come right behind an operator: the beginnings of an operand. -/
def behindOperator : List Kind :=
  [.identifier, .intConst, .floatConst, .charConst, .leftParen, .notKw, .minus, .eof]

/-- What may come right behind the head of a loop: the beginnings of a statement. -/
def behindLoopHead : List Kind :=
  [.identifier, .ifKw, .whileKw, .repeatKw, .readKw, .writeKw, .eof]

/-- The kinds of the tokens that may come right behind a part, and the end of the input. -/
def followKinds : Nonterminal → List Kind
  | program | body => [.eof]
  | declarations => [.beginKw, .eof]
  | declaration | names => [.semicolon, .eof]
  | scalarType => [.identifier, .eof]
  | statements => behindBlock
  | statement | assignment | conditional | whileLoop | repeatLoop | reading | writing | loopExit =>
    behindStatement
  | loopHead => behindLoopHead
  | writable => [.rightParen, .eof]
  | condition => behindCondition
  | expression => behindExpression
  | simpleExpr | simpleTail => behindSimpleExpr
  | term | termTail => behindTerm
  | operand | primary | constant => behindOperand
  | addOp | mulOp | relOp => behindOperator

/-- The follow set of a part. -/
def follow (n : Nonterminal) : KindSet := KindSet.ofList n.followKinds

/-- The text of the tree of a part. There is none if the whole part is missing, and tails have no
text of their own. -/
def text : (n : Nonterminal) → n.Result → Option String
  | program, t => t.map Program.text
  | body, t => t.map Body.text
  | declarations, t => t.map declsText
  | declaration, t => some t.text
  | scalarType, t => t.map ScalarType.text
  | names, t => t.map namesText
  | statements, t => some t.text
  | statement, t | assignment, t | conditional, t | whileLoop, t | repeatLoop, t | reading, t
  | writing, t => t.map Stmt.text
  | writable, t => t.map Writable.text
  | loopHead, t | loopExit, t => t.map Expr.text
  | condition, t | expression, t => some t.text
  | simpleExpr, t => some t.text
  | simpleTail, _ => none
  | term, t => some t.text
  | termTail, _ => none
  | operand, t => some t.text
  | primary, t => t.map Primary.text
  | constant, t => t.map Constant.text
  | addOp, t => t.map AddOp.text
  | mulOp, t => t.map MulOp.text
  | relOp, t => t.map RelOp.text

end Nonterminal

end Routine
