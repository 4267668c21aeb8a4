import Routine.Nonterminal

/-! # The grammar

A program is a word of a context-free language over the kinds of tokens. The variables of the
grammar are the nonterminals and the repetitions that occur in them; each has its alternatives,
written as rows of kinds and variables. A sentential form is a row that can be got from a program by
replacing variables by alternatives. -/

namespace Routine.Grammar

/-- A variable of the grammar. -/
inductive Variable where
  | part (n : Nonterminal)
  /-- Declarations behind the first, each with its semicolon. -/
  | moreDeclarations
  /-- Names behind the first, each with its comma. -/
  | moreNames
  /-- Statements behind the first, each with its semicolon. -/
  | moreStatements
deriving DecidableEq, Repr

/-- An element of a row: a token of a kind, or a variable. -/
inductive Symbol where
  | token (k : Kind)
  | of (v : Variable)
deriving DecidableEq, Repr

/-- A nonterminal as an element of a row. -/
abbrev Symbol.part (n : Nonterminal) : Symbol := .of (.part n)

/-- The rows a nonterminal can be replaced by. -/
def partAlternatives : Nonterminal → List (List Symbol)
  | .program => [[.token .routineKw, .part .body]]
  | .body =>
    [[.token .beginKw, .part .statements, .token .endKw],
      [.part .declarations, .token .beginKw, .part .statements, .token .endKw]]
  | .declarations =>
    [[.token .declareKw, .part .declaration, .token .semicolon, .of .moreDeclarations]]
  | .declaration => [[.part .scalarType, .part .names]]
  | .scalarType => [[.token .intKw], [.token .floatKw], [.token .charKw]]
  | .names => [[.token .identifier, .of .moreNames]]
  | .statements => [[.part .statement, .of .moreStatements]]
  | .statement =>
    [[.part .assignment], [.part .conditional], [.part .whileLoop], [.part .repeatLoop],
      [.part .reading], [.part .writing]]
  | .assignment => [[.token .identifier, .token .assign, .part .simpleExpr]]
  | .conditional =>
    [[.token .ifKw, .part .condition, .token .thenKw, .part .statements, .token .endKw],
      [.token .ifKw, .part .condition, .token .thenKw, .part .statements, .token .elseKw,
        .part .statements, .token .endKw]]
  | .whileLoop => [[.part .loopHead, .part .statements, .token .endKw]]
  | .repeatLoop => [[.token .repeatKw, .part .statements, .part .loopExit]]
  | .reading => [[.token .readKw, .token .leftParen, .token .identifier, .token .rightParen]]
  | .writing => [[.token .writeKw, .token .leftParen, .part .writable, .token .rightParen]]
  | .writable => [[.token .stringConst], [.part .simpleExpr]]
  | .loopHead => [[.token .whileKw, .part .condition, .token .doKw]]
  | .loopExit => [[.token .untilKw, .part .condition]]
  | .condition => [[.part .expression]]
  | .expression => [[.part .simpleExpr], [.part .simpleExpr, .part .relOp, .part .simpleExpr]]
  | .simpleExpr => [[.part .term, .part .simpleTail]]
  | .simpleTail => [[], [.part .addOp, .part .term, .part .simpleTail]]
  | .term => [[.part .operand, .part .termTail]]
  | .termTail => [[], [.part .mulOp, .part .operand, .part .termTail]]
  | .operand =>
    [[.part .primary], [.token .notKw, .part .primary], [.token .minus, .part .primary]]
  | .primary =>
    [[.token .identifier], [.part .constant],
      [.token .leftParen, .part .expression, .token .rightParen]]
  | .constant => [[.token .intConst], [.token .floatConst], [.token .charConst]]
  | .addOp => [[.token .plus], [.token .minus], [.token .orKw]]
  | .mulOp => [[.token .star], [.token .slash], [.token .andKw]]
  | .relOp =>
    [[.token .equal], [.token .notEqual], [.token .greater], [.token .less], [.token .greaterEqual],
      [.token .lessEqual]]

/-- The rows a variable can be replaced by. A repetition ends, or goes on once more. -/
def alternatives : Variable → List (List Symbol)
  | .part n => partAlternatives n
  | .moreDeclarations => [[], [.part .declaration, .token .semicolon, .of .moreDeclarations]]
  | .moreNames => [[], [.token .comma, .token .identifier, .of .moreNames]]
  | .moreStatements => [[], [.token .semicolon, .part .statement, .of .moreStatements]]

/-- One variable of a row is replaced by one of its alternatives. -/
inductive Step : List Symbol → List Symbol → Prop
  | replace (before after : List Symbol) {v : Variable} {row : List Symbol}
      (h : row ∈ alternatives v) : Step (before ++ .of v :: after) (before ++ row ++ after)

/-- A row can be got from another by replacing variables. -/
inductive Derives : List Symbol → List Symbol → Prop
  | refl (row : List Symbol) : Derives row row
  | tail {row row' row'' : List Symbol} (h : Derives row row') (h' : Step row' row'') :
      Derives row row''

/-- A row that can be got from a program. -/
def Sentential (row : List Symbol) : Prop := Derives [.part .program] row

/-- The kinds of the tokens of a program, in order. -/
def IsProgram (ks : List Kind) : Prop := Sentential (ks.map .token)

end Routine.Grammar
