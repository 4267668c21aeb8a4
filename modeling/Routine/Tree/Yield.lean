import Routine.Nonterminal

/-! # What a tree spells

The yield of a tree is the row of terminals that the grammar has for it, from left to right: words,
marks and operators, and the names, constants and strings that the tree holds. A gap has no yield. A
token spells a terminal if it has the terminal's kind and its value, and, for a name, its position.

The leaves of a tree are the terminals of its yield that the tree holds as parts of its own. -/

namespace Routine

/-- An element of the yield of a tree. -/
inductive Terminal where
  /-- A word, a mark or an operator. -/
  | fixed (k : Kind)
  | name (id : Ident)
  | constant (c : Constant)
  | string (text : String)
deriving DecidableEq, Repr, Inhabited

/-- The kind of the token that spells a constant. -/
def Constant.kind : Constant → Kind
  | int _ => .intConst
  | float _ => .floatConst
  | char _ => .charConst

/-- The value of the token that spells a constant. -/
def Constant.literal : Constant → Literal
  | int n => .int n
  | float x => .float x
  | char c => .char c

namespace Terminal

/-- The token spells the terminal. -/
def SpelledBy (t : Token) : Terminal → Prop
  | fixed k => t.kind = k
  | name id => t.kind = .identifier ∧ t.literal = some (.name id.name) ∧ t.position = id.position
  | constant c => t.kind = c.kind ∧ t.literal = some c.literal
  | string s => t.kind = .stringConst ∧ t.literal = some (.string s)

instance (t : Token) (x : Terminal) : Decidable (x.SpelledBy t) := by
  cases x <;> unfold SpelledBy <;> infer_instance

/-- The kinds of the words and operators that a tree holds as parts of its own. -/
def leafKinds : List Kind :=
  [.intKw, .floatKw, .charKw, .notKw, .plus, .minus, .orKw, .star, .slash, .andKw, .equal,
    .notEqual, .greater, .less, .greaterEqual, .lessEqual]

/-- A tree holds the terminal as a part of its own. -/
def isLeaf : Terminal → Bool
  | fixed k => leafKinds.contains k
  | name _ | constant _ | string _ => true

end Terminal

/-- The tokens spell the terminals one by one. -/
def Spelled : List Terminal → List Token → Prop
  | [], [] => True
  | x :: xs, t :: ts => x.SpelledBy t ∧ Spelled xs ts
  | [], _ :: _ => False
  | _ :: _, [] => False

namespace Spelled

instance decidable : (xs : List Terminal) → (ts : List Token) → Decidable (Spelled xs ts)
  | [], [] => .isTrue trivial
  | x :: xs, t :: ts =>
    have := decidable xs ts
    inferInstanceAs (Decidable (x.SpelledBy t ∧ Spelled xs ts))
  | [], _ :: _ => .isFalse id
  | _ :: _, [] => .isFalse id

theorem append {xs ys : List Terminal} {ts us : List Token} (h : Spelled xs ts)
    (h' : Spelled ys us) : Spelled (xs ++ ys) (ts ++ us) := by
  induction xs generalizing ts with
  | nil =>
    cases ts with
    | nil => exact h'
    | cons t ts => exact h.elim
  | cons x xs ih =>
    cases ts with
    | nil => exact h.elim
    | cons t ts => exact ⟨h.1, ih h.2⟩

end Spelled

/-- The kind of an additive operator. -/
def AddOp.kind : AddOp → Kind
  | add => .plus
  | sub => .minus
  | or => .orKw

/-- The kind of a multiplicative operator. -/
def MulOp.kind : MulOp → Kind
  | mul => .star
  | div => .slash
  | and => .andKw

/-- The kind of a comparison. -/
def RelOp.kind : RelOp → Kind
  | equal => .equal
  | notEqual => .notEqual
  | greater => .greater
  | less => .less
  | greaterEqual => .greaterEqual
  | lessEqual => .lessEqual

/-- The yield of a part that may be missing. -/
def yieldOrGap {α : Type} (yield : α → List Terminal) : Option α → List Terminal
  | some a => yield a
  | none => []

/-- The yield of an operator that may be missing. -/
def opYield {α : Type} (kind : α → Kind) (op : Option α) : List Terminal :=
  yieldOrGap (fun o => [.fixed (kind o)]) op

/-- The yield of a sign. -/
def Sign.yield : Sign → List Terminal
  | plain => []
  | not => [.fixed .notKw]
  | minus => [.fixed .minus]

mutual

/-- The sides of a comparison stand around its operator. -/
def Expr.yield : Expr → List Terminal
  | .simple e => e.yield
  | .compare lhs op rhs => lhs.yield ++ opYield RelOp.kind op ++ rhs.yield

/-- The first term, then the tail. -/
def SimpleExpr.yield : SimpleExpr → List Terminal
  | .mk first rest => first.yield ++ rest.yield

/-- Every term behind its operator. -/
def SimpleTail.yield : SimpleTail → List Terminal
  | .nil => []
  | .cons op term rest => opYield AddOp.kind op ++ term.yield ++ rest.yield

/-- The first operand, then the tail. -/
def Term.yield : Term → List Terminal
  | .mk first rest => first.yield ++ rest.yield

/-- Every operand behind its operator. -/
def TermTail.yield : TermTail → List Terminal
  | .nil => []
  | .cons op operand rest => opYield MulOp.kind op ++ operand.yield ++ rest.yield

/-- The sign, then what it stands in front of. -/
def Operand.yield : Operand → List Terminal
  | .of sign primary => sign.yield ++ primary.yield
  | .gap sign => sign.yield

/-- A group stands between parentheses. -/
def Primary.yield : Primary → List Terminal
  | .name id => [.name id]
  | .constant c => [.constant c]
  | .group e => .fixed .leftParen :: (e.yield ++ [.fixed .rightParen])

end

/-- The yield of what is written. -/
def Writable.yield : Writable → List Terminal
  | string s => [.string s]
  | value e => e.yield

/-- A condition behind its word and in front of another. -/
def headYield (cond : Expr) : List Terminal :=
  .fixed .whileKw :: (cond.yield ++ [.fixed .doKw])

/-- A condition behind its word. -/
def exitYield (cond : Expr) : List Terminal := .fixed .untilKw :: cond.yield

mutual

/-- The yield of a statement. -/
def Stmt.yield : Stmt → List Terminal
  | .assign target value => .name target :: .fixed .assign :: value.yield
  | .read target => [.fixed .readKw, .fixed .leftParen, .name target, .fixed .rightParen]
  | .write value =>
    .fixed .writeKw :: .fixed .leftParen ::
      (yieldOrGap Writable.yield value ++ [.fixed .rightParen])
  | .ifThen cond thenBlock =>
    .fixed .ifKw :: (cond.yield ++ .fixed .thenKw :: (thenBlock.yield ++ [.fixed .endKw]))
  | .ifElse cond thenBlock elseBlock =>
    .fixed .ifKw :: (cond.yield ++ .fixed .thenKw ::
      (thenBlock.yield ++ .fixed .elseKw :: (elseBlock.yield ++ [.fixed .endKw])))
  | .whileDo cond body => yieldOrGap headYield cond ++ body.yield ++ [.fixed .endKw]
  | .repeatUntil body cond => .fixed .repeatKw :: (body.yield ++ yieldOrGap exitYield cond)

/-- Statements with semicolons between them. -/
def Block.yield : Block → List Terminal
  | .nil => []
  | .stmt s rest => s.yield ++ rest.moreYield
  | .gap rest => rest.moreYield

/-- Statements, each behind a semicolon. -/
def Block.moreYield : Block → List Terminal
  | .nil => []
  | .stmt s rest => .fixed .semicolon :: (s.yield ++ rest.moreYield)
  | .gap rest => .fixed .semicolon :: rest.moreYield

end

/-- The kind of the word for a type. -/
def ScalarType.kind : ScalarType → Kind
  | int => .intKw
  | float => .floatKw
  | char => .charKw

/-- Names, each behind a comma. -/
def moreNamesYield (ids : List Ident) : List Terminal :=
  ids.flatMap fun id => [.fixed .comma, .name id]

/-- Names with commas between them. -/
def namesYield : List Ident → List Terminal
  | [] => []
  | id :: ids => .name id :: moreNamesYield ids

/-- A type and its names. -/
def Decl.yield (d : Decl) : List Terminal :=
  opYield ScalarType.kind d.type ++ yieldOrGap namesYield d.names

/-- Declarations, each in front of its semicolon. -/
def declsYield (ds : List Decl) : List Terminal :=
  ds.flatMap fun d => d.yield ++ [.fixed .semicolon]

/-- A section that is left out has no yield, and neither has a gap. -/
def DeclSection.yield : DeclSection → List Terminal
  | omitted | gap => []
  | listed ds => .fixed .declareKw :: declsYield ds

/-- The declarations, and the statements between their words. -/
def Body.yield (b : Body) : List Terminal :=
  b.declarations.yield ++ .fixed .beginKw :: (b.statements.yield ++ [.fixed .endKw])

/-- The first word and the body. -/
def Program.yield (p : Program) : List Terminal :=
  .fixed .routineKw :: yieldOrGap Body.yield p.body

/-- The yield of the tree of a part. -/
def Nonterminal.yield : (n : Nonterminal) → n.Result → List Terminal
  | program, t => yieldOrGap Program.yield t
  | body, t => yieldOrGap Body.yield t
  | declarations, t => yieldOrGap (fun ds => .fixed .declareKw :: declsYield ds) t
  | declaration, t => t.yield
  | scalarType, t => opYield ScalarType.kind t
  | names, t => yieldOrGap namesYield t
  | statements, t => t.yield
  | statement, t | assignment, t | conditional, t | whileLoop, t | repeatLoop, t | reading, t
  | writing, t => yieldOrGap Stmt.yield t
  | writable, t => yieldOrGap Writable.yield t
  | loopHead, t => yieldOrGap headYield t
  | loopExit, t => yieldOrGap exitYield t
  | condition, t | expression, t => t.yield
  | simpleExpr, t => t.yield
  | simpleTail, t => t.yield
  | term, t => t.yield
  | termTail, t => t.yield
  | operand, t => t.yield
  | primary, t => yieldOrGap Primary.yield t
  | constant, t => yieldOrGap (fun c => [.constant c]) t
  | addOp, t => opYield AddOp.kind t
  | mulOp, t => opYield MulOp.kind t
  | relOp, t => opYield RelOp.kind t

end Routine
