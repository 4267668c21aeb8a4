import Routine.Nonterminal

/-! # Gaps in trees

A gap is a place in a tree at which a part is missing: an operator, an operand, a statement, the
head or the exit of a loop, what is written, a type, names, declarations, a body, or the whole tree.
`gaps` counts them. A tree is regular if no operator is missing in it and none of its blocks and
lists is empty; that much holds of every tree, with gaps or without. -/

namespace Routine

/-- One for a part that is missing, and otherwise the gaps in it. -/
def gapsOrOne {α : Type} (gaps : α → Nat) : Option α → Nat
  | some a => gaps a
  | none => 1

/-- Nothing is missing inside a part that has no parts. -/
def noGaps {α : Type} (_ : α) : Nat := 0

mutual

/-- The gaps in an expression. -/
def Expr.gaps : Expr → Nat
  | .simple e => e.gaps
  | .compare lhs op rhs => lhs.gaps + gapsOrOne noGaps op + rhs.gaps

/-- The gaps in a simple expression. -/
def SimpleExpr.gaps : SimpleExpr → Nat
  | .mk first rest => first.gaps + rest.gaps

/-- The gaps in a tail of terms. -/
def SimpleTail.gaps : SimpleTail → Nat
  | .nil => 0
  | .cons op term rest => gapsOrOne noGaps op + term.gaps + rest.gaps

/-- The gaps in a term. -/
def Term.gaps : Term → Nat
  | .mk first rest => first.gaps + rest.gaps

/-- The gaps in a tail of operands. -/
def TermTail.gaps : TermTail → Nat
  | .nil => 0
  | .cons op operand rest => gapsOrOne noGaps op + operand.gaps + rest.gaps

/-- The gaps in an operand. -/
def Operand.gaps : Operand → Nat
  | .of _ primary => primary.gaps
  | .gap _ => 1

/-- The gaps in a name, a constant or a group. -/
def Primary.gaps : Primary → Nat
  | .name _ => 0
  | .constant _ => 0
  | .group e => e.gaps

end

/-- The gaps in what is written. -/
def Writable.gaps : Writable → Nat
  | string _ => 0
  | value e => e.gaps

mutual

/-- The gaps in a statement. -/
def Stmt.gaps : Stmt → Nat
  | .assign _ value => value.gaps
  | .read _ => 0
  | .write value => gapsOrOne Writable.gaps value
  | .ifThen cond thenBlock => cond.gaps + thenBlock.gaps
  | .ifElse cond thenBlock elseBlock => cond.gaps + thenBlock.gaps + elseBlock.gaps
  | .whileDo cond body => gapsOrOne Expr.gaps cond + body.gaps
  | .repeatUntil body cond => body.gaps + gapsOrOne Expr.gaps cond

/-- The gaps in a block, those between its statements included. -/
def Block.gaps : Block → Nat
  | .nil => 0
  | .stmt s rest => s.gaps + rest.gaps
  | .gap rest => 1 + rest.gaps

end

/-- The gaps in a declaration. -/
def Decl.gaps (d : Decl) : Nat := gapsOrOne noGaps d.type + gapsOrOne noGaps d.names

/-- The gaps in declarations. -/
def declsGaps (ds : List Decl) : Nat := ds.foldr (fun d n => d.gaps + n) 0

/-- The gaps in a section. -/
def DeclSection.gaps : DeclSection → Nat
  | omitted => 0
  | gap => 1
  | listed ds => declsGaps ds

/-- The gaps in a body. -/
def Body.gaps (b : Body) : Nat := b.declarations.gaps + b.statements.gaps

/-- The gaps in a program. -/
def Program.gaps (p : Program) : Nat := gapsOrOne Body.gaps p.body

/-- The gaps in the tree of a part. -/
def Nonterminal.gaps : (n : Nonterminal) → n.Result → Nat
  | program, t => gapsOrOne Program.gaps t
  | body, t => gapsOrOne Body.gaps t
  | declarations, t => gapsOrOne declsGaps t
  | declaration, t => t.gaps
  | scalarType, t => gapsOrOne noGaps t
  | names, t => gapsOrOne noGaps t
  | statements, t => t.gaps
  | statement, t | assignment, t | conditional, t | whileLoop, t | repeatLoop, t | reading, t
  | writing, t => gapsOrOne Stmt.gaps t
  | writable, t => gapsOrOne Writable.gaps t
  | loopHead, t | loopExit, t => gapsOrOne Expr.gaps t
  | condition, t | expression, t => t.gaps
  | simpleExpr, t => t.gaps
  | simpleTail, t => t.gaps
  | term, t => t.gaps
  | termTail, t => t.gaps
  | operand, t => t.gaps
  | primary, t => gapsOrOne Primary.gaps t
  | constant, t => gapsOrOne noGaps t
  | addOp, t => gapsOrOne noGaps t
  | mulOp, t => gapsOrOne noGaps t
  | relOp, t => gapsOrOne noGaps t

/-- A part that is missing is regular. -/
def regularOrGap {α : Type} (regular : α → Bool) : Option α → Bool
  | some a => regular a
  | none => true

mutual

/-- The comparison is not missing, and the sides are regular. -/
def Expr.isRegular : Expr → Bool
  | .simple e => e.isRegular
  | .compare lhs op rhs => lhs.isRegular && op.isSome && rhs.isRegular

/-- The terms are regular. -/
def SimpleExpr.isRegular : SimpleExpr → Bool
  | .mk first rest => first.isRegular && rest.isRegular

/-- No operator is missing, and the terms are regular. -/
def SimpleTail.isRegular : SimpleTail → Bool
  | .nil => true
  | .cons op term rest => op.isSome && term.isRegular && rest.isRegular

/-- The operands are regular. -/
def Term.isRegular : Term → Bool
  | .mk first rest => first.isRegular && rest.isRegular

/-- No operator is missing, and the operands are regular. -/
def TermTail.isRegular : TermTail → Bool
  | .nil => true
  | .cons op operand rest => op.isSome && operand.isRegular && rest.isRegular

/-- What the sign stands in front of is regular. -/
def Operand.isRegular : Operand → Bool
  | .of _ primary => primary.isRegular
  | .gap _ => true

/-- The expression in a group is regular. -/
def Primary.isRegular : Primary → Bool
  | .name _ => true
  | .constant _ => true
  | .group e => e.isRegular

end

/-- The expression that is written is regular. -/
def Writable.isRegular : Writable → Bool
  | string _ => true
  | value e => e.isRegular

mutual

/-- The parts are regular and the blocks are not empty. -/
def Stmt.isRegular : Stmt → Bool
  | .assign _ value => value.isRegular
  | .read _ => true
  | .write value => regularOrGap Writable.isRegular value
  | .ifThen cond thenBlock => cond.isRegular && thenBlock.isRegular
  | .ifElse cond thenBlock elseBlock =>
    cond.isRegular && thenBlock.isRegular && elseBlock.isRegular
  | .whileDo cond body => regularOrGap Expr.isRegular cond && body.isRegular
  | .repeatUntil body cond => body.isRegular && regularOrGap Expr.isRegular cond

/-- The block is not empty and its statements are regular. -/
def Block.isRegular : Block → Bool
  | .nil => false
  | .stmt s rest => s.isRegular && rest.moreRegular
  | .gap rest => rest.moreRegular

/-- The statements are regular. -/
def Block.moreRegular : Block → Bool
  | .nil => true
  | .stmt s rest => s.isRegular && rest.moreRegular
  | .gap rest => rest.moreRegular

end

/-- There is a name. -/
def namesRegular (ids : List Ident) : Bool := !ids.isEmpty

/-- The names are regular. -/
def Decl.isRegular (d : Decl) : Bool := regularOrGap namesRegular d.names

/-- There is a declaration, and all are regular. -/
def declsRegular (ds : List Decl) : Bool := !ds.isEmpty && ds.all Decl.isRegular

/-- The declarations are regular. -/
def DeclSection.isRegular : DeclSection → Bool
  | omitted | gap => true
  | listed ds => declsRegular ds

/-- The declarations and the statements are regular. -/
def Body.isRegular (b : Body) : Bool := b.declarations.isRegular && b.statements.isRegular

/-- The body is regular. -/
def Program.isRegular (p : Program) : Bool := regularOrGap Body.isRegular p.body

/-- The tree of a part is regular. -/
def Nonterminal.isRegular : (n : Nonterminal) → n.Result → Bool
  | program, t => regularOrGap Program.isRegular t
  | body, t => regularOrGap Body.isRegular t
  | declarations, t => regularOrGap declsRegular t
  | declaration, t => t.isRegular
  | scalarType, _ => true
  | names, t => regularOrGap namesRegular t
  | statements, t => t.isRegular
  | statement, t | assignment, t | conditional, t | whileLoop, t | repeatLoop, t | reading, t
  | writing, t => regularOrGap Stmt.isRegular t
  | writable, t => regularOrGap Writable.isRegular t
  | loopHead, t | loopExit, t => regularOrGap Expr.isRegular t
  | condition, t | expression, t => t.isRegular
  | simpleExpr, t => t.isRegular
  | simpleTail, t => t.isRegular
  | term, t => t.isRegular
  | termTail, t => t.isRegular
  | operand, t => t.isRegular
  | primary, t => regularOrGap Primary.isRegular t
  | constant, _ => true
  | addOp, _ => true
  | mulOp, _ => true
  | relOp, _ => true

/-- The tree has the form of the part: a part that is a statement of one form is no other. -/
def Nonterminal.hasForm : (n : Nonterminal) → n.Result → Bool
  | assignment, some s => (s matches .assign ..)
  | conditional, some s => (s matches .ifThen ..) || (s matches .ifElse ..)
  | whileLoop, some s => (s matches .whileDo ..)
  | repeatLoop, some s => (s matches .repeatUntil ..)
  | reading, some s => (s matches .read ..)
  | writing, some s => (s matches .write ..)
  | _, _ => true

end Routine
