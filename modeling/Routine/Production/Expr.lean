import Routine.Procedure

/-! # Reading expressions

One procedure for each part of an expression. A part whose beginning may be something else draws a
token to see what follows and hands it back. A tail ends at the first token that is none of its
operators, whatever the token is. -/

namespace Routine

namespace AddOp

/-- The additive operator a kind stands for. -/
def ofKind? : Kind → Option AddOp
  | .plus => some .add
  | .minus => some .sub
  | .orKw => some .or
  | _ => none

end AddOp

namespace MulOp

/-- The multiplicative operator a kind stands for. -/
def ofKind? : Kind → Option MulOp
  | .star => some .mul
  | .slash => some .div
  | .andKw => some .and
  | _ => none

end MulOp

namespace RelOp

/-- The comparison a kind stands for. -/
def ofKind? : Kind → Option RelOp
  | .equal => some .equal
  | .notEqual => some .notEqual
  | .greater => some .greater
  | .less => some .less
  | .greaterEqual => some .greaterEqual
  | .lessEqual => some .lessEqual
  | _ => none

end RelOp

/-- The sign a kind stands for. -/
def Sign.ofKind? : Kind → Option Sign
  | .notKw => some .not
  | .minus => some .minus
  | _ => none

/-- A sign and what it stands in front of, which may be missing. -/
def Operand.ofParts (sign : Sign) : Option Primary → Operand
  | some p => .of sign p
  | none => .gap sign

/-- The constant a token spells. The kind of the token and the kind of its value have to agree. -/
def Constant.ofToken? (t : Token) : Option Constant :=
  match t.kind, t.literal with
  | .intConst, some (.int n) => some (.int n)
  | .floatConst, some (.float x) => some (.float x)
  | .charConst, some (.char c) => some (.char c)
  | _, _ => none

/-- The name a token spells. A value that is no name is named by its text, a missing one by the
empty text. -/
def Ident.ofToken (t : Token) : Ident :=
  let name :=
    match t.literal with
    | some (.name s) => s
    | some l => l.text
    | none => ""
  ⟨name, t.position⟩

namespace Production

open Procedure

/-- One token that stands for something, as `ofKind?` tells. -/
def oneOf {α : Type} (n : Nonterminal) (ofKind? : Kind → Option α) : Procedure (Option α) := do
  let t ← next
  match ofKind? t.kind with
  | some a => return some a
  | none => fail n

/-- An additive operator. -/
def addOp : Procedure (Option AddOp) := oneOf .addOp AddOp.ofKind?

/-- A multiplicative operator. -/
def mulOp : Procedure (Option MulOp) := oneOf .mulOp MulOp.ofKind?

/-- A comparison. -/
def relOp : Procedure (Option RelOp) := oneOf .relOp RelOp.ofKind?

/-- A constant. -/
def constant : Procedure (Option Constant) := do
  let t ← next
  match Constant.ofToken? t with
  | some c => return some c
  | none => fail .constant

/-- A name, a constant, or an expression in parentheses. A group is kept even if its closing
parenthesis is missing. -/
def primary : Procedure (Option Primary) := do
  let t ← next
  match t.kind with
  | .identifier => return some (.name (.ofToken t))
  | .intConst | .floatConst | .charConst =>
    pushBack
    let c ← constant
    return c.map .constant
  | .leftParen =>
    let e ← read .expression
    let closed ← expect .rightParen
    if closed then
      return some (.group e)
    else
      recover .primary
      return some (.group e)
  | _ => fail .primary

/-- The sign in front of an operand, if there is one. -/
def sign : Procedure Sign := do
  let t ← next
  match Sign.ofKind? t.kind with
  | some s => return s
  | none =>
    pushBack
    return .plain

/-- A name, a constant or a group, perhaps under a sign. -/
def operand : Procedure Operand := do
  let s ← sign
  let p ← primary
  return Operand.ofParts s p

/-- Multiplicative operators, each with an operand. -/
def termTail : Procedure TermTail := do
  let t ← next
  pushBack
  match MulOp.ofKind? t.kind with
  | some _ =>
    let op ← mulOp
    let x ← operand
    let rest ← read .termTail
    return .cons op x rest
  | none => return .nil

/-- Operands joined by multiplicative operators. -/
def term : Procedure Term := do
  let first ← operand
  let rest ← read .termTail
  return .mk first rest

/-- Additive operators, each with a term. -/
def simpleTail : Procedure SimpleTail := do
  let t ← next
  pushBack
  match AddOp.ofKind? t.kind with
  | some _ =>
    let op ← addOp
    let x ← term
    let rest ← read .simpleTail
    return .cons op x rest
  | none => return .nil

/-- Terms joined by additive operators. -/
def simpleExpr : Procedure SimpleExpr := do
  let first ← term
  let rest ← read .simpleTail
  return .mk first rest

/-- A simple expression or the comparison of two. -/
def expression : Procedure Expr := do
  let lhs ← simpleExpr
  let t ← next
  pushBack
  match RelOp.ofKind? t.kind with
  | some _ =>
    let op ← relOp
    let rhs ← simpleExpr
    return .compare lhs op rhs
  | none => return .simple lhs

end Production

end Routine
