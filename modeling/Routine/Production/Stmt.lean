import Routine.Production.Expr

/-! # Reading statements

The next token alone decides of which form a statement is. A statement with a fault is missing as a
whole, except that one that writes is kept, and so are loops whose head or exit is missing. -/

namespace Routine.Production

open Procedure

/-- A name, the assignment mark, and the value. -/
def assignment : Procedure (Option Stmt) := do
  let t ← next
  if t.kind = .identifier then
    let marked ← expect .assign
    if marked then
      let value ← simpleExpr
      return some (.assign (.ofToken t) value)
    else
      fail .assignment
  else
    fail .assignment

/-- A condition is an expression. -/
def condition : Procedure Expr := read .expression

/-- A branch on a condition, with or without a block for the other case. -/
def conditional : Procedure (Option Stmt) := do
  let begun ← expect .ifKw
  if begun then
    let cond ← condition
    let split ← expect .thenKw
    if split then
      let thenBlock ← read .statements
      let t ← next
      match t.kind with
      | .endKw => return some (.ifThen cond thenBlock)
      | .elseKw =>
        let elseBlock ← read .statements
        let closed ← expect .endKw
        if closed then
          return some (.ifElse cond thenBlock elseBlock)
        else
          fail .conditional
      | _ => fail .conditional
    else
      fail .conditional
  else
    fail .conditional

/-- The condition in front of a loop. -/
def loopHead : Procedure (Option Expr) := do
  let begun ← expect .whileKw
  if begun then
    let cond ← condition
    let closed ← expect .doKw
    if closed then return some cond else fail .loopHead
  else
    fail .loopHead

/-- A loop with its condition in front. -/
def whileLoop : Procedure (Option Stmt) := do
  let cond ← loopHead
  let body ← read .statements
  let closed ← expect .endKw
  if closed then return some (.whileDo cond body) else fail .whileLoop

/-- The condition behind a loop. -/
def loopExit : Procedure (Option Expr) := do
  let begun ← expect .untilKw
  if begun then
    let cond ← condition
    return some cond
  else
    fail .loopExit

/-- A loop with its condition behind. -/
def repeatLoop : Procedure (Option Stmt) := do
  let begun ← expect .repeatKw
  if begun then
    let body ← read .statements
    let cond ← loopExit
    return some (.repeatUntil body cond)
  else
    fail .repeatLoop

/-- A word and the parenthesis behind it. The parenthesis is not looked for if the word is missing.
-/
def opening (word : Kind) : Procedure Bool := do
  let begun ← expect word
  if begun then expect .leftParen else return false

/-- A name to read, in parentheses. -/
def reading : Procedure (Option Stmt) := do
  let opened ← opening .readKw
  if opened then
    let t ← next
    if t.kind = .identifier then
      let closed ← expect .rightParen
      if closed then return some (.read (.ofToken t)) else fail .reading
    else
      fail .reading
  else
    fail .reading

/-- The text of a string constant. -/
def stringOf (t : Token) : String :=
  match t.literal with
  | some (.string s) => s
  | _ => ""

/-- What can be written: a string constant or a simple expression. -/
def writable : Procedure (Option Writable) := do
  let t ← next
  match t.kind with
  | .stringConst => return some (.string (stringOf t))
  | .identifier | .leftParen | .notKw | .minus | .intConst | .floatConst | .charConst =>
    pushBack
    let e ← simpleExpr
    return some (.value e)
  | _ => fail .writable

/-- Something to write, in parentheses. The statement is kept even if its closing parenthesis is
missing. -/
def writing : Procedure (Option Stmt) := do
  let opened ← opening .writeKw
  if opened then
    let value ← writable
    let closed ← expect .rightParen
    if closed then
      return some (.write value)
    else
      recover .writing
      return some (.write value)
  else
    fail .writing

/-- A statement of the form its first token stands for. -/
def statement : Procedure (Option Stmt) := do
  let k ← peek
  match k with
  | .identifier => assignment
  | .readKw => reading
  | .writeKw => writing
  | .ifKw => conditional
  | .whileKw => whileLoop
  | .repeatKw => repeatLoop
  | _ => fail .statement

/-- Semicolons, each with a statement. -/
def moreStatements : Procedure Block := do
  let more ← expect .semicolon
  if more then
    let s ← statement
    let rest ← read .moreStatements
    return .cons s rest
  else
    pushBack
    return .nil

/-- A statement, and those behind semicolons. -/
def statements : Procedure Block := do
  let s ← statement
  let rest ← read .moreStatements
  return .cons s rest

end Routine.Production
