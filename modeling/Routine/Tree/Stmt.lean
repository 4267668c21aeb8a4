import Routine.Tree.Expr

/-! # Statements

A statement assigns, reads or writes, branches on a condition, or loops. Branches and bodies are
blocks: statements in a row, among them gaps for those that could not be read. The head of a loop
with the condition first, the condition of a loop with the condition last, and what is written may
be missing as well.

Statements are shown one a line. The lines of a block stand four blanks further right than the
statement the block belongs to, and a semicolon ends each but the last statement. -/

namespace Routine

/-- What a write statement writes. -/
inductive Writable where
  | string (text : String)
  | value (e : SimpleExpr)

mutual

/-- A statement. -/
inductive Stmt where
  | assign (target : Ident) (value : SimpleExpr)
  | read (target : Ident)
  | write (value : Option Writable)
  | ifThen (cond : Expr) (thenBlock : Block)
  | ifElse (cond : Expr) (thenBlock elseBlock : Block)
  | whileDo (cond : Option Expr) (body : Block)
  | repeatUntil (body : Block) (cond : Option Expr)

/-- Statements in a row, with gaps for those that could not be read. -/
inductive Block where
  | nil
  | stmt (s : Stmt) (rest : Block)
  | gap (rest : Block)

end

instance : Inhabited Writable := ⟨.string ""⟩
instance : Inhabited Block := ⟨.nil⟩
instance : Inhabited Stmt := ⟨.write none⟩

namespace Block

/-- A block with one more statement, or gap, in front. -/
def cons (s : Option Stmt) (rest : Block) : Block :=
  match s with
  | some s => .stmt s rest
  | none => .gap rest

/-- The statements and gaps of a block in order. -/
def toList : Block → List (Option Stmt)
  | nil => []
  | stmt s rest => some s :: rest.toList
  | gap rest => none :: rest.toList

@[simp] theorem toList_cons (s : Option Stmt) (rest : Block) :
    (cons s rest).toList = s :: rest.toList := by
  cases s <;> rfl

end Block

/-- The blanks in front of a line at a depth. -/
def indent (depth : Nat) : String := Text.blanks (4 * depth)

/-- A string is shown between quotes, a value as the expression it is. -/
def Writable.text : Writable → String
  | string s => stringText s
  | value e => e.text

mutual

/-- A statement at a depth. Its first line has no blanks in front; the lines after it have. -/
def Stmt.textAt (depth : Nat) : Stmt → String
  | .assign target value => target.name ++ " := " ++ value.text
  | .read target => "read(" ++ target.name ++ ")"
  | .write value => "write(" ++ textOrGap Writable.text value ++ ")"
  | .ifThen cond thenBlock =>
    "if " ++ cond.text ++ " then\n" ++ thenBlock.textAt (depth + 1) ++ "\n" ++ indent depth ++ "end"
  | .ifElse cond thenBlock elseBlock =>
    "if " ++ cond.text ++ " then\n" ++ thenBlock.textAt (depth + 1) ++ "\n" ++ indent depth ++
      "else\n" ++ elseBlock.textAt (depth + 1) ++ "\n" ++ indent depth ++ "end"
  | .whileDo cond body =>
    "while " ++ textOrGap Expr.text cond ++ " do\n" ++ body.textAt (depth + 1) ++ "\n" ++
      indent depth ++ "end"
  | .repeatUntil body cond =>
    "repeat\n" ++ body.textAt (depth + 1) ++ "\n" ++ indent depth ++ "until " ++
      textOrGap Expr.text cond

/-- A block at a depth, every line of which has the blanks of the depth in front. -/
def Block.textAt (depth : Nat) : Block → String
  | .nil => ""
  | .stmt s rest => indent depth ++ s.textAt depth ++ rest.moreTextAt depth
  | .gap rest => indent depth ++ gapText ++ rest.moreTextAt depth

/-- The rest of a block behind its first statement. -/
def Block.moreTextAt (depth : Nat) : Block → String
  | .nil => ""
  | .stmt s rest => ";\n" ++ indent depth ++ s.textAt depth ++ rest.moreTextAt depth
  | .gap rest => ";\n" ++ indent depth ++ gapText ++ rest.moreTextAt depth

end

/-- A statement on its own. -/
def Stmt.text (s : Stmt) : String := s.textAt 0

/-- A block on its own. -/
def Block.text (b : Block) : String := b.textAt 0

end Routine
