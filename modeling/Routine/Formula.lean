import Routine.Tree.Yield

/-! # Formulas

A formula is written as a row of operands with an operator between any two. The row does not say
which operands an operator takes; the levels of the operators do. An operator of the higher level
takes its operands first, and of two operators of one level the one on the left does.

The tree that the levels make of a row is got by shunting. Operators wait, each with its left side,
until the next operator is known: then those that bind as tight as it or tighter take the operand
that has been read as their right side, the last one first. -/

namespace Routine

/-- The operators that join the operands of a row. -/
inductive Operator where
  | add (op : AddOp)
  | mul (op : MulOp)
deriving DecidableEq, Repr

namespace Operator

/-- The greater the level, the tighter the operator binds. -/
def level : Operator → Nat
  | add _ => 1
  | mul _ => 2

/-- The spelling of an operator. -/
def text : Operator → String
  | add op => op.text
  | mul op => op.text

/-- The kind of an operator. -/
def kind : Operator → Kind
  | add op => op.kind
  | mul op => op.kind

end Operator

mutual

/-- Operands in a row, with an operator between any two. -/
inductive Formula where
  | last (x : Item)
  | more (x : Item) (op : Operator) (rest : Formula)

/-- An operand, under a sign or not. -/
inductive Item where
  | mk (sign : Sign) (atom : Atom)

/-- A name, a constant, or a formula or a comparison in parentheses. -/
inductive Atom where
  | name (id : Ident)
  | constant (c : Constant)
  | group (c : Comparison)

/-- A formula, or two of them compared. -/
inductive Comparison where
  | single (f : Formula)
  | compare (lhs : Formula) (op : RelOp) (rhs : Formula)

end

mutual

/-- The operands and the operators between them, as they are written. -/
def Formula.yield : Formula → List Terminal
  | .last x => x.yield
  | .more x op rest => x.yield ++ .fixed op.kind :: rest.yield

/-- The sign stands in front. -/
def Item.yield : Item → List Terminal
  | .mk sign atom => sign.yield ++ atom.yield

/-- A group stands between parentheses. -/
def Atom.yield : Atom → List Terminal
  | .name id => [.name id]
  | .constant c => [.constant c]
  | .group c => .fixed .leftParen :: (c.yield ++ [.fixed .rightParen])

/-- The sides of a comparison stand around its operator. -/
def Comparison.yield : Comparison → List Terminal
  | .single f => f.yield
  | .compare lhs op rhs => lhs.yield ++ .fixed op.kind :: rhs.yield

end

/-- A tree in which every operator has its operands. -/
inductive OpTree where
  | name (id : Ident)
  | constant (c : Constant)
  | group (e : OpTree)
  | not (e : OpTree)
  | minus (e : OpTree)
  | join (op : Operator) (lhs rhs : OpTree)
  | compare (op : RelOp) (lhs rhs : OpTree)
deriving DecidableEq, Repr

/-- Every operator is shown in front of its operands, in parentheses. -/
def OpTree.text : OpTree → String
  | name id => id.name
  | constant c => c.text
  | group e => "(" ++ e.text ++ ")"
  | not e => "(not " ++ e.text ++ ")"
  | minus e => "(-" ++ e.text ++ ")"
  | join op lhs rhs => "(" ++ op.text ++ " " ++ lhs.text ++ " " ++ rhs.text ++ ")"
  | compare op lhs rhs => "(" ++ op.text ++ " " ++ lhs.text ++ " " ++ rhs.text ++ ")"

/-- The tree is a reading of the row in which no operator outside of parentheses has a level below
`n`. A left side binds as tight as its operator or tighter, a right side binds tighter. Signs are of
level 3, and names, constants and groups are of level 4. -/
inductive OpTree.Reads : (n : Nat) → List Terminal → OpTree → Prop
  | name (id : Ident) : Reads 4 [.name id] (.name id)
  | constant (c : Constant) : Reads 4 [.constant c] (.constant c)
  | group {xs : List Terminal} {e : OpTree} (h : Reads 0 xs e) :
    Reads 4 (.fixed .leftParen :: (xs ++ [.fixed .rightParen])) (.group e)
  | not {xs : List Terminal} {e : OpTree} (h : Reads 4 xs e) : Reads 3 (.fixed .notKw :: xs) (.not e)
  | minus {xs : List Terminal} {e : OpTree} (h : Reads 4 xs e) : Reads 3 (.fixed .minus :: xs) (.minus e)
  | join {op : Operator} {xs ys : List Terminal} {lhs rhs : OpTree} (hlhs : Reads op.level xs lhs)
    (hrhs : Reads (op.level + 1) ys rhs) : Reads op.level (xs ++ .fixed op.kind :: ys) (.join op lhs rhs)
  | compare {op : RelOp} {xs ys : List Terminal} {lhs rhs : OpTree} (hlhs : Reads 1 xs lhs)
    (hrhs : Reads 1 ys rhs) : Reads 0 (xs ++ .fixed op.kind :: ys) (.compare op lhs rhs)
  | weaken {n : Nat} {xs : List Terminal} {e : OpTree} (h : Reads (n + 1) xs e) : Reads n xs e

/-- What has been made of the beginning of a row: the operators that wait for their right sides, each
with its left side and the last one first, and the operand behind the last. -/
structure Yard where
  waiting : List (OpTree × Operator)
  operand : OpTree

namespace Yard

/-- The operators on top that are of the level or a higher one take their right sides. -/
def settle (level : Nat) : List (OpTree × Operator) → OpTree → Yard
  | [], x => ⟨[], x⟩
  | (lhs, op) :: waiting, x =>
    if level ≤ op.level then settle level waiting (.join op lhs x) else ⟨(lhs, op) :: waiting, x⟩

/-- The next operator and the operand behind it. -/
def push (y : Yard) (next : Operator × OpTree) : Yard :=
  let settled := settle next.1.level y.waiting y.operand
  ⟨(settled.operand, next.1) :: settled.waiting, next.2⟩

/-- At the end of the row no operator waits any longer. -/
def finish (y : Yard) : OpTree := (settle 0 y.waiting y.operand).operand

end Yard

/-- The tree of a row: its first operand, and the operators with the operands behind them. -/
def shunt (first : OpTree) (rest : List (Operator × OpTree)) : OpTree :=
  (rest.foldl Yard.push ⟨[], first⟩).finish

mutual

/-- The tree of the first operand. -/
def Formula.first : Formula → OpTree
  | .last x => x.tree
  | .more x _ _ => x.tree

/-- The operators, each with the tree of the operand behind it. -/
def Formula.rest : Formula → List (Operator × OpTree)
  | .last _ => []
  | .more _ op f => (op, f.first) :: f.rest

/-- A sign binds tighter than any operator. -/
def Item.tree : Item → OpTree
  | .mk .plain atom => atom.tree
  | .mk .not atom => .not atom.tree
  | .mk .minus atom => .minus atom.tree

/-- A group is an operand whatever it holds. -/
def Atom.tree : Atom → OpTree
  | .name id => .name id
  | .constant c => .constant c
  | .group c => .group c.tree

/-- A comparison binds less tight than any other operator. -/
def Comparison.tree : Comparison → OpTree
  | .single f => shunt f.first f.rest
  | .compare lhs op rhs => .compare op (shunt lhs.first lhs.rest) (shunt rhs.first rhs.rest)

end

/-- The tree that the levels of its operators make of a formula. -/
def Formula.tree (f : Formula) : OpTree := shunt f.first f.rest

end Routine
