import Routine.Formula
import Routine.Proofs.Completeness

/-!
# Precedence

A formula is parsed into tails that lean to the right, one of terms and in each term one of operands,
and each tail is shown by taking the text so far as the left side of the next operator. That gives
the text of the tree that shunting makes of the row (`Formula.text_shunt`). Between two operands
no more than two operators wait (`Pending`): a multiplicative one, whose text the tail of the term
has in front of it, and below it an additive one, whose text the tail of the terms has.
-/

namespace Routine

mutual

/-- The first operand. -/
def Formula.head : Formula → Operand
  | .last x => x.operand
  | .more x _ _ => x.operand

/-- The operands up to the first additive operator. -/
def Formula.termTail : Formula → TermTail
  | .last _ => .nil
  | .more _ (.add _) _ => .nil
  | .more _ (.mul op) f => .cons (some op) f.head f.termTail

/-- The terms from the first additive operator on. -/
def Formula.simpleTail : Formula → SimpleTail
  | .last _ => .nil
  | .more _ (.add op) f => .cons (some op) (.mk f.head f.termTail) f.simpleTail
  | .more _ (.mul _) f => f.simpleTail

/-- The operand with its sign. -/
def Item.operand : Item → Operand
  | .mk sign atom => .of sign atom.primary

/-- The operand without a sign. -/
def Atom.primary : Atom → Primary
  | .name id => .name id
  | .constant c => .constant c
  | .group c => .group c.expr

/-- The expression of a comparison. -/
def Comparison.expr : Comparison → Expr
  | .single f => .simple (.mk (.mk f.head f.termTail) f.simpleTail)
  | .compare lhs op rhs =>
    .compare (.mk (.mk lhs.head lhs.termTail) lhs.simpleTail) (some op)
      (.mk (.mk rhs.head rhs.termTail) rhs.simpleTail)

end

/-- The simple expression of a formula. -/
def Formula.simpleExpr (f : Formula) : SimpleExpr := .mk (.mk f.head f.termTail) f.simpleTail

mutual

theorem Formula.whole_head : (f : Formula) → f.head.Whole
  | .last x => x.whole_operand
  | .more x _ _ => x.whole_operand

theorem Formula.whole_termTail : (f : Formula) → f.termTail.Whole
  | .last _ => TermTail.whole_nil
  | .more _ (.add _) _ => TermTail.whole_nil
  | .more _ (.mul _) f => TermTail.whole_cons.2 ⟨trivial, f.whole_head, f.whole_termTail⟩

theorem Formula.whole_simpleTail : (f : Formula) → f.simpleTail.Whole
  | .last _ => SimpleTail.whole_nil
  | .more _ (.add _) f =>
    SimpleTail.whole_cons.2 ⟨trivial, Term.whole_mk.2 ⟨f.whole_head, f.whole_termTail⟩, f.whole_simpleTail⟩
  | .more _ (.mul _) f => f.whole_simpleTail

theorem Item.whole_operand : (x : Item) → x.operand.Whole
  | .mk _ atom => Operand.whole_of.2 atom.whole_primary

theorem Atom.whole_primary : (a : Atom) → a.primary.Whole
  | .name _ => Primary.whole_name
  | .constant _ => Primary.whole_constant
  | .group c => Primary.whole_group.2 c.whole_expr

theorem Comparison.whole_expr : (c : Comparison) → c.expr.Whole
  | .single f =>
    Expr.whole_simple.2 (SimpleExpr.whole_mk.2
      ⟨Term.whole_mk.2 ⟨f.whole_head, f.whole_termTail⟩, f.whole_simpleTail⟩)
  | .compare lhs _ rhs =>
    Expr.whole_compare.2 ⟨SimpleExpr.whole_mk.2
        ⟨Term.whole_mk.2 ⟨lhs.whole_head, lhs.whole_termTail⟩, lhs.whole_simpleTail⟩, trivial,
      SimpleExpr.whole_mk.2
        ⟨Term.whole_mk.2 ⟨rhs.whole_head, rhs.whole_termTail⟩, rhs.whole_simpleTail⟩⟩

end

mutual

theorem Formula.yield_simpleExpr : (f : Formula) →
    f.head.yield ++ (f.termTail.yield ++ f.simpleTail.yield) = f.yield
  | .last x => by
    rw [Formula.head, Formula.termTail, Formula.simpleTail, Formula.yield, x.yield_operand]
    exact List.append_nil _
  | .more x (.add op) f => by
    have ih := f.yield_simpleExpr
    simp only [Formula.head, Formula.termTail, Formula.simpleTail, Formula.yield, TermTail.yield,
      SimpleTail.yield, Term.yield, opYield, yieldOrGap, Operator.kind, x.yield_operand, ← ih,
      List.nil_append, List.append_assoc, List.cons_append]
  | .more x (.mul op) f => by
    have ih := f.yield_simpleExpr
    simp only [Formula.head, Formula.termTail, Formula.simpleTail, Formula.yield, TermTail.yield,
      opYield, yieldOrGap, Operator.kind, x.yield_operand, ← ih, List.nil_append, List.append_assoc,
      List.cons_append]

theorem Item.yield_operand : (x : Item) → x.operand.yield = x.yield
  | .mk sign atom => by rw [Item.operand, Operand.yield, Item.yield, atom.yield_primary]

theorem Atom.yield_primary : (a : Atom) → a.primary.yield = a.yield
  | .name _ => rfl
  | .constant _ => rfl
  | .group c => by rw [Atom.primary, Primary.yield, Atom.yield, c.yield_expr]

theorem Comparison.yield_expr : (c : Comparison) → c.expr.yield = c.yield
  | .single f => by
    have hf := f.yield_simpleExpr
    rw [Comparison.expr, Expr.yield, SimpleExpr.yield, Term.yield, Comparison.yield, ← hf,
      List.append_assoc]
  | .compare lhs op rhs => by
    have hlhs := lhs.yield_simpleExpr
    have hrhs := rhs.yield_simpleExpr
    simp only [Comparison.expr, Expr.yield, SimpleExpr.yield, Term.yield, Comparison.yield, opYield,
      yieldOrGap, ← hlhs, ← hrhs, List.append_assoc, List.cons_append, List.nil_append]

end

/-- At most one additive operator waits, and on top of it at most one multiplicative one. -/
structure Pending where
  add : Option (OpTree × AddOp)
  mul : Option (OpTree × MulOp)

namespace Pending

/-- The operators, the last one first. -/
def waiting (p : Pending) : List (OpTree × Operator) :=
  (p.mul.map fun w => (w.1, .mul w.2)).toList ++ (p.add.map fun w => (w.1, .add w.2)).toList

/-- The multiplicative operator takes its right side. -/
def product (p : Pending) (x : OpTree) : OpTree :=
  match p.mul with
  | some (lhs, op) => .join (.mul op) lhs x
  | none => x

/-- The additive operator takes its right side. -/
def total (p : Pending) (rhs : OpTree) : OpTree :=
  match p.add with
  | some (lhs, op) => .join (.add op) lhs rhs
  | none => rhs

/-- The text of a right side with the additive operator and its left side in front. -/
def totalText (p : Pending) (rhs : String) : String :=
  match p.add with
  | some (lhs, op) => applied op.text lhs.text rhs
  | none => rhs

theorem text_total (p : Pending) (e : OpTree) : (p.total e).text = p.totalText e.text := by
  obtain ⟨_ | ⟨lhs, op⟩, _⟩ := p <;> rfl

theorem push_mul (p : Pending) (op : MulOp) (x y : OpTree) :
    Yard.push ⟨p.waiting, x⟩ (.mul op, y) = ⟨waiting ⟨p.add, some (p.product x, op)⟩, y⟩ := by
  obtain ⟨_ | ⟨lhs, op⟩, _ | ⟨lhs', op'⟩⟩ := p <;> rfl

theorem push_add (p : Pending) (op : AddOp) (x y : OpTree) :
    Yard.push ⟨p.waiting, x⟩ (.add op, y) = ⟨waiting ⟨some (p.total (p.product x), op), none⟩, y⟩ := by
  obtain ⟨_ | ⟨lhs, op⟩, _ | ⟨lhs', op'⟩⟩ := p <;> rfl

theorem finish_waiting (p : Pending) (x : OpTree) : Yard.finish ⟨p.waiting, x⟩ = p.total (p.product x) := by
  obtain ⟨_ | ⟨lhs, op⟩, _ | ⟨lhs', op'⟩⟩ := p <;> rfl

end Pending

mutual

/-- What waits is read in front of what is still to come. -/
theorem Formula.reads_shunt : (f : Formula) → (p : Pending) → (xs ys : List Terminal) →
    (∀ zs e, OpTree.Reads 2 zs e → OpTree.Reads 1 (xs ++ zs) (p.total e)) →
    (∀ zs e, OpTree.Reads 3 zs e → OpTree.Reads 2 (ys ++ zs) (p.product e)) →
    OpTree.Reads 1 (xs ++ (ys ++ f.yield)) (f.rest.foldl Yard.push ⟨p.waiting, f.first⟩).finish
  | .last x, p, xs, ys, hxs, hys => by
    show OpTree.Reads 1 (xs ++ (ys ++ x.yield)) (Yard.finish ⟨p.waiting, x.tree⟩)
    rw [p.finish_waiting]
    exact hxs _ _ (hys _ _ x.reads_tree)
  | .more x (.mul op) f, p, xs, ys, hxs, hys => by
    show OpTree.Reads 1 (xs ++ (ys ++ (x.yield ++ .fixed op.kind :: f.yield)))
      (f.rest.foldl Yard.push (Yard.push ⟨p.waiting, x.tree⟩ (.mul op, f.first))).finish
    rw [p.push_mul]
    have hjoin : ∀ zs e, OpTree.Reads 3 zs e →
        OpTree.Reads 2 (ys ++ x.yield ++ [.fixed op.kind] ++ zs) (.join (.mul op) (p.product x.tree) e) := by
      intro zs e he
      rw [List.append_assoc _ _ zs]
      exact @OpTree.Reads.join (.mul op) _ _ _ _ (hys _ _ x.reads_tree) he
    have ih := f.reads_shunt ⟨p.add, some (p.product x.tree, op)⟩ _ _ hxs hjoin
    simpa only [List.append_assoc, List.singleton_append] using ih
  | .more x (.add op) f, p, xs, ys, hxs, hys => by
    show OpTree.Reads 1 (xs ++ (ys ++ (x.yield ++ .fixed op.kind :: f.yield)))
      (f.rest.foldl Yard.push (Yard.push ⟨p.waiting, x.tree⟩ (.add op, f.first))).finish
    rw [p.push_add]
    have hjoin : ∀ zs e, OpTree.Reads 2 zs e →
        OpTree.Reads 1 (xs ++ (ys ++ x.yield) ++ [.fixed op.kind] ++ zs)
          (.join (.add op) (p.total (p.product x.tree)) e) := by
      intro zs e he
      rw [List.append_assoc _ _ zs]
      exact @OpTree.Reads.join (.add op) _ _ _ _ (hxs _ _ (hys _ _ x.reads_tree)) he
    have ih := f.reads_shunt ⟨some (p.total (p.product x.tree), op), none⟩ _ [] hjoin
      fun _ _ he => .weaken he
    simpa only [List.append_assoc, List.singleton_append, List.nil_append] using ih

theorem Item.reads_tree : (x : Item) → OpTree.Reads 3 x.yield x.tree
  | .mk .plain atom => .weaken atom.reads_tree
  | .mk .not atom => .not atom.reads_tree
  | .mk .minus atom => .minus atom.reads_tree

theorem Atom.reads_tree : (a : Atom) → OpTree.Reads 4 a.yield a.tree
  | .name id => .name id
  | .constant c => .constant c
  | .group c => .group c.reads_tree

theorem Comparison.reads_tree : (c : Comparison) → OpTree.Reads 0 c.yield c.tree
  | .single f => .weaken (f.reads_shunt ⟨none, none⟩ [] []
      (fun _ _ he => .weaken he) fun _ _ he => .weaken he)
  | .compare lhs _ rhs =>
    .compare
      (lhs.reads_shunt ⟨none, none⟩ [] [] (fun _ _ he => .weaken he)
        fun _ _ he => .weaken he)
      (rhs.reads_shunt ⟨none, none⟩ [] [] (fun _ _ he => .weaken he)
        fun _ _ he => .weaken he)

end

/-- Shunting reads the row as the levels say. -/
theorem Formula.reads_tree (f : Formula) : OpTree.Reads 1 f.yield f.tree :=
  f.reads_shunt ⟨none, none⟩ [] [] (fun _ _ he => .weaken he)
    fun _ _ he => .weaken he

mutual

/-- The tails build on the text of what waits. -/
theorem Formula.text_shunt : (f : Formula) → (p : Pending) →
    (f.rest.foldl Yard.push ⟨p.waiting, f.first⟩).finish.text =
      f.simpleTail.textAfter (p.totalText (f.termTail.textAfter (p.product f.first).text))
  | .last x, p => by
    show (Yard.finish ⟨p.waiting, x.tree⟩).text = p.totalText (p.product x.tree).text
    rw [p.finish_waiting, p.text_total]
  | .more x (.mul op) f, p => by
    show (f.rest.foldl Yard.push (Yard.push ⟨p.waiting, x.tree⟩ (.mul op, f.first))).finish.text =
      f.simpleTail.textAfter (p.totalText
        (f.termTail.textAfter (applied op.text (p.product x.tree).text f.head.text)))
    rw [p.push_mul, f.text_shunt, f.text_head]
    rfl
  | .more x (.add op) f, p => by
    show (f.rest.foldl Yard.push (Yard.push ⟨p.waiting, x.tree⟩ (.add op, f.first))).finish.text =
      f.simpleTail.textAfter (applied op.text (p.totalText (p.product x.tree).text)
        (f.termTail.textAfter f.head.text))
    rw [p.push_add, f.text_shunt, f.text_head, ← p.text_total]
    rfl

theorem Formula.text_head : (f : Formula) → f.head.text = f.first.text
  | .last x => x.text_operand
  | .more x _ _ => x.text_operand

theorem Item.text_operand : (x : Item) → x.operand.text = x.tree.text
  | .mk .plain atom => atom.text_primary
  | .mk .not atom => by
    show "(not " ++ atom.primary.text ++ ")" = "(not " ++ atom.tree.text ++ ")"
    rw [atom.text_primary]
  | .mk .minus atom => by
    show "(-" ++ atom.primary.text ++ ")" = "(-" ++ atom.tree.text ++ ")"
    rw [atom.text_primary]

theorem Atom.text_primary : (a : Atom) → a.primary.text = a.tree.text
  | .name _ => rfl
  | .constant _ => rfl
  | .group c => by
    show "(" ++ c.expr.text ++ ")" = "(" ++ c.tree.text ++ ")"
    rw [c.text_expr]

theorem Comparison.text_expr : (c : Comparison) → c.expr.text = c.tree.text
  | .single f => by
    have hf := f.text_shunt ⟨none, none⟩
    show f.simpleTail.textAfter (f.termTail.textAfter f.head.text) = _
    rw [f.text_head]
    exact hf.symm
  | .compare lhs op rhs => by
    have hlhs := lhs.text_shunt ⟨none, none⟩
    have hrhs := rhs.text_shunt ⟨none, none⟩
    show applied op.text (lhs.simpleTail.textAfter (lhs.termTail.textAfter lhs.head.text))
      (rhs.simpleTail.textAfter (rhs.termTail.textAfter rhs.head.text)) =
        applied op.text lhs.tree.text rhs.tree.text
    rw [lhs.text_head, rhs.text_head]
    exact congr (congrArg (applied op.text) hlhs.symm) hrhs.symm

end

theorem Formula.text_simpleExpr (f : Formula) : f.simpleExpr.text = f.tree.text := by
  have hf := f.text_shunt ⟨none, none⟩
  show f.simpleTail.textAfter (f.termTail.textAfter f.head.text) = _
  rw [f.text_head]
  exact hf.symm

theorem Formula.whole_simpleExpr (f : Formula) : f.simpleExpr.Whole :=
  SimpleExpr.whole_mk.2 ⟨Term.whole_mk.2 ⟨f.whole_head, f.whole_termTail⟩, f.whole_simpleTail⟩

/-- A formula is parsed without a report, and shown as the tree that the levels of its operators make
of it. So is a comparison of two formulas, its operator in front. -/
theorem parse_formula {s : Cursor} (ts : List Token) (r : Token) (hs : s.Reachable)
    (hb : s.Begins (ts ++ [r])) :
    (∀ f : Formula, Spelled f.yield ts → Nonterminal.simpleExpr.follow.contains r.kind = true →
      (Nonterminal.simpleExpr.parse s).2.diagnostics = s.diagnostics ∧
        SimpleExpr.text (Nonterminal.simpleExpr.parse s).1 = f.tree.text) ∧
    ∀ (lhs : Formula) (op : RelOp) (rhs : Formula),
      Spelled (lhs.yield ++ .fixed op.kind :: rhs.yield) ts →
      Nonterminal.expression.follow.contains r.kind = true →
        (Nonterminal.expression.parse s).2.diagnostics = s.diagnostics ∧
          Expr.text (Nonterminal.expression.parse s).1 =
            "(" ++ op.text ++ " " ++ lhs.tree.text ++ " " ++ rhs.tree.text ++ ")" := by
  constructor
  · intro f hspelled hr
    have hkind : Heads (Nonterminal.followKinds .simpleExpr) [r] := KindSet.contains_ofList.1 hr
    have hyield : Nonterminal.simpleExpr.yield f.simpleExpr = f.yield := by
      show f.head.yield ++ f.termTail.yield ++ f.simpleTail.yield = f.yield
      rw [List.append_assoc, f.yield_simpleExpr]
    obtain ⟨hparse, hpass⟩ := Nonterminal.parse_of_whole (n := .simpleExpr) (t := f.simpleExpr)
      f.whole_simpleExpr (hyield.symm ▸ hspelled) hkind hs.linked hb
    exact ⟨hpass.diagnostics, by rw [hparse, f.text_simpleExpr]⟩
  · intro lhs op rhs hspelled hr
    have hkind : Heads (Nonterminal.followKinds .expression) [r] := KindSet.contains_ofList.1 hr
    have hyield : Nonterminal.expression.yield (Comparison.compare lhs op rhs).expr =
        lhs.yield ++ .fixed op.kind :: rhs.yield := (Comparison.compare lhs op rhs).yield_expr
    obtain ⟨hparse, hpass⟩ := Nonterminal.parse_of_whole (n := .expression)
      (t := (Comparison.compare lhs op rhs).expr) (Comparison.compare lhs op rhs).whole_expr
      (hyield.symm ▸ hspelled) hkind hs.linked hb
    exact ⟨hpass.diagnostics, by rw [hparse, Comparison.text_expr]; rfl⟩

/-- The sign binds tighter than the division, that tighter than the difference, and all of them tighter
than the comparison. -/
theorem parse_formula_minus :
    let ts : List Token := [⟨.identifier, ⟨1, 1⟩, some (.name "a")⟩, ⟨.minus, ⟨1, 2⟩, none⟩,
      ⟨.minus, ⟨1, 3⟩, none⟩, ⟨.intConst, ⟨1, 4⟩, some (.int 1)⟩, ⟨.slash, ⟨1, 5⟩, none⟩,
      ⟨.identifier, ⟨1, 6⟩, some (.name "b")⟩]
    let r : Token := ⟨.less, ⟨1, 7⟩, none⟩
    let us : List Token := ts ++ [r, ⟨.identifier, ⟨1, 8⟩, some (.name "c")⟩]
    let q : Token := ⟨.semicolon, ⟨1, 9⟩, none⟩
    let f : Formula := .more (.mk .plain (.name ⟨"a", ⟨1, 1⟩⟩)) (.add .sub)
      (.more (.mk .minus (.constant (.int 1))) (.mul .div) (.last (.mk .plain (.name ⟨"b", ⟨1, 6⟩⟩))))
    let g : Formula := .last (.mk .plain (.name ⟨"c", ⟨1, 8⟩⟩))
    let s := Cursor.ofFeed (.ofTokens (us ++ [q]))
    s.Reachable ∧ s.Begins (ts ++ [r]) ∧ Spelled f.yield ts ∧
      Nonterminal.simpleExpr.follow.contains r.kind = true ∧
      (Nonterminal.simpleExpr.parse s).2.diagnostics = #[] ∧
      SimpleExpr.text (Nonterminal.simpleExpr.parse s).1 = "(- a (/ (-1) b))" ∧
      s.Begins (us ++ [q]) ∧ Spelled (f.yield ++ .fixed RelOp.less.kind :: g.yield) us ∧
      Nonterminal.expression.follow.contains q.kind = true ∧
      (Nonterminal.expression.parse s).2.diagnostics = #[] ∧
      Expr.text (Nonterminal.expression.parse s).1 = "(< (- a (/ (-1) b)) c)" := by
  intro ts r us q f g s
  have hs : s.Reachable := ⟨_, [], rfl, rfl⟩
  have hb : s.Begins (ts ++ [r]) := Cursor.begins_take (.ofTokens (us ++ [q])) 7
  have hspelled : Spelled f.yield ts := by decide
  have hr : Nonterminal.simpleExpr.follow.contains r.kind = true := by decide
  obtain ⟨hdiag, htext⟩ := (parse_formula ts r hs hb).1 f hspelled hr
  have hb' : s.Begins (us ++ [q]) := Cursor.begins_take (.ofTokens (us ++ [q])) 9
  have hspelled' : Spelled (f.yield ++ .fixed RelOp.less.kind :: g.yield) us := by decide
  have hq : Nonterminal.expression.follow.contains q.kind = true := by decide
  obtain ⟨hdiag', htext'⟩ := (parse_formula us q hs hb').2 f .less g hspelled' hq
  exact ⟨hs, hb, hspelled, hr, hdiag, htext.trans (by decide +kernel), hb', hspelled', hq, hdiag',
    htext'.trans (by decide +kernel)⟩

end Routine
