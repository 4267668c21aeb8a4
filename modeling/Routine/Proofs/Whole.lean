import Routine.Production.Phrase
import Routine.Tree.Gap
import Routine.Tree.Yield

/-!
# Trees in which nothing is missing

A tree is whole if it has no gaps and is regular. The lemmas here say so for each form of a tree in
terms of its parts, and take apart the tokens that spell a yield. A phrase has its whole trees,
their yields and what may come behind them just as a part of a program has.
-/

namespace Routine

/-- The part is there, and `P` holds of it. -/
def Present {α : Type} (P : α → Prop) : Option α → Prop
  | some a => P a
  | none => False

@[simp] theorem present_some {α : Type} {P : α → Prop} {a : α} : Present P (some a) ↔ P a := Iff.rfl

@[simp] theorem present_none {α : Type} {P : α → Prop} : ¬ Present P none := id

theorem present_iff {α : Type} {P : α → Prop} {o : Option α} : Present P o ↔ ∃ a, o = some a ∧ P a := by
  cases o <;> simp

theorem whole_add {m n : Nat} {p q : Bool} :
    m + n = 0 ∧ (p && q) = true ↔ (m = 0 ∧ p = true) ∧ n = 0 ∧ q = true := by
  rw [Nat.add_eq_zero_iff, Bool.and_eq_true]
  exact and_and_and_comm

theorem whole_op {α : Type} {o : Option α} :
    gapsOrOne noGaps o = 0 ∧ o.isSome = true ↔ Present (fun _ => True) o := by
  cases o <;> simp [gapsOrOne, noGaps]

theorem whole_orGap {α : Type} {g : α → Nat} {r : α → Bool} {o : Option α} :
    gapsOrOne g o = 0 ∧ regularOrGap r o = true ↔ Present (fun a => g a = 0 ∧ r a = true) o := by
  cases o <;> simp [gapsOrOne, regularOrGap]

section
variable {e : SimpleExpr} {op : Sign}

def Expr.Whole (e : Expr) : Prop := e.gaps = 0 ∧ e.isRegular = true

def SimpleExpr.Whole (e : SimpleExpr) : Prop := e.gaps = 0 ∧ e.isRegular = true

def SimpleTail.Whole (t : SimpleTail) : Prop := t.gaps = 0 ∧ t.isRegular = true

def Term.Whole (t : Term) : Prop := t.gaps = 0 ∧ t.isRegular = true

def TermTail.Whole (t : TermTail) : Prop := t.gaps = 0 ∧ t.isRegular = true

def Operand.Whole (o : Operand) : Prop := o.gaps = 0 ∧ o.isRegular = true

def Primary.Whole (p : Primary) : Prop := p.gaps = 0 ∧ p.isRegular = true

@[simp] theorem Expr.whole_simple : (Expr.simple e).Whole ↔ e.Whole := by
  simp [Expr.Whole, SimpleExpr.Whole, Expr.gaps, Expr.isRegular]

@[simp] theorem Expr.whole_compare {op : Option RelOp} {rhs : SimpleExpr} :
    (Expr.compare e op rhs).Whole ↔ e.Whole ∧ Present (fun _ => True) op ∧ rhs.Whole := by
  simp only [Expr.Whole, SimpleExpr.Whole, Expr.gaps, Expr.isRegular, whole_add, whole_op,
    and_assoc]

@[simp] theorem SimpleExpr.whole_mk {t : Term} {rest : SimpleTail} :
    (SimpleExpr.mk t rest).Whole ↔ t.Whole ∧ rest.Whole := by
  simp only [SimpleExpr.Whole, Term.Whole, SimpleTail.Whole, SimpleExpr.gaps, SimpleExpr.isRegular,
    whole_add]

@[simp] theorem SimpleTail.whole_nil : SimpleTail.nil.Whole := ⟨rfl, rfl⟩

@[simp] theorem SimpleTail.whole_cons {op : Option AddOp} {t : Term} {rest : SimpleTail} :
    (SimpleTail.cons op t rest).Whole ↔ Present (fun _ => True) op ∧ t.Whole ∧ rest.Whole := by
  simp only [SimpleTail.Whole, Term.Whole, SimpleTail.gaps, SimpleTail.isRegular, whole_add, whole_op,
    and_assoc]

@[simp] theorem Term.whole_mk {o : Operand} {rest : TermTail} :
    (Term.mk o rest).Whole ↔ o.Whole ∧ rest.Whole := by
  simp only [Term.Whole, Operand.Whole, TermTail.Whole, Term.gaps, Term.isRegular, whole_add]

@[simp] theorem TermTail.whole_nil : TermTail.nil.Whole := ⟨rfl, rfl⟩

@[simp] theorem TermTail.whole_cons {op : Option MulOp} {o : Operand} {rest : TermTail} :
    (TermTail.cons op o rest).Whole ↔ Present (fun _ => True) op ∧ o.Whole ∧ rest.Whole := by
  simp only [TermTail.Whole, Operand.Whole, TermTail.gaps, TermTail.isRegular, whole_add, whole_op,
    and_assoc]

@[simp] theorem Operand.whole_of {p : Primary} : (Operand.of op p).Whole ↔ p.Whole := by
  simp [Operand.Whole, Primary.Whole, Operand.gaps, Operand.isRegular]

@[simp] theorem Operand.not_whole_gap : ¬ (Operand.gap op).Whole := by
  simp [Operand.Whole, Operand.gaps]

@[simp] theorem Primary.whole_name {id : Ident} : (Primary.name id).Whole := ⟨rfl, rfl⟩

@[simp] theorem Primary.whole_constant {c : Constant} : (Primary.constant c).Whole := ⟨rfl, rfl⟩

@[simp] theorem Primary.whole_group {e : Expr} : (Primary.group e).Whole ↔ e.Whole := by
  simp [Primary.Whole, Expr.Whole, Primary.gaps, Primary.isRegular]

end

section
variable {id : Ident} {cond : Expr} {s : Stmt} {b b' rest : Block}

def Writable.Whole (w : Writable) : Prop := w.gaps = 0 ∧ w.isRegular = true

def Stmt.Whole (s : Stmt) : Prop := s.gaps = 0 ∧ s.isRegular = true

def Block.Whole (b : Block) : Prop := b.gaps = 0 ∧ b.isRegular = true

/-- As `Block.Whole`, of the statements behind the first. -/
def Block.MoreWhole (b : Block) : Prop := b.gaps = 0 ∧ b.moreRegular = true

@[simp] theorem Writable.whole_string {text : String} : (Writable.string text).Whole := ⟨rfl, rfl⟩

@[simp] theorem Writable.whole_value {e : SimpleExpr} : (Writable.value e).Whole ↔ e.Whole := by
  simp [Writable.Whole, SimpleExpr.Whole, Writable.gaps, Writable.isRegular]

@[simp] theorem Stmt.whole_assign {e : SimpleExpr} : (Stmt.assign id e).Whole ↔ e.Whole := by
  simp [Stmt.Whole, SimpleExpr.Whole, Stmt.gaps, Stmt.isRegular]

@[simp] theorem Stmt.whole_read : (Stmt.read id).Whole := ⟨rfl, rfl⟩

@[simp] theorem Stmt.whole_write {w : Option Writable} :
    (Stmt.write w).Whole ↔ Present Writable.Whole w := by
  exact whole_orGap

@[simp] theorem Stmt.whole_ifThen : (Stmt.ifThen cond b).Whole ↔ cond.Whole ∧ b.Whole := by
  simp only [Stmt.Whole, Expr.Whole, Block.Whole, Stmt.gaps, Stmt.isRegular, whole_add]

@[simp] theorem Stmt.whole_ifElse :
    (Stmt.ifElse cond b b').Whole ↔ cond.Whole ∧ b.Whole ∧ b'.Whole := by
  simp only [Stmt.Whole, Expr.Whole, Block.Whole, Stmt.gaps, Stmt.isRegular, whole_add, and_assoc]

@[simp] theorem Stmt.whole_whileDo {cond : Option Expr} :
    (Stmt.whileDo cond b).Whole ↔ Present Expr.Whole cond ∧ b.Whole := by
  simp only [Stmt.Whole, Stmt.gaps, Stmt.isRegular, whole_add, whole_orGap]
  rfl

@[simp] theorem Stmt.whole_repeatUntil {cond : Option Expr} :
    (Stmt.repeatUntil b cond).Whole ↔ b.Whole ∧ Present Expr.Whole cond := by
  simp only [Stmt.Whole, Stmt.gaps, Stmt.isRegular, whole_add, whole_orGap]
  rfl

@[simp] theorem Block.not_whole_nil : ¬ Block.nil.Whole := by simp [Block.Whole, Block.isRegular]

@[simp] theorem Block.whole_stmt : (Block.stmt s rest).Whole ↔ s.Whole ∧ rest.MoreWhole := by
  simp only [Block.Whole, Block.MoreWhole, Stmt.Whole, Block.gaps, Block.isRegular, whole_add]

@[simp] theorem Block.not_whole_gap : ¬ (Block.gap rest).Whole := by simp [Block.Whole, Block.gaps]

@[simp] theorem Block.moreWhole_nil : Block.nil.MoreWhole := ⟨rfl, rfl⟩

@[simp] theorem Block.moreWhole_stmt : (Block.stmt s rest).MoreWhole ↔ s.Whole ∧ rest.MoreWhole := by
  simp only [Block.MoreWhole, Stmt.Whole, Block.gaps, Block.moreRegular, whole_add]

@[simp] theorem Block.not_moreWhole_gap : ¬ (Block.gap rest).MoreWhole := by
  simp [Block.MoreWhole, Block.gaps]

end

section
variable {d : Decl} {ds : List Decl}

def Decl.Whole (d : Decl) : Prop := d.gaps = 0 ∧ d.isRegular = true

def DeclSection.Whole (ds : DeclSection) : Prop := ds.gaps = 0 ∧ ds.isRegular = true

def Body.Whole (b : Body) : Prop := b.gaps = 0 ∧ b.isRegular = true

def Program.Whole (p : Program) : Prop := p.gaps = 0 ∧ p.isRegular = true

@[simp] theorem Decl.whole_mk {type : Option ScalarType} {names : Option (List Ident)} :
    (Decl.mk type names).Whole ↔
      Present (fun _ => True) type ∧ Present (fun ids => ids ≠ []) names := by
  cases type <;> cases names <;>
    simp [Decl.Whole, Decl.gaps, Decl.isRegular, gapsOrOne, noGaps, regularOrGap, namesRegular]

theorem whole_decls : declsGaps ds = 0 ∧ ds.all Decl.isRegular = true ↔ ∀ d ∈ ds, d.Whole := by
  induction ds with
  | nil => simp [declsGaps]
  | cons d ds ih =>
    rw [List.forall_mem_cons, ← ih]
    exact whole_add

@[simp] theorem DeclSection.whole_omitted : DeclSection.omitted.Whole := ⟨rfl, rfl⟩

@[simp] theorem DeclSection.not_whole_gap : ¬ DeclSection.gap.Whole := by
  simp [DeclSection.Whole, DeclSection.gaps]

@[simp] theorem DeclSection.whole_listed :
    (DeclSection.listed ds).Whole ↔ ds ≠ [] ∧ ∀ d ∈ ds, d.Whole := by
  rw [← whole_decls]
  simp only [DeclSection.Whole, DeclSection.gaps, DeclSection.isRegular, declsRegular, Bool.and_eq_true,
    Bool.not_eq_true', List.isEmpty_eq_false_iff]
  exact and_left_comm

@[simp] theorem Body.whole_mk {ds : DeclSection} {b : Block} :
    (Body.mk ds b).Whole ↔ ds.Whole ∧ b.Whole := by
  simp only [Body.Whole, DeclSection.Whole, Block.Whole, Body.gaps, Body.isRegular, whole_add]

@[simp] theorem Program.whole_mk {b : Option Body} : (Program.mk b).Whole ↔ Present Body.Whole b := by
  exact whole_orGap

end

/-- The tree of a part is there and whole, and has the form of the part. -/
def Nonterminal.Whole : (n : Nonterminal) → n.Result → Prop
  | program, t => Present Program.Whole t
  | body, t => Present Body.Whole t
  | declarations, t => Present (fun ds => ds ≠ [] ∧ ∀ d ∈ ds, d.Whole) t
  | declaration, t => t.Whole
  | scalarType, t => Present (fun _ => True) t
  | names, t => Present (fun ids => ids ≠ []) t
  | statements, t => t.Whole
  | statement, t => Present Stmt.Whole t
  | assignment, t => ∃ id e, t = some (.assign id e) ∧ e.Whole
  | conditional, t =>
    (∃ cond b, t = some (.ifThen cond b) ∧ cond.Whole ∧ b.Whole) ∨
      ∃ cond b b', t = some (.ifElse cond b b') ∧ cond.Whole ∧ b.Whole ∧ b'.Whole
  | whileLoop, t => ∃ cond b, t = some (.whileDo (some cond) b) ∧ cond.Whole ∧ b.Whole
  | repeatLoop, t => ∃ b cond, t = some (.repeatUntil b (some cond)) ∧ b.Whole ∧ cond.Whole
  | reading, t => ∃ id, t = some (.read id)
  | writing, t => ∃ w, t = some (.write (some w)) ∧ w.Whole
  | writable, t => Present Writable.Whole t
  | loopHead, t | loopExit, t => Present Expr.Whole t
  | condition, t | expression, t => t.Whole
  | simpleExpr, t => t.Whole
  | simpleTail, t => t.Whole
  | term, t => t.Whole
  | termTail, t => t.Whole
  | operand, t => t.Whole
  | primary, t => Present Primary.Whole t
  | constant, t => Present (fun _ => True) t
  | addOp, t => Present (fun _ => True) t
  | mulOp, t => Present (fun _ => True) t
  | relOp, t => Present (fun _ => True) t

theorem Nonterminal.whole_iff (n : Nonterminal) (t : n.Result) :
    n.Whole t ↔ n.gaps t = 0 ∧ n.isRegular t = true ∧ n.hasForm t = true := by
  have hop : ∀ {α : Type} (o : Option α), Present (fun _ => True) o ↔ gapsOrOne noGaps o = 0 := by
    intro α o; cases o <;> simp [gapsOrOne, noGaps]
  cases n with
  | program | body | statement | writable | loopHead | loopExit | primary =>
    simp only [Nonterminal.Whole, Nonterminal.gaps, Nonterminal.isRegular, Nonterminal.hasForm, and_true]
    exact whole_orGap.symm
  | declarations =>
    cases t with
    | none => simp [Nonterminal.Whole, Nonterminal.gaps, gapsOrOne]
    | some ds =>
      simp only [Nonterminal.Whole, present_some, ← DeclSection.whole_listed]
      simp [DeclSection.Whole, Nonterminal.gaps, Nonterminal.isRegular, Nonterminal.hasForm, gapsOrOne,
        regularOrGap, DeclSection.gaps, DeclSection.isRegular]
  | names =>
    cases t <;> simp [Nonterminal.Whole, Nonterminal.gaps, Nonterminal.isRegular, Nonterminal.hasForm,
      gapsOrOne, noGaps, regularOrGap, namesRegular]
  | scalarType | constant | addOp | mulOp | relOp =>
    simp only [Nonterminal.Whole, Nonterminal.gaps, Nonterminal.isRegular, Nonterminal.hasForm, and_true]
    exact hop t
  | declaration | statements | condition | expression | simpleExpr | simpleTail | term | termTail
  | operand =>
    simp only [Nonterminal.Whole, Nonterminal.gaps, Nonterminal.isRegular, Nonterminal.hasForm, and_true]
    rfl
  | assignment | conditional | whileLoop | repeatLoop | reading | writing =>
    cases t with
    | none => simp [Nonterminal.Whole, Nonterminal.gaps, gapsOrOne]
    | some s =>
      show _ ↔ s.gaps = 0 ∧ s.isRegular = true ∧ _
      rw [← and_assoc]
      show _ ↔ s.Whole ∧ _
      cases s <;> simp [Nonterminal.Whole, Nonterminal.hasForm, present_iff] <;> grind

namespace Phrase

/-- The tree of a phrase is there and whole. -/
def Whole : (p : Phrase) → p.Result → Prop
  | expression, t => t.Whole
  | simpleTail, t => t.Whole
  | termTail, t => t.Whole
  | statements, t => t.Whole
  | moreStatements, t => t.MoreWhole
  | moreNames, t => Present (fun _ => True) t
  | moreDeclarations, t => Present (fun ds => ∀ d ∈ ds, d.Whole) t

/-- The yield of the tree of a phrase. -/
def yield : (p : Phrase) → p.Result → List Terminal
  | expression, t => t.yield
  | simpleTail, t => t.yield
  | termTail, t => t.yield
  | statements, t => t.yield
  | moreStatements, t => t.moreYield
  | moreNames, t => yieldOrGap moreNamesYield t
  | moreDeclarations, t => yieldOrGap declsYield t

/-- The kinds of the tokens that may come right behind a phrase. -/
def followKinds : Phrase → List Kind
  | expression => Nonterminal.behindExpression
  | simpleTail => Nonterminal.behindSimpleExpr
  | termTail => Nonterminal.behindTerm
  | statements | moreStatements => Nonterminal.behindBlock
  | moreNames => [.semicolon, .eof]
  | moreDeclarations => [.beginKw, .eof]

end Phrase

theorem declsYield_cons (d : Decl) (ds : List Decl) :
    declsYield (d :: ds) = d.yield ++ .fixed .semicolon :: declsYield ds := by
  simp [declsYield]

/-- A word or a constant has a value of its kind. -/
def Token.Valued (t : Token) : Prop :=
  match t.kind with
  | .identifier => ∃ text, t.literal = some (.name text)
  | .intConst => ∃ n, t.literal = some (.int n)
  | .floatConst => ∃ x, t.literal = some (.float x)
  | .charConst => ∃ c, t.literal = some (.char c)
  | .stringConst => ∃ text, t.literal = some (.string text)
  | _ => True

theorem Token.Valued.spelledBy_name {t : Token} (h : t.Valued) (hk : t.kind = .identifier) :
    (Terminal.name (.ofToken t)).SpelledBy t := by
  simp only [Token.Valued, hk] at h
  obtain ⟨text, hl⟩ := h
  simp [Terminal.SpelledBy, Ident.ofToken, hk, hl]

theorem Token.Valued.spelledBy_string {t : Token} (h : t.Valued) (hk : t.kind = .stringConst) :
    (Terminal.string (Production.stringOf t)).SpelledBy t := by
  simp only [Token.Valued, hk] at h
  obtain ⟨text, hl⟩ := h
  simp [Terminal.SpelledBy, Production.stringOf, hk, hl]

theorem Ident.ofToken_of_spelledBy {id : Ident} {t : Token} (h : (Terminal.name id).SpelledBy t) :
    Ident.ofToken t = id := by
  obtain ⟨-, hl, hp⟩ := h
  simp [Ident.ofToken, hl, hp]

theorem Constant.ofToken?_eq_some_iff {c : Constant} {t : Token} :
    Constant.ofToken? t = some c ↔ (Terminal.constant c).SpelledBy t := by
  obtain ⟨k, p, l⟩ := t
  cases c <;> simp only [Constant.ofToken?, Terminal.SpelledBy, Constant.kind, Constant.literal] <;>
    split <;> grind

theorem stringOf_of_spelledBy {text : String} {t : Token} (h : (Terminal.string text).SpelledBy t) :
    Production.stringOf t = text := by
  simp [Production.stringOf, h.2]

namespace Spelled
variable {x : Terminal} {xs ys : List Terminal} {ts : List Token}

@[simp] theorem nil_iff : Spelled [] ts ↔ ts = [] := by
  cases ts <;> simp [Spelled]

theorem cons_iff : Spelled (x :: xs) ts ↔ ∃ t us, ts = t :: us ∧ x.SpelledBy t ∧ Spelled xs us := by
  cases ts with
  | nil => simp [Spelled]
  | cons t us => exact ⟨fun h => ⟨t, us, rfl, h⟩, by rintro ⟨_, _, ⟨⟩, h⟩; exact h⟩

theorem op_iff {α : Type} {kind : α → Kind} {op : α} :
    Spelled (opYield kind (some op) ++ xs) ts ↔ ∃ t us, ts = t :: us ∧ t.kind = kind op ∧ Spelled xs us :=
  cons_iff

theorem append_iff : Spelled (xs ++ ys) ts ↔ ∃ us vs, ts = us ++ vs ∧ Spelled xs us ∧ Spelled ys vs := by
  constructor
  · intro h
    induction xs generalizing ts with
    | nil => exact ⟨[], ts, rfl, trivial, h⟩
    | cons x xs ih =>
      obtain ⟨t, us, rfl, hx, hus⟩ := cons_iff.1 h
      obtain ⟨us, vs, rfl, hxs, hys⟩ := ih hus
      exact ⟨t :: us, vs, rfl, ⟨hx, hxs⟩, hys⟩
  · rintro ⟨us, vs, rfl, hxs, hys⟩
    exact hxs.append hys

end Spelled

end Routine
