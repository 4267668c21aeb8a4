import Routine.Proofs.Completeness
import Routine.Proofs.Spellings

/-!
# Trees at other places

Where the names of a tree stand is told by the tokens it was read from and shown nowhere in its text.
With its names at other places (`Program.relocate`) a tree has the same text, is as whole as before,
and spells the tokens at their other places. So two programs that spell the same contents have the
same text: with all their names at one place they are read from the same tokens.
-/

namespace Routine
variable {f : Position → Position}

def Ident.relocate (f : Position → Position) (id : Ident) : Ident := { id with position := f id.position }

def Terminal.relocate (f : Position → Position) : Terminal → Terminal
  | .name id => .name (id.relocate f)
  | x => x

mutual

def Expr.relocate (f : Position → Position) : Expr → Expr
  | .simple e => .simple (e.relocate f)
  | .compare lhs op rhs => .compare (lhs.relocate f) op (rhs.relocate f)

def SimpleExpr.relocate (f : Position → Position) : SimpleExpr → SimpleExpr
  | .mk first rest => .mk (first.relocate f) (rest.relocate f)

def SimpleTail.relocate (f : Position → Position) : SimpleTail → SimpleTail
  | .nil => .nil
  | .cons op term rest => .cons op (term.relocate f) (rest.relocate f)

def Term.relocate (f : Position → Position) : Term → Term
  | .mk first rest => .mk (first.relocate f) (rest.relocate f)

def TermTail.relocate (f : Position → Position) : TermTail → TermTail
  | .nil => .nil
  | .cons op operand rest => .cons op (operand.relocate f) (rest.relocate f)

def Operand.relocate (f : Position → Position) : Operand → Operand
  | .of sign primary => .of sign (primary.relocate f)
  | .gap sign => .gap sign

def Primary.relocate (f : Position → Position) : Primary → Primary
  | .name id => .name (id.relocate f)
  | .constant c => .constant c
  | .group e => .group (e.relocate f)

end

theorem map_relocate_op {α : Type} (kind : α → Kind) (op : Option α) :
    (opYield kind op).map (Terminal.relocate f) = opYield kind op := by
  cases op <;> rfl

theorem map_relocate_sign (sign : Sign) : sign.yield.map (Terminal.relocate f) = sign.yield := by
  cases sign <;> rfl

mutual

@[simp] theorem Expr.yield_relocate :
    (e : Expr) → (e.relocate f).yield = e.yield.map (Terminal.relocate f)
  | .simple e => e.yield_relocate
  | .compare lhs op rhs => by
    simp only [Expr.relocate, Expr.yield, List.map_append, lhs.yield_relocate, rhs.yield_relocate,
      map_relocate_op]

@[simp] theorem SimpleExpr.yield_relocate :
    (e : SimpleExpr) → (e.relocate f).yield = e.yield.map (Terminal.relocate f)
  | .mk first rest => by
    simp only [SimpleExpr.relocate, SimpleExpr.yield, List.map_append, first.yield_relocate,
      rest.yield_relocate]

@[simp] theorem SimpleTail.yield_relocate :
    (t : SimpleTail) → (t.relocate f).yield = t.yield.map (Terminal.relocate f)
  | .nil => rfl
  | .cons op term rest => by
    simp only [SimpleTail.relocate, SimpleTail.yield, List.map_append, term.yield_relocate,
      rest.yield_relocate, map_relocate_op]

@[simp] theorem Term.yield_relocate :
    (t : Term) → (t.relocate f).yield = t.yield.map (Terminal.relocate f)
  | .mk first rest => by
    simp only [Term.relocate, Term.yield, List.map_append, first.yield_relocate, rest.yield_relocate]

@[simp] theorem TermTail.yield_relocate :
    (t : TermTail) → (t.relocate f).yield = t.yield.map (Terminal.relocate f)
  | .nil => rfl
  | .cons op operand rest => by
    simp only [TermTail.relocate, TermTail.yield, List.map_append, operand.yield_relocate,
      rest.yield_relocate, map_relocate_op]

@[simp] theorem Operand.yield_relocate :
    (o : Operand) → (o.relocate f).yield = o.yield.map (Terminal.relocate f)
  | .of sign primary => by
    simp only [Operand.relocate, Operand.yield, List.map_append, primary.yield_relocate,
      map_relocate_sign]
  | .gap sign => (map_relocate_sign sign).symm

@[simp] theorem Primary.yield_relocate :
    (p : Primary) → (p.relocate f).yield = p.yield.map (Terminal.relocate f)
  | .name _ => rfl
  | .constant _ => rfl
  | .group e => by
    simp only [Primary.relocate, Primary.yield, List.map_append, List.map_cons, List.map_nil,
      e.yield_relocate, Terminal.relocate]

end

mutual

@[simp] theorem Expr.text_relocate : (e : Expr) → (e.relocate f).text = e.text
  | .simple e => e.text_relocate
  | .compare lhs op rhs => by
    simp only [Expr.relocate, Expr.text, lhs.text_relocate, rhs.text_relocate]

@[simp] theorem SimpleExpr.text_relocate : (e : SimpleExpr) → (e.relocate f).text = e.text
  | .mk first rest => by
    simp only [SimpleExpr.relocate, SimpleExpr.text, first.text_relocate, rest.textAfter_relocate]

@[simp] theorem SimpleTail.textAfter_relocate :
    (t : SimpleTail) → (before : String) → (t.relocate f).textAfter before = t.textAfter before
  | .nil, _ => rfl
  | .cons op term rest, before => by
    simp only [SimpleTail.relocate, SimpleTail.textAfter, term.text_relocate, rest.textAfter_relocate]

@[simp] theorem Term.text_relocate : (t : Term) → (t.relocate f).text = t.text
  | .mk first rest => by
    simp only [Term.relocate, Term.text, first.text_relocate, rest.textAfter_relocate]

@[simp] theorem TermTail.textAfter_relocate :
    (t : TermTail) → (before : String) → (t.relocate f).textAfter before = t.textAfter before
  | .nil, _ => rfl
  | .cons op operand rest, before => by
    simp only [TermTail.relocate, TermTail.textAfter, operand.text_relocate, rest.textAfter_relocate]

@[simp] theorem Operand.text_relocate : (o : Operand) → (o.relocate f).text = o.text
  | .of sign primary => by simp only [Operand.relocate, Operand.text, primary.text_relocate]
  | .gap _ => rfl

@[simp] theorem Primary.text_relocate : (p : Primary) → (p.relocate f).text = p.text
  | .name _ => rfl
  | .constant _ => rfl
  | .group e => by simp only [Primary.relocate, Primary.text, e.text_relocate]

end

mutual

@[simp] theorem Expr.whole_relocate : (e : Expr) → ((e.relocate f).Whole ↔ e.Whole)
  | .simple e => by simp only [Expr.relocate, Expr.whole_simple, e.whole_relocate]
  | .compare lhs op rhs => by
    simp only [Expr.relocate, Expr.whole_compare, lhs.whole_relocate, rhs.whole_relocate]

@[simp] theorem SimpleExpr.whole_relocate : (e : SimpleExpr) → ((e.relocate f).Whole ↔ e.Whole)
  | .mk first rest => by
    simp only [SimpleExpr.relocate, SimpleExpr.whole_mk, first.whole_relocate, rest.whole_relocate]

@[simp] theorem SimpleTail.whole_relocate : (t : SimpleTail) → ((t.relocate f).Whole ↔ t.Whole)
  | .nil => Iff.rfl
  | .cons op term rest => by
    simp only [SimpleTail.relocate, SimpleTail.whole_cons, term.whole_relocate, rest.whole_relocate]

@[simp] theorem Term.whole_relocate : (t : Term) → ((t.relocate f).Whole ↔ t.Whole)
  | .mk first rest => by
    simp only [Term.relocate, Term.whole_mk, first.whole_relocate, rest.whole_relocate]

@[simp] theorem TermTail.whole_relocate : (t : TermTail) → ((t.relocate f).Whole ↔ t.Whole)
  | .nil => Iff.rfl
  | .cons op operand rest => by
    simp only [TermTail.relocate, TermTail.whole_cons, operand.whole_relocate, rest.whole_relocate]

@[simp] theorem Operand.whole_relocate : (o : Operand) → ((o.relocate f).Whole ↔ o.Whole)
  | .of sign primary => by simp only [Operand.relocate, Operand.whole_of, primary.whole_relocate]
  | .gap _ => Iff.rfl

@[simp] theorem Primary.whole_relocate : (p : Primary) → ((p.relocate f).Whole ↔ p.Whole)
  | .name _ => Iff.rfl
  | .constant _ => Iff.rfl
  | .group e => by simp only [Primary.relocate, Primary.whole_group, e.whole_relocate]

end

def Writable.relocate (f : Position → Position) : Writable → Writable
  | .string s => .string s
  | .value e => .value (e.relocate f)

mutual

def Stmt.relocate (f : Position → Position) : Stmt → Stmt
  | .assign target value => .assign (target.relocate f) (value.relocate f)
  | .read target => .read (target.relocate f)
  | .write value => .write (value.map (Writable.relocate f))
  | .ifThen cond thenBlock => .ifThen (cond.relocate f) (thenBlock.relocate f)
  | .ifElse cond thenBlock elseBlock =>
    .ifElse (cond.relocate f) (thenBlock.relocate f) (elseBlock.relocate f)
  | .whileDo cond body => .whileDo (cond.map (Expr.relocate f)) (body.relocate f)
  | .repeatUntil body cond => .repeatUntil (body.relocate f) (cond.map (Expr.relocate f))

def Block.relocate (f : Position → Position) : Block → Block
  | .nil => .nil
  | .stmt s rest => .stmt (s.relocate f) (rest.relocate f)
  | .gap rest => .gap (rest.relocate f)

end

theorem yieldOrGap_relocate {α : Type} {yield : α → List Terminal} {g : α → α}
    (h : ∀ a, yield (g a) = (yield a).map (Terminal.relocate f)) (o : Option α) :
    yieldOrGap yield (o.map g) = (yieldOrGap yield o).map (Terminal.relocate f) := by
  cases o with
  | none => rfl
  | some a => exact h a

theorem textOrGap_relocate {α : Type} {text : α → String} {g : α → α} (h : ∀ a, text (g a) = text a)
    (o : Option α) : textOrGap text (o.map g) = textOrGap text o := by
  cases o with
  | none => rfl
  | some a => exact h a

theorem present_relocate {α : Type} {P : α → Prop} {g : α → α} (h : ∀ a, P (g a) ↔ P a)
    (o : Option α) : Present P (o.map g) ↔ Present P o := by
  cases o with
  | none => rfl
  | some a => exact h a

theorem Writable.yield_relocate (w : Writable) :
    (w.relocate f).yield = w.yield.map (Terminal.relocate f) := by
  cases w with
  | string s => rfl
  | value e => exact e.yield_relocate

theorem Writable.text_relocate (w : Writable) : (w.relocate f).text = w.text := by
  cases w with
  | string s => rfl
  | value e => exact e.text_relocate

theorem Writable.whole_relocate (w : Writable) : (w.relocate f).Whole ↔ w.Whole := by
  cases w <;> simp [Writable.relocate]

theorem headYield_relocate (cond : Expr) :
    headYield (cond.relocate f) = (headYield cond).map (Terminal.relocate f) := by
  simp [headYield, Terminal.relocate]

theorem exitYield_relocate (cond : Expr) :
    exitYield (cond.relocate f) = (exitYield cond).map (Terminal.relocate f) := by
  simp [exitYield, Terminal.relocate]

mutual

@[simp] theorem Stmt.yield_relocate :
    (s : Stmt) → (s.relocate f).yield = s.yield.map (Terminal.relocate f)
  | .assign target value => by simp [Stmt.relocate, Stmt.yield, Terminal.relocate]
  | .read target => by simp [Stmt.relocate, Stmt.yield, Terminal.relocate]
  | .write value => by
    simp [Stmt.relocate, Stmt.yield, Terminal.relocate, yieldOrGap_relocate Writable.yield_relocate]
  | .ifThen cond thenBlock => by
    simp [Stmt.relocate, Stmt.yield, Terminal.relocate, thenBlock.yield_relocate]
  | .ifElse cond thenBlock elseBlock => by
    simp [Stmt.relocate, Stmt.yield, Terminal.relocate, thenBlock.yield_relocate,
      elseBlock.yield_relocate]
  | .whileDo cond body => by
    simp [Stmt.relocate, Stmt.yield, Terminal.relocate, yieldOrGap_relocate headYield_relocate,
      body.yield_relocate]
  | .repeatUntil body cond => by
    simp [Stmt.relocate, Stmt.yield, Terminal.relocate, yieldOrGap_relocate exitYield_relocate,
      body.yield_relocate]

@[simp] theorem Block.yield_relocate :
    (b : Block) → (b.relocate f).yield = b.yield.map (Terminal.relocate f)
  | .nil => rfl
  | .stmt s rest => by
    simp [Block.relocate, Block.yield, s.yield_relocate, rest.moreYield_relocate]
  | .gap rest => rest.moreYield_relocate

@[simp] theorem Block.moreYield_relocate :
    (b : Block) → (b.relocate f).moreYield = b.moreYield.map (Terminal.relocate f)
  | .nil => rfl
  | .stmt s rest => by
    simp [Block.relocate, Block.moreYield, Terminal.relocate, s.yield_relocate,
      rest.moreYield_relocate]
  | .gap rest => by
    simp [Block.relocate, Block.moreYield, Terminal.relocate, rest.moreYield_relocate]

end

mutual

@[simp] theorem Stmt.textAt_relocate :
    (s : Stmt) → (depth : Nat) → (s.relocate f).textAt depth = s.textAt depth
  | .assign target value, _ => by
    simp only [Stmt.relocate, Stmt.textAt, Ident.relocate, value.text_relocate]
  | .read target, _ => rfl
  | .write value, _ => by
    simp only [Stmt.relocate, Stmt.textAt, textOrGap_relocate Writable.text_relocate]
  | .ifThen cond thenBlock, depth => by
    simp only [Stmt.relocate, Stmt.textAt, cond.text_relocate, thenBlock.textAt_relocate (depth + 1)]
  | .ifElse cond thenBlock elseBlock, depth => by
    simp only [Stmt.relocate, Stmt.textAt, cond.text_relocate, thenBlock.textAt_relocate (depth + 1),
      elseBlock.textAt_relocate (depth + 1)]
  | .whileDo cond body, depth => by
    simp only [Stmt.relocate, Stmt.textAt, textOrGap_relocate Expr.text_relocate,
      body.textAt_relocate (depth + 1)]
  | .repeatUntil body cond, depth => by
    simp only [Stmt.relocate, Stmt.textAt, textOrGap_relocate Expr.text_relocate,
      body.textAt_relocate (depth + 1)]

@[simp] theorem Block.textAt_relocate :
    (b : Block) → (depth : Nat) → (b.relocate f).textAt depth = b.textAt depth
  | .nil, _ => rfl
  | .stmt s rest, depth => by
    simp only [Block.relocate, Block.textAt, s.textAt_relocate depth, rest.moreTextAt_relocate depth]
  | .gap rest, depth => by
    simp only [Block.relocate, Block.textAt, rest.moreTextAt_relocate depth]

@[simp] theorem Block.moreTextAt_relocate :
    (b : Block) → (depth : Nat) → (b.relocate f).moreTextAt depth = b.moreTextAt depth
  | .nil, _ => rfl
  | .stmt s rest, depth => by
    simp only [Block.relocate, Block.moreTextAt, s.textAt_relocate depth,
      rest.moreTextAt_relocate depth]
  | .gap rest, depth => by
    simp only [Block.relocate, Block.moreTextAt, rest.moreTextAt_relocate depth]

end

mutual

@[simp] theorem Stmt.whole_relocate : (s : Stmt) → ((s.relocate f).Whole ↔ s.Whole)
  | .assign target value => by simp [Stmt.relocate]
  | .read target => Iff.rfl
  | .write value => by
    simp only [Stmt.relocate, Stmt.whole_write, present_relocate Writable.whole_relocate]
  | .ifThen cond thenBlock => by simp [Stmt.relocate, thenBlock.whole_relocate]
  | .ifElse cond thenBlock elseBlock => by
    simp [Stmt.relocate, thenBlock.whole_relocate, elseBlock.whole_relocate]
  | .whileDo cond body => by
    simp only [Stmt.relocate, Stmt.whole_whileDo, present_relocate Expr.whole_relocate,
      body.whole_relocate]
  | .repeatUntil body cond => by
    simp only [Stmt.relocate, Stmt.whole_repeatUntil, present_relocate Expr.whole_relocate,
      body.whole_relocate]

@[simp] theorem Block.whole_relocate : (b : Block) → ((b.relocate f).Whole ↔ b.Whole)
  | .nil => Iff.rfl
  | .stmt s rest => by simp [Block.relocate, s.whole_relocate, rest.moreWhole_relocate]
  | .gap rest => by simp [Block.relocate]

@[simp] theorem Block.moreWhole_relocate :
    (b : Block) → ((b.relocate f).MoreWhole ↔ b.MoreWhole)
  | .nil => Iff.rfl
  | .stmt s rest => by simp [Block.relocate, s.whole_relocate, rest.moreWhole_relocate]
  | .gap rest => by simp [Block.relocate]

end

def Decl.relocate (f : Position → Position) (d : Decl) : Decl :=
  { d with names := d.names.map (List.map (Ident.relocate f)) }

def DeclSection.relocate (f : Position → Position) : DeclSection → DeclSection
  | .listed ds => .listed (ds.map (Decl.relocate f))
  | ds => ds

def Body.relocate (f : Position → Position) (b : Body) : Body :=
  ⟨b.declarations.relocate f, b.statements.relocate f⟩

def Program.relocate (f : Position → Position) (p : Program) : Program :=
  ⟨p.body.map (Body.relocate f)⟩

theorem namesYield_relocate (ids : List Ident) :
    namesYield (ids.map (Ident.relocate f)) = (namesYield ids).map (Terminal.relocate f) := by
  have hmore : ∀ ids : List Ident, moreNamesYield (ids.map (Ident.relocate f)) =
      (moreNamesYield ids).map (Terminal.relocate f) := by
    intro ids
    simp [moreNamesYield, List.flatMap_map, List.map_flatMap, Terminal.relocate]
  cases ids with
  | nil => rfl
  | cons id ids => simp [namesYield, hmore, Terminal.relocate]

theorem namesText_relocate (ids : List Ident) :
    namesText (ids.map (Ident.relocate f)) = namesText ids := by
  rw [namesText, List.map_map]
  rfl

theorem Decl.yield_relocate (d : Decl) :
    (d.relocate f).yield = d.yield.map (Terminal.relocate f) := by
  simp only [Decl.yield, Decl.relocate, List.map_append, map_relocate_op,
    yieldOrGap_relocate namesYield_relocate]

theorem Decl.text_relocate (d : Decl) : (d.relocate f).text = d.text := by
  simp only [Decl.text, Decl.relocate, textOrGap_relocate namesText_relocate]

theorem Decl.whole_relocate (d : Decl) : (d.relocate f).Whole ↔ d.Whole := by
  obtain ⟨type, names⟩ := d
  cases names <;> simp [Decl.relocate]

theorem DeclSection.yield_relocate (ds : DeclSection) :
    (ds.relocate f).yield = ds.yield.map (Terminal.relocate f) := by
  cases ds with
  | omitted => rfl
  | gap => rfl
  | listed ds =>
    simp [DeclSection.relocate, DeclSection.yield, declsYield, List.flatMap_map, List.map_flatMap,
      Decl.yield_relocate, Terminal.relocate]

theorem DeclSection.text_relocate (ds : DeclSection) : (ds.relocate f).text = ds.text := by
  cases ds with
  | omitted => rfl
  | gap => rfl
  | listed ds =>
    have hlines : (fun d => indent 1 ++ d.text ++ ";\n") ∘ Decl.relocate f =
        fun d => indent 1 ++ d.text ++ ";\n" :=
      funext fun d => congrArg (indent 1 ++ · ++ ";\n") d.text_relocate
    simp only [DeclSection.relocate, DeclSection.text, declsText, List.map_map, hlines]

theorem DeclSection.whole_relocate (ds : DeclSection) : (ds.relocate f).Whole ↔ ds.Whole := by
  cases ds with
  | omitted => rfl
  | gap => rfl
  | listed ds => simp [DeclSection.relocate, Decl.whole_relocate]

theorem Body.yield_relocate (b : Body) :
    (b.relocate f).yield = b.yield.map (Terminal.relocate f) := by
  simp [Body.relocate, Body.yield, DeclSection.yield_relocate, Terminal.relocate]

theorem Body.text_relocate (b : Body) : (b.relocate f).text = b.text := by
  simp only [Body.relocate, Body.text, DeclSection.text_relocate, Block.textAt_relocate]

theorem Body.whole_relocate (b : Body) : (b.relocate f).Whole ↔ b.Whole := by
  obtain ⟨ds, statements⟩ := b
  simp only [Body.relocate, Body.whole_mk, DeclSection.whole_relocate, Block.whole_relocate]

namespace Program

theorem yield_relocate (p : Program) : (p.relocate f).yield = p.yield.map (Terminal.relocate f) := by
  simp only [relocate, yield, List.map_cons, yieldOrGap_relocate Body.yield_relocate, Terminal.relocate]

theorem text_relocate (p : Program) : (p.relocate f).text = p.text := by
  simp only [relocate, text, textOrGap_relocate Body.text_relocate]

theorem whole_relocate (p : Program) : (p.relocate f).Whole ↔ p.Whole := by
  obtain ⟨body⟩ := p
  simp only [relocate, whole_mk, present_relocate Body.whole_relocate]

end Program

/-! ### Tokens at other places -/

theorem Terminal.SpelledBy.relocate {t : Token} {x : Terminal} (h : x.SpelledBy t) :
    (x.relocate f).SpelledBy (t.relocate f) := by
  cases x with
  | fixed k => exact h
  | name id => exact ⟨h.1, h.2.1, congrArg f h.2.2⟩
  | constant c => exact h
  | string s => exact h

theorem Spelled.relocate {xs : List Terminal} {ts : List Token} (h : Spelled xs ts) :
    Spelled (xs.map (Terminal.relocate f)) (ts.map (Token.relocate f)) := by
  induction xs generalizing ts with
  | nil =>
    obtain rfl := Spelled.nil_iff.1 h
    trivial
  | cons x xs ih =>
    obtain ⟨t, us, rfl, hx, hxs⟩ := Spelled.cons_iff.1 h
    exact ⟨hx.relocate, ih hxs⟩

/-- Tokens of the same contents are the same tokens once they stand at one place. -/
theorem Token.map_relocate_eq {ts us : List Token} (h : ts.map Token.content = us.map Token.content)
    (q : Position) : ts.map (Token.relocate fun _ => q) = us.map (Token.relocate fun _ => q) := by
  have hcontent : Token.relocate (fun _ => q) = (fun x => ⟨x.kind, q, x.literal⟩) ∘ Token.content := rfl
  rw [hcontent, ← List.map_map, ← List.map_map, h]

namespace Program
variable {p₁ p₂ : Program} {ts ts₁ ts₂ : List Token}

/-- A whole program is read from the tokens it spells, so these spell no other one. -/
theorem eq_of_spelled (h₁ : p₁.Whole) (h₂ : p₂.Whole) (hs₁ : Spelled p₁.yield ts)
    (hs₂ : Spelled p₂.yield ts) : p₁ = p₂ := by
  have hread : ∀ p : Program, p.Whole → Spelled p.yield ts →
      (Nonterminal.program.parse (.ofFeed (.ofTokens ts))).1 = some p := by
    intro p hp hs
    obtain ⟨e, he, htake⟩ := Feed.take_ofTokens ts
    have hb := Cursor.begins_take (.ofTokens ts) (ts.length + 1)
    rw [htake] at hb
    have hend : Heads (Nonterminal.followKinds .program) [e] := by rw [Heads, he]; decide
    exact (Nonterminal.parse_of_whole (n := .program) (t := some p) hp hs hend
      (Cursor.linked_ofFeed rfl) hb).1
  exact Option.some.inj ((hread p₁ h₁ hs₁).symm.trans (hread p₂ h₂ hs₂))

theorem text_eq_of_contents (h₁ : p₁.Whole) (h₂ : p₂.Whole) (hs₁ : Spelled p₁.yield ts₁)
    (hs₂ : Spelled p₂.yield ts₂) (h : ts₁.map Token.content = ts₂.map Token.content) :
    p₁.text = p₂.text := by
  have hspelled : ∀ {p : Program} {ts : List Token}, Spelled p.yield ts →
      Spelled (p.relocate fun _ => .origin).yield (ts.map (Token.relocate fun _ => .origin)) := by
    intro p ts hs
    rw [yield_relocate]
    exact hs.relocate
  have hs := hspelled hs₁
  rw [Token.map_relocate_eq h] at hs
  have heq := eq_of_spelled ((whole_relocate p₁).2 h₁) ((whole_relocate p₂).2 h₂) hs (hspelled hs₂)
  calc p₁.text = (p₁.relocate fun _ => .origin).text := (text_relocate p₁).symm
    _ = (p₂.relocate fun _ => .origin).text := by rw [heq]
    _ = p₂.text := text_relocate p₂

end Program

end Routine
