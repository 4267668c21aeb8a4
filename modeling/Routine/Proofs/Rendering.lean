import Routine.Proofs.Spellings
import Routine.Proofs.Whole

/-!
# What a text shows

A program is shown with every operator in front of its sides, each application in parentheses, and
the scan that reads source texts reads what is shown as well. What it reads stands for contents in
their order in the source: an expression that is shown as a form (`Form`) and whatever stands around
expressions as itself (`Row`). A form cannot go on, so a row stands for one list of contents only
(`Row.unique`). The text of a whole program is read as a row that stands for what the program spells
(`Program.shows`).
-/

namespace Routine

namespace Kind

/-- The kinds of what makes an expression on its own. -/
def atoms : List Kind := [identifier, intConst, charConst, stringConst]

/-- The kinds that an expression begins with where it is shown. -/
def openers : List Kind := leftParen :: atoms

end Kind

namespace Content

def leftParen : Content := ⟨.leftParen, none⟩

def rightParen : Content := ⟨.rightParen, none⟩

end Content

open Content (leftParen rightParen)

/-- The contents of an expression as it is shown, and in their order in the source. -/
inductive Form : List Content → List Content → Prop
  | atom {x : Content} (hx : x.kind ∈ Kind.atoms) : Form [x] [x]
  | group {xs ys : List Content} (h : Form xs ys) :
    Form (leftParen :: (xs ++ [rightParen])) (leftParen :: (ys ++ [rightParen]))
  | signed {k : Kind} {xs ys : List Content} (hk : k ∉ Kind.openers) (h : Form xs ys) :
    Form (leftParen :: ⟨k, none⟩ :: (xs ++ [rightParen])) (⟨k, none⟩ :: ys)
  | applied {k : Kind} {xs ys xs' ys' : List Content} (hk : k ∉ Kind.openers) (h : Form xs ys)
    (h' : Form xs' ys') :
    Form (leftParen :: ⟨k, none⟩ :: (xs ++ (xs' ++ [rightParen]))) (ys ++ ⟨k, none⟩ :: ys')

/-- Expressions, and between them contents that stand for themselves. -/
inductive Row : List Content → List Content → Prop
  | nil : Row [] []
  | mark {x : Content} {xs ys : List Content} (hx : x.kind ∉ Kind.openers) (h : Row xs ys) :
    Row (x :: xs) (x :: ys)
  | form {xs ys xs' ys' : List Content} (h : Form xs ys) (h' : Row xs' ys') :
    Row (xs ++ xs') (ys ++ ys')

namespace Form
variable {xs ys xs' ys' rest rest' : List Content} {x : Content}

theorem head (h : Form xs ys) : ∃ x xs', xs = x :: xs' ∧ x.kind ∈ Kind.openers := by
  have hparen : leftParen.kind ∈ Kind.openers := by decide
  cases h with
  | atom hx => exact ⟨_, _, rfl, List.mem_cons_of_mem _ hx⟩
  | group | signed | applied => exact ⟨_, _, rfl, hparen⟩

/-- No form begins with what cannot open one. -/
theorem append_ne_cons (h : Form xs ys) (hx : x.kind ∉ Kind.openers) : xs ++ rest ≠ x :: rest' := by
  obtain ⟨y, xs', rfl, hy⟩ := h.head
  intro heq
  obtain ⟨rfl, -⟩ := List.cons.inj heq
  exact hx hy

theorem subset (h : Form xs ys) : ys ⊆ xs := by
  induction h with
  | atom => exact List.Subset.refl _
  | group | signed | applied =>
    intro y hy
    grind

theorem atom_ne_leftParen (hx : x.kind ∈ Kind.atoms) : x ≠ leftParen := by
  rintro rfl
  exact absurd hx (by decide)

/-- A text that begins with a form begins with no other one, and what the form stands for is
determined. Behind a parenthesis, what comes next tells a group from an operator; behind the first
side of an operator, it tells a sign from an operator of two sides. -/
theorem unique (h : Form xs ys) (h' : Form xs' ys') (heq : xs ++ rest = xs' ++ rest') :
    ys = ys' ∧ rest = rest' := by
  have hclose : rightParen.kind ∉ Kind.openers := by decide
  induction h generalizing xs' ys' rest rest' with
  | atom hx =>
    cases h' with
    | atom => simp_all
    | group | signed | applied => exact absurd (List.cons.inj heq).1 (atom_ne_leftParen hx)
  | group h ih =>
    cases h' with
    | atom hx => exact absurd (List.cons.inj heq).1.symm (atom_ne_leftParen hx)
    | group h' =>
      simp only [List.cons_append, List.append_assoc, List.cons.injEq, true_and] at heq
      obtain ⟨rfl, hrest⟩ := ih h' heq
      exact ⟨rfl, (List.cons.inj hrest).2⟩
    | signed hk | applied hk =>
      simp only [List.cons_append, List.append_assoc, List.cons.injEq, true_and] at heq
      exact absurd heq (h.append_ne_cons hk)
  | signed hk h ih =>
    cases h' with
    | atom hx => exact absurd (List.cons.inj heq).1.symm (atom_ne_leftParen hx)
    | group h' =>
      simp only [List.cons_append, List.append_assoc, List.cons.injEq, true_and] at heq
      exact absurd heq.symm (h'.append_ne_cons hk)
    | signed _ h' =>
      simp only [List.cons_append, List.append_assoc, List.cons.injEq, true_and] at heq
      obtain ⟨rfl, hrest⟩ := ih h' heq.2
      exact ⟨by rw [heq.1], (List.cons.inj hrest).2⟩
    | applied _ h₁ h₂ =>
      simp only [List.cons_append, List.append_assoc, List.cons.injEq, true_and] at heq
      obtain ⟨-, hrest⟩ := ih h₁ heq.2
      exact absurd hrest.symm (h₂.append_ne_cons hclose)
  | applied hk _ h₂ ih₁ ih₂ =>
    cases h' with
    | atom hx => exact absurd (List.cons.inj heq).1.symm (atom_ne_leftParen hx)
    | group h' =>
      simp only [List.cons_append, List.append_assoc, List.cons.injEq, true_and] at heq
      exact absurd heq.symm (h'.append_ne_cons hk)
    | signed _ h' =>
      simp only [List.cons_append, List.append_assoc, List.cons.injEq, true_and] at heq
      obtain ⟨-, hrest⟩ := ih₁ h' heq.2
      exact absurd hrest (h₂.append_ne_cons hclose)
    | applied _ h₁' h₂' =>
      simp only [List.cons_append, List.append_assoc, List.cons.injEq, true_and] at heq
      obtain ⟨rfl, hrest⟩ := ih₁ h₁' heq.2
      obtain ⟨rfl, hrest'⟩ := ih₂ h₂' hrest
      exact ⟨by rw [heq.1], (List.cons.inj hrest').2⟩

end Form

namespace Row

theorem subset {xs ys : List Content} (h : Row xs ys) : ys ⊆ xs := by
  induction h with
  | nil => exact List.Subset.refl _
  | mark _ _ ih => exact List.cons_subset_cons _ ih
  | form hform _ ih =>
    refine List.append_subset.2 ⟨?_, ?_⟩
    · exact List.subset_append_of_subset_left _ hform.subset
    · exact List.subset_append_of_subset_right _ ih

/-- A row stands for one list of contents only. -/
theorem unique {xs ys ys' : List Content} (h : Row xs ys) (h' : Row xs ys') : ys = ys' := by
  -- the row is generalized in each case, because a form in front of it is an append
  induction h generalizing ys' with
  | nil =>
    generalize hxs : ([] : List Content) = xs at h'
    cases h' with
    | nil => rfl
    | mark => cases hxs
    | form hform =>
      obtain ⟨x, xs', rfl, -⟩ := hform.head
      cases hxs
  | @mark x xs ys hx _ ih =>
    generalize hxs : x :: xs = zs at h'
    cases h' with
    | nil => cases hxs
    | mark _ h' =>
      obtain ⟨rfl, rfl⟩ := List.cons.inj hxs
      rw [ih h']
    | form hform => exact absurd hxs.symm (hform.append_ne_cons hx)
  | @form xs ys xs' ys' hform _ ih =>
    generalize hxs : xs ++ xs' = zs at h'
    cases h' with
    | nil =>
      obtain ⟨x, xs', rfl, -⟩ := hform.head
      cases hxs
    | mark hx => exact absurd hxs (hform.append_ne_cons hx)
    | form hform' h' =>
      obtain ⟨rfl, rfl⟩ := hform.unique hform' hxs
      rw [ih h']

end Row

/-! ### Texts in front of more text -/

/-- The text does not go on with a word or a number that stands in front of it. -/
def Parted (cs : List Char) : Prop := ∀ c ∈ cs.head?, Lexeme.isWordChar c = false ∧ c ≠ '.'

namespace Parted

theorem of_cons {c : Char} (hc : Lexeme.isWordChar c = false ∧ c ≠ '.') (cs : List Char) :
    Parted (c :: cs) := by
  rintro d ⟨⟩
  exact hc

theorem of_blank {c : Char} (hc : Spacing.isBlank c) (cs : List Char) : Parted (c :: cs) := by
  refine of_cons ?_ cs
  rcases Spacing.eq_of_isBlank hc with rfl | rfl | rfl | rfl <;> decide

theorem of_head {text : String} (cs : List Char)
    (h : text.toList.head?.any fun c => !Lexeme.isWordChar c && c != '.') :
    Parted (text.toList ++ cs) := by
  cases htext : text.toList with
  | nil => simp [htext] at h
  | cons c ds => exact of_cons (by simpa [htext] using h) _

end Parted

/-- The words and marks that stand between expressions. -/
def Kind.marks : List Kind := .assign :: .semicolon :: .comma :: keywords

theorem Kind.goesOn_of_parted {k : Kind} (hk : k ∈ atoms ∨ k ∈ marks) {cs : List Char}
    (hcs : Parted cs) : ∀ c ∈ cs.head?, k.goesOn c = false := by
  intro c hc
  obtain ⟨hword, hpoint⟩ := hcs c hc
  have hdigit : c.isDigit = false := by
    simp_all [Lexeme.isWordChar, Char.isAlphanum]
  cases k <;> simp_all [goesOn, atoms, marks, keywords]

theorem contents_blanks (gap : List Char) (hgap : gap.all Spacing.isBlank) (cs : List Char) :
    contents (gap ++ cs) = contents cs := by
  refine contents_spacing ?_
  induction gap with
  | nil => exact .nil
  | cons c gap ih =>
    obtain ⟨hc, hgap⟩ := Bool.and_eq_true_iff.1 hgap
    exact .blank hc (ih hgap)

theorem contents_label {k : Kind} (hk : k ∈ Kind.keywords ∨ k ∈ Kind.symbols) {cs : List Char}
    (hcs : ∀ c ∈ cs.head?, k.goesOn c = false) : contents (k.label.toList ++ cs) = ⟨k, none⟩ :: contents cs :=
  contents_spelling (hk.elim .keyword .symbol) hcs

theorem contents_blank (cs : List Char) : contents (' ' :: cs) = contents cs :=
  contents_blanks [' '] (by decide) cs

/-- An operator is shown with a blank behind it, and no lexeme goes on with a blank. -/
theorem contents_operator {k : Kind} (hk : k ∈ Kind.keywords ∨ k ∈ Kind.symbols) (cs : List Char) :
    contents (k.label.toList ++ ' ' :: cs) = ⟨k, none⟩ :: contents cs := by
  have hends : ∀ c ∈ (' ' :: cs).head?, k.goesOn c = false := by
    rintro c ⟨⟩
    exact k.goesOn_blank (by decide)
  rw [contents_label hk hends, contents_blank]

theorem contents_leftParen (cs : List Char) : contents ('(' :: cs) = leftParen :: contents cs :=
  contents_label (k := .leftParen) (.inr (by decide)) fun _ _ => rfl

theorem contents_rightParen (cs : List Char) : contents (')' :: cs) = rightParen :: contents cs :=
  contents_label (k := .rightParen) (.inr (by decide)) fun _ _ => rfl

/-- What a terminal is spelled as, apart from where. -/
def Terminal.content : Terminal → Content
  | .fixed k => ⟨k, none⟩
  | .name id => ⟨.identifier, some (.name id.name)⟩
  | .constant c => ⟨c.kind, some c.literal⟩
  | .string s => ⟨.stringConst, some (.string s)⟩

/-- The value of the terminal, if it has one, can be spelled. -/
def Terminal.Printable : Terminal → Prop
  | .fixed _ => True
  | x => x.content.Printable

/-- The text is read as a form that stands for `ys`, if what comes behind parts it. -/
def Displays (text : String) (ys : List Content) : Prop :=
  ∃ xs, Form xs ys ∧ ∀ cs, Parted cs → contents (text.toList ++ cs) = xs ++ contents cs

namespace Displays
variable {text text' : String} {ys ys' : List Content} {k : Kind}

theorem atom {x : Content} (hx : x.Printable) (hkind : x.kind ∈ Kind.atoms)
    (htext : text.toList = x.spelling) : Displays text [x] := by
  refine ⟨[x], .atom hkind, fun cs hcs => ?_⟩
  rw [htext]
  exact contents_spelling hx (Kind.goesOn_of_parted (.inl hkind) hcs)

theorem group (h : Displays text ys) :
    Displays ("(" ++ text ++ ")") (leftParen :: (ys ++ [rightParen])) := by
  obtain ⟨xs, hform, hread⟩ := h
  refine ⟨_, hform.group, fun cs _ => ?_⟩
  have hparted : Parted (')' :: cs) := .of_cons (by decide) cs
  calc contents (("(" ++ text ++ ")").toList ++ cs)
      = contents ('(' :: (text.toList ++ ')' :: cs)) := by simp
    _ = leftParen :: (xs ++ rightParen :: contents cs) := by
      rw [contents_leftParen, hread _ hparted, contents_rightParen]
    _ = leftParen :: (xs ++ [rightParen]) ++ contents cs := by simp

theorem signed {opening : String} (hk : k ∉ Kind.openers)
    (hopening : ∀ cs, contents (opening.toList ++ cs) = leftParen :: ⟨k, none⟩ :: contents cs)
    (h : Displays text ys) : Displays (opening ++ text ++ ")") (⟨k, none⟩ :: ys) := by
  obtain ⟨xs, hform, hread⟩ := h
  refine ⟨_, hform.signed hk, fun cs _ => ?_⟩
  have hparted : Parted (')' :: cs) := .of_cons (by decide) cs
  calc contents ((opening ++ text ++ ")").toList ++ cs)
      = contents (opening.toList ++ (text.toList ++ ')' :: cs)) := by simp
    _ = leftParen :: ⟨k, none⟩ :: (xs ++ rightParen :: contents cs) := by
      rw [hopening, hread _ hparted, contents_rightParen]
    _ = leftParen :: ⟨k, none⟩ :: (xs ++ [rightParen]) ++ contents cs := by simp

theorem applied (hk : k ∈ Kind.keywords ∨ k ∈ Kind.symbols) (hopen : k ∉ Kind.openers)
    (h : Displays text ys) (h' : Displays text' ys') :
    Displays (applied k.label text text') (ys ++ ⟨k, none⟩ :: ys') := by
  obtain ⟨xs, hform, hread⟩ := h
  obtain ⟨xs', hform', hread'⟩ := h'
  refine ⟨_, hform.applied hopen hform', fun cs _ => ?_⟩
  have hparted : Parted (')' :: cs) := .of_cons (by decide) cs
  have hparted' : ∀ cs, Parted (' ' :: cs) := .of_blank (by decide)
  calc contents ((Routine.applied k.label text text').toList ++ cs)
      = contents ('(' :: (k.label.toList ++ ' ' :: (text.toList ++ ' ' :: (text'.toList ++ ')' :: cs)))) := by
        simp [Routine.applied]
    _ = leftParen :: ⟨k, none⟩ :: (xs ++ (xs' ++ rightParen :: contents cs)) := by
      rw [contents_leftParen, contents_operator hk, hread _ (hparted' _), contents_blank,
        hread' _ hparted, contents_rightParen]
    _ = leftParen :: ⟨k, none⟩ :: (xs ++ (xs' ++ [rightParen])) ++ contents cs := by simp

theorem constant {c : Constant} (hc : (Terminal.constant c).Printable) :
    Displays c.text [(Terminal.constant c).content] := by
  cases c with
  | int n => exact atom hc (show Kind.intConst ∈ Kind.atoms by decide) rfl
  | float x => cases hc
  | char c => exact atom hc (show Kind.charConst ∈ Kind.atoms by decide) rfl

theorem sign (sign : Sign) (h : Displays text ys) :
    Displays (sign.apply text) (sign.yield.map Terminal.content ++ ys) := by
  cases sign with
  | plain => exact h
  | not =>
    refine signed (by decide) (fun cs => ?_) h
    have hnot : contents ("not".toList ++ ' ' :: cs) = ⟨.notKw, none⟩ :: contents cs :=
      contents_operator (k := .notKw) (.inl (by decide)) cs
    show contents ('(' :: ("not".toList ++ ' ' :: cs)) = _
    rw [contents_leftParen, hnot]
  | minus =>
    refine signed (by decide) (fun cs => ?_) h
    have hminus : contents ('-' :: cs) = ⟨.minus, none⟩ :: contents cs :=
      contents_label (k := .minus) (.inr (by decide)) fun _ _ => rfl
    show contents ('(' :: '-' :: cs) = _
    rw [contents_leftParen, hminus]

end Displays

theorem AddOp.label_kind (op : AddOp) : op.text = op.kind.label ∧
    (op.kind ∈ Kind.keywords ∨ op.kind ∈ Kind.symbols) ∧ op.kind ∉ Kind.openers := by
  cases op <;> decide

theorem MulOp.label_kind (op : MulOp) : op.text = op.kind.label ∧
    (op.kind ∈ Kind.keywords ∨ op.kind ∈ Kind.symbols) ∧ op.kind ∉ Kind.openers := by
  cases op <;> decide

theorem RelOp.label_kind (op : RelOp) : op.text = op.kind.label ∧
    (op.kind ∈ Kind.keywords ∨ op.kind ∈ Kind.symbols) ∧ op.kind ∉ Kind.openers := by
  cases op <;> decide

/-- All values of the terminals can be spelled. -/
def Printable (xs : List Terminal) : Prop := ∀ x ∈ xs, x.Printable

@[simp] theorem printable_append {xs ys : List Terminal} :
    Printable (xs ++ ys) ↔ Printable xs ∧ Printable ys := List.forall_mem_append

@[simp] theorem printable_cons {x : Terminal} {xs : List Terminal} :
    Printable (x :: xs) ↔ x.Printable ∧ Printable xs := List.forall_mem_cons

mutual

theorem Expr.displays : (e : Expr) → e.Whole → Printable e.yield →
    Displays e.text (e.yield.map Terminal.content)
  | .simple e, he, hy => e.displays (Expr.whole_simple.1 he) hy
  | .compare lhs none rhs, he, _ => (Expr.whole_compare.1 he).2.1.elim
  | .compare lhs (some op) rhs, he, hy => by
    obtain ⟨hlhs, -, hrhs⟩ := Expr.whole_compare.1 he
    obtain ⟨hylhs, -, hyrhs⟩ : Printable lhs.yield ∧ _ ∧ Printable rhs.yield := by
      simpa [Expr.yield] using hy
    obtain ⟨htext, hk, hopen⟩ := op.label_kind
    have h := Displays.applied hk hopen (lhs.displays hlhs hylhs) (rhs.displays hrhs hyrhs)
    simpa [Expr.text, Expr.yield, textOrGap, htext, opYield, yieldOrGap, Terminal.content] using h

theorem SimpleExpr.displays : (e : SimpleExpr) → e.Whole → Printable e.yield →
    Displays e.text (e.yield.map Terminal.content)
  | .mk first rest, he, hy => by
    obtain ⟨hfirst, hrest⟩ := SimpleExpr.whole_mk.1 he
    obtain ⟨hyfirst, hyrest⟩ := printable_append.1 hy
    have h := rest.displays_after hrest hyrest (first.displays hfirst hyfirst)
    simpa [SimpleExpr.text, SimpleExpr.yield] using h

/-- The tail takes what is displayed in front of it into its own text. -/
theorem SimpleTail.displays_after : (t : SimpleTail) → t.Whole → Printable t.yield →
    ∀ {before : String} {ys : List Content}, Displays before ys →
      Displays (t.textAfter before) (ys ++ t.yield.map Terminal.content)
  | .nil, _, _, _, _, h => by simpa [SimpleTail.textAfter, SimpleTail.yield] using h
  | .cons none term rest, ht, _, _, _, _ => (SimpleTail.whole_cons.1 ht).1.elim
  | .cons (some op) term rest, ht, hy, before, ys, h => by
    obtain ⟨-, hterm, hrest⟩ := SimpleTail.whole_cons.1 ht
    obtain ⟨-, hyterm, hyrest⟩ : _ ∧ Printable term.yield ∧ Printable rest.yield := by
      simpa [SimpleTail.yield] using hy
    obtain ⟨htext, hk, hopen⟩ := op.label_kind
    have h' := rest.displays_after hrest hyrest (.applied hk hopen h (term.displays hterm hyterm))
    simpa [SimpleTail.textAfter, SimpleTail.yield, textOrGap, htext, opYield, yieldOrGap,
      Terminal.content] using h'

theorem Term.displays : (t : Term) → t.Whole → Printable t.yield →
    Displays t.text (t.yield.map Terminal.content)
  | .mk first rest, ht, hy => by
    obtain ⟨hfirst, hrest⟩ := Term.whole_mk.1 ht
    obtain ⟨hyfirst, hyrest⟩ := printable_append.1 hy
    have h := rest.displays_after hrest hyrest (first.displays hfirst hyfirst)
    simpa [Term.text, Term.yield] using h

theorem TermTail.displays_after : (t : TermTail) → t.Whole → Printable t.yield →
    ∀ {before : String} {ys : List Content}, Displays before ys →
      Displays (t.textAfter before) (ys ++ t.yield.map Terminal.content)
  | .nil, _, _, _, _, h => by simpa [TermTail.textAfter, TermTail.yield] using h
  | .cons none operand rest, ht, _, _, _, _ => (TermTail.whole_cons.1 ht).1.elim
  | .cons (some op) operand rest, ht, hy, before, ys, h => by
    obtain ⟨-, hoperand, hrest⟩ := TermTail.whole_cons.1 ht
    obtain ⟨-, hyoperand, hyrest⟩ : _ ∧ Printable operand.yield ∧ Printable rest.yield := by
      simpa [TermTail.yield] using hy
    obtain ⟨htext, hk, hopen⟩ := op.label_kind
    have h' := rest.displays_after hrest hyrest
      (.applied hk hopen h (operand.displays hoperand hyoperand))
    simpa [TermTail.textAfter, TermTail.yield, textOrGap, htext, opYield, yieldOrGap,
      Terminal.content] using h'

theorem Operand.displays : (o : Operand) → o.Whole → Printable o.yield →
    Displays o.text (o.yield.map Terminal.content)
  | .of sign primary, ho, hy => by
    obtain ⟨-, hyprimary⟩ := printable_append.1 hy
    have h := (primary.displays (Operand.whole_of.1 ho) hyprimary).sign sign
    simpa [Operand.text, Operand.yield] using h
  | .gap _, ho, _ => absurd ho Operand.not_whole_gap

theorem Primary.displays : (p : Primary) → p.Whole → Printable p.yield →
    Displays p.text (p.yield.map Terminal.content)
  | .name _, _, hy =>
    .atom (printable_cons.1 hy).1 (show Kind.identifier ∈ Kind.atoms by decide) rfl
  | .constant _, _, hy => .constant (printable_cons.1 hy).1
  | .group e, hp, hy => by
    obtain ⟨-, hye, -⟩ : _ ∧ Printable e.yield ∧ _ := by simpa [Primary.yield] using hy
    have h := (e.displays (Primary.whole_group.1 hp) hye).group
    simpa [Primary.text, Primary.yield, Terminal.content, leftParen, rightParen] using h

end

/-- The text is read as a row that stands for the contents. -/
def Shows (cs : List Char) (ys : List Content) : Prop := Row (contents cs) ys

/-- In front of a text that parts it from what follows, the text shows `xs`. -/
def Fronts (text : String) (xs : List Content) : Prop :=
  ∀ cs ys, Parted cs → Shows cs ys → Shows (text.toList ++ cs) (xs ++ ys)

theorem Displays.fronts {text : String} {xs : List Content} (h : Displays text xs) : Fronts text xs := by
  obtain ⟨zs, hform, hread⟩ := h
  intro cs ys hcs hrow
  rw [Shows, hread cs hcs]
  exact .form hform hrow

namespace Shows
variable {cs : List Char} {ys : List Content}

theorem blanks {gap : List Char} (h : Shows cs ys) (hgap : gap.all Spacing.isBlank) :
    Shows (gap ++ cs) ys := by
  rwa [Shows, contents_blanks _ hgap]

theorem indent (h : Shows cs ys) (depth : Nat) : Shows ((indent depth).toList ++ cs) ys := by
  refine h.blanks ?_
  simp [Routine.indent, Text.blanks, Spacing.isBlank]

theorem label {k : Kind} {before : List Char} (h : Shows cs ys) (hcs : Parted cs) (hk : k ∈ Kind.marks)
    (hbefore : before.all Spacing.isBlank) :
    Shows (before ++ (k.label.toList ++ cs)) (⟨k, none⟩ :: ys) := by
  have hkind : (k ∈ Kind.keywords ∨ k ∈ Kind.symbols) ∧ k ∉ Kind.openers := by
    revert hk
    cases k <;> decide
  rw [Shows, contents_blanks _ hbefore, contents_label hkind.1 (Kind.goesOn_of_parted (.inr hk) hcs)]
  exact .mark hkind.2 h

/-- A word or mark with blanks in front of it. -/
theorem ending {text : String} (h : Shows cs ys) (hcs : Parted cs) (k : Kind) (before : List Char)
    (htext : text.toList = before ++ k.label.toList ∧ before.all Spacing.isBlank ∧ k ∈ Kind.marks) :
    Shows (text.toList ++ cs) (⟨k, none⟩ :: ys) := by
  obtain ⟨htext, hbefore, hk⟩ := htext
  rw [htext, List.append_assoc]
  exact h.label hcs hk hbefore

/-- A word or mark with blanks in front of it and one behind it. -/
theorem mark {text : String} (h : Shows cs ys) (k : Kind) (before : List Char) (c : Char)
    (htext : text.toList = before ++ (k.label.toList ++ [c]) ∧ (c :: before).all Spacing.isBlank ∧
      k ∈ Kind.marks) :
    Shows (text.toList ++ cs) (⟨k, none⟩ :: ys) := by
  obtain ⟨htext, hblank, hk⟩ := htext
  obtain ⟨hc, hbefore⟩ := Bool.and_eq_true_iff.1 hblank
  have hgap : [c].all Spacing.isBlank := by simpa using hc
  have hcs : Shows (c :: cs) ys := h.blanks hgap
  rw [htext, List.append_assoc, List.append_assoc]
  exact hcs.label (.of_blank hc cs) hk hbefore

end Shows

/-- The line break and the blanks behind a block. -/
theorem Fronts.lines {text : String} {xs ys : List Content} {cs : List Char} (h : Fronts text xs)
    (depth : Nat) (hrow : Shows cs ys) :
    Shows (text.toList ++ ("\n".toList ++ ((indent depth).toList ++ cs))) (xs ++ ys) :=
  h _ _ (.of_head _ (by decide)) ((hrow.indent depth).blanks (by decide))

/-- A word in front of what stands in parentheses. -/
theorem Displays.call {k : Kind} {opening text : String} {xs : List Content} (h : Displays text xs)
    (hk : k ∈ Kind.marks) (hopening : opening = k.label ++ "(") :
    Fronts (opening ++ text ++ ")") (⟨k, none⟩ :: leftParen :: (xs ++ [rightParen])) := by
  intro cs ys hcs hrow
  have htext : (opening ++ text ++ ")").toList ++ cs =
      [] ++ (k.label.toList ++ (("(" ++ text ++ ")").toList ++ cs)) := by
    rw [hopening]
    simp
  have hparted : Parted (("(" ++ text ++ ")").toList ++ cs) := .of_head cs (by simp; decide)
  rw [htext]
  exact (h.group.fronts _ _ hcs hrow).label hparted hk rfl

theorem Ident.displays (id : Ident) (hid : (Terminal.name id).Printable) :
    Displays id.name [(Terminal.name id).content] :=
  .atom hid (show Kind.identifier ∈ Kind.atoms by decide) rfl

theorem Writable.displays (w : Writable) (hw : w.Whole) (hy : Printable w.yield) :
    Displays w.text (w.yield.map Terminal.content) := by
  cases w with
  | string s =>
    exact .atom (printable_cons.1 hy).1 (show Kind.stringConst ∈ Kind.atoms by decide) rfl
  | value e => exact e.displays (Writable.whole_value.1 hw) hy

theorem Block.parted_more (b : Block) (depth : Nat) {cs : List Char} (hcs : Parted cs) :
    Parted ((b.moreTextAt depth).toList ++ cs) := by
  have hsemicolon : ∀ cs : List Char, Parted (";\n".toList ++ cs) := fun cs => .of_head cs (by decide)
  cases b with
  | nil => exact hcs
  | stmt s rest =>
    simp only [Block.moreTextAt, String.toList_append, List.append_assoc]
    exact hsemicolon _
  | gap rest =>
    simp only [Block.moreTextAt, String.toList_append, List.append_assoc]
    exact hsemicolon _

mutual

theorem Stmt.fronts : (s : Stmt) → s.Whole → Printable s.yield → (depth : Nat) →
    Fronts (s.textAt depth) (s.yield.map Terminal.content)
  | .assign target value, hs, hy, _ => by
    intro cs ys hcs h
    obtain ⟨hytarget, -, hyvalue⟩ : _ ∧ _ ∧ Printable value.yield := by simpa [Stmt.yield] using hy
    have hvalue := (value.displays (Stmt.whole_assign.1 hs) hyvalue).fronts cs ys hcs h
    simp only [Stmt.textAt, Stmt.yield, String.toList_append, List.append_assoc, List.map_cons,
      List.cons_append]
    refine (target.displays hytarget).fronts _ _ (.of_head _ (by decide)) ?_
    exact hvalue.mark .assign [' '] ' ' (by decide)
  | .read target, _, hy, _ => by
    obtain ⟨-, -, hytarget, -⟩ : _ ∧ _ ∧ (Terminal.name target).Printable ∧ _ := by
      simpa [Stmt.yield] using hy
    exact (target.displays hytarget).call (k := .readKw) (by decide) rfl
  | .write none, hs, _, _ => (Stmt.whole_write.1 hs).elim
  | .write (some w), hs, hy, _ => by
    obtain ⟨-, -, hyw, -⟩ : _ ∧ _ ∧ Printable w.yield ∧ _ := by
      simpa [Stmt.yield, yieldOrGap] using hy
    have h := (w.displays (Stmt.whole_write.1 hs) hyw).call (k := .writeKw) (by decide) rfl
    rw [Stmt.yield, List.map_cons, List.map_cons, List.map_append]
    exact h
  | .ifThen cond b, hs, hy, depth => by
    intro cs ys hcs h
    obtain ⟨hcond, hb⟩ := Stmt.whole_ifThen.1 hs
    obtain ⟨-, hycond, -, hyb, -⟩ : _ ∧ Printable cond.yield ∧ _ ∧ Printable b.yield ∧ _ := by
      simpa [Stmt.yield] using hy
    have hend : Shows ("end".toList ++ cs) (⟨.endKw, none⟩ :: ys) := h.ending hcs .endKw [] (by decide)
    have hbody := (b.fronts hb hyb (depth + 1)).lines depth hend
    simp only [Stmt.textAt, Stmt.yield, String.toList_append, List.append_assoc, List.map_cons,
      List.map_append, List.map_nil, List.cons_append, List.nil_append]
    refine Shows.mark ?_ .ifKw [] ' ' (by decide)
    refine (cond.displays hcond hycond).fronts _ _ (.of_head _ (by decide)) ?_
    exact hbody.mark .thenKw [' '] '\n' (by decide)
  | .ifElse cond b b', hs, hy, depth => by
    intro cs ys hcs h
    obtain ⟨hcond, hb, hb'⟩ := Stmt.whole_ifElse.1 hs
    obtain ⟨-, hycond, -, hyb, -, hyb', -⟩ : _ ∧ Printable cond.yield ∧ _ ∧ Printable b.yield ∧ _ ∧
        Printable b'.yield ∧ _ := by
      simpa [Stmt.yield] using hy
    have hend : Shows ("end".toList ++ cs) (⟨.endKw, none⟩ :: ys) := h.ending hcs .endKw [] (by decide)
    have hbody' := (b'.fronts hb' hyb' (depth + 1)).lines depth hend
    have helse : Shows ("else\n".toList ++ _) (⟨.elseKw, none⟩ :: _) :=
      hbody'.mark .elseKw [] '\n' (by decide)
    have hbody := (b.fronts hb hyb (depth + 1)).lines depth helse
    simp only [Stmt.textAt, Stmt.yield, String.toList_append, List.append_assoc, List.map_cons,
      List.map_append, List.map_nil, List.cons_append, List.nil_append]
    refine Shows.mark ?_ .ifKw [] ' ' (by decide)
    refine (cond.displays hcond hycond).fronts _ _ (.of_head _ (by decide)) ?_
    exact hbody.mark .thenKw [' '] '\n' (by decide)
  | .whileDo none b, hs, _, _ => (Stmt.whole_whileDo.1 hs).1.elim
  | .whileDo (some cond) b, hs, hy, depth => by
    intro cs ys hcs h
    obtain ⟨hcond, hb⟩ := Stmt.whole_whileDo.1 hs
    obtain ⟨-, hycond, -, hyb, -⟩ : _ ∧ Printable cond.yield ∧ _ ∧ Printable b.yield ∧ _ := by
      simpa [Stmt.yield, yieldOrGap, headYield] using hy
    have hend : Shows ("end".toList ++ cs) (⟨.endKw, none⟩ :: ys) := h.ending hcs .endKw [] (by decide)
    have hbody := (b.fronts hb hyb (depth + 1)).lines depth hend
    simp only [Stmt.textAt, Stmt.yield, yieldOrGap, headYield, textOrGap, String.toList_append,
      List.append_assoc, List.map_cons, List.map_append, List.map_nil, List.cons_append, List.nil_append]
    refine Shows.mark ?_ .whileKw [] ' ' (by decide)
    refine (cond.displays hcond hycond).fronts _ _ (.of_head _ (by decide)) ?_
    exact hbody.mark .doKw [' '] '\n' (by decide)
  | .repeatUntil b none, hs, _, _ => (Stmt.whole_repeatUntil.1 hs).2.elim
  | .repeatUntil b (some cond), hs, hy, depth => by
    intro cs ys hcs h
    obtain ⟨hb, hcond⟩ := Stmt.whole_repeatUntil.1 hs
    obtain ⟨-, hyb, -, hycond⟩ : _ ∧ Printable b.yield ∧ _ ∧ Printable cond.yield := by
      simpa [Stmt.yield, yieldOrGap, exitYield] using hy
    have hvalue := (cond.displays hcond hycond).fronts cs ys hcs h
    have huntil : Shows ("until ".toList ++ _) (⟨.untilKw, none⟩ :: _) :=
      hvalue.mark .untilKw [] ' ' (by decide)
    have hbody := (b.fronts hb hyb (depth + 1)).lines depth huntil
    simp only [Stmt.textAt, Stmt.yield, yieldOrGap, exitYield, textOrGap, String.toList_append,
      List.append_assoc, List.map_cons, List.map_append, List.cons_append]
    exact hbody.mark .repeatKw [] '\n' (by decide)

theorem Block.fronts : (b : Block) → b.Whole → Printable b.yield → (depth : Nat) →
    Fronts (b.textAt depth) (b.yield.map Terminal.content)
  | .nil, hb, _, _ => absurd hb Block.not_whole_nil
  | .gap _, hb, _, _ => absurd hb Block.not_whole_gap
  | .stmt s rest, hb, hy, depth => by
    intro cs ys hcs h
    obtain ⟨hs, hrest⟩ := Block.whole_stmt.1 hb
    obtain ⟨hys, hyrest⟩ := printable_append.1 hy
    have hmore := rest.fronts_more hrest hyrest depth cs ys hcs h
    have hstmt := s.fronts hs hys depth _ _ (rest.parted_more depth hcs) hmore
    simp only [Block.textAt, Block.yield, String.toList_append, List.append_assoc, List.map_append]
    exact hstmt.indent depth

theorem Block.fronts_more : (b : Block) → b.MoreWhole → Printable b.moreYield → (depth : Nat) →
    Fronts (b.moreTextAt depth) (b.moreYield.map Terminal.content)
  | .nil, _, _, _ => fun _ _ _ h => h
  | .gap _, hb, _, _ => absurd hb Block.not_moreWhole_gap
  | .stmt s rest, hb, hy, depth => by
    intro cs ys hcs h
    obtain ⟨hs, hrest⟩ := Block.moreWhole_stmt.1 hb
    obtain ⟨-, hys, hyrest⟩ : _ ∧ Printable s.yield ∧ Printable rest.moreYield := by
      simpa [Block.moreYield] using hy
    have hmore := rest.fronts_more hrest hyrest depth cs ys hcs h
    have hstmt := s.fronts hs hys depth _ _ (rest.parted_more depth hcs) hmore
    simp only [Block.moreTextAt, Block.moreYield, String.toList_append, List.append_assoc,
      List.map_cons, List.map_append, List.cons_append]
    exact (hstmt.indent depth).mark .semicolon [] '\n' (by decide)

end

theorem names_fronts {ids : List Ident} (hids : ids ≠ []) (hy : Printable (namesYield ids)) :
    Fronts (namesText ids) ((namesYield ids).map Terminal.content) := by
  induction ids with
  | nil => exact absurd rfl hids
  | cons id ids ih =>
    have hname := (id.displays (printable_cons.1 hy).1).fronts
    cases ids with
    | nil => exact hname
    | cons id' ids =>
      intro cs ys hcs h
      have hyield : namesYield (id :: id' :: ids) =
          .name id :: .fixed .comma :: namesYield (id' :: ids) := by
        simp [namesYield, moreNamesYield]
      have htext : namesText (id :: id' :: ids) = id.name ++ ", " ++ namesText (id' :: ids) :=
        String.intercalate_cons_cons
      rw [hyield] at hy ⊢
      have hmore := ih (List.cons_ne_nil _ _) (printable_cons.1 (printable_cons.1 hy).2).2 cs ys hcs h
      rw [htext, String.toList_append, String.toList_append, List.append_assoc, List.append_assoc]
      refine hname _ _ (.of_head _ (by decide)) ?_
      exact hmore.mark .comma [] ' ' (by decide)

theorem ScalarType.label_kind (type : ScalarType) :
    type.text.toList = type.kind.label.toList ∧ type.kind ∈ Kind.marks := by
  cases type <;> decide

theorem Decl.fronts (d : Decl) (hd : d.Whole) (hy : Printable d.yield) :
    Fronts d.text (d.yield.map Terminal.content) := by
  intro cs ys hcs h
  obtain ⟨type, names⟩ := d
  obtain ⟨htype, hnames⟩ := Decl.whole_mk.1 hd
  obtain ⟨type, rfl, -⟩ := present_iff.1 htype
  obtain ⟨ids, rfl, hids⟩ := present_iff.1 hnames
  obtain ⟨-, hyids⟩ := printable_append.1 hy
  obtain ⟨htext, hk⟩ := type.label_kind
  have hrow := names_fronts hids hyids cs ys hcs h
  have hblank : Shows (" ".toList ++ _) _ := hrow.blanks (by decide)
  simp only [Decl.text, textOrGap, String.toList_append, List.append_assoc]
  exact hblank.ending (.of_head _ (by decide)) type.kind [] ⟨htext, rfl, hk⟩

theorem decls_shows {ds : List Decl} (hds : ∀ d ∈ ds, d.Whole) (hy : Printable (declsYield ds))
    {cs : List Char} {ys : List Content} (h : Shows cs ys) :
    Shows ((declsText ds).toList ++ cs) ((declsYield ds).map Terminal.content ++ ys) := by
  induction ds with
  | nil => exact h
  | cons d ds ih =>
    obtain ⟨hd, hds⟩ := List.forall_mem_cons.1 hds
    obtain ⟨hyd, hyds⟩ := printable_append.1 (declsYield_cons d ds ▸ hy)
    have hmore := ih hds (printable_cons.1 hyds).2
    have hsemicolon : Shows (";\n".toList ++ _) (⟨.semicolon, none⟩ :: _) :=
      hmore.mark .semicolon [] '\n' (by decide)
    have hdecl := d.fronts hd hyd _ _ (.of_head _ (by decide)) hsemicolon
    have htext : (declsText (d :: ds)).toList =
        (indent 1).toList ++ (d.text.toList ++ (";\n".toList ++ (declsText ds).toList)) := by
      simp [declsText, String.toList_join]
    rw [htext, declsYield_cons, List.map_append, List.append_assoc, List.append_assoc, List.append_assoc,
      List.append_assoc]
    exact hdecl.indent 1

theorem DeclSection.shows (ds : DeclSection) (hds : ds.Whole) (hy : Printable ds.yield) {cs : List Char}
    {ys : List Content} (h : Shows cs ys) :
    Shows (ds.text.toList ++ cs) (ds.yield.map Terminal.content ++ ys) := by
  cases ds with
  | omitted => exact h
  | gap => exact absurd hds DeclSection.not_whole_gap
  | listed ds =>
    have hrow := decls_shows (DeclSection.whole_listed.1 hds).2 (printable_cons.1 hy).2 h
    simp only [DeclSection.text, DeclSection.yield, String.toList_append, List.append_assoc, List.map_cons,
      List.cons_append]
    exact hrow.mark .declareKw [] '\n' (by decide)

theorem Body.fronts (b : Body) (hb : b.Whole) (hy : Printable b.yield) :
    Fronts b.text (b.yield.map Terminal.content) := by
  intro cs ys hcs h
  obtain ⟨ds, statements⟩ := b
  obtain ⟨hds, hstatements⟩ := Body.whole_mk.1 hb
  obtain ⟨hyds, -, hystatements, -⟩ : Printable ds.yield ∧ _ ∧ Printable statements.yield ∧ _ := by
    simpa [Body.yield] using hy
  have hend : Shows ("\nend".toList ++ cs) (⟨.endKw, none⟩ :: ys) := h.ending hcs .endKw ['\n'] (by decide)
  have hrow := statements.fronts hstatements hystatements 1 _ _ (.of_head _ (by decide)) hend
  simp only [Body.text, Body.yield, String.toList_append, List.append_assoc, List.map_append,
    List.map_cons, List.map_nil, List.cons_append, List.nil_append]
  exact ds.shows hds hyds (hrow.mark .beginKw [] '\n' (by decide))

/-- The text of a whole program shows what the program spells, and then the end of the input. -/
theorem Program.shows (p : Program) (hp : p.Whole) (hy : Printable p.yield) :
    Shows p.text.toList (p.yield.map Terminal.content ++ [⟨.eof, none⟩]) := by
  obtain ⟨body⟩ := p
  obtain ⟨b, rfl, hb⟩ := present_iff.1 (Program.whole_mk.1 hp)
  have hnil : Shows [] [⟨.eof, none⟩] := by
    rw [Shows, contents_nil]
    exact .mark (by decide) .nil
  have hrow := b.fronts hb (printable_cons.1 hy).2 [] _ nofun hnil
  rw [List.append_nil] at hrow
  simp only [Program.text, Program.yield, textOrGap, yieldOrGap, String.toList_append, List.map_cons,
    List.cons_append]
  exact hrow.mark .routineKw [] '\n' (by decide)

/-- The text of a whole program tells what the program spells. -/
theorem Program.content_eq_of_text {p₁ p₂ : Program} (h₁ : p₁.Whole) (h₂ : p₂.Whole)
    (hy₁ : Printable p₁.yield) (hy₂ : Printable p₂.yield) (h : p₁.text = p₂.text) :
    p₁.yield.map Terminal.content = p₂.yield.map Terminal.content := by
  have hrow := p₁.shows h₁ hy₁
  rw [h] at hrow
  exact List.append_cancel_right (hrow.unique (p₂.shows h₂ hy₂))

end Routine
