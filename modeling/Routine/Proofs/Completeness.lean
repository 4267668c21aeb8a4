import Routine.Proofs.Kept
import Routine.Proofs.Whole

/-!
# Every whole tree is read from what it spells

`Reads rest q a ts` says that the procedure `q` reads the tokens `ts` as `a` when `rest` comes behind
them. A procedure that looks ahead needs to know the first token of `rest`: `Heads` tells its kind.
The tokens of a tree that is split are split with it, so that what comes behind a part is what its
right neighbours spell and then `rest`.
-/

namespace Routine

open Cursor Procedure Production Nonterminal

/-- The first of the tokens is of one of the kinds. -/
def Heads (ks : List Kind) : List Token → Prop
  | t :: _ => t.kind ∈ ks
  | [] => False

namespace Heads
variable {ks ls : List Kind} {ts : List Token}

theorem mono (h : Heads ks ts) (hsub : ks ⊆ ls) : Heads ls ts := by
  cases ts with
  | nil => exact h
  | cons t ts => exact hsub h

theorem cons (h : Heads ks ts) : ∃ t us, ts = t :: us ∧ t.kind ∈ ks := by
  cases ts with
  | nil => exact h.elim
  | cons t us => exact ⟨t, us, rfl, h⟩

end Heads

/-- A phrase is read from what its tree spells, if it is followed as it may be. -/
def completing : Contract where
  pre _ _ := True
  post p s x s' := ∀ t ts rest, p.Whole t → Spelled (p.yield t) ts → Heads p.followKinds rest →
    s.Linked → s.Begins (ts ++ rest) → x = t ∧ s.Passes ts s'

/-- In front of `rest`, the procedure reads the tokens `ts` as `a`. -/
def Reads {α : Type} (rest : List Token) (q : Procedure α) (a : α) (ts : List Token) : Prop :=
  ∀ s, s.Linked → s.Begins (ts ++ rest) → q.wp completing (fun x s' => x = a ∧ s.Passes ts s') s

namespace Reads
variable {α β : Type} {rest ts us : List Token} {t : Token} {a : α} {b : β}

theorem done (a : α) : Reads rest (.done a) a [] := fun _ hl _ => ⟨rfl, .refl hl⟩

theorem bind {p : Procedure β} {k : β → Procedure α} (hp : Reads (us ++ rest) p b ts)
    (hk : Reads rest (k b) a us) : Reads rest (p >>= k) a (ts ++ us) := by
  intro s hl hb
  -- what comes behind the first procedure is what the second one reads, and then `rest`
  rw [List.append_assoc] at hb
  rw [wp_bind]
  refine wp_mono ?_ _ (hp s hl hb)
  rintro _ s₁ ⟨rfl, hpass⟩
  refine wp_mono ?_ _ (hk s₁ hpass.linked (hpass.begins_append_iff.1 hb))
  rintro _ s₂ ⟨rfl, hpass'⟩
  exact ⟨rfl, hpass.trans hpass'⟩

theorem bind_done {p : Procedure β} {f : β → α} (hp : Reads rest p b ts) :
    Reads rest (p >>= fun x => pure (f x)) (f b) ts := by
  rw [← List.append_nil ts]
  exact bind hp (done _)

theorem read {p : Phrase} {x : p.Result} (hx : p.Whole x) (hs : Spelled (p.yield x) ts)
    (hr : Heads p.followKinds rest) : Reads rest (Procedure.read p) x ts :=
  fun _ hl hb => ⟨trivial, fun _ _ hpost => hpost x ts rest hx hs hr hl hb⟩

theorem next_bind {k : Token → Procedure α} (ht : t.kind ≠ .invalid) (hk : Reads rest (k t) a ts) :
    Reads rest (Procedure.next >>= k) a (t :: ts) := by
  intro s hl hb
  obtain ⟨hnext, hpass⟩ := hl.next_of_begins hb ht
  have hb' : s.Begins ([t] ++ (ts ++ rest)) := hb
  rw [wp_bind, wp_next, hnext]
  refine wp_mono ?_ _ (hk _ hpass.linked (hpass.begins_append_iff.1 hb'))
  rintro _ s₁ ⟨rfl, hpass'⟩
  exact ⟨rfl, hpass.trans hpass'⟩

theorem expect_bind {k : Kind} {p q : Procedure α} (ht : t.kind = k) (hk : k ≠ .invalid)
    (hp : Reads rest p a ts) : Reads rest (expect k >>= fun c => if c then p else q) a (t :: ts) := by
  refine next_bind (k := fun u => if decide (u.kind = k) then p else q) (ht ▸ hk) ?_
  rwa [if_pos (decide_eq_true ht)]

theorem name_bind {p : Token → Procedure α} {q : Procedure α} (ht : t.kind = .identifier)
    (hp : Reads rest (p t) a ts) :
    Reads rest (Procedure.next >>= fun t => if t.kind = .identifier then p t else q) a (t :: ts) := by
  refine next_bind (by rw [ht]; decide) ?_
  rwa [if_pos ht]

/-- The first token to come is drawn and handed back. -/
theorem back_bind {k : Token → Procedure α} {q : Procedure α} (h : ts ++ rest = t :: us)
    (ht : t.kind ≠ .invalid) (hk : k t = Procedure.pushBack >>= fun _ => q)
    (hq : Reads rest q a ts) : Reads rest (Procedure.next >>= k) a ts := by
  intro s hl hb
  obtain ⟨hnext, hpass⟩ := hl.next_of_begins (h ▸ hb) ht
  have hpeek := hl.passes_peek (Nat.le_of_eq (congrArg Array.size hpass.diagnostics))
  have hb' : s.Begins ([] ++ (ts ++ rest)) := hb
  rw [wp_bind, wp_next, hnext, hk, wp_bind, wp_pushBack]
  refine wp_mono ?_ _ (hq _ hpeek.linked (hpeek.begins_append_iff.1 hb'))
  rintro _ s₁ ⟨rfl, hpass'⟩
  exact ⟨rfl, hpeek.trans hpass'⟩

theorem peek_bind {k : Token → Procedure α} (h : ts ++ rest = t :: us) (ht : t.kind ≠ .invalid)
    (hk : Reads rest (k t) a ts) :
    Reads rest (Procedure.next >>= fun t => Procedure.pushBack >>= fun _ => k t) a ts :=
  back_bind h ht rfl hk

/-- A part that a token would continue ends in front of one that does not. -/
theorem peek_none {γ : Type} {ks : List Kind} {f : Kind → Option γ} {k : Token → Procedure α}
    (h : Heads ks rest) (hks : ∀ j ∈ ks, j ≠ .invalid ∧ f j = none)
    (hk : ∀ t, f t.kind = none → k t = .done a) :
    Reads rest (Procedure.next >>= fun t => Procedure.pushBack >>= fun _ => k t) a [] := by
  obtain ⟨t, us, rfl, ht⟩ := h.cons
  obtain ⟨hvalid, hnone⟩ := hks _ ht
  refine peek_bind rfl hvalid ?_
  rw [hk t hnone]
  exact done a

/-- A repetition ends in front of a token that does not separate. -/
theorem stop {ks : List Kind} {k : Kind} {p : Procedure α} (h : Heads ks rest)
    (hks : ∀ j ∈ ks, j ≠ .invalid ∧ j ≠ k) :
    Reads rest (expect k >>= fun c => if c then p else Procedure.pushBack >>= fun _ => pure a) a [] := by
  obtain ⟨t, us, rfl, ht⟩ := h.cons
  obtain ⟨hvalid, hne⟩ := hks _ ht
  exact back_bind (k := fun u => if decide (u.kind = k) then p else _) rfl hvalid
    (if_neg (by simpa using hne)) (done a)

end Reads

section
variable {rest ts : List Token} {t : Token}

theorem reads_oneOf {α : Type} {n : Nonterminal} {f : Kind → Option α} {a : α}
    (h : f t.kind = some a) (ht : t.kind ≠ .invalid) : Reads rest (oneOf n f) (some a) [t] := by
  refine .next_bind ht ?_
  rw [h]
  exact .done _

theorem AddOp.ofKind?_kind (op : AddOp) : AddOp.ofKind? op.kind = some op := by cases op <;> rfl

theorem MulOp.ofKind?_kind (op : MulOp) : MulOp.ofKind? op.kind = some op := by cases op <;> rfl

theorem RelOp.ofKind?_kind (op : RelOp) : RelOp.ofKind? op.kind = some op := by cases op <;> rfl

theorem ScalarType.ofKind?_kind (type : ScalarType) : ScalarType.ofKind? type.kind = some type := by
  cases type <;> rfl

theorem Constant.kind_cases (c : Constant) :
    c.kind = .intConst ∨ c.kind = .floatConst ∨ c.kind = .charConst := by
  cases c <;> simp [Constant.kind]

theorem reads_constant {c : Constant} (h : (Terminal.constant c).SpelledBy t) :
    Reads rest constant (some c) [t] := by
  have hk : t.kind = c.kind := h.1
  refine .next_bind ?_ ?_
  · rcases c.kind_cases with hc | hc | hc <;> rw [hk, hc] <;> decide
  · rw [Constant.ofToken?_eq_some_iff.2 h]
    exact .done _

/-- The kinds of the tokens with which a name, a constant or a group begins. -/
def primaryHeads : List Kind := [.identifier, .intConst, .floatConst, .charConst, .leftParen]

theorem Primary.heads {p : Primary} (h : Spelled p.yield ts) : Heads primaryHeads (ts ++ rest) := by
  cases p with
  | name id =>
    obtain ⟨t, us, rfl, ht, -⟩ := Spelled.cons_iff.1 h
    show t.kind ∈ _
    rw [ht.1]; decide
  | constant c =>
    obtain ⟨t, us, rfl, ht, -⟩ := Spelled.cons_iff.1 h
    show t.kind ∈ _
    rcases c.kind_cases with hc | hc | hc <;> rw [ht.1, hc] <;> decide
  | group e =>
    obtain ⟨t, us, rfl, ht, -⟩ := Spelled.cons_iff.1 h
    show t.kind ∈ _
    rw [show t.kind = .leftParen from ht]; decide

theorem reads_primary {p : Primary} (hp : p.Whole) (hs : Spelled p.yield ts) :
    Reads rest primary (some p) ts := by
  cases p with
  | name id =>
    obtain ⟨t, _, rfl, ht, hnil⟩ := Spelled.cons_iff.1 hs
    obtain rfl := Spelled.nil_iff.1 hnil
    refine .next_bind (by rw [ht.1]; decide) ?_
    rw [ht.1, ← Ident.ofToken_of_spelledBy ht]
    exact .done _
  | constant c =>
    obtain ⟨t, _, rfl, ht, hnil⟩ := Spelled.cons_iff.1 hs
    obtain rfl := Spelled.nil_iff.1 hnil
    have hread : Reads rest (constant >>= fun c => pure (c.map Primary.constant))
        (some (Primary.constant c)) [t] := (reads_constant ht).bind_done
    have hk : t.kind = c.kind := ht.1
    rcases c.kind_cases with hc | hc | hc <;>
      exact .back_bind rfl (by rw [hk, hc]; decide) (by rw [hk, hc]) hread
  | group e =>
    rw [Primary.whole_group] at hp
    simp only [Primary.yield, Spelled.cons_iff, Spelled.append_iff, Spelled.nil_iff,
      Terminal.SpelledBy] at hs
    obtain ⟨t, _, rfl, ht, us, _, rfl, hus, u, _, rfl, hu, rfl⟩ := hs
    refine .next_bind (by rw [ht]; decide) ?_
    rw [ht]
    refine .bind (.read (p := .expression) hp hus ?_) (.expect_bind hu (by decide) (.done _))
    show u.kind ∈ _
    rw [hu]; decide

theorem reads_sign {sg : Sign} (hs : Spelled sg.yield ts) (hr : Heads primaryHeads rest) :
    Reads rest sign sg ts := by
  cases sg with
  | plain =>
    obtain rfl := Spelled.nil_iff.1 hs
    obtain ⟨t, us, rfl, ht⟩ := hr.cons
    have hnone : ∀ k ∈ primaryHeads, k ≠ .invalid ∧ Sign.ofKind? k = none := by decide
    obtain ⟨hvalid, hk⟩ := hnone _ ht
    exact .back_bind rfl hvalid (by rw [hk]; rfl) (.done _)
  | not | minus =>
    obtain ⟨t, _, rfl, ht, hnil⟩ := Spelled.cons_iff.1 hs
    obtain rfl := Spelled.nil_iff.1 hnil
    refine .next_bind (by rw [show t.kind = _ from ht]; decide) ?_
    rw [show t.kind = _ from ht]
    exact .done _

theorem reads_operand {o : Operand} (ho : o.Whole) (hs : Spelled o.yield ts) :
    Reads rest operand o ts := by
  cases o with
  | gap sg => exact absurd ho Operand.not_whole_gap
  | of sg p =>
    obtain ⟨us, vs, rfl, hus, hvs⟩ := Spelled.append_iff.1 hs
    exact .bind (reads_sign hus (Primary.heads hvs))
      (.bind_done (reads_primary (Operand.whole_of.1 ho) hvs))

theorem reads_termTail {t : TermTail} (ht : t.Whole) (hs : Spelled t.yield ts)
    (hr : Heads behindTerm rest) : Reads rest termTail t ts := by
  cases t with
  | nil =>
    obtain rfl := Spelled.nil_iff.1 hs
    exact .peek_none (f := MulOp.ofKind?) hr (by decide) fun t ht => by rw [ht]; rfl
  | cons op o tail =>
    obtain ⟨hop, ho, htail⟩ := TermTail.whole_cons.1 ht
    cases op with
    | none => exact hop.elim
    | some op =>
      rw [TermTail.yield, List.append_assoc] at hs
      obtain ⟨u, _, rfl, hu, hs⟩ := Spelled.op_iff.1 hs
      obtain ⟨us, vs, rfl, hus, hvs⟩ := Spelled.append_iff.1 hs
      have hk : MulOp.ofKind? u.kind = some op := by rw [hu, op.ofKind?_kind]
      have hvalid : u.kind ≠ .invalid := ne_of_ofKind? hk rfl
      refine .peek_bind rfl hvalid ?_
      rw [hk]
      exact .bind (reads_oneOf hk hvalid)
        (.bind (reads_operand ho hus) (.bind_done (.read (p := .termTail) htail hvs hr)))

theorem reads_term {t : Term} (ht : t.Whole) (hs : Spelled t.yield ts) (hr : Heads behindTerm rest) :
    Reads rest term t ts := by
  obtain ⟨o, tail⟩ := t
  obtain ⟨ho, htail⟩ := Term.whole_mk.1 ht
  obtain ⟨us, vs, rfl, hus, hvs⟩ := Spelled.append_iff.1 hs
  exact .bind (reads_operand ho hus) (.bind_done (.read (p := .termTail) htail hvs hr))

/-- What comes behind a term is an additive operator or comes behind the simple expression. -/
theorem SimpleTail.heads {t : SimpleTail} (ht : t.Whole) (hs : Spelled t.yield ts)
    (hr : Heads behindSimpleExpr rest) : Heads behindTerm (ts ++ rest) := by
  cases t with
  | nil =>
    obtain rfl := Spelled.nil_iff.1 hs
    exact hr.mono (by decide)
  | cons op x tail =>
    cases op with
    | none => exact (SimpleTail.whole_cons.1 ht).1.elim
    | some op =>
      rw [SimpleTail.yield, List.append_assoc] at hs
      obtain ⟨u, _, rfl, hu, -⟩ := Spelled.op_iff.1 hs
      show u.kind ∈ _
      rw [hu]; cases op <;> decide

theorem reads_simpleTail {t : SimpleTail} (ht : t.Whole) (hs : Spelled t.yield ts)
    (hr : Heads behindSimpleExpr rest) : Reads rest simpleTail t ts := by
  cases t with
  | nil =>
    obtain rfl := Spelled.nil_iff.1 hs
    exact .peek_none (f := AddOp.ofKind?) hr (by decide) fun t ht => by rw [ht]; rfl
  | cons op x tail =>
    obtain ⟨hop, hx, htail⟩ := SimpleTail.whole_cons.1 ht
    cases op with
    | none => exact hop.elim
    | some op =>
      rw [SimpleTail.yield, List.append_assoc] at hs
      obtain ⟨u, _, rfl, hu, hs⟩ := Spelled.op_iff.1 hs
      obtain ⟨us, vs, rfl, hus, hvs⟩ := Spelled.append_iff.1 hs
      have hk : AddOp.ofKind? u.kind = some op := by rw [hu, op.ofKind?_kind]
      have hvalid : u.kind ≠ .invalid := ne_of_ofKind? hk rfl
      refine .peek_bind rfl hvalid ?_
      rw [hk]
      exact .bind (reads_oneOf hk hvalid)
        (.bind (reads_term hx hus (SimpleTail.heads htail hvs hr))
          (.bind_done (.read (p := .simpleTail) htail hvs hr)))

theorem reads_simpleExpr {e : SimpleExpr} (he : e.Whole) (hs : Spelled e.yield ts)
    (hr : Heads behindSimpleExpr rest) : Reads rest simpleExpr e ts := by
  obtain ⟨x, tail⟩ := e
  obtain ⟨hx, htail⟩ := SimpleExpr.whole_mk.1 he
  obtain ⟨us, vs, rfl, hus, hvs⟩ := Spelled.append_iff.1 hs
  exact .bind (reads_term hx hus (SimpleTail.heads htail hvs hr))
    (.bind_done (.read (p := .simpleTail) htail hvs hr))

theorem reads_expression {e : Expr} (he : e.Whole) (hs : Spelled e.yield ts)
    (hr : Heads behindExpression rest) : Reads rest expression e ts := by
  cases e with
  | simple e =>
    rw [← List.append_nil ts]
    refine .bind (reads_simpleExpr (Expr.whole_simple.1 he) hs (hr.mono (by decide))) ?_
    exact .peek_none (f := RelOp.ofKind?) hr (by decide) fun t ht => by rw [ht]; rfl
  | compare lhs op rhs =>
    obtain ⟨hlhs, hop, hrhs⟩ := Expr.whole_compare.1 he
    cases op with
    | none => exact hop.elim
    | some op =>
      rw [Expr.yield, List.append_assoc] at hs
      obtain ⟨us, _, rfl, hus, hs⟩ := Spelled.append_iff.1 hs
      obtain ⟨u, vs, rfl, hu, hvs⟩ := Spelled.op_iff.1 hs
      have hk : RelOp.ofKind? u.kind = some op := by rw [hu, op.ofKind?_kind]
      have hvalid : u.kind ≠ .invalid := ne_of_ofKind? hk rfl
      have hbehind : u.kind ∈ behindSimpleExpr := by rw [hu]; cases op <;> decide
      refine .bind (reads_simpleExpr hlhs hus hbehind) (.peek_bind rfl hvalid ?_)
      rw [hk]
      exact .bind (reads_oneOf hk hvalid)
        (.bind_done (reads_simpleExpr hrhs hvs (hr.mono (by decide))))

end

section
variable {rest ts : List Token}

theorem reads_condition {e : Expr} (he : e.Whole) (hs : Spelled e.yield ts)
    (hr : Heads behindExpression rest) : Reads rest condition e ts :=
  .read (p := .expression) he hs hr

theorem reads_assignment {id : Ident} {e : SimpleExpr} (he : e.Whole)
    (hs : Spelled (Stmt.assign id e).yield ts) (hr : Heads behindStatement rest) :
    Reads rest assignment (some (.assign id e)) ts := by
  obtain ⟨t, _, rfl, ht, hs⟩ := Spelled.cons_iff.1 hs
  obtain ⟨u, vs, rfl, hu, hvs⟩ := Spelled.cons_iff.1 hs
  rw [← Ident.ofToken_of_spelledBy ht]
  exact .name_bind ht.1 (.expect_bind hu (by decide)
    (.bind_done (reads_simpleExpr he hvs (hr.mono (by decide)))))

theorem reads_ifThen {cond : Expr} {b : Block} (hcond : cond.Whole) (hb : b.Whole)
    (hs : Spelled (Stmt.ifThen cond b).yield ts) :
    Reads rest conditional (some (.ifThen cond b)) ts := by
  simp only [Stmt.yield, Spelled.cons_iff, Spelled.append_iff, Spelled.nil_iff,
    Terminal.SpelledBy] at hs
  obtain ⟨t, _, rfl, ht, cs, _, rfl, hcs, u, _, rfl, hu, bs, _, rfl, hbs, v, _, rfl, hv, rfl⟩ := hs
  refine .expect_bind ht (by decide) (.bind (reads_condition hcond hcs (show u.kind ∈ _ from ?_)) ?_)
  · rw [hu]; decide
  refine .expect_bind hu (by decide)
    (.bind (.read (p := .statements) hb hbs (show v.kind ∈ _ from ?_)) ?_)
  · rw [hv]; decide
  refine .next_bind (by rw [hv]; decide) ?_
  rw [hv]
  exact .done _

theorem reads_ifElse {cond : Expr} {b b' : Block} (hcond : cond.Whole) (hb : b.Whole) (hb' : b'.Whole)
    (hs : Spelled (Stmt.ifElse cond b b').yield ts) :
    Reads rest conditional (some (.ifElse cond b b')) ts := by
  simp only [Stmt.yield, Spelled.cons_iff, Spelled.append_iff, Spelled.nil_iff,
    Terminal.SpelledBy] at hs
  obtain ⟨t, _, rfl, ht, cs, _, rfl, hcs, u, _, rfl, hu, bs, _, rfl, hbs, v, _, rfl, hv,
    bs', _, rfl, hbs', w, _, rfl, hw, rfl⟩ := hs
  refine .expect_bind ht (by decide) (.bind (reads_condition hcond hcs (show u.kind ∈ _ from ?_)) ?_)
  · rw [hu]; decide
  refine .expect_bind hu (by decide)
    (.bind (.read (p := .statements) hb hbs (show v.kind ∈ _ from ?_)) ?_)
  · rw [hv]; decide
  refine .next_bind (by rw [hv]; decide) ?_
  rw [hv]
  refine .bind (.read (p := .statements) hb' hbs' (show w.kind ∈ _ from ?_)) ?_
  · rw [hw]; decide
  · exact .expect_bind hw (by decide) (.done _)

theorem reads_loopHead {e : Expr} (he : e.Whole) (hs : Spelled (headYield e) ts) :
    Reads rest loopHead (some e) ts := by
  simp only [headYield, Spelled.cons_iff, Spelled.append_iff, Spelled.nil_iff,
    Terminal.SpelledBy] at hs
  obtain ⟨t, _, rfl, ht, cs, _, rfl, hcs, u, _, rfl, hu, rfl⟩ := hs
  refine .expect_bind ht (by decide) (.bind (reads_condition he hcs (show u.kind ∈ _ from ?_)) ?_)
  · rw [hu]; decide
  · exact .expect_bind hu (by decide) (.done _)

theorem reads_whileLoop {cond : Expr} {b : Block} (hcond : cond.Whole) (hb : b.Whole)
    (hs : Spelled (Stmt.whileDo (some cond) b).yield ts) :
    Reads rest whileLoop (some (.whileDo (some cond) b)) ts := by
  rw [Stmt.yield, List.append_assoc] at hs
  obtain ⟨cs, _, rfl, hcs, hs⟩ := Spelled.append_iff.1 hs
  simp only [Spelled.cons_iff, Spelled.append_iff, Spelled.nil_iff, Terminal.SpelledBy] at hs
  obtain ⟨bs, _, rfl, hbs, v, _, rfl, hv, rfl⟩ := hs
  refine .bind (reads_loopHead hcond hcs)
    (.bind (.read (p := .statements) hb hbs (show v.kind ∈ _ from ?_)) ?_)
  · rw [hv]; decide
  · exact .expect_bind hv (by decide) (.done _)

theorem reads_loopExit {e : Expr} (he : e.Whole) (hs : Spelled (exitYield e) ts)
    (hr : Heads behindStatement rest) : Reads rest loopExit (some e) ts := by
  obtain ⟨t, _, rfl, ht, hs⟩ := Spelled.cons_iff.1 hs
  exact .expect_bind ht (by decide) (.bind_done (reads_condition he hs (hr.mono (by decide))))

theorem reads_repeatLoop {b : Block} {cond : Expr} (hb : b.Whole) (hcond : cond.Whole)
    (hs : Spelled (Stmt.repeatUntil b (some cond)).yield ts) (hr : Heads behindStatement rest) :
    Reads rest repeatLoop (some (.repeatUntil b (some cond))) ts := by
  obtain ⟨t, _, rfl, ht, hs⟩ := Spelled.cons_iff.1 hs
  obtain ⟨bs, cs, rfl, hbs, hcs⟩ := Spelled.append_iff.1 hs
  refine .expect_bind ht (by decide) (.bind (.read (p := .statements) hb hbs ?_)
    (.bind_done (reads_loopExit hcond hcs hr)))
  obtain ⟨u, _, rfl, hu, -⟩ := Spelled.cons_iff.1 hcs
  show u.kind ∈ _
  rw [show u.kind = .untilKw from hu]; decide

theorem Reads.opening_bind {α : Type} {word : Kind} {t u : Token} {p q : Procedure α} {a : α}
    (ht : t.kind = word) (hword : word ≠ .invalid) (hu : u.kind = .leftParen)
    (hp : Reads rest p a ts) :
    Reads rest (opening word >>= fun c => if c then p else q) a (t :: u :: ts) := by
  rw [opening, bind_assoc]
  refine .next_bind (ht ▸ hword) ?_
  rw [decide_eq_true ht]
  exact .expect_bind hu (by decide) hp

theorem reads_reading {id : Ident} (hs : Spelled (Stmt.read id).yield ts) :
    Reads rest reading (some (.read id)) ts := by
  simp only [Stmt.yield, Spelled.cons_iff, Spelled.nil_iff] at hs
  obtain ⟨t, _, rfl, ht, u, _, rfl, hu, v, _, rfl, hv, w, _, rfl, hw, rfl⟩ := hs
  rw [← Ident.ofToken_of_spelledBy hv]
  exact .opening_bind ht (by decide) hu (.name_bind hv.1 (.expect_bind hw (by decide) (.done _)))

/-- The kinds of the tokens with which a simple expression begins. -/
def simpleExprHeads : List Kind := [.notKw, .minus] ++ primaryHeads

theorem SimpleExpr.heads {e : SimpleExpr} (he : e.Whole) (hs : Spelled e.yield ts) :
    Heads simpleExprHeads (ts ++ rest) := by
  obtain ⟨⟨o, tail⟩, tail'⟩ := e
  obtain ⟨ho, -⟩ := Term.whole_mk.1 (SimpleExpr.whole_mk.1 he).1
  cases o with
  | gap sg => exact absurd ho Operand.not_whole_gap
  | of sg p =>
    simp only [SimpleExpr.yield, Term.yield, Operand.yield, List.append_assoc] at hs
    cases sg with
    | plain =>
      have hs : Spelled (p.yield ++ (tail.yield ++ tail'.yield)) ts := hs
      obtain ⟨us, vs, rfl, hus, -⟩ := Spelled.append_iff.1 hs
      rw [List.append_assoc]
      exact (Primary.heads hus).mono (by decide)
    | not | minus =>
      obtain ⟨t, _, rfl, ht, -⟩ := Spelled.cons_iff.1 hs
      show t.kind ∈ _
      rw [show t.kind = _ from ht]; decide

theorem reads_writable {w : Writable} (hw : w.Whole) (hs : Spelled w.yield ts)
    (hr : Heads behindSimpleExpr rest) : Reads rest writable (some w) ts := by
  cases w with
  | string text =>
    obtain ⟨t, _, rfl, ht, hnil⟩ := Spelled.cons_iff.1 hs
    obtain rfl := Spelled.nil_iff.1 hnil
    refine .next_bind (by rw [ht.1]; decide) ?_
    rw [ht.1, ← stringOf_of_spelledBy ht]
    exact .done _
  | value e =>
    rw [Writable.whole_value] at hw
    have hread : Reads rest (simpleExpr >>= fun e => pure (some (Writable.value e)))
        (some (.value e)) ts := .bind_done (reads_simpleExpr hw hs hr)
    have hheads : Heads simpleExprHeads (ts ++ rest) := SimpleExpr.heads hw hs
    obtain ⟨t, us, hcons, ht⟩ := hheads.cons
    simp only [simpleExprHeads, primaryHeads, List.cons_append, List.nil_append, List.mem_cons,
      List.not_mem_nil, or_false] at ht
    rcases ht with ht | ht | ht | ht | ht | ht | ht <;>
      exact .back_bind hcons (by rw [ht]; decide) (by rw [ht]) hread

theorem reads_writing {w : Writable} (hw : w.Whole) (hs : Spelled (Stmt.write (some w)).yield ts) :
    Reads rest writing (some (.write (some w))) ts := by
  simp only [Stmt.yield, yieldOrGap, Spelled.cons_iff, Spelled.append_iff, Spelled.nil_iff,
    Terminal.SpelledBy] at hs
  obtain ⟨t, _, rfl, ht, u, _, rfl, hu, ws, _, rfl, hws, v, _, rfl, hv, rfl⟩ := hs
  refine .opening_bind ht (by decide) hu
    (.bind (reads_writable hw hws (show v.kind ∈ _ from ?_)) (.expect_bind hv (by decide) (.done _)))
  rw [hv]; decide

/-- The kind of the token with which a statement begins. -/
def Stmt.headKind : Stmt → Kind
  | .assign .. => .identifier
  | .read .. => .readKw
  | .write .. => .writeKw
  | .ifThen .. | .ifElse .. => .ifKw
  | .whileDo .. => .whileKw
  | .repeatUntil .. => .repeatKw

theorem Stmt.heads {s : Stmt} (hs : s.Whole) (hts : Spelled s.yield ts) :
    ∃ t us, ts = t :: us ∧ t.kind = s.headKind := by
  cases s with
  | assign id e =>
    obtain ⟨t, us, rfl, ht, -⟩ := Spelled.cons_iff.1 hts
    exact ⟨t, us, rfl, ht.1⟩
  | read | write | ifThen | ifElse | repeatUntil =>
    obtain ⟨t, us, rfl, ht, -⟩ := Spelled.cons_iff.1 hts
    exact ⟨t, us, rfl, ht⟩
  | whileDo cond b =>
    cases cond with
    | none => exact (Stmt.whole_whileDo.1 hs).1.elim
    | some cond =>
      rw [Stmt.yield, List.append_assoc] at hts
      obtain ⟨t, us, rfl, ht, -⟩ := Spelled.cons_iff.1 hts
      exact ⟨t, us, rfl, ht⟩

/-- The first token decides which form of a statement is read. -/
theorem reads_statement {s : Stmt} (hs : s.Whole) (hts : Spelled s.yield ts)
    (hr : Heads behindStatement rest) : Reads rest statement (some s) ts := by
  obtain ⟨t, us, rfl, ht⟩ := Stmt.heads hs hts
  have hvalid : t.kind ≠ .invalid := by rw [ht]; cases s <;> simp [Stmt.headKind]
  refine .peek_bind rfl hvalid ?_
  rw [ht]
  cases s with
  | assign => exact reads_assignment (Stmt.whole_assign.1 hs) hts hr
  | read => exact reads_reading hts
  | write =>
    obtain ⟨w, rfl, hw⟩ := present_iff.1 (Stmt.whole_write.1 hs)
    exact reads_writing hw hts
  | ifThen =>
    obtain ⟨hcond, hb⟩ := Stmt.whole_ifThen.1 hs
    exact reads_ifThen hcond hb hts
  | ifElse =>
    obtain ⟨hcond, hb, hb'⟩ := Stmt.whole_ifElse.1 hs
    exact reads_ifElse hcond hb hb' hts
  | whileDo =>
    obtain ⟨hcond, hb⟩ := Stmt.whole_whileDo.1 hs
    obtain ⟨cond, rfl, hcond⟩ := present_iff.1 hcond
    exact reads_whileLoop hcond hb hts
  | repeatUntil =>
    obtain ⟨hb, hcond⟩ := Stmt.whole_repeatUntil.1 hs
    obtain ⟨cond, rfl, hcond⟩ := present_iff.1 hcond
    exact reads_repeatLoop hb hcond hts hr

/-- What comes behind a statement is a semicolon or comes behind the block. -/
theorem Block.heads {b : Block} (hb : b.MoreWhole) (hs : Spelled b.moreYield ts)
    (hr : Heads behindBlock rest) : Heads behindStatement (ts ++ rest) := by
  cases b with
  | nil =>
    obtain rfl := Spelled.nil_iff.1 hs
    exact hr.mono (by decide)
  | stmt s b =>
    obtain ⟨t, _, rfl, ht, -⟩ := Spelled.cons_iff.1 hs
    show t.kind ∈ _
    rw [show t.kind = .semicolon from ht]; decide
  | gap b => exact absurd hb Block.not_moreWhole_gap

theorem reads_moreStatements {b : Block} (hb : b.MoreWhole) (hs : Spelled b.moreYield ts)
    (hr : Heads behindBlock rest) : Reads rest moreStatements b ts := by
  cases b with
  | nil =>
    obtain rfl := Spelled.nil_iff.1 hs
    exact .stop hr (by decide)
  | stmt s b =>
    obtain ⟨hs', hb'⟩ := Block.moreWhole_stmt.1 hb
    obtain ⟨t, _, rfl, ht, hs⟩ := Spelled.cons_iff.1 hs
    obtain ⟨us, vs, rfl, hus, hvs⟩ := Spelled.append_iff.1 hs
    exact .expect_bind ht (by decide) (.bind (reads_statement hs' hus (Block.heads hb' hvs hr))
      (.bind_done (.read (p := .moreStatements) hb' hvs hr)))
  | gap b => exact absurd hb Block.not_moreWhole_gap

theorem reads_statements {b : Block} (hb : b.Whole) (hs : Spelled b.yield ts)
    (hr : Heads behindBlock rest) : Reads rest statements b ts := by
  cases b with
  | nil => exact absurd hb Block.not_whole_nil
  | stmt s b =>
    obtain ⟨hs', hb'⟩ := Block.whole_stmt.1 hb
    obtain ⟨us, vs, rfl, hus, hvs⟩ := Spelled.append_iff.1 hs
    exact .bind (reads_statement hs' hus (Block.heads hb' hvs hr))
      (.bind_done (.read (p := .moreStatements) hb' hvs hr))
  | gap b => exact absurd hb Block.not_whole_gap

end

section
variable {rest ts : List Token}

theorem reads_moreNames {ids : List Ident} (hs : Spelled (moreNamesYield ids) ts)
    (hr : Heads [.semicolon, .eof] rest) : Reads rest moreNames (some ids) ts := by
  cases ids with
  | nil =>
    obtain rfl := Spelled.nil_iff.1 hs
    exact .stop hr (by decide)
  | cons id ids =>
    obtain ⟨t, _, rfl, ht, hs⟩ := Spelled.cons_iff.1 hs
    obtain ⟨u, us, rfl, hu, hus⟩ := Spelled.cons_iff.1 hs
    rw [← Ident.ofToken_of_spelledBy hu]
    exact .expect_bind ht (by decide) (.name_bind hu.1
      (.bind_done (.read (p := .moreNames) (x := some ids) trivial hus hr)))

theorem reads_names {ids : List Ident} (hids : ids ≠ []) (hs : Spelled (namesYield ids) ts)
    (hr : Heads [.semicolon, .eof] rest) : Reads rest names (some ids) ts := by
  cases ids with
  | nil => exact absurd rfl hids
  | cons id ids =>
    obtain ⟨u, us, rfl, hu, hus⟩ := Spelled.cons_iff.1 hs
    rw [← Ident.ofToken_of_spelledBy hu]
    exact .name_bind hu.1 (.bind_done (.read (p := .moreNames) (x := some ids) trivial hus hr))

theorem reads_declaration {d : Decl} (hd : d.Whole) (hs : Spelled d.yield ts)
    (hr : Heads [.semicolon, .eof] rest) : Reads rest declaration d ts := by
  obtain ⟨type, ids⟩ := d
  obtain ⟨htype, hids⟩ := Decl.whole_mk.1 hd
  cases type with
  | none => exact htype.elim
  | some type =>
    cases ids with
    | none => exact hids.elim
    | some ids =>
      obtain ⟨t, us, rfl, ht, hus⟩ := Spelled.op_iff.1 hs
      have hk : ScalarType.ofKind? t.kind = some type := by rw [ht, type.ofKind?_kind]
      exact .bind (reads_oneOf hk (ne_of_ofKind? hk rfl))
        (.bind_done (reads_names hids hus hr))

theorem reads_declarationAndMore {d : Decl} {ds : List Decl} (hds : ∀ e ∈ d :: ds, e.Whole)
    (hs : Spelled (declsYield (d :: ds)) ts) (hr : Heads [.beginKw, .eof] rest) :
    Reads rest declarationAndMore (some (d :: ds)) ts := by
  obtain ⟨hd, hds⟩ := List.forall_mem_cons.1 hds
  simp only [declsYield_cons, Spelled.append_iff, Spelled.cons_iff, Terminal.SpelledBy] at hs
  obtain ⟨us, _, rfl, hus, u, vs, rfl, hu, hvs⟩ := hs
  refine .bind (reads_declaration hd hus (show u.kind ∈ _ from ?_)) ?_
  · rw [hu]; decide
  · exact .expect_bind hu (by decide)
      (.bind_done (.read (p := .moreDeclarations) (x := some ds) hds hvs hr))

theorem reads_moreDeclarations {ds : List Decl} (hds : ∀ d ∈ ds, d.Whole)
    (hs : Spelled (declsYield ds) ts) (hr : Heads [.beginKw, .eof] rest) :
    Reads rest moreDeclarations (some ds) ts := by
  cases ds with
  | nil =>
    obtain rfl := Spelled.nil_iff.1 hs
    exact .peek_none (f := ScalarType.ofKind?) hr (by decide) fun t ht => by rw [ht]; rfl
  | cons d ds =>
    have hread := reads_declarationAndMore hds hs hr
    obtain ⟨type, ids⟩ := d
    obtain ⟨htype, -⟩ := Decl.whole_mk.1 (hds _ (List.mem_cons_self ..))
    cases type with
    | none => exact htype.elim
    | some type =>
      rw [declsYield_cons, Decl.yield, List.append_assoc] at hs
      obtain ⟨t, us, rfl, ht, -⟩ := Spelled.op_iff.1 hs
      have hk : ScalarType.ofKind? t.kind = some type := by rw [ht, type.ofKind?_kind]
      refine .peek_bind rfl (ne_of_ofKind? hk rfl) ?_
      rw [hk]
      exact hread

theorem reads_declarations {ds : List Decl} (hne : ds ≠ []) (hds : ∀ d ∈ ds, d.Whole)
    (hs : Spelled (.fixed .declareKw :: declsYield ds) ts) (hr : Heads [.beginKw, .eof] rest) :
    Reads rest declarations (some ds) ts := by
  cases ds with
  | nil => exact absurd rfl hne
  | cons d ds =>
    obtain ⟨t, us, rfl, ht, hus⟩ := Spelled.cons_iff.1 hs
    exact .expect_bind ht (by decide) (reads_declarationAndMore hds hus hr)

theorem reads_declSection {ds : DeclSection} (hds : ds.Whole) (hs : Spelled ds.yield ts)
    (hr : Heads [.beginKw] rest) : Reads rest declSection ds ts := by
  cases ds with
  | omitted =>
    obtain rfl := Spelled.nil_iff.1 hs
    obtain ⟨t, us, rfl, ht⟩ := hr.cons
    have hk : t.kind = .beginKw := List.mem_singleton.1 ht
    refine .peek_bind rfl (by rw [hk]; decide) ?_
    rw [hk]
    exact .done _
  | gap => exact absurd hds DeclSection.not_whole_gap
  | listed ds =>
    obtain ⟨hne, hds⟩ := DeclSection.whole_listed.1 hds
    have hr' : Heads [.beginKw, .eof] rest := hr.mono (by decide)
    have hread := reads_declarations hne hds hs hr'
    obtain ⟨t, us, rfl, ht, -⟩ := Spelled.cons_iff.1 hs
    have hk : t.kind = .declareKw := ht
    refine .peek_bind rfl (by rw [hk]; decide) ?_
    rw [hk, ← List.append_nil (t :: us)]
    exact .bind hread (.done _)

theorem reads_body {b : Body} (hb : b.Whole) (hs : Spelled b.yield ts) :
    Reads rest body (some b) ts := by
  obtain ⟨ds, block⟩ := b
  obtain ⟨hds, hblock⟩ := Body.whole_mk.1 hb
  simp only [Body.yield, Spelled.cons_iff, Spelled.append_iff, Spelled.nil_iff,
    Terminal.SpelledBy] at hs
  obtain ⟨us, _, rfl, hus, t, _, rfl, ht, bs, _, rfl, hbs, u, _, rfl, hu, rfl⟩ := hs
  refine .bind (reads_declSection hds hus (show t.kind ∈ _ from ?_)) ?_
  · rw [ht]; decide
  refine .expect_bind ht (by decide) (.bind
    (.read (p := .statements) hblock hbs (show u.kind ∈ _ from ?_)) ?_)
  · rw [hu]; decide
  · exact .expect_bind hu (by decide) (.done _)

theorem reads_program {p : Program} (hp : p.Whole) (hs : Spelled p.yield ts)
    (hr : Heads [.eof] rest) : Reads rest program (some p) ts := by
  obtain ⟨b⟩ := p
  rw [Program.whole_mk] at hp
  cases b with
  | none => exact hp.elim
  | some b =>
    obtain ⟨t, us, rfl, ht, hus⟩ := Spelled.cons_iff.1 hs
    obtain ⟨u, vs, rfl, hu⟩ := hr.cons
    have hk : u.kind = .eof := List.mem_singleton.1 hu
    rw [← List.append_nil us]
    refine .expect_bind ht (by decide) (.bind (reads_body hp hus) ?_)
    refine .peek_bind rfl (by rw [hk]; decide) ?_
    rw [hk]
    exact .done _

end

/-! ### Parts and phrases -/

section
variable {rest ts : List Token}

theorem Reads.of_present {α : Type} {P : α → Prop} {yield : α → List Terminal} {o : Option α}
    {q : Procedure (Option α)} (ho : Present P o) (hs : Spelled (yieldOrGap yield o) ts)
    (h : ∀ a, P a → Spelled (yield a) ts → Reads rest q (some a) ts) : Reads rest q o ts := by
  cases o with
  | none => exact ho.elim
  | some a => exact h a ho hs

theorem reads_op {α : Type} {n : Nonterminal} {f : Kind → Option α} {kind : α → Kind} {o : Option α}
    (ho : Present (fun _ => True) o) (hs : Spelled (opYield kind o) ts)
    (hkind : ∀ a, f (kind a) = some a) (hf : f .invalid = none) : Reads rest (oneOf n f) o ts := by
  refine .of_present ho hs fun a _ hs => ?_
  obtain ⟨t, _, rfl, ht, hnil⟩ := Spelled.cons_iff.1 hs
  obtain rfl := Spelled.nil_iff.1 hnil
  have hk : f t.kind = some a := by rw [show t.kind = kind a from ht, hkind]
  exact reads_oneOf hk (ne_of_ofKind? hk hf)

theorem reads_phrase {p : Phrase} {x : p.Result} (hx : p.Whole x) (hs : Spelled (p.yield x) ts)
    (hr : Heads p.followKinds rest) : Reads rest p.procedure x ts := by
  cases p with
  | expression => exact reads_expression hx hs hr
  | simpleTail => exact reads_simpleTail hx hs hr
  | termTail => exact reads_termTail hx hs hr
  | statements => exact reads_statements hx hs hr
  | moreStatements => exact reads_moreStatements hx hs hr
  | moreNames => exact .of_present hx hs fun ids _ hs => reads_moreNames hs hr
  | moreDeclarations => exact .of_present hx hs fun ds hds hs => reads_moreDeclarations hds hs hr

theorem reads_procedure {n : Nonterminal} {t : n.Result} (ht : n.Whole t) (hs : Spelled (n.yield t) ts)
    (hr : Heads n.followKinds rest) : Reads rest n.procedure t ts := by
  cases n with
  | program => exact .of_present ht hs fun p hp hs => reads_program hp hs hr
  | body => exact .of_present ht hs fun b hb hs => reads_body hb hs
  | declarations => exact .of_present ht hs fun ds hds hs => reads_declarations hds.1 hds.2 hs hr
  | declaration => exact reads_declaration ht hs hr
  | scalarType => exact reads_op ht hs ScalarType.ofKind?_kind rfl
  | names => exact .of_present ht hs fun ids hids hs => reads_names hids hs hr
  | statements => exact reads_statements ht hs hr
  | statement => exact .of_present ht hs fun s hs' hs => reads_statement hs' hs hr
  | assignment =>
    obtain ⟨id, e, rfl, he⟩ := ht
    exact reads_assignment he hs hr
  | conditional =>
    obtain ⟨cond, b, rfl, hcond, hb⟩ | ⟨cond, b, b', rfl, hcond, hb, hb'⟩ := ht
    · exact reads_ifThen hcond hb hs
    · exact reads_ifElse hcond hb hb' hs
  | whileLoop =>
    obtain ⟨cond, b, rfl, hcond, hb⟩ := ht
    exact reads_whileLoop hcond hb hs
  | repeatLoop =>
    obtain ⟨b, cond, rfl, hb, hcond⟩ := ht
    exact reads_repeatLoop hb hcond hs hr
  | reading =>
    obtain ⟨id, rfl⟩ := ht
    exact reads_reading hs
  | writing =>
    obtain ⟨w, rfl, hw⟩ := ht
    exact reads_writing hw hs
  | writable => exact .of_present ht hs fun w hw hs => reads_writable hw hs (hr.mono (by decide))
  | loopHead => exact .of_present ht hs fun e he hs => reads_loopHead he hs
  | loopExit => exact .of_present ht hs fun e he hs => reads_loopExit he hs hr
  | condition => exact reads_condition ht hs (hr.mono (by decide))
  | expression => exact reads_expression ht hs hr
  | simpleExpr => exact reads_simpleExpr ht hs hr
  | simpleTail => exact reads_simpleTail ht hs hr
  | term => exact reads_term ht hs hr
  | termTail => exact reads_termTail ht hs hr
  | operand => exact reads_operand ht hs
  | primary => exact .of_present ht hs fun p hp hs => reads_primary hp hs
  | constant =>
    refine .of_present ht hs fun c _ hs => ?_
    obtain ⟨t, _, rfl, ht, hnil⟩ := Spelled.cons_iff.1 hs
    obtain rfl := Spelled.nil_iff.1 hnil
    exact reads_constant ht
  | addOp => exact reads_op ht hs AddOp.ofKind?_kind rfl
  | mulOp => exact reads_op ht hs MulOp.ofKind?_kind rfl
  | relOp => exact reads_op ht hs RelOp.ofKind?_kind rfl

end

theorem completing_phrase (p : Phrase) (s : Cursor) :
    p.procedure.wp completing (completing.post p s) s := by
  refine wp_forall (fun _ _ => trivial) _ fun t => ?_
  refine wp_forall (fun _ _ => trivial) _ fun ts => ?_
  refine wp_forall (fun _ _ => trivial) _ fun rest => ?_
  refine wp_forall (fun _ _ => trivial) _ fun ht => ?_
  refine wp_forall (fun _ _ => trivial) _ fun hs => ?_
  refine wp_forall (fun _ _ => trivial) _ fun hr => ?_
  refine wp_forall (fun _ _ => trivial) _ fun hl => ?_
  exact wp_forall (fun _ _ => trivial) _ fun hb => reads_phrase ht hs hr s hl hb

theorem Nonterminal.parse_of_whole {n : Nonterminal} {t : n.Result} {s : Cursor} {ts rest : List Token}
    (ht : n.Whole t) (hs : Spelled (n.yield t) ts) (hr : Heads n.followKinds rest) (hl : s.Linked)
    (hb : s.Begins (ts ++ rest)) : (n.parse s).1 = t ∧ s.Passes ts (n.parse s).2 :=
  n.post_parse (fun p s _ => completing_phrase p s) (reads_procedure ht hs hr s hl hb)

/-- Every tree in which nothing is missing is read from the tokens it spells, wherever they come and
whatever may come behind them; what comes behind them is next. So is every program. -/
theorem parse_spelled_eq :
    (∀ (n : Nonterminal) (t : n.Result) (s : Cursor) (ts : List Token) (r : Token), s.Reachable →
      n.gaps t = 0 → n.isRegular t = true → n.hasForm t = true → Spelled (n.yield t) ts →
      n.follow.contains r.kind = true → s.Begins (ts ++ [r]) →
        (n.parse s).1 = t ∧ (n.parse s).2.diagnostics = s.diagnostics ∧
          (n.parse s).2.next.1 = r ∧ (n.parse s).2.next.2.diagnostics = s.diagnostics ∧
          (n.parse s).2.consumed = s.consumed ++ ts ∧
          ∀ i, (n.parse s).2.upcoming i = s.upcoming (ts.length + i)) ∧
      ∀ (p : Program) (ts : List Token), p.gaps = 0 → p.isRegular = true → Spelled p.yield ts →
        (parse (.ofTokens ts)).program = some p ∧ (parse (.ofTokens ts)).diagnostics = [] := by
  constructor
  · intro n t s ts r hreach hgaps hregular hform hs hr hb
    have hkind : Heads n.followKinds [r] := KindSet.contains_ofList.1 hr
    have hvalid : r.kind ≠ .invalid := by
      rintro heq
      rw [Heads, heq] at hkind
      revert hkind
      cases n <;> decide
    obtain ⟨heq, hpass⟩ := Nonterminal.parse_of_whole ((n.whole_iff t).2 ⟨hgaps, hregular, hform⟩) hs
      hkind hreach.linked hb
    obtain ⟨hnext, hpass'⟩ := hpass.linked.next_of_begins (hpass.begins_append_iff.1 hb) hvalid
    exact ⟨heq, hpass.diagnostics, hnext, (hpass.trans hpass').diagnostics, hpass.consumed,
      hpass.upcoming⟩
  · intro p ts hgaps hregular hs
    obtain ⟨t, ht, htake⟩ := Feed.take_ofTokens ts
    have hb := begins_take (.ofTokens ts) (ts.length + 1)
    rw [htake] at hb
    have hkind : Heads (Nonterminal.followKinds .program) [t] := by rw [Heads, ht]; decide
    obtain ⟨heq, hpass⟩ := Nonterminal.parse_of_whole (n := .program) (t := some p)
      ⟨hgaps, hregular⟩ hs hkind (linked_ofFeed rfl) hb
    exact ⟨heq, congrArg Array.toList hpass.diagnostics⟩

theorem parse_less_then_program :
    (Nonterminal.expression.parse (.ofFeed (.ofTokens [⟨.identifier, ⟨1, 1⟩, some (.name "x")⟩,
        ⟨.less, ⟨1, 2⟩, none⟩, ⟨.intConst, ⟨1, 3⟩, some (.int 1)⟩, ⟨.rightParen, ⟨1, 4⟩, none⟩]))).1 =
      .compare (.mk (.mk (.of .plain (.name ⟨"x", ⟨1, 1⟩⟩)) .nil) .nil) (some .less)
        (.mk (.mk (.of .plain (.constant (.int 1))) .nil) .nil) ∧
      (parse (.ofTokens [⟨.routineKw, ⟨1, 1⟩, none⟩, ⟨.beginKw, ⟨1, 9⟩, none⟩, ⟨.readKw, ⟨1, 15⟩, none⟩,
        ⟨.leftParen, ⟨1, 20⟩, none⟩, ⟨.identifier, ⟨1, 21⟩, some (.name "x")⟩,
        ⟨.rightParen, ⟨1, 22⟩, none⟩, ⟨.endKw, ⟨1, 24⟩, none⟩])).program =
      some ⟨some ⟨.omitted, .stmt (.read ⟨"x", ⟨1, 21⟩⟩) .nil⟩⟩ := by
  constructor
  · have hb := begins_take (.ofTokens [⟨.identifier, ⟨1, 1⟩, some (.name "x")⟩, ⟨.less, ⟨1, 2⟩, none⟩,
      ⟨.intConst, ⟨1, 3⟩, some (.int 1)⟩, ⟨.rightParen, ⟨1, 4⟩, none⟩]) 4
    exact (parse_spelled_eq.1 .expression _ _ [⟨.identifier, ⟨1, 1⟩, some (.name "x")⟩,
      ⟨.less, ⟨1, 2⟩, none⟩, ⟨.intConst, ⟨1, 3⟩, some (.int 1)⟩] ⟨.rightParen, ⟨1, 4⟩, none⟩
      ⟨_, [], rfl, rfl⟩ rfl rfl rfl (by decide) (by decide) hb).1
  · exact (parse_spelled_eq.2 _ _ rfl rfl (by decide)).1

end Routine
