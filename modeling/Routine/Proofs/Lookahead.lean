import Routine.Proofs.Draining

/-!
# What is next behind a part

Whatever the input, the kind of the token that is next behind a part is bounded by the tree of the
part. A part that is missing leaves a token of its follow set, since the last thing done for it was a
recovery. A part that a token could continue leaves one that would not continue it. `Leaves` says
either of a procedure; what is done before its last step is of no account (`Leaves.bind`).
-/

namespace Routine

open Cursor Procedure Production

/-- The tree of the part is missing as a whole. -/
def Nonterminal.isMissing : (n : Nonterminal) → n.Result → Bool
  | program, t => t.isNone
  | body, t => t.isNone
  | declarations, t => t.isNone
  | scalarType, t => t.isNone
  | names, t => t.isNone
  | statement, t | assignment, t | conditional, t | whileLoop, t | repeatLoop, t | reading, t
  | writing, t => t.isNone
  | writable, t => t.isNone
  | loopHead, t | loopExit, t => t.isNone
  | primary, t => t.isNone
  | constant, t => t.isNone
  | addOp, t => t.isNone
  | mulOp, t => t.isNone
  | relOp, t => t.isNone
  | declaration, _ | statements, _ | condition, _ | expression, _ | simpleExpr, _ | simpleTail, _
  | term, _ | termTail, _ | operand, _ => false

/-- No operator between operands is of the kind. -/
def Kind.Parts (k : Kind) : Prop := AddOp.ofKind? k = none ∧ MulOp.ofKind? k = none

/-- A token of the kind does not continue the expression. -/
def Expr.EndsAt (e : Expr) (k : Kind) : Prop :=
  k.Parts ∧ ∀ lhs, e = .simple lhs → RelOp.ofKind? k = none

/-- A token of the kind does not continue the names, and may come behind them if they are missing. -/
def NamesEndAt (ids : Option (List Ident)) (k : Kind) : Prop :=
  k ≠ .comma ∧ (ids = none → Nonterminal.names.follow.contains k = true)

/-- A token of the kind does not continue the declarations, and may come behind them if they are
missing. -/
def DeclarationsEndAt (ds : Option (List Decl)) (k : Kind) : Prop :=
  ScalarType.ofKind? k = none ∧ (ds = none → Nonterminal.declarations.follow.contains k = true)

/-- What is known of the kind `k` of the token behind a phrase, `j` being that of the token in front of
it. A tail of terms looks for additive operators only, so it has to begin behind a whole term. -/
def Phrase.EndsAt (j : Kind) : (p : Phrase) → p.Result → Kind → Prop
  | .expression, e, k => e.EndsAt k
  | .simpleTail, _, k => MulOp.ofKind? j = none → k.Parts
  | .termTail, _, k => MulOp.ofKind? k = none
  | .statements, _, k | .moreStatements, _, k => k ≠ .semicolon
  | .moreNames, ids, k => NamesEndAt ids k
  | .moreDeclarations, ds, k => DeclarationsEndAt ds k

/-- Each phrase ends at a token that does not continue it. -/
def lookahead : Contract where
  pre _ _ := True
  post p s x s' := p.EndsAt s.next.1.kind x s'.next.1.kind

/-- The procedure leaves a token of a kind that its result goes with. -/
def Leaves {α : Type} (P : α → Kind → Prop) (q : Procedure α) : Prop :=
  ∀ s, q.wp lookahead (fun x s' => P x s'.next.1.kind) s

/-- If the procedure comes to nothing, it leaves a token of the follow set. -/
def Fallback {α : Type} (n : Nonterminal) (q : Procedure (Option α)) : Prop :=
  Leaves (fun x k => x = none → n.follow.contains k = true) q

/-- Behind a recovery there is a token of the follow set, the end included. -/
theorem Cursor.contains_follow_synchronize (n : Nonterminal) (s : Cursor) :
    n.follow.contains (s.synchronize n.follow).next.1.kind = true := by
  obtain ⟨u, hu, hstop⟩ := slot_synchronize n.follow s
  rw [(next_pending hu).1]
  rcases hstop with hstop | hend
  · exact hstop
  · rw [hend]
    exact KindSet.contains_ofList.2 n.eof_mem_followKinds

namespace Leaves
variable {α β : Type} {P Q : α → Kind → Prop} {R : β → Kind → Prop} {n : Nonterminal}

theorem wp_any (q : Procedure α) (s : Cursor) : q.wp lookahead (fun _ _ => True) s := by
  induction q generalizing s with
  | done a => trivial
  | act a k ih => exact ih _ _
  | call p k ih => exact ⟨trivial, fun x s' _ => ih x s'⟩

theorem mono {q : Procedure α} (hq : Leaves Q q) (h : ∀ a k, Q a k → P a k) : Leaves P q := by
  intro s
  exact wp_mono (fun a s' ha => h a _ ha) q (hq s)

/-- Only the last step counts. -/
theorem bind {p : Procedure β} {k : β → Procedure α} (hk : ∀ b, Leaves P (k b)) :
    Leaves P (p >>= k) := by
  intro s
  rw [wp_bind]
  exact wp_mono (fun b s' _ => hk b s') p (wp_any p s)

/-- A result that is only handed on. -/
theorem map {p : Procedure β} {f : β → α} (hp : Leaves R p) (h : ∀ b k, R b k → P (f b) k) :
    Leaves P (p >>= fun b => pure (f b)) := by
  intro s
  rw [wp_bind]
  exact wp_mono (fun b s' hb => h b _ hb) p (hp s)

theorem ite {c : Prop} [Decidable c] {p q : Procedure α} (hp : Leaves P p) (hq : Leaves P q) :
    Leaves P (if c then p else q) := by
  split
  · exact hp
  · exact hq

theorem fail {P : Option α → Kind → Prop} (h : ∀ k, n.follow.contains k = true → P none k) :
    Leaves P (Procedure.fail n) := by
  intro s
  rw [wp_fail]
  exact h _ (contains_follow_synchronize n _)

/-- A part that has been found. -/
theorem found (a : α) :
    Leaves (fun x k => x = none → n.follow.contains k = true) (.done (some a)) := by
  intro s hnone
  cases hnone

/-- A part that is missing. -/
theorem missing :
    Leaves (fun x k => x = none → n.follow.contains k = true) (Procedure.fail n : Procedure (Option α)) :=
  fail fun _ h _ => h

/-- A part ends in front of a token that does not continue it. -/
theorem peek_bind {γ : Type} {f : Kind → Option γ} {k : Token → Procedure α} {a : α}
    (hstop : ∀ t, f t.kind = none → k t = pure a ∧ P a t.kind)
    (hk : ∀ t c, f t.kind = some c → Leaves P (k t)) :
    Leaves P (Procedure.next >>= fun t => Procedure.pushBack >>= fun _ => k t) := by
  intro s
  simp only [wp_bind, wp_next, wp_pushBack]
  cases hf : f s.next.1.kind with
  | some c => exact hk _ c hf _
  | none =>
    obtain ⟨hdone, hend⟩ := hstop _ hf
    rw [hdone, pure_eq, wp_done, next_pushBack_next]
    exact hend

/-- A repetition ends in front of a token that does not separate. -/
theorem expect_bind {j : Kind} {p : Procedure α} {a : α} (hp : Leaves P p)
    (hstop : ∀ k, k ≠ j → P a k) :
    Leaves P (expect j >>= fun b => if b then p else Procedure.pushBack >>= fun _ => pure a) := by
  intro s
  rw [wp_bind, wp_expect]
  split
  · exact hp _
  · next hne =>
    rw [wp_bind, wp_pushBack, pure_eq, wp_done, next_pushBack_next]
    exact hstop _ (by simpa using hne)

end Leaves

theorem fallback_oneOf {α : Type} (n : Nonterminal) (f : Kind → Option α) :
    Fallback n (oneOf n f) := by
  refine .bind fun t => ?_
  split
  · exact .found _
  · exact .missing

theorem fallback_constant : Fallback .constant constant := by
  refine .bind fun t => ?_
  split
  · exact .found _
  · exact .missing

/-- A constant may be followed by what a primary may be followed by. -/
theorem fallback_primary : Fallback .primary primary := by
  refine .bind fun t => ?_
  split
  · exact .found _
  iterate 3
    refine .bind fun _ => .map fallback_constant fun c k hc hnone => ?_
    exact hc (Option.map_eq_none_iff.1 hnone)
  · exact .bind fun _ => .bind fun _ => .ite (.found _) (.bind fun _ => .found _)
  · exact .missing

theorem leaves_read_termTail {α : Type} {f : TermTail → α} :
    Leaves (fun _ k => MulOp.ofKind? k = none)
      (Procedure.read .termTail >>= fun rest => pure (f rest)) :=
  .map (R := fun _ k => MulOp.ofKind? k = none) (fun _ => ⟨trivial, fun _ _ h => h⟩) fun _ _ h => h

theorem leaves_termTail : Leaves (fun _ k => MulOp.ofKind? k = none) termTail := by
  refine .peek_bind (f := MulOp.ofKind?) (a := .nil) (fun t ht => ⟨by rw [ht], ht⟩) fun t op hop => ?_
  rw [hop]
  exact .bind fun _ => .bind fun _ => leaves_read_termTail

theorem leaves_term : Leaves (fun _ k => MulOp.ofKind? k = none) term :=
  .bind fun _ => leaves_read_termTail

/-- Behind a term and its tail there is no operator between operands. -/
theorem leaves_term_bind {α : Type} {f : Term → SimpleTail → α} : Leaves (fun _ k => k.Parts)
    (term >>= fun x => Procedure.read .simpleTail >>= fun rest => pure (f x rest)) := by
  intro s
  rw [wp_bind]
  refine wp_mono ?_ _ (leaves_term s)
  intro x s₁ hmul
  rw [wp_bind, wp_read]
  exact ⟨trivial, fun rest s₂ hrest => hrest hmul⟩

theorem simpleTail_endsAt (s : Cursor) :
    simpleTail.wp lookahead (lookahead.post .simpleTail s) s := by
  simp only [simpleTail, wp_bind, wp_next, wp_pushBack]
  split
  · -- behind the operator there is a term, whatever stands in front of it
    have hterm : Leaves (fun _ k => k.Parts) (addOp >>= fun op => term >>= fun x =>
        Procedure.read .simpleTail >>= fun rest => pure (SimpleTail.cons op x rest)) :=
      .bind fun _ => leaves_term_bind
    exact wp_mono (fun _ _ h _ => h) _ (hterm _)
  · next hadd =>
    intro hmul
    rw [next_pushBack_next]
    exact ⟨hadd, hmul⟩

theorem leaves_simpleExpr : Leaves (fun _ k => k.Parts) simpleExpr := leaves_term_bind

theorem leaves_expression : Leaves Expr.EndsAt expression := by
  intro s
  rw [expression, wp_bind]
  refine wp_mono ?_ _ (leaves_simpleExpr s)
  intro lhs s₁ hparts
  simp only [wp_bind, wp_next, wp_pushBack]
  split
  · have hcompare : Leaves Expr.EndsAt (relOp >>= fun op => simpleExpr >>= fun rhs =>
        pure (Expr.compare lhs op rhs)) := by
      refine .bind fun _ => .map leaves_simpleExpr fun rhs k hk => ⟨hk, fun lhs' heq => ?_⟩
      cases heq
    exact hcompare _
  · next hrel =>
    rw [pure_eq, wp_done, next_pushBack_next]
    exact ⟨hparts, fun _ _ => hrel⟩

theorem fallback_assignment : Fallback .assignment assignment := by
  refine .bind fun _ => .ite (.bind fun _ => .ite ?_ .missing) .missing
  exact .bind fun _ => .found _

theorem fallback_conditional : Fallback .conditional conditional := by
  refine .bind fun _ => .ite (.bind fun _ => .bind fun _ => .ite ?_ .missing) .missing
  refine .bind fun _ => .bind fun t => ?_
  split
  · exact .found _
  · exact .bind fun _ => .bind fun _ => .ite (.found _) .missing
  · exact .missing

theorem fallback_loopHead : Fallback .loopHead loopHead := by
  refine .bind fun _ => .ite (.bind fun _ => ?_) .missing
  exact .bind fun _ => .ite (.found _) .missing

theorem fallback_whileLoop : Fallback .whileLoop whileLoop :=
  .bind fun _ => .bind fun _ => .bind fun _ => .ite (.found _) .missing

theorem fallback_loopExit : Fallback .loopExit loopExit :=
  .bind fun _ => .ite (.bind fun _ => .found _) .missing

theorem fallback_repeatLoop : Fallback .repeatLoop repeatLoop :=
  .bind fun _ => .ite (.bind fun _ => .bind fun _ => .found _) .missing

theorem fallback_reading : Fallback .reading reading := by
  refine .bind fun _ => .ite (.bind fun _ => .ite ?_ .missing) .missing
  exact .bind fun _ => .ite (.found _) .missing

theorem fallback_writable : Fallback .writable writable := by
  refine .bind fun t => ?_
  split
  · exact .found _
  iterate 7 exact .bind fun _ => .bind fun _ => .found _
  · exact .missing

theorem fallback_writing : Fallback .writing writing := by
  refine .bind fun _ => .ite (.bind fun _ => ?_) .missing
  exact .bind fun _ => .ite (.found _) (.bind fun _ => .found _)

/-- Each form of a statement has the follow set of all of them. -/
theorem fallback_statement : Fallback .statement statement := by
  refine .bind fun k => ?_
  split
  · exact fallback_assignment
  · exact fallback_reading
  · exact fallback_writing
  · exact fallback_conditional
  · exact fallback_whileLoop
  · exact fallback_repeatLoop
  · exact .missing

theorem leaves_read_moreStatements {f : Block → Block} : Leaves (fun _ k => k ≠ .semicolon)
    (Procedure.read .moreStatements >>= fun rest => pure (f rest)) :=
  .map (R := fun _ k => k ≠ .semicolon) (fun _ => ⟨trivial, fun _ _ h => h⟩) fun _ _ h => h

theorem leaves_moreStatements : Leaves (fun _ k => k ≠ .semicolon) moreStatements :=
  .expect_bind (.bind fun _ => leaves_read_moreStatements) fun _ hk => hk

theorem leaves_statements : Leaves (fun _ k => k ≠ .semicolon) statements :=
  .bind fun _ => leaves_read_moreStatements

theorem leaves_fail_names : Leaves NamesEndAt (Procedure.fail .names) := by
  refine .fail fun k hk => ⟨?_, fun _ => hk⟩
  have hmem : k ∈ [Kind.semicolon, .eof] := KindSet.contains_ofList.1 hk
  rintro rfl
  exact absurd hmem (by decide)

theorem leaves_read_moreNames (id : Ident) : Leaves NamesEndAt
    (Procedure.read .moreNames >>= fun rest => pure (rest.map (id :: ·))) := by
  refine .map (R := NamesEndAt) (fun _ => ⟨trivial, fun _ _ h => h⟩) ?_
  rintro rest k ⟨hcomma, hmissing⟩
  exact ⟨hcomma, fun hnone => hmissing (Option.map_eq_none_iff.1 hnone)⟩

theorem leaves_moreNames : Leaves NamesEndAt moreNames := by
  refine .expect_bind (.bind fun _ => ?_) fun k hk => ⟨hk, fun h => ?_⟩
  · exact .ite (leaves_read_moreNames _) leaves_fail_names
  · cases h

theorem leaves_names : Leaves NamesEndAt names :=
  .bind fun _ => .ite (leaves_read_moreNames _) leaves_fail_names

theorem leaves_fail_declarations : Leaves DeclarationsEndAt (Procedure.fail .declarations) := by
  refine .fail fun k hk => ⟨?_, fun _ => hk⟩
  have hmem : k ∈ [Kind.beginKw, .eof] := KindSet.contains_ofList.1 hk
  rcases List.mem_cons.1 hmem with rfl | hend
  · rfl
  · rw [List.mem_singleton.1 hend]
    rfl

theorem leaves_declarationAndMore : Leaves DeclarationsEndAt declarationAndMore := by
  refine .bind fun d => .bind fun _ => .ite ?_ leaves_fail_declarations
  refine .map (R := DeclarationsEndAt) (fun _ => ⟨trivial, fun _ _ h => h⟩) ?_
  rintro rest k ⟨htype, hmissing⟩
  exact ⟨htype, fun hnone => hmissing (Option.map_eq_none_iff.1 hnone)⟩

theorem leaves_moreDeclarations : Leaves DeclarationsEndAt moreDeclarations := by
  refine .peek_bind (f := ScalarType.ofKind?) (a := some []) (fun t ht => ⟨by rw [ht], ht, ?_⟩)
    fun t type htype => ?_
  · intro h
    cases h
  · rw [htype]
    exact leaves_declarationAndMore

theorem leaves_declarations : Leaves DeclarationsEndAt declarations :=
  .bind fun _ => .ite leaves_declarationAndMore leaves_fail_declarations

theorem fallback_body : Fallback .body body := by
  refine .bind fun _ => .bind fun _ => .ite (.bind fun _ => ?_) .missing
  exact .bind fun _ => .ite (.found _) .missing

theorem fallback_program : Fallback .program program := by
  refine .bind fun _ => .ite (.bind fun _ => .bind fun _ => ?_) .missing
  exact .ite (.found _) (.bind fun _ => .bind fun _ => .found _)

theorem endsAt_phrase (p : Phrase) (s : Cursor) :
    p.procedure.wp lookahead (lookahead.post p s) s := by
  cases p with
  | expression => exact leaves_expression s
  | simpleTail => exact simpleTail_endsAt s
  | termTail => exact leaves_termTail s
  | statements => exact leaves_statements s
  | moreStatements => exact leaves_moreStatements s
  | moreNames => exact leaves_moreNames s
  | moreDeclarations => exact leaves_moreDeclarations s

/-- What a procedure leaves is next when its part has been parsed. -/
theorem Leaves.parse {n : Nonterminal} {P : n.Result → Kind → Prop} (h : Leaves P n.procedure)
    (s : Cursor) : P (n.parse s).1 (n.parse s).2.next.1.kind :=
  n.post_parse (fun p s _ => endsAt_phrase p s) (h s)

theorem Fallback.leaves {α : Type} {n : Nonterminal} {q : Procedure (Option α)}
    (h : Fallback n q) : Leaves (fun x k => x.isNone = true → n.follow.contains k = true) q := by
  refine h.mono fun x k hx hnone => hx ?_
  exact Option.isNone_iff_eq_none.1 hnone

theorem leaves_procedure (n : Nonterminal) :
    Leaves (fun x k => n.isMissing x = true → n.follow.contains k = true) n.procedure := by
  cases n with
  | program => exact fallback_program.leaves
  | body => exact fallback_body.leaves
  | declarations => exact Fallback.leaves (leaves_declarations.mono fun _ _ h => h.2)
  | scalarType => exact (fallback_oneOf _ _).leaves
  | names => exact Fallback.leaves (leaves_names.mono fun _ _ h => h.2)
  | statement => exact fallback_statement.leaves
  | assignment => exact fallback_assignment.leaves
  | conditional => exact fallback_conditional.leaves
  | whileLoop => exact fallback_whileLoop.leaves
  | repeatLoop => exact fallback_repeatLoop.leaves
  | reading => exact fallback_reading.leaves
  | writing => exact fallback_writing.leaves
  | writable => exact fallback_writable.leaves
  | loopHead => exact fallback_loopHead.leaves
  | loopExit => exact fallback_loopExit.leaves
  | primary => exact fallback_primary.leaves
  | constant => exact fallback_constant.leaves
  | addOp | mulOp | relOp => exact (fallback_oneOf _ _).leaves
  | declaration | statements | condition | expression | simpleExpr | simpleTail | term | termTail
  | operand =>
    -- there is always a tree of these parts
    intro s
    exact wp_mono (fun _ _ _ h => absurd h Bool.false_ne_true) _ (Leaves.wp_any _ s)

/-- Whatever a cursor stands in front of: if a part turns out to be missing, the next token is one
that may come behind it. Behind an expression the next token is no operator that would continue it;
behind statements, names and declarations it is none that would lead to another one. -/
theorem next_behind_parse (s : Cursor) :
    (∀ n : Nonterminal, n.isMissing (n.parse s).1 = true →
      n.follow.contains (n.parse s).2.next.1.kind = true) ∧
    (∀ n : Nonterminal, n = .simpleExpr ∨ n = .expression →
      AddOp.ofKind? (n.parse s).2.next.1.kind = none ∧
        MulOp.ofKind? (n.parse s).2.next.1.kind = none) ∧
    (∀ lhs, (Nonterminal.expression.parse s).1 = .simple lhs →
      RelOp.ofKind? (Nonterminal.expression.parse s).2.next.1.kind = none) ∧
    (Nonterminal.statements.parse s).2.next.1.kind ≠ .semicolon ∧
    (Nonterminal.names.parse s).2.next.1.kind ≠ .comma ∧
    ScalarType.ofKind? (Nonterminal.declarations.parse s).2.next.1.kind = none := by
  have hexpr := Leaves.parse (n := .expression) leaves_expression s
  refine ⟨fun n => (leaves_procedure n).parse s, ?_, hexpr.2, ?_, ?_, ?_⟩
  · rintro n (rfl | rfl)
    · exact Leaves.parse (n := .simpleExpr) leaves_simpleExpr s
    · exact hexpr.1
  · exact Leaves.parse (n := .statements) leaves_statements s
  · exact (Leaves.parse (n := .names) leaves_names s).1
  · exact (Leaves.parse (n := .declarations) leaves_declarations s).1

end Routine
