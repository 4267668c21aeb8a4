import Routine.Proofs.Kept
import Routine.Tree.Gap

/-!
# Every gap is paid for

A gap in a tree comes from a token that was rejected, and each rejection leaves at most one gap: what
a part that is missing would have held is thrown away with it. `Pays Q q` keeps the account of a
procedure: with `k` tokens rejected on the way, its result `a` satisfies `Q a k`. An operator that a
tail begins with has been seen before it is read, so it is never missing (`PaysSeen`).
-/

namespace Routine

open Cursor Procedure Production

namespace Cursor
variable {s : Cursor}

/-- The number of tokens that were rejected. -/
def unexpected (s : Cursor) : Nat := s.diagnostics.toList.countP fun d => d.fault = .unexpected

theorem unexpected_next (s : Cursor) : s.next.2.unexpected = s.unexpected := by
  obtain ⟨bad, hbad⟩ := s.reports_next
  have hnone : (bad.map invalidAt).countP (fun d => d.fault = .unexpected) = 0 := by
    simp [List.countP_eq_zero, invalidAt]
  rw [unexpected, hbad, Array.toList_append, List.countP_append, hnone]
  rfl

theorem unexpected_pushBack (s : Cursor) : s.pushBack.unexpected = s.unexpected := by
  rw [unexpected, diagnostics_pushBack, unexpected]

theorem unexpected_reject (s : Cursor) : s.reject.unexpected = s.unexpected + 1 := by
  simp [unexpected, reject, report, note]

theorem kept_unexpected (n : Nat) : Kept fun s => n ≤ s.unexpected where
  next h := by rwa [unexpected_next]
  pushBack h := by rwa [unexpected_pushBack]
  reject h := by rw [unexpected_reject]; omega
  note _ h := h

/-- What has been reported stays, in front of what is reported later. -/
theorem kept_reported (ds : List Diagnostic) : Kept fun s => ds <+: s.diagnostics.toList where
  next := by
    intro s h
    obtain ⟨bad, hbad⟩ := s.reports_next
    rw [hbad, Array.toList_append]
    exact h.trans (List.prefix_append _ _)
  pushBack h := by rwa [diagnostics_pushBack]
  reject h := by
    refine h.trans ?_
    simp [reject, report, note]
  note _ h := h

end Cursor

namespace Phrase

/-- The gaps in the tree of a phrase. -/
def gaps : (p : Phrase) → p.Result → Nat
  | expression, t => t.gaps
  | simpleTail, t => t.gaps
  | termTail, t => t.gaps
  | statements, t | moreStatements, t => t.gaps
  | moreNames, t => gapsOrOne noGaps t
  | moreDeclarations, t => gapsOrOne declsGaps t

/-- The tree of a phrase is regular. A repetition may be empty. -/
def isRegular : (p : Phrase) → p.Result → Bool
  | expression, t => t.isRegular
  | simpleTail, t => t.isRegular
  | termTail, t => t.isRegular
  | statements, t => t.isRegular
  | moreStatements, t => t.moreRegular
  | moreNames, _ => true
  | moreDeclarations, t => regularOrGap (fun ds => ds.all Decl.isRegular) t

end Phrase

/-- The tree of a phrase has no more gaps than tokens were rejected, and is regular. -/
def paying : Contract where
  pre _ _ := True
  post p s x s' := s.unexpected + p.gaps x ≤ s'.unexpected ∧ p.isRegular x = true

section
variable {α β : Type} {n : Nonterminal} {t : Token} {Q : α → Nat → Prop}

/-- The procedure gives a result for which `Q` allows the number of tokens rejected. -/
def Pays (Q : α → Nat → Prop) (q : Procedure α) : Prop :=
  ∀ s, q.wp paying (fun a s' => ∃ k, Q a k ∧ s.unexpected + k ≤ s'.unexpected) s

/-- As `Pays`, but the token to come is `t`, which has been seen and handed back. -/
def PaysSeen (t : Token) (Q : α → Nat → Prop) (q : Procedure α) : Prop :=
  ∀ s, s.slot = .pending t → q.wp paying (fun a s' => ∃ k, Q a k ∧ s.unexpected + k ≤ s'.unexpected) s

/-- The tree of the part has no more gaps than tokens were rejected, and is regular. -/
def PaysTree (n : Nonterminal) (q : Procedure n.Result) : Prop :=
  Pays (fun t k => n.gaps t ≤ k ∧ n.isRegular t = true) q

namespace Pays

theorem done {a : α} (h : Q a 0) : Pays Q (.done a) := fun _ => ⟨0, h, Nat.le_refl _⟩

theorem bind {P : β → Nat → Prop} {p : Procedure β} {k : β → Procedure α} (hp : Pays P p)
    (hk : ∀ b i, P b i → Pays (fun a j => Q a (i + j)) (k b)) : Pays Q (p >>= k) := by
  intro s
  rw [wp_bind]
  refine wp_mono ?_ _ (hp s)
  rintro b s₁ ⟨i, hP, hi⟩
  refine wp_mono ?_ _ (hk b i hP s₁)
  rintro a s₂ ⟨j, hQ, hj⟩
  exact ⟨i + j, hQ, by omega⟩

theorem read (p : Phrase) :
    Pays (fun x k => p.gaps x ≤ k ∧ p.isRegular x = true) (Procedure.read p) :=
  fun _ => ⟨trivial, fun _ _ hpost => ⟨_, ⟨Nat.le_refl _, hpost.2⟩, hpost.1⟩⟩

theorem mono {Q' : α → Nat → Prop} {q : Procedure α} (hq : Pays Q q) (h : ∀ a k, Q a k → Q' a k) :
    Pays Q' q :=
  fun s => wp_mono (fun _ _ ⟨k, hQ, hk⟩ => ⟨k, h _ k hQ, hk⟩) _ (hq s)

theorem next_bind {k : Token → Procedure α} (hk : ∀ t, Pays Q (k t)) :
    Pays Q (Procedure.next >>= k) := by
  intro s
  rw [wp_bind, wp_next, ← s.unexpected_next]
  exact hk _ _

theorem pushBack_bind {k : Unit → Procedure α} (hk : Pays Q (k ())) :
    Pays Q (Procedure.pushBack >>= k) := by
  intro s
  rw [wp_bind, wp_pushBack, ← s.unexpected_pushBack]
  exact hk _

theorem note_bind {e : Event} {k : Unit → Procedure α} (hk : Pays Q (k ())) :
    Pays Q (Procedure.note e >>= k) := fun s => hk (s.note e)

theorem expect_bind {k : Kind} {p q : Procedure α} (hp : Pays Q p) (hq : Pays Q q) :
    Pays Q (expect k >>= fun c => if c then p else q) := by
  refine next_bind (k := fun t => if decide (t.kind = k) then p else q) fun t => ?_
  split
  · exact hp
  · exact hq

theorem name_bind {p : Token → Procedure α} {q : Procedure α} (hp : ∀ t, Pays Q (p t))
    (hq : Pays Q q) : Pays Q (Procedure.next >>= fun t => if t.kind = .identifier then p t else q) := by
  refine next_bind fun t => ?_
  split
  · exact hp t
  · exact hq

/-- A token that is looked at and handed back. -/
theorem seen_bind {k : Token → Procedure α} (hk : ∀ t, PaysSeen t Q (k t)) :
    Pays Q (Procedure.next >>= fun t => Procedure.pushBack >>= fun _ => k t) := by
  intro s
  rw [wp_bind, wp_next, wp_bind, wp_pushBack, ← s.unexpected_next, ← s.next.2.unexpected_pushBack]
  exact hk _ _ (slot_pushBack_of_taken s.slot_next)

theorem peek_bind {k : Kind → Procedure α} (hk : ∀ kind, Pays Q (k kind)) :
    Pays Q (Procedure.peek >>= k) :=
  seen_bind (k := fun t => k t.kind) fun t s _ => hk t.kind s

/-- The token that is rejected pays for a gap. -/
theorem recover_bind {k : Unit → Procedure α} (hk : Pays (fun a j => Q a (j + 1)) (k ())) :
    Pays Q (recover n >>= k) := by
  intro s
  rw [wp_bind, wp_recover]
  have hrecover : s.unexpected + 1 ≤ (s.reject.synchronize n.follow).unexpected :=
    (kept_unexpected _).synchronize _ (Nat.le_of_eq s.unexpected_reject.symm)
  refine wp_mono ?_ _ (hk _)
  rintro a s' ⟨j, hQ, hj⟩
  exact ⟨j + 1, hQ, by omega⟩

theorem fail {Q : Option α → Nat → Prop} (h : Q none 1) : Pays Q (Procedure.fail n) :=
  recover_bind (.done h)

end Pays

namespace PaysSeen

theorem of_pays {q : Procedure α} (hq : Pays Q q) : PaysSeen t Q q := fun s _ => hq s

/-- An operator that has been seen is read without a report. -/
theorem oneOf_bind {f : Kind → Option β} {b : β} {k : Option β → Procedure α}
    (hb : f t.kind = some b) (hk : Pays Q (k (some b))) : PaysSeen t Q (oneOf n f >>= k) := by
  intro s hs
  have hnext : s.next.1 = t := (next_pending hs).1
  rw [oneOf, bind_assoc, wp_bind, wp_next, hnext, hb, ← s.unexpected_next]
  exact hk _

end PaysSeen

end

theorem pays_oneOf {α : Type} {n : Nonterminal} {f : Kind → Option α} :
    Pays (fun o k => gapsOrOne noGaps o ≤ k) (oneOf n f) := by
  refine .next_bind fun t => ?_
  split
  · exact .done (Nat.le_refl 0)
  · exact .fail (Nat.le_refl 1)

theorem pays_constant : PaysTree .constant constant := by
  refine .next_bind fun t => ?_
  split
  · exact .done ⟨Nat.le_refl 0, rfl⟩
  · exact .fail ⟨Nat.le_refl 1, rfl⟩

theorem pays_primary : PaysTree .primary primary := by
  refine .next_bind fun t => ?_
  split
  · exact .done ⟨Nat.le_refl 0, rfl⟩
  iterate 3
    refine .pushBack_bind (pays_constant.bind ?_)
    rintro (_ | c) i ⟨hgaps, -⟩
    · exact .done ⟨hgaps, rfl⟩
    · exact .done ⟨Nat.zero_le _, rfl⟩
  · refine (Pays.read .expression).bind ?_
    rintro e i ⟨hgaps, hregular⟩
    refine .expect_bind (.done ⟨hgaps, hregular⟩) (.recover_bind (.done ⟨?_, hregular⟩))
    exact Nat.le_add_right_of_le hgaps
  · exact .fail ⟨Nat.le_refl 1, rfl⟩

theorem pays_sign : Pays (fun _ _ => True) sign := by
  refine .next_bind fun t => ?_
  split
  · exact .done trivial
  · exact .pushBack_bind (.done trivial)

theorem pays_operand : PaysTree .operand operand := by
  refine pays_sign.bind fun sg i _ => pays_primary.bind ?_
  rintro (_ | p) j ⟨hgaps, hregular⟩
  · exact .done ⟨Nat.le_add_left_of_le hgaps, rfl⟩
  · exact .done ⟨Nat.le_add_left_of_le hgaps, hregular⟩

theorem pays_termTail : PaysTree .termTail termTail := by
  refine .seen_bind fun t => ?_
  split
  · next op hop =>
    refine .oneOf_bind hop (pays_operand.bind ?_)
    rintro o i ⟨hgaps, hregular⟩
    refine (Pays.read .termTail).bind ?_
    rintro tail j ⟨hgaps', hregular'⟩
    refine .done ⟨?_, Bool.and_eq_true_iff.2 ⟨hregular, hregular'⟩⟩
    exact Nat.add_le_add (Nat.le_trans (Nat.le_of_eq (Nat.zero_add _)) hgaps) hgaps'
  · exact .of_pays (.done ⟨Nat.le_refl 0, rfl⟩)

theorem pays_term : PaysTree .term term := by
  refine pays_operand.bind ?_
  rintro o i ⟨hgaps, hregular⟩
  refine (Pays.read .termTail).bind ?_
  rintro tail j ⟨hgaps', hregular'⟩
  exact .done ⟨Nat.add_le_add hgaps hgaps', Bool.and_eq_true_iff.2 ⟨hregular, hregular'⟩⟩

theorem pays_simpleTail : PaysTree .simpleTail simpleTail := by
  refine .seen_bind fun t => ?_
  split
  · next op hop =>
    refine .oneOf_bind hop (pays_term.bind ?_)
    rintro x i ⟨hgaps, hregular⟩
    refine (Pays.read .simpleTail).bind ?_
    rintro tail j ⟨hgaps', hregular'⟩
    refine .done ⟨?_, Bool.and_eq_true_iff.2 ⟨hregular, hregular'⟩⟩
    exact Nat.add_le_add (Nat.le_trans (Nat.le_of_eq (Nat.zero_add _)) hgaps) hgaps'
  · exact .of_pays (.done ⟨Nat.le_refl 0, rfl⟩)

theorem pays_simpleExpr : PaysTree .simpleExpr simpleExpr := by
  refine pays_term.bind ?_
  rintro x i ⟨hgaps, hregular⟩
  refine (Pays.read .simpleTail).bind ?_
  rintro tail j ⟨hgaps', hregular'⟩
  exact .done ⟨Nat.add_le_add hgaps hgaps', Bool.and_eq_true_iff.2 ⟨hregular, hregular'⟩⟩

theorem pays_expression : PaysTree .expression expression := by
  refine pays_simpleExpr.bind ?_
  rintro lhs i ⟨hgaps, hregular⟩
  refine .seen_bind fun t => ?_
  split
  · next op hop =>
    refine .oneOf_bind hop (pays_simpleExpr.bind ?_)
    rintro rhs j ⟨hgaps', hregular'⟩
    refine .done ⟨Nat.add_le_add hgaps hgaps', Bool.and_eq_true_iff.2 ⟨?_, hregular'⟩⟩
    exact Bool.and_eq_true_iff.2 ⟨hregular, rfl⟩
  · exact .of_pays (.done ⟨hgaps, hregular⟩)

theorem pays_assignment : PaysTree .assignment assignment := by
  have hfail : PaysTree .assignment (fail .assignment) := .fail ⟨Nat.le_refl 1, rfl⟩
  refine .name_bind (fun t => .expect_bind (pays_simpleExpr.bind ?_) hfail) hfail
  rintro e i ⟨hgaps, hregular⟩
  exact .done ⟨hgaps, hregular⟩

theorem pays_condition : PaysTree .condition condition := .read .expression

theorem pays_conditional : PaysTree .conditional conditional := by
  refine .expect_bind (pays_condition.bind ?_) (.fail ⟨Nat.le_refl 1, rfl⟩)
  rintro cond i ⟨hcond, hcond'⟩
  refine .expect_bind ((Pays.read .statements).bind ?_) (.fail ⟨Nat.le_add_left 1 i, rfl⟩)
  rintro thenBlock j ⟨hthen, hthen'⟩
  have hboth : cond.gaps + thenBlock.gaps ≤ i + j := Nat.add_le_add hcond hthen
  have hboth' : (cond.isRegular && thenBlock.isRegular) = true :=
    Bool.and_eq_true_iff.2 ⟨hcond', hthen'⟩
  refine .next_bind fun t => ?_
  split
  · exact .done ⟨hboth, hboth'⟩
  · refine (Pays.read .statements).bind ?_
    rintro elseBlock k ⟨helse, helse'⟩
    refine .expect_bind (.done ⟨?_, Bool.and_eq_true_iff.2 ⟨hboth', helse'⟩⟩) (.fail ⟨?_, rfl⟩)
    · show cond.gaps + thenBlock.gaps + elseBlock.gaps ≤ i + (j + k)
      exact Nat.add_assoc i j k ▸ Nat.add_le_add hboth helse
    · show 1 ≤ i + (j + (k + 1))
      omega
  · exact .fail ⟨by show 1 ≤ i + (j + 1); omega, rfl⟩

theorem pays_loopHead : PaysTree .loopHead loopHead := by
  refine .expect_bind (pays_condition.bind ?_) (.fail ⟨Nat.le_refl 1, rfl⟩)
  rintro cond i ⟨hgaps, hregular⟩
  exact .expect_bind (.done ⟨hgaps, hregular⟩) (.fail ⟨Nat.le_add_left 1 i, rfl⟩)

theorem pays_whileLoop : PaysTree .whileLoop whileLoop := by
  refine pays_loopHead.bind ?_
  rintro cond i ⟨hcond, hcond'⟩
  refine (Pays.read .statements).bind ?_
  rintro body j ⟨hbody, hbody'⟩
  refine .expect_bind (.done ⟨Nat.add_le_add hcond hbody, ?_⟩) (.fail ⟨?_, rfl⟩)
  · exact Bool.and_eq_true_iff.2 ⟨hcond', hbody'⟩
  · show 1 ≤ i + (j + 1)
    omega

theorem pays_loopExit : PaysTree .loopExit loopExit := by
  refine .expect_bind (pays_condition.bind ?_) (.fail ⟨Nat.le_refl 1, rfl⟩)
  rintro cond i ⟨hgaps, hregular⟩
  exact .done ⟨hgaps, hregular⟩

theorem pays_repeatLoop : PaysTree .repeatLoop repeatLoop := by
  refine .expect_bind ((Pays.read .statements).bind ?_) (.fail ⟨Nat.le_refl 1, rfl⟩)
  rintro body i ⟨hbody, hbody'⟩
  refine pays_loopExit.bind ?_
  rintro cond j ⟨hcond, hcond'⟩
  exact .done ⟨Nat.add_le_add hbody hcond, Bool.and_eq_true_iff.2 ⟨hbody', hcond'⟩⟩

theorem pays_opening (word : Kind) : Pays (fun _ _ => True) (opening word) :=
  .expect_bind (.next_bind fun _ => .done trivial) (.done trivial)

theorem pays_reading : PaysTree .reading reading := by
  refine (pays_opening .readKw).bind fun opened i _ => ?_
  have hfail : Pays (fun t k => Nonterminal.gaps .reading t ≤ i + k ∧
      Nonterminal.isRegular .reading t = true) (fail .reading) := .fail ⟨Nat.le_add_left 1 i, rfl⟩
  split
  · refine .name_bind (fun t => .expect_bind (.done ⟨Nat.zero_le _, rfl⟩) hfail) hfail
  · exact hfail

theorem pays_writable : PaysTree .writable writable := by
  refine .next_bind fun t => ?_
  split
  · exact .done ⟨Nat.le_refl 0, rfl⟩
  iterate 7
    refine .pushBack_bind (pays_simpleExpr.bind ?_)
    rintro e i ⟨hgaps, hregular⟩
    exact .done ⟨hgaps, hregular⟩
  · exact .fail ⟨Nat.le_refl 1, rfl⟩

/-- The missing parenthesis is not a gap, and pays for none. -/
theorem pays_writing : PaysTree .writing writing := by
  refine (pays_opening .writeKw).bind fun opened i _ => ?_
  split
  · refine pays_writable.bind ?_
    rintro value j ⟨hgaps, hregular⟩
    refine .expect_bind (.done ⟨Nat.le_add_left_of_le hgaps, hregular⟩) (.recover_bind (.done ⟨?_, hregular⟩))
    exact Nat.le_add_left_of_le (Nat.le_add_right_of_le hgaps)
  · exact .fail ⟨Nat.le_add_left 1 i, rfl⟩

theorem pays_statement : PaysTree .statement statement := by
  refine .peek_bind fun kind => ?_
  split
  · exact pays_assignment
  · exact pays_reading
  · exact pays_writing
  · exact pays_conditional
  · exact pays_whileLoop
  · exact pays_repeatLoop
  · exact .fail ⟨Nat.le_refl 1, rfl⟩

/-- A gap among statements counts as one. -/
theorem Block.gaps_cons (s : Option Stmt) (rest : Block) :
    (Block.cons s rest).gaps = gapsOrOne Stmt.gaps s + rest.gaps := by
  cases s <;> rfl

theorem Block.isRegular_cons (s : Option Stmt) (rest : Block) :
    (Block.cons s rest).isRegular = (regularOrGap Stmt.isRegular s && rest.moreRegular) ∧
      (Block.cons s rest).moreRegular = (regularOrGap Stmt.isRegular s && rest.moreRegular) := by
  cases s with
  | none => exact ⟨rfl, rfl⟩
  | some s => exact ⟨rfl, rfl⟩

theorem pays_moreStatements :
    Pays (fun b k => b.gaps ≤ k ∧ b.moreRegular = true) moreStatements := by
  refine .expect_bind (pays_statement.bind ?_) (.pushBack_bind (.done ⟨Nat.le_refl 0, rfl⟩))
  rintro s i ⟨hgaps, hregular⟩
  refine (Pays.read .moreStatements).bind ?_
  rintro rest j ⟨hgaps', hregular'⟩
  refine .done ⟨?_, ?_⟩
  · rw [Block.gaps_cons]
    exact Nat.add_le_add hgaps hgaps'
  · rw [(Block.isRegular_cons s rest).2]
    exact Bool.and_eq_true_iff.2 ⟨hregular, hregular'⟩

theorem pays_statements : PaysTree .statements statements := by
  refine pays_statement.bind ?_
  rintro s i ⟨hgaps, hregular⟩
  refine (Pays.read .moreStatements).bind ?_
  rintro rest j ⟨hgaps', hregular'⟩
  refine .done ⟨?_, ?_⟩
  · show (Block.cons s rest).gaps ≤ i + j
    rw [Block.gaps_cons]
    exact Nat.add_le_add hgaps hgaps'
  · show (Block.cons s rest).isRegular = true
    rw [(Block.isRegular_cons s rest).1]
    exact Bool.and_eq_true_iff.2 ⟨hregular, hregular'⟩

theorem pays_moreNames : Pays (fun ids k => gapsOrOne noGaps ids ≤ k) moreNames := by
  refine .expect_bind (.name_bind (fun t => (Pays.read .moreNames).bind ?_) (.fail (Nat.le_refl 1)))
    (.pushBack_bind (.done (Nat.le_refl 0)))
  rintro (_ | ids) i ⟨hgaps, -⟩
  · exact .done hgaps
  · exact .done (Nat.zero_le _)

theorem pays_names : PaysTree .names names := by
  refine .name_bind (fun t => (Pays.read .moreNames).bind ?_) (.fail ⟨Nat.le_refl 1, rfl⟩)
  rintro (_ | ids) i ⟨hgaps, -⟩
  · exact .done ⟨hgaps, rfl⟩
  · exact .done ⟨Nat.zero_le _, rfl⟩

theorem pays_declaration : PaysTree .declaration declaration := by
  refine pays_oneOf.bind fun type i htype => pays_names.bind ?_
  rintro ids j ⟨hgaps, hregular⟩
  exact .done ⟨Nat.add_le_add htype hgaps, hregular⟩

/-- If the declarations behind it are missing, so is the declaration. -/
theorem pays_declarationAndMore : PaysTree .declarations declarationAndMore := by
  refine pays_declaration.bind ?_
  rintro d i ⟨hgaps, hregular⟩
  refine .expect_bind ((Pays.read .moreDeclarations).bind ?_) (.fail ⟨Nat.le_add_left 1 i, rfl⟩)
  rintro (_ | ds) j ⟨hgaps', hregular'⟩
  · exact .done ⟨Nat.le_add_left_of_le hgaps', rfl⟩
  · exact .done ⟨Nat.add_le_add hgaps hgaps', Bool.and_eq_true_iff.2 ⟨hregular, hregular'⟩⟩

theorem pays_moreDeclarations : Pays (fun ds k => gapsOrOne declsGaps ds ≤ k ∧
    regularOrGap (fun ds => ds.all Decl.isRegular) ds = true) moreDeclarations := by
  refine .peek_bind fun kind => ?_
  split
  · refine pays_declarationAndMore.mono ?_
    rintro (_ | ds) k ⟨hgaps, hregular⟩
    · exact ⟨hgaps, rfl⟩
    · exact ⟨hgaps, (Bool.and_eq_true_iff.1 hregular).2⟩
  · exact .done ⟨Nat.le_refl 0, rfl⟩

theorem pays_declarations : PaysTree .declarations declarations :=
  .expect_bind pays_declarationAndMore (.fail ⟨Nat.le_refl 1, rfl⟩)

theorem pays_declSection : Pays (fun ds k => ds.gaps ≤ k ∧ ds.isRegular = true) declSection := by
  refine .peek_bind fun kind => ?_
  split
  · exact .done ⟨Nat.le_refl 0, rfl⟩
  · refine pays_declarations.bind ?_
    rintro (_ | ds) i ⟨hgaps, hregular⟩
    · exact .done ⟨hgaps, rfl⟩
    · exact .done ⟨hgaps, hregular⟩

theorem pays_body : PaysTree .body body := by
  refine pays_declSection.bind ?_
  rintro ds i ⟨hgaps, hregular⟩
  refine .expect_bind ((Pays.read .statements).bind ?_) (.fail ⟨Nat.le_add_left 1 i, rfl⟩)
  rintro block j ⟨hgaps', hregular'⟩
  refine .expect_bind (.done ⟨Nat.add_le_add hgaps hgaps', ?_⟩) (.fail ⟨?_, rfl⟩)
  · exact Bool.and_eq_true_iff.2 ⟨hregular, hregular'⟩
  · show 1 ≤ i + (j + 1)
    omega

theorem pays_program : PaysTree .program program := by
  refine .expect_bind (pays_body.bind ?_) (.fail ⟨Nat.le_refl 1, rfl⟩)
  rintro b i ⟨hgaps, hregular⟩
  refine .peek_bind fun kind => ?_
  split
  · exact .done ⟨hgaps, hregular⟩
  · refine .note_bind (.recover_bind (.done ⟨?_, hregular⟩))
    exact Nat.le_add_right_of_le hgaps

/-! ### Every part -/

theorem pays_phrase (p : Phrase) :
    Pays (fun x k => p.gaps x ≤ k ∧ p.isRegular x = true) p.procedure := by
  cases p with
  | expression => exact pays_expression
  | simpleTail => exact pays_simpleTail
  | termTail => exact pays_termTail
  | statements => exact pays_statements
  | moreStatements => exact pays_moreStatements
  | moreNames => exact pays_moreNames.mono fun _ _ h => ⟨h, rfl⟩
  | moreDeclarations => exact pays_moreDeclarations

theorem paying_phrase (p : Phrase) (s : Cursor) : p.procedure.wp paying (paying.post p s) s := by
  refine wp_mono ?_ _ (pays_phrase p s)
  rintro x s' ⟨k, ⟨hgaps, hregular⟩, hk⟩
  exact ⟨by omega, hregular⟩

theorem pays_procedure (n : Nonterminal) : PaysTree n n.procedure := by
  have hop : ∀ {α : Type} {m : Nonterminal} {f : Kind → Option α},
      Pays (fun o k => gapsOrOne noGaps o ≤ k ∧ true = true) (oneOf m f) :=
    pays_oneOf.mono fun _ _ h => ⟨h, rfl⟩
  cases n with
  | program => exact pays_program
  | body => exact pays_body
  | declarations => exact pays_declarations
  | declaration => exact pays_declaration
  | names => exact pays_names
  | statements => exact pays_statements
  | statement => exact pays_statement
  | assignment => exact pays_assignment
  | conditional => exact pays_conditional
  | whileLoop => exact pays_whileLoop
  | repeatLoop => exact pays_repeatLoop
  | reading => exact pays_reading
  | writing => exact pays_writing
  | writable => exact pays_writable
  | loopHead => exact pays_loopHead
  | loopExit => exact pays_loopExit
  | condition => exact pays_condition
  | expression => exact pays_expression
  | simpleExpr => exact pays_simpleExpr
  | simpleTail => exact pays_simpleTail
  | term => exact pays_term
  | termTail => exact pays_termTail
  | operand => exact pays_operand
  | primary => exact pays_primary
  | constant => exact pays_constant
  | scalarType | addOp | mulOp | relOp => exact hop

/-- Parsing a part adds at least as many reports of unexpected tokens as there are gaps in its tree,
so that a tree without a report has no gap. With gaps or without, the tree is regular. -/
theorem gaps_le_unexpected (n : Nonterminal) (s : Cursor) :
    ∃ ds : List Diagnostic,
      (n.parse s).2.diagnostics.toList = s.diagnostics.toList ++ ds ∧
        n.gaps (n.parse s).1 ≤ (ds.filter fun d => d.fault = .unexpected).length ∧
        (ds = [] → n.gaps (n.parse s).1 = 0) ∧
        n.isRegular (n.parse s).1 = true := by
  obtain ⟨ds, hds⟩ := (kept_reported s.diagnostics.toList).parse n (List.prefix_refl _)
  obtain ⟨k, ⟨hgaps, hregular⟩, hk⟩ :=
    n.post_parse (fun p s _ => paying_phrase p s) (pays_procedure n s)
  have hcount : (n.parse s).2.unexpected =
      s.unexpected + (ds.filter fun d => d.fault = .unexpected).length := by
    rw [unexpected, ← hds, List.countP_append, unexpected, List.countP_eq_length_filter (l := ds)]
  have hle : n.gaps (n.parse s).1 ≤ (ds.filter fun d => d.fault = .unexpected).length := by omega
  refine ⟨ds, hds.symm, hle, ?_, hregular⟩
  rintro rfl
  exact Nat.le_zero.1 hle

end Routine
