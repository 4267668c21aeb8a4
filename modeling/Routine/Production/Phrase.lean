import Routine.Production.Program

/-! # Phrases

`Phrase.procedure` ties each phrase to the procedure that reads it. Procedures call phrases, and
phrases are read by procedures, so reading has to be shown to end. The measure of a phrase at a
cursor is twice the size of the cursor, and one more for the two phrases that call another one
before they have drawn a token for good. `Phrase.procedure_within` says that every call is of lesser
measure and that no phrase, when it has been read, leaves more to hand out than there was before. -/

namespace Routine

namespace Phrase

/-- How a phrase is read. -/
def procedure : (p : Phrase) → Procedure p.Result
  | expression => Production.expression
  | simpleTail => Production.simpleTail
  | termTail => Production.termTail
  | statements => Production.statements
  | moreStatements => Production.moreStatements
  | moreNames => Production.moreNames
  | moreDeclarations => Production.moreDeclarations

/-- One for the phrases that begin with another phrase's reading. -/
def rank : Phrase → Nat
  | expression | statements => 1
  | simpleTail | termTail | moreStatements | moreNames | moreDeclarations => 0

/-- Bounds the calls that reading a phrase from a cursor can lead to. -/
def measure (p : Phrase) (s : Cursor) : Nat := 2 * s.size + p.rank

/-- Calls are of measure below `m`, and a phrase leaves no more than there was before it. -/
def within (m : Nat) : Procedure.Contract where
  pre p s := p.measure s < m
  post _ s _ s' := s'.held ≤ s.size

end Phrase

namespace Production

open Procedure Phrase

variable {α β : Type} {m : Nat} {s : Cursor}

theorem held_recover_le (s : Cursor) (stop : KindSet) : (s.reject.synchronize stop).held ≤ s.held :=
  Nat.le_trans (Cursor.held_synchronize_le stop _) (Nat.le_of_eq (Cursor.held_reject s))

/-- Reading on after a procedure that leaves no more than there was. -/
theorem wp_bind_within {p : Procedure α} {k : α → Procedure β} {Q : β → Cursor → Prop}
    (hp : p.wp (within m) (fun _ s' => s'.held ≤ s.size) s)
    (hk : ∀ a s', s'.held ≤ s.size → (k a).wp (within m) Q s') : (p >>= k).wp (within m) Q s := by
  rw [wp_bind]
  exact wp_mono hk p hp

/-- Reading on after a phrase, where its measure allows to read it. -/
theorem wp_read_within {p : Phrase} {k : p.Result → Procedure β} {Q : β → Cursor → Prop}
    (hm : 2 * s.size + p.rank < m) (hk : ∀ x s', s'.held ≤ s.size → (k x).wp (within m) Q s') :
    (read p >>= k).wp (within m) Q s :=
  wp_bind_within ⟨hm, fun _ _ h => h⟩ hk

theorem wp_oneOf {c : Contract} (n : Nonterminal) (f : Kind → Option α)
    {Q : Option α → Cursor → Prop} :
    (oneOf n f).wp c Q s ↔
      match f s.next.1.kind with
      | some a => Q (some a) s.next.2
      | none => Q none (s.next.2.reject.synchronize n.follow) := by
  simp only [oneOf, wp_bind, wp_next]
  cases f s.next.1.kind <;> rfl

theorem held_fail_le (s : Cursor) (stop : KindSet) :
    (s.next.2.reject.synchronize stop).held ≤ s.size :=
  Nat.le_trans (held_recover_le _ stop) s.held_next_le

theorem oneOf_within (n : Nonterminal) (f : Kind → Option α) :
    (oneOf n f).wp (within m) (fun _ s' => s'.held ≤ s.size) s := by
  rw [wp_oneOf]
  split
  · exact s.held_next_le
  · exact held_fail_le s _

theorem constant_within : constant.wp (within m) (fun _ s' => s'.held ≤ s.size) s := by
  simp only [constant, wp_bind, wp_next]
  split
  · exact s.held_next_le
  · exact held_fail_le s _

theorem sign_within : sign.wp (within m) (fun _ s' => s'.held ≤ s.size) s := by
  simp only [sign, wp_bind, wp_next]
  split
  · exact s.held_next_le
  · simp only [wp_bind, wp_pushBack, pure_eq, wp_done, Cursor.held_pushBack]
    exact s.held_next_le

theorem primary_within (hm : 2 * s.size ≤ m) :
    primary.wp (within m) (fun _ s' => s'.held ≤ s.size) s := by
  have hback := s.size_pushBack_next_le
  simp only [primary, wp_bind, wp_next]
  split
  · exact s.held_next_le
  iterate 3
    simp only [wp_bind, wp_pushBack, pure_eq, wp_done]
    exact wp_mono (fun _ s' h => Nat.le_trans h hback) _ constant_within
  · next hk =>
    have hlt : s.next.2.size < s.size := Cursor.size_next_lt (by rw [hk]; decide)
    refine wp_read_within (by simp only [rank]; omega) fun e s₁ h₁ => ?_
    have h₂ := s₁.held_next_le
    have h₃ := s₁.size_le_held
    rw [wp_bind, wp_expect]
    split
    · rw [pure_eq, wp_done]
      omega
    · simp only [wp_bind, wp_recover, pure_eq, wp_done]
      have := held_fail_le s₁ Nonterminal.primary.follow
      omega
  · exact held_fail_le s _

theorem operand_within (hm : 2 * s.size ≤ m) :
    operand.wp (within m) (fun _ s' => s'.held ≤ s.size) s := by
  refine wp_bind_within sign_within fun _ s₁ h₁ => ?_
  have h₂ := s₁.size_le_held
  refine wp_bind_within (primary_within (by omega)) fun _ s₂ h₃ => ?_
  rw [pure_eq, wp_done]
  omega

theorem term_within (hm : 2 * s.size < m) :
    term.wp (within m) (fun _ s' => s'.held ≤ s.size) s := by
  refine wp_bind_within (operand_within (Nat.le_of_lt hm)) fun _ s₁ h₁ => ?_
  have h₂ := s₁.size_le_held
  refine wp_read_within (by simp only [rank]; omega) fun _ s₂ h₃ => ?_
  rw [pure_eq, wp_done]
  omega

theorem simpleExpr_within (hm : 2 * s.size < m) :
    simpleExpr.wp (within m) (fun _ s' => s'.held ≤ s.size) s := by
  refine wp_bind_within (term_within hm) fun _ s₁ h₁ => ?_
  have h₂ := s₁.size_le_held
  refine wp_read_within (by simp only [rank]; omega) fun _ s₂ h₃ => ?_
  rw [pure_eq, wp_done]
  omega

theorem expression_within (hm : 2 * s.size < m) :
    expression.wp (within m) (fun _ s' => s'.held ≤ s.size) s := by
  refine wp_bind_within (simpleExpr_within hm) fun _ s₁ h₁ => ?_
  have h₂ := s₁.size_le_held
  have h₃ := s₁.held_next_le
  have h₄ := s₁.size_pushBack_next_le
  simp only [wp_bind, wp_next, wp_pushBack]
  split
  · refine wp_bind_within (oneOf_within _ _) fun _ s₂ h₅ => ?_
    have h₆ := s₂.size_le_held
    refine wp_bind_within (simpleExpr_within (by omega)) fun _ s₃ h₇ => ?_
    rw [pure_eq, wp_done]
    omega
  · simp only [pure_eq, wp_done, Cursor.held_pushBack]
    omega

/-- A token that has been seen and handed back is drawn for good. -/
theorem wp_oneOf_seen {c : Contract} {n : Nonterminal} {f : Kind → Option α} {a : α}
    (h : f s.next.1.kind = some a) {k : Option α → Procedure β} {Q : β → Cursor → Prop}
    (hk : (k (some a)).wp c Q s.next.2.pushBack.next.2) :
    (oneOf n f >>= k).wp c Q s.next.2.pushBack := by
  rw [wp_bind, wp_oneOf, Cursor.next_pushBack_next, h]
  exact hk

theorem size_seen_lt (h : s.next.1.kind ≠ .eof) : s.next.2.pushBack.next.2.size < s.size := by
  have := s.size_pushBack_next_le
  have := Cursor.size_next_lt (s := s.next.2.pushBack) (by rwa [Cursor.next_pushBack_next])
  omega

/-- A kind for which a choice has an answer is not one for which it has none. -/
theorem ne_of_ofKind? {α : Type} {f : Kind → Option α} {j k : Kind} {a : α} (h : f k = some a)
    (hj : f j = none) : k ≠ j := by
  rintro rfl
  rw [hj] at h
  cases h

theorem termTail_within (hm : 2 * s.size ≤ m) :
    termTail.wp (within m) (fun _ s' => s'.held ≤ s.size) s := by
  have h₁ := s.held_next_le
  simp only [termTail, wp_bind, wp_next, wp_pushBack]
  split
  · next op hop =>
    have hlt := size_seen_lt (ne_of_ofKind? hop rfl)
    refine wp_oneOf_seen hop ?_
    refine wp_bind_within (operand_within (by omega)) fun _ s₁ h₂ => ?_
    have h₃ := s₁.size_le_held
    refine wp_read_within (by simp only [rank]; omega) fun _ s₂ h₄ => ?_
    rw [pure_eq, wp_done]
    omega
  · simp only [pure_eq, wp_done, Cursor.held_pushBack]
    exact h₁

theorem simpleTail_within (hm : 2 * s.size ≤ m) :
    simpleTail.wp (within m) (fun _ s' => s'.held ≤ s.size) s := by
  have h₁ := s.held_next_le
  simp only [simpleTail, wp_bind, wp_next, wp_pushBack]
  split
  · next op hop =>
    have hlt := size_seen_lt (ne_of_ofKind? hop rfl)
    refine wp_oneOf_seen hop ?_
    refine wp_bind_within (term_within (by omega)) fun _ s₁ h₂ => ?_
    have h₃ := s₁.size_le_held
    refine wp_read_within (by simp only [rank]; omega) fun _ s₂ h₄ => ?_
    rw [pure_eq, wp_done]
    omega
  · simp only [pure_eq, wp_done, Cursor.held_pushBack]
    exact h₁

/-- Reading on behind a token of the kind that is asked for, or failing. -/
theorem wp_expect_within {k : Kind} (hk : k ≠ .eof) {n : Nonterminal} {p : Procedure (Option α)}
    {Q : Option α → Cursor → Prop} (hp : s.next.2.size < s.size → p.wp (within m) Q s.next.2)
    (hfail : ∀ s', s'.held ≤ s.size → Q none s') :
    (expect k >>= fun b => if b then p else fail n).wp (within m) Q s := by
  rw [wp_bind, wp_expect]
  split
  · next h =>
    rw [decide_eq_true_eq] at h
    exact hp (Cursor.size_next_lt (by rwa [h]))
  · rw [wp_fail]
    exact hfail _ (held_fail_le s _)

/-- Reading on behind a name, or failing. -/
theorem wp_name_within {n : Nonterminal} {p : Token → Procedure (Option α)}
    {Q : Option α → Cursor → Prop}
    (hp : s.next.2.size < s.size → (p s.next.1).wp (within m) Q s.next.2)
    (hfail : ∀ s', s'.held ≤ s.size → Q none s') :
    (next >>= fun t => if t.kind = .identifier then p t else fail n).wp (within m) Q s := by
  rw [wp_bind, wp_next]
  split
  · next h => exact hp (Cursor.size_next_lt (by rw [h]; decide))
  · rw [wp_fail]
    exact hfail _ (held_fail_le s _)

/-- The part ends where nothing but its last token is left to ask for. -/
theorem wp_closing_within {k : Kind} {n : Nonterminal} {a : α} {b : Nat} (hb : s.size ≤ b) :
    (expect k >>= fun c => if c then (return some a) else fail n).wp (within m)
      (fun _ s' => s'.held ≤ b) s := by
  rw [wp_bind, wp_expect]
  split
  · exact Nat.le_trans s.held_next_le hb
  · exact Nat.le_trans (held_fail_le s _) hb

theorem assignment_within (hm : 2 * s.size ≤ m) :
    assignment.wp (within m) (fun _ s' => s'.held ≤ s.size) s := by
  refine wp_name_within (fun h₁ => ?_) fun _ h => h
  refine wp_expect_within (by decide) (fun h₂ => ?_) fun _ h => by omega
  refine wp_bind_within (simpleExpr_within (by omega)) fun _ s₁ h₃ => ?_
  rw [pure_eq, wp_done]
  omega

theorem conditional_within (hm : 2 * s.size ≤ m) :
    conditional.wp (within m) (fun _ s' => s'.held ≤ s.size) s := by
  refine wp_expect_within (by decide) (fun h₁ => ?_) fun _ h => h
  refine wp_read_within (by simp only [rank]; omega) fun _ s₁ h₂ => ?_
  have h₃ := s₁.size_le_held
  refine wp_expect_within (by decide) (fun h₄ => ?_) fun _ h => by omega
  refine wp_read_within (by simp only [rank]; omega) fun _ s₂ h₅ => ?_
  have h₆ := s₂.size_le_held
  have h₇ := s₂.held_next_le
  rw [wp_bind, wp_next]
  split
  · rw [pure_eq, wp_done]
    omega
  · next hk =>
    have h₈ : s₂.next.2.size < s₂.size := Cursor.size_next_lt (by rw [hk]; decide)
    refine wp_read_within (by simp only [rank]; omega) fun _ s₃ h₉ => ?_
    have h₁₀ := s₃.size_le_held
    exact wp_closing_within (by omega)
  · rw [wp_fail]
    have := held_fail_le s₂ Nonterminal.conditional.follow
    omega

/-- A head that begins with its word leaves less than there was. -/
theorem loopHead_within_lt (hm : 2 * s.size ≤ m) (hk : s.next.1.kind = .whileKw) :
    loopHead.wp (within m) (fun _ s' => s'.held < s.size) s := by
  have h₁ : s.next.2.size < s.size := Cursor.size_next_lt (by rw [hk]; decide)
  rw [loopHead, wp_bind, wp_expect]
  simp only [hk, decide_true, if_true]
  refine wp_read_within (by simp only [rank]; omega) fun _ s₁ h₂ => ?_
  have h₃ := s₁.size_le_held
  refine wp_mono ?_ _ (wp_closing_within (Nat.le_refl _))
  intro _ s₂ h₄
  omega

theorem whileLoop_within (hm : 2 * s.size ≤ m) (hk : s.next.1.kind = .whileKw) :
    whileLoop.wp (within m) (fun _ s' => s'.held ≤ s.size) s := by
  rw [whileLoop, wp_bind]
  refine wp_mono ?_ _ (loopHead_within_lt hm hk)
  intro _ s₁ h₁
  have h₂ := s₁.size_le_held
  refine wp_read_within (by simp only [rank]; omega) fun _ s₂ h₃ => ?_
  have h₄ := s₂.size_le_held
  exact wp_closing_within (by omega)

theorem loopExit_within (hm : 2 * s.size ≤ m) :
    loopExit.wp (within m) (fun _ s' => s'.held ≤ s.size) s := by
  refine wp_expect_within (by decide) (fun h₁ => ?_) fun _ h => h
  refine wp_read_within (by simp only [rank]; omega) fun _ s₁ h₂ => ?_
  rw [pure_eq, wp_done]
  omega

theorem repeatLoop_within (hm : 2 * s.size ≤ m) :
    repeatLoop.wp (within m) (fun _ s' => s'.held ≤ s.size) s := by
  refine wp_expect_within (by decide) (fun h₁ => ?_) fun _ h => h
  refine wp_read_within (by simp only [rank]; omega) fun _ s₁ h₂ => ?_
  have h₃ := s₁.size_le_held
  refine wp_bind_within (loopExit_within (by omega)) fun _ s₂ h₄ => ?_
  rw [pure_eq, wp_done]
  omega

theorem opening_within (word : Kind) :
    (opening word).wp (within m) (fun _ s' => s'.held ≤ s.size) s := by
  have h₁ := s.held_next_le
  have h₂ := s.next.2.held_next_le
  have h₃ := s.next.2.size_le_held
  rw [opening, wp_bind, wp_expect]
  split
  · rw [wp_expect]
    omega
  · exact h₁

theorem reading_within : reading.wp (within m) (fun _ s' => s'.held ≤ s.size) s := by
  refine wp_bind_within (opening_within _) fun b s₁ h₁ => ?_
  have h₂ := s₁.size_le_held
  split
  · refine wp_name_within (fun h₃ => ?_) fun _ h => by omega
    exact wp_closing_within (by omega)
  · rw [wp_fail]
    have := held_recover_le s₁ Nonterminal.reading.follow
    omega

theorem writable_within (hm : 2 * s.size < m) :
    writable.wp (within m) (fun _ s' => s'.held ≤ s.size) s := by
  have hback := s.size_pushBack_next_le
  rw [writable, wp_bind, wp_next]
  split
  · exact s.held_next_le
  iterate 7
    rw [wp_bind, wp_pushBack]
    refine wp_bind_within (simpleExpr_within (by omega)) fun _ s₁ h₁ => ?_
    rw [pure_eq, wp_done]
    omega
  · exact held_fail_le s _

/-- The parenthesis is drawn only behind the word, so that less is left than there was. -/
theorem opening_within_lt {word : Kind} (hword : word ≠ .eof) :
    (opening word).wp (within m)
      (fun b s' => s'.held ≤ s.size ∧ (b = true → s'.held < s.size)) s := by
  have h₁ := s.held_next_le
  have h₂ := s.next.2.held_next_le
  rw [opening, wp_bind, wp_expect]
  split
  · next h =>
    rw [decide_eq_true_eq] at h
    have h₃ : s.next.2.size < s.size := Cursor.size_next_lt (by rwa [h])
    rw [wp_expect]
    omega
  · exact ⟨h₁, fun h => absurd h (by decide)⟩

theorem writing_within (hm : 2 * s.size ≤ m) :
    writing.wp (within m) (fun _ s' => s'.held ≤ s.size) s := by
  rw [writing, wp_bind]
  refine wp_mono ?_ _ (opening_within_lt (by decide))
  rintro b s₁ ⟨h₁, h₂⟩
  have h₃ := s₁.size_le_held
  split
  · next hb =>
    have h₄ := h₂ hb
    refine wp_bind_within (writable_within (by omega)) fun _ s₂ h₅ => ?_
    have h₆ := s₂.size_le_held
    have h₇ := s₂.held_next_le
    rw [wp_bind, wp_expect]
    split
    · rw [pure_eq, wp_done]
      omega
    · simp only [wp_bind, wp_recover, pure_eq, wp_done]
      have := held_fail_le s₂ Nonterminal.writing.follow
      omega
  · rw [wp_fail]
    have := held_recover_le s₁ Nonterminal.writing.follow
    omega

theorem statement_within (hm : 2 * s.size ≤ m) :
    statement.wp (within m) (fun _ s' => s'.held ≤ s.size) s := by
  have hback := s.size_pushBack_next_le
  have hle : ∀ (a : Option Stmt) (s' : Cursor), s'.held ≤ s.next.2.pushBack.size →
      s'.held ≤ s.size := fun _ _ h => Nat.le_trans h hback
  rw [statement, wp_bind, wp_peek]
  split
  · exact wp_mono hle _ (assignment_within (by omega))
  · exact wp_mono hle _ reading_within
  · exact wp_mono hle _ (writing_within (by omega))
  · exact wp_mono hle _ (conditional_within (by omega))
  · next hk =>
    exact wp_mono hle _ (whileLoop_within (by omega) (by rwa [Cursor.next_pushBack_next]))
  · exact wp_mono hle _ (repeatLoop_within (by omega))
  · rw [wp_fail]
    refine Nat.le_trans (held_recover_le _ _) ?_
    rw [Cursor.held_pushBack]
    exact s.held_next_le

theorem moreStatements_within (hm : 2 * s.size ≤ m) :
    moreStatements.wp (within m) (fun _ s' => s'.held ≤ s.size) s := by
  rw [moreStatements, wp_bind, wp_expect]
  split
  · next h =>
    rw [decide_eq_true_eq] at h
    have h₁ : s.next.2.size < s.size := Cursor.size_next_lt (by rw [h]; decide)
    refine wp_bind_within (statement_within (by omega)) fun _ s₁ h₂ => ?_
    have h₃ := s₁.size_le_held
    refine wp_read_within (by simp only [rank]; omega) fun _ s₂ h₄ => ?_
    rw [pure_eq, wp_done]
    omega
  · simp only [wp_bind, wp_pushBack, pure_eq, wp_done, Cursor.held_pushBack]
    exact s.held_next_le

theorem statements_within (hm : 2 * s.size < m) :
    statements.wp (within m) (fun _ s' => s'.held ≤ s.size) s := by
  refine wp_bind_within (statement_within (by omega)) fun _ s₁ h₁ => ?_
  have h₂ := s₁.size_le_held
  refine wp_read_within (by simp only [rank]; omega) fun _ s₂ h₃ => ?_
  rw [pure_eq, wp_done]
  omega

theorem moreNames_within (hm : 2 * s.size ≤ m) :
    moreNames.wp (within m) (fun _ s' => s'.held ≤ s.size) s := by
  have h₁ := s.held_next_le
  have h₂ := s.next.2.size_le_held
  rw [moreNames, wp_bind, wp_expect]
  split
  · refine wp_name_within (fun h₃ => ?_) fun _ h => by omega
    refine wp_read_within (by simp only [rank]; omega) fun _ s₁ h₄ => ?_
    rw [pure_eq, wp_done]
    omega
  · simp only [wp_bind, wp_pushBack, pure_eq, wp_done, Cursor.held_pushBack]
    exact h₁

theorem names_within (hm : 2 * s.size ≤ m) :
    names.wp (within m) (fun _ s' => s'.held ≤ s.size) s := by
  refine wp_name_within (fun h₁ => ?_) fun _ h => h
  refine wp_read_within (by simp only [rank]; omega) fun _ s₁ h₂ => ?_
  rw [pure_eq, wp_done]
  omega

theorem declaration_within (hm : 2 * s.size ≤ m) :
    declaration.wp (within m) (fun _ s' => s'.held ≤ s.size) s := by
  refine wp_bind_within (oneOf_within _ _) fun _ s₁ h₁ => ?_
  have h₂ := s₁.size_le_held
  refine wp_bind_within (names_within (by omega)) fun _ s₂ h₃ => ?_
  rw [pure_eq, wp_done]
  omega

theorem declarationAndMore_within (hm : 2 * s.size ≤ m) :
    declarationAndMore.wp (within m) (fun _ s' => s'.held ≤ s.size) s := by
  refine wp_bind_within (declaration_within hm) fun _ s₁ h₁ => ?_
  have h₂ := s₁.size_le_held
  refine wp_expect_within (by decide) (fun h₃ => ?_) fun _ h => by omega
  refine wp_read_within (by simp only [rank]; omega) fun _ s₂ h₄ => ?_
  rw [pure_eq, wp_done]
  omega

theorem moreDeclarations_within (hm : 2 * s.size ≤ m) :
    moreDeclarations.wp (within m) (fun _ s' => s'.held ≤ s.size) s := by
  have hback := s.size_pushBack_next_le
  rw [moreDeclarations, wp_bind, wp_peek]
  split
  · refine wp_mono ?_ _ (declarationAndMore_within (by omega))
    intro _ s₁ h₁
    omega
  · simp only [pure_eq, wp_done, Cursor.held_pushBack]
    exact s.held_next_le

end Production

namespace Phrase

/-- The procedure of a phrase keeps to calls of lesser measure, and leaves no more than there was.
-/
theorem procedure_within (p : Phrase) (s : Cursor) :
    p.procedure.wp (within (p.measure s)) (fun _ s' => s'.held ≤ s.size) s := by
  cases p with
  | expression => exact Production.expression_within (Nat.lt_succ_self _)
  | simpleTail => exact Production.simpleTail_within (Nat.le_refl _)
  | termTail => exact Production.termTail_within (Nat.le_refl _)
  | statements => exact Production.statements_within (Nat.lt_succ_self _)
  | moreStatements => exact Production.moreStatements_within (Nat.le_refl _)
  | moreNames => exact Production.moreNames_within (Nat.le_refl _)
  | moreDeclarations => exact Production.moreDeclarations_within (Nat.le_refl _)

end Phrase

end Routine
