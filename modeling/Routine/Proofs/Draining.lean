import Routine.Proofs.Depth

/-!
# Drawing up to the first end and no further

A cursor is `Ready` if no end of the input is among the tokens it has consumed: an end that was
drawn has been handed back. A ready cursor may draw; the token it gets may be the end, which has to
be handed back before anything else is drawn. `Drains` and `DrainsHeld` say that a procedure keeps to
that, before and after a token has been drawn. Recovery ends the same way, in front of a token of its
stop set or of the end.
-/

namespace Routine

open Cursor Procedure Production

/-- Recovery from a fault in any part stops at the end. -/
theorem Nonterminal.eof_mem_followKinds (n : Nonterminal) : .eof ∈ n.followKinds := by
  cases n <;> decide

namespace Cursor
variable {s : Cursor} {t : Token}

/-- No end of the input has been consumed. -/
structure Ready (s : Cursor) : Prop where
  linked : s.Linked
  consumed : ∀ t ∈ s.consumed, t.kind ≠ .eof

theorem pushBack_of_not_taken (h : ∀ t, s.slot ≠ .taken t) : s.pushBack = s := by
  unfold pushBack
  split
  · next t ht => exact absurd ht (h t)
  · rfl
  · rfl

theorem pushBack_reject (s : Cursor) : s.reject.pushBack = s.pushBack.reject := by
  cases hs : s.slot <;> simp [Cursor.pushBack, Cursor.reject, Cursor.report, Cursor.note, position, hs]

theorem consumed_of_taken (h : s.Linked) (ht : s.slot = .taken t) :
    s.consumed = s.pushBack.consumed ++ [t] := by
  have hp := slot_pushBack_of_taken ht
  rw [← (h.pushBack.drawn_of_pending hp).2, feed_pushBack, consumed_of_not_pending (by simp [ht])]

namespace Ready

theorem ofFeed {f : Feed} (h : f.drawn = #[]) : (ofFeed f).Ready :=
  ⟨linked_ofFeed h, by simp [Cursor.consumed, Cursor.ofFeed, h]⟩

theorem pushBack (h : s.Ready) : s.pushBack.Ready := by
  refine ⟨h.linked.pushBack, fun t ht => h.consumed t ?_⟩
  cases hs : s.slot with
  | taken u =>
    rw [consumed_of_taken h.linked hs]
    exact List.mem_append_left _ ht
  | empty | pending u => rwa [pushBack_of_not_taken (by simp [hs])] at ht

/-- A token that was handed back may be taken again unless it is the end. -/
theorem of_pushBack (hl : s.Linked) (h : s.pushBack.Ready) (ht : s.slot = .taken t)
    (hk : t.kind ≠ .eof) : s.Ready := by
  refine ⟨hl, fun u hu => ?_⟩
  rw [consumed_of_taken hl ht, List.mem_append, List.mem_singleton] at hu
  rcases hu with hu | rfl
  · exact h.consumed u hu
  · exact hk

theorem pushBack_next (h : s.Ready) : s.next.2.pushBack.Ready := by
  obtain ⟨bad, hbad, hmove, -⟩ := h.linked.next_spec
  refine ⟨h.linked.next.pushBack, fun t ht => ?_⟩
  rw [(hmove.pushBack h.linked.next s.slot_next).consumed, List.mem_append] at ht
  rcases ht with ht | ht
  · exact h.consumed t ht
  · rw [hbad t ht]; decide

theorem next (h : s.Ready) (hk : s.next.1.kind ≠ .eof) : s.next.2.Ready :=
  of_pushBack h.linked.next h.pushBack_next s.slot_next hk

theorem note (h : s.Ready) (e : Event) : (s.note e).Ready := ⟨h.linked, h.consumed⟩

theorem reject (h : s.Ready) : s.reject.Ready := ⟨h.linked, h.consumed⟩

end Ready

/-- Passing over tokens ends with one of the stop set, or the end, as the token handed out last. -/
theorem slot_skip (stop : KindSet) (count : Nat) (t : Token) (s : Cursor) (hs : s.slot = .taken t) :
    ∃ u, (skip stop count t s).cursor.slot = .taken u ∧ (stop.contains u.kind ∨ u.kind = .eof) := by
  fun_induction skip stop count t s with
  | case1 count t s hstop => exact ⟨t, hs, by simpa using hstop⟩
  | case2 count t s hstop o ih => exact ih (slot_fetch _)

theorem slot_synchronize (stop : KindSet) (s : Cursor) :
    ∃ u, (s.synchronize stop).slot = .pending u ∧ (stop.contains u.kind ∨ u.kind = .eof) := by
  obtain ⟨u, hu, hstop⟩ := slot_skip stop 0 _ _ s.pushBack.slot_next
  exact ⟨u, slot_pushBack_of_taken hu, hstop⟩

theorem Ready.skip (stop : KindSet) (count : Nat) (t : Token) (s : Cursor) (hl : s.Linked)
    (hs : s.slot = .taken t) (h : s.pushBack.Ready) : (skip stop count t s).cursor.pushBack.Ready := by
  fun_induction Cursor.skip stop count t s with
  | case1 => exact h
  | case2 count t s hstop o ih =>
    -- passing over would have stopped at the end, so `t` may be consumed
    have hready : s.Ready := .of_pushBack hl h hs (by simp_all)
    have hnote : ∀ u, (s.note (.skipped t.kind t.position)).slot ≠ .pending u := by
      simp [Cursor.note, hs]
    refine ih (Linked.fetch _) (slot_fetch _) ?_
    have hnext := (hready.note (.skipped t.kind t.position)).pushBack_next
    rwa [next_of_not_pending hnote] at hnext

/-- Recovery may begin at the end, and hands it back. -/
theorem Ready.synchronize (stop : KindSet) (h : s.pushBack.Ready) : (s.synchronize stop).Ready :=
  (Ready.skip stop 0 _ _ h.linked.next s.pushBack.slot_next h.pushBack_next).note _

end Cursor

/-- A phrase is read from a ready cursor and leaves one. -/
def draining : Contract where
  pre _ s := s.Ready
  post _ _ _ s' := s'.Ready

/-- From a ready cursor the procedure leaves a ready one. -/
def Drains {α : Type} (q : Procedure α) : Prop :=
  ∀ s, s.Ready → q.wp draining (fun _ s' => s'.Ready) s

/-- As `Drains`, but the token handed out last may be the end. -/
def DrainsHeld {α : Type} (q : Procedure α) : Prop :=
  ∀ s, s.pushBack.Ready → q.wp draining (fun _ s' => s'.Ready) s

section
variable {α β : Type} {n : Nonterminal}

namespace DrainsHeld

theorem drains {q : Procedure α} (hq : DrainsHeld q) : Drains q := fun s h => hq s h.pushBack

theorem pushBack_bind {k : Unit → Procedure β} (hk : Drains (k ())) :
    DrainsHeld (Procedure.pushBack >>= k) := by
  intro s h
  rw [wp_bind, wp_pushBack]
  exact hk _ h

theorem recover_bind {k : Unit → Procedure β} (hk : Drains (k ())) : DrainsHeld (recover n >>= k) := by
  intro s h
  rw [wp_bind, wp_recover]
  refine hk _ (Ready.synchronize _ ?_)
  rw [pushBack_reject]
  exact h.reject

theorem fail : DrainsHeld (Procedure.fail (α := α) n) := recover_bind fun _ h => h

end DrainsHeld

namespace Drains

theorem done (a : α) : Drains (Procedure.done a) := fun _ h => h

theorem bind {p : Procedure α} {k : α → Procedure β} (hp : Drains p) (hk : ∀ a, Drains (k a)) :
    Drains (p >>= k) := by
  intro s h
  rw [wp_bind]
  exact wp_mono (fun a s' h' => hk a s' h') p (hp s h)

theorem read (p : Phrase) : Drains (Procedure.read p) := fun _ h => ⟨h, fun _ _ h' => h'⟩

theorem next_bind {k : Token → Procedure β} (hk : ∀ t, t.kind ≠ .eof → Drains (k t))
    (hend : ∀ t, t.kind = .eof → DrainsHeld (k t)) : Drains (Procedure.next >>= k) := by
  intro s h
  rw [wp_bind, wp_next]
  by_cases ht : s.next.1.kind = .eof
  · exact hend _ ht _ h.pushBack_next
  · exact hk _ ht _ (h.next ht)

/-- A token that is looked at and handed back. -/
theorem peek_bind {k : Token → Procedure β} (hk : ∀ t, Drains (k t)) :
    Drains (Procedure.next >>= fun t => Procedure.pushBack >>= fun _ => k t) :=
  next_bind (fun t _ => (DrainsHeld.pushBack_bind (hk t)).drains)
    fun t _ => DrainsHeld.pushBack_bind (hk t)

theorem peek : Drains Procedure.peek := peek_bind fun t => done t.kind

theorem expect_bind {k : Kind} (hk : k ≠ .eof) {p q : Procedure β} (hp : Drains p)
    (hq : DrainsHeld q) : Drains (expect k >>= fun b => if b then p else q) := by
  intro s h
  rw [wp_bind, wp_expect]
  split
  · next ht => exact hp _ (h.next (by simp_all))
  · exact hq _ h.pushBack_next

theorem name_bind {p : Token → Procedure β} {q : Procedure β} (hp : ∀ t, Drains (p t))
    (hq : DrainsHeld q) :
    Drains (Procedure.next >>= fun t => if t.kind = .identifier then p t else q) := by
  refine next_bind (fun t _ => ?_) fun t ht => ?_
  · split
    · exact hp t
    · exact hq.drains
  · rw [ht]; exact hq

end Drains

end

theorem drains_oneOf {α : Type} {n : Nonterminal} {f : Kind → Option α} (hf : f .eof = none) :
    Drains (oneOf n f) := by
  refine .next_bind (fun t _ => ?_) fun t ht => ?_
  · split
    · exact .done _
    · exact DrainsHeld.fail.drains
  · rw [ht, hf]; exact .fail

theorem drains_constant : Drains constant := by
  refine .next_bind (fun t _ => ?_) fun t ht => ?_
  · split
    · exact .done _
    · exact DrainsHeld.fail.drains
  · have hnone : Constant.ofToken? t = none := by simp [Constant.ofToken?, ht]
    rw [hnone]; exact .fail

theorem drains_primary : Drains primary := by
  refine .next_bind (fun t _ => ?_) fun t ht => ?_
  · split
    · exact .done _
    iterate 3 exact (DrainsHeld.pushBack_bind (drains_constant.bind fun _ => .done _)).drains
    · exact (Drains.read _).bind fun e =>
        .expect_bind (by decide) (.done _) (.recover_bind (.done _))
    · exact DrainsHeld.fail.drains
  · rw [ht]; exact .fail

theorem drains_sign : Drains sign := by
  refine .next_bind (fun t _ => ?_) fun t ht => ?_
  · split
    · exact .done _
    · exact (DrainsHeld.pushBack_bind (.done _)).drains
  · rw [ht]; exact .pushBack_bind (.done _)

theorem drains_operand : Drains operand :=
  drains_sign.bind fun _ => drains_primary.bind fun _ => .done _

theorem drains_term : Drains term :=
  drains_operand.bind fun _ => (Drains.read _).bind fun _ => .done _

theorem drains_simpleExpr : Drains simpleExpr :=
  drains_term.bind fun _ => (Drains.read _).bind fun _ => .done _

theorem drains_termTail : Drains termTail := by
  refine .peek_bind fun t => ?_
  split
  · exact (drains_oneOf rfl).bind fun _ => drains_operand.bind fun _ =>
      (Drains.read _).bind fun _ => .done _
  · exact .done _

theorem drains_simpleTail : Drains simpleTail := by
  refine .peek_bind fun t => ?_
  split
  · exact (drains_oneOf rfl).bind fun _ => drains_term.bind fun _ =>
      (Drains.read _).bind fun _ => .done _
  · exact .done _

theorem drains_expression : Drains expression := by
  refine drains_simpleExpr.bind fun _ => .peek_bind fun t => ?_
  split
  · exact (drains_oneOf rfl).bind fun _ => drains_simpleExpr.bind fun _ => .done _
  · exact .done _

theorem drains_assignment : Drains assignment := by
  refine .name_bind (fun t => ?_) .fail
  exact .expect_bind (by decide) (drains_simpleExpr.bind fun _ => .done _) .fail

theorem drains_condition : Drains condition := .read _

theorem drains_conditional : Drains conditional := by
  refine .expect_bind (by decide) (drains_condition.bind fun cond => ?_) .fail
  refine .expect_bind (by decide) ((Drains.read _).bind fun thenBlock => ?_) .fail
  refine .next_bind (fun t _ => ?_) fun t ht => ?_
  · split
    · exact .done _
    · exact (Drains.read _).bind fun _ => .expect_bind (by decide) (.done _) .fail
    · exact DrainsHeld.fail.drains
  · rw [ht]; exact .fail

theorem drains_loopHead : Drains loopHead := by
  refine .expect_bind (by decide) (drains_condition.bind fun cond => ?_) .fail
  exact .expect_bind (by decide) (.done _) .fail

theorem drains_whileLoop : Drains whileLoop :=
  drains_loopHead.bind fun _ => (Drains.read _).bind fun _ =>
    .expect_bind (by decide) (.done _) .fail

theorem drains_loopExit : Drains loopExit :=
  .expect_bind (by decide) (drains_condition.bind fun _ => .done _) .fail

theorem drains_repeatLoop : Drains repeatLoop :=
  .expect_bind (by decide)
    ((Drains.read _).bind fun _ => drains_loopExit.bind fun _ => .done _) .fail

/-- The word or the parenthesis that is missing may be the end. -/
theorem drains_opening_bind {α : Type} {word : Kind} (hword : word ≠ .eof) {p q : Procedure α}
    (hp : Drains p) (hq : DrainsHeld q) : Drains (opening word >>= fun b => if b then p else q) := by
  intro s h
  rw [wp_bind, opening, wp_bind, wp_expect]
  split
  · next ht =>
    have h' : s.next.2.Ready := h.next (by simp_all)
    rw [wp_expect]
    split
    · next hp' => exact hp _ (h'.next (by simp_all))
    · exact hq _ h'.pushBack_next
  · exact hq _ h.pushBack_next

theorem drains_reading : Drains reading := by
  refine drains_opening_bind (by decide) (.name_bind (fun t => ?_) .fail) .fail
  exact .expect_bind (by decide) (.done _) .fail

theorem drains_writable : Drains writable := by
  refine .next_bind (fun t _ => ?_) fun t ht => ?_
  · split
    · exact .done _
    iterate 7 exact (DrainsHeld.pushBack_bind (drains_simpleExpr.bind fun _ => .done _)).drains
    · exact DrainsHeld.fail.drains
  · rw [ht]; exact .fail

theorem drains_writing : Drains writing := by
  refine drains_opening_bind (by decide) (drains_writable.bind fun value => ?_) .fail
  exact .expect_bind (by decide) (.done _) (.recover_bind (.done _))

theorem drains_statement : Drains statement := by
  refine Drains.peek.bind fun k => ?_
  split
  · exact drains_assignment
  · exact drains_reading
  · exact drains_writing
  · exact drains_conditional
  · exact drains_whileLoop
  · exact drains_repeatLoop
  · exact DrainsHeld.fail.drains

theorem drains_moreStatements : Drains moreStatements :=
  .expect_bind (by decide)
    (drains_statement.bind fun _ => (Drains.read _).bind fun _ => .done _)
    (.pushBack_bind (.done _))

theorem drains_statements : Drains statements :=
  drains_statement.bind fun _ => (Drains.read _).bind fun _ => .done _

theorem drains_moreNames : Drains moreNames :=
  .expect_bind (by decide)
    (.name_bind (fun _ => (Drains.read _).bind fun _ => .done _) .fail)
    (.pushBack_bind (.done _))

theorem drains_names : Drains names :=
  .name_bind (fun _ => (Drains.read _).bind fun _ => .done _) .fail

theorem drains_declaration : Drains declaration :=
  (drains_oneOf rfl).bind fun _ => drains_names.bind fun _ => .done _

theorem drains_declarationAndMore : Drains declarationAndMore :=
  drains_declaration.bind fun _ =>
    .expect_bind (by decide) ((Drains.read _).bind fun _ => .done _) .fail

theorem drains_moreDeclarations : Drains moreDeclarations := by
  refine Drains.peek.bind fun k => ?_
  split
  · exact drains_declarationAndMore
  · exact .done _

theorem drains_declarations : Drains declarations :=
  .expect_bind (by decide) drains_declarationAndMore .fail

theorem drains_declSection : Drains declSection := by
  refine Drains.peek.bind fun k => ?_
  split
  · exact .done _
  · refine drains_declarations.bind fun ds => ?_
    split
    · exact .done _
    · exact .done _

theorem drains_body : Drains body := by
  refine drains_declSection.bind fun ds => ?_
  refine .expect_bind (by decide) ((Drains.read _).bind fun block => ?_) .fail
  exact .expect_bind (by decide) (.done _) .fail

/-- The end of the input is next. -/
def Cursor.AtEnd (s : Cursor) : Prop := ∃ t, s.slot = .pending t ∧ t.kind = .eof

/-- Only the end may come behind a program. -/
theorem atEnd_synchronize_program (s : Cursor) :
    (s.synchronize Nonterminal.program.follow).AtEnd := by
  obtain ⟨u, hu, hstop⟩ := slot_synchronize Nonterminal.program.follow s
  refine ⟨u, hu, ?_⟩
  have hfollow : ∀ k, Nonterminal.program.follow.contains k = true → k = .eof := by
    intro k; cases k <;> decide
  exact hstop.elim (hfollow _) id

theorem program_atEnd {s : Cursor} (h : s.Ready) :
    program.wp draining (fun _ s' => s'.Ready ∧ s'.AtEnd) s := by
  have hstop : ∀ s' : Cursor, s'.pushBack.Ready →
      (s'.reject.synchronize Nonterminal.program.follow).Ready ∧
        (s'.reject.synchronize Nonterminal.program.follow).AtEnd := by
    intro s' h'
    refine ⟨Ready.synchronize _ ?_, atEnd_synchronize_program _⟩
    rw [pushBack_reject]
    exact h'.reject
  rw [program, wp_bind, wp_expect]
  split
  · next ht =>
    rw [wp_bind]
    refine wp_mono (fun b s₁ h₁ => ?_) _ (drains_body _ (h.next (by simp_all)))
    rw [wp_bind, wp_peek]
    split
    · next hk =>
      exact ⟨h₁.pushBack_next, _, slot_pushBack_of_taken s₁.slot_next, hk⟩
    · exact hstop _ (h₁.pushBack_next.note .leftover).pushBack
  · exact hstop _ h.pushBack_next

theorem drains_program : Drains program := fun _ h =>
  wp_mono (fun _ _ h' => h'.1) _ (program_atEnd h)

theorem drains_phrase (p : Phrase) : Drains p.procedure := by
  cases p with
  | expression => exact drains_expression
  | simpleTail => exact drains_simpleTail
  | termTail => exact drains_termTail
  | statements => exact drains_statements
  | moreStatements => exact drains_moreStatements
  | moreNames => exact drains_moreNames
  | moreDeclarations => exact drains_moreDeclarations

theorem drains_procedure (n : Nonterminal) : Drains n.procedure := by
  cases n with
  | program => exact drains_program
  | body => exact drains_body
  | declarations => exact drains_declarations
  | declaration => exact drains_declaration
  | names => exact drains_names
  | statements => exact drains_statements
  | statement => exact drains_statement
  | assignment => exact drains_assignment
  | conditional => exact drains_conditional
  | whileLoop => exact drains_whileLoop
  | repeatLoop => exact drains_repeatLoop
  | reading => exact drains_reading
  | writing => exact drains_writing
  | writable => exact drains_writable
  | loopHead => exact drains_loopHead
  | loopExit => exact drains_loopExit
  | condition => exact drains_condition
  | expression => exact drains_expression
  | simpleExpr => exact drains_simpleExpr
  | simpleTail => exact drains_simpleTail
  | term => exact drains_term
  | termTail => exact drains_termTail
  | operand => exact drains_operand
  | primary => exact drains_primary
  | constant => exact drains_constant
  | scalarType | addOp | mulOp | relOp => exact drains_oneOf rfl

/-! ### Sessions -/

namespace Cursor.Ready
variable {s : Cursor}

theorem parse (n : Nonterminal) (h : s.Ready) : (n.parse s).2.Ready :=
  n.post_parse (fun p s h => drains_phrase p s h) (drains_procedure n s h)

theorem apply (op : Operation) (h : s.Ready) : (op.apply s).Ready := by
  cases op with
  | parse n => exact h.parse n
  | reject => exact h.reject
  | synchronize stop => exact synchronize stop h.pushBack

theorem applyAll (ops : List Operation) (h : s.Ready) : (Operation.applyAll s ops).Ready := by
  induction ops generalizing s with
  | nil => exact h
  | cons op ops ih => exact ih (h.apply op)

/-- An end is the last token that was drawn. -/
theorem not_end_of_mem_pop (h : s.Ready) {t : Token} (ht : t ∈ s.feed.drawn.pop) : t.kind ≠ .eof := by
  have hmem : t ∈ s.feed.drawn.toList.dropLast := Array.mem_def.1 ht
  cases hs : s.slot with
  | pending u =>
    rw [(h.linked.drawn_of_pending hs).2, List.dropLast_concat] at hmem
    exact h.consumed t hmem
  | empty | taken u =>
    rw [← consumed_of_not_pending (by simp [hs])] at hmem
    exact h.consumed t (List.dropLast_subset _ hmem)

end Cursor.Ready

/-- A feed from which an end was drawn is left alone. -/
theorem Cursor.Ready.feed_apply {s : Cursor} (h : s.Ready) (op : Operation)
    (hend : ∃ t ∈ s.feed.drawn, t.kind = .eof) : (op.apply s).feed = s.feed := by
  obtain ⟨t, ht, hk⟩ := hend
  obtain ⟨m, hm⟩ := (kept_on s.feed).apply op ⟨0, rfl⟩
  cases m with
  | zero => exact hm
  | succ m =>
    -- behind what is drawn now, the end would not be the last
    refine absurd hk ((h.apply op).not_end_of_mem_pop (Array.mem_def.2 ?_))
    rw [Array.toList_pop, hm, Feed.toList_drawn_drop, List.dropLast_append_of_ne_nil (by simp)]
    exact List.mem_append_left _ (Array.mem_def.1 ht)

/-- There is but one first number with a property. -/
theorem first_unique {P : Nat → Prop} {i j : Nat} (hi : P i) (hbefore : ∀ k < i, ¬ P k) (hj : P j)
    (hbefore' : ∀ k < j, ¬ P k) : i = j := by
  rcases Nat.lt_trichotomy i j with hlt | heq | hgt
  · exact absurd hi (hbefore' i hlt)
  · exact heq
  · exact absurd hj (hbefore j hgt)

/-- At its end, a cursor that began with the feed has drawn just the tokens up to the first end. -/
theorem Cursor.AtEnd.first_end {f : Feed} {s : Cursor} (hf : f.drawn = #[]) (hon : s.On f)
    (hr : s.Ready) (hend : s.AtEnd) :
    (f.upcoming s.consumed.length).kind = .eof ∧
      (∀ j < s.consumed.length, (f.upcoming j).kind ≠ .eof) ∧
      s.feed.drawn.toList = f.take (s.consumed.length + 1) ∧
      s.feed.drawn.toList = s.consumed ++ [f.upcoming s.consumed.length] := by
  obtain ⟨t, ht, hk⟩ := hend
  have hdrawn := (hr.linked.drawn_of_pending ht).2
  have htake := (hon.drawn hf).1
  have hpulls : s.feed.pulls = s.consumed.length + 1 := by
    rw [Feed.pulls, ← Array.length_toList, hdrawn, List.length_append, List.length_singleton]
  rw [hpulls] at htake
  have hget : ∀ j < s.consumed.length + 1, (s.consumed ++ [t])[j]? = some (f.upcoming j) := by
    intro j hj
    rw [← hdrawn, htake, f.getElem?_take hj]
  have hlast : t = f.upcoming s.consumed.length := by simpa using hget s.consumed.length (by omega)
  refine ⟨hlast ▸ hk, fun j hj => ?_, htake, hlast ▸ hdrawn⟩
  have hmem := hget j (by omega)
  rw [List.getElem?_append_left hj] at hmem
  exact hr.consumed _ (List.mem_of_getElem? hmem)

theorem parse_on (f : Feed) : (parse f).cursor.On f :=
  (kept_on f).parse Nonterminal.program (.ofFeed f)

theorem parse_ready_atEnd {f : Feed} (hf : f.drawn = #[]) :
    (parse f).cursor.Ready ∧ (parse f).cursor.AtEnd :=
  Nonterminal.program.post_parse (fun p s h => drains_phrase p s h) (program_atEnd (.ofFeed hf))

/-- Parsing comes to its end, and with the first end of the feed as the last token it draws. In a
session every operation comes to its end, and no token is drawn once an end has been. -/
theorem parse_draws_to_first_end (f : Feed) (hf : f.drawn = #[]) :
    (∀ d, 2 * f.size + 2 ≤ d → Production.program.runUpTo (Phrase.readUpTo d) (.ofFeed f) =
        some ((parse f).program, (parse f).cursor)) ∧
      (∃ i, (f.upcoming i).kind = .eof ∧ (∀ j < i, (f.upcoming j).kind ≠ .eof) ∧
        (parse f).cursor.feed.pulls = i + 1 ∧
        (parse f).cursor.feed.drawn.back? = some (f.upcoming i)) ∧
      ∀ ops : List Operation, let s := Operation.applyAll (.ofFeed f) ops
        (∀ (n : Nonterminal) (d : Nat), 2 * s.held + 2 ≤ d →
          n.procedure.runUpTo (Phrase.readUpTo d) s = some (n.parse s)) ∧
        (∀ t ∈ s.feed.drawn.pop, t.kind ≠ .eof) ∧
        ∀ op : Operation, (∃ t ∈ s.feed.drawn, t.kind = .eof) → (op.apply s).feed = s.feed := by
  refine ⟨fun d hd => Production.program.runUpTo_eq hd, ?_, fun ops => ?_⟩
  · obtain ⟨hr, hend⟩ := parse_ready_atEnd hf
    obtain ⟨hk, hbefore, htake, hdrawn⟩ := hend.first_end hf (parse_on f) hr
    refine ⟨_, hk, hbefore, ?_, ?_⟩
    · rw [Feed.pulls, ← Array.length_toList, htake, Feed.length_take]
    · rw [← Array.getLast?_toList, hdrawn, List.getLast?_concat]
  · have hr : (Operation.applyAll (.ofFeed f) ops).Ready := (Ready.ofFeed hf).applyAll ops
    exact ⟨fun n d hd => n.procedure.runUpTo_eq hd, fun t ht => hr.not_end_of_mem_pop ht,
      hr.feed_apply⟩

theorem parse_draws_two_of_three :
    (Feed.ofTokens [⟨.semicolon, ⟨1, 1⟩, none⟩, ⟨.eof, ⟨1, 2⟩, none⟩, ⟨.plus, ⟨1, 3⟩, none⟩]).drawn =
        #[] ∧
      (parse (.ofTokens [⟨.semicolon, ⟨1, 1⟩, none⟩, ⟨.eof, ⟨1, 2⟩, none⟩,
        ⟨.plus, ⟨1, 3⟩, none⟩])).cursor.feed.pulls = 2 := by
  refine ⟨rfl, ?_⟩
  obtain ⟨-, ⟨i, hk, hbefore, hpulls, -⟩, -⟩ := parse_draws_to_first_end
    (.ofTokens [⟨.semicolon, ⟨1, 1⟩, none⟩, ⟨.eof, ⟨1, 2⟩, none⟩, ⟨.plus, ⟨1, 3⟩, none⟩]) rfl
  have hi : i = 1 := by
    match i with
    | 0 => exact absurd hk (by decide)
    | 1 => rfl
    | i + 2 => exact absurd rfl (hbefore 1 (by omega))
  rw [hpulls, hi]

end Routine
