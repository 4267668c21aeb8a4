import Routine.Proofs.Completeness
import Routine.Proofs.Draining

/-!
# What is read without a report is what its tree spells

`Accepts f Q q` says of a procedure that, somewhere in the feed `f`, it either reports something or
passes over tokens that spell terminals `xs` with `Q a xs` for its result `a`. Once something has been
reported nothing more is asked, so that only the paths without a report have to be followed.
`AcceptsHeld` is the same with a token that has been drawn and may be handed back.
-/

namespace Routine

open Cursor Procedure Production

/-- The cursor is somewhere in the feed. -/
def Cursor.Within (f : Feed) (s : Cursor) : Prop := s.Linked ∧ s.On f

theorem kept_within (f : Feed) : Kept (Cursor.Within f) := kept_linked.and (kept_on f)

/-- Every token of the feed that should have a value has one. -/
def Feed.Valued (f : Feed) : Prop := f.drawn = #[] ∧ ∀ i, (f.upcoming i).Valued

namespace Cursor
variable {f : Feed} {s s' : Cursor}

theorem diagnostics_next (s : Cursor) : s.diagnostics.size ≤ s.next.2.diagnostics.size := by
  obtain ⟨bad, hbad⟩ := s.reports_next
  rw [hbad, Array.size_append]
  exact Nat.le_add_right ..

theorem diagnostics_reject (s : Cursor) : s.reject.diagnostics.size = s.diagnostics.size + 1 := by
  simp [reject, report, note]

/-- Diagnostics are only ever added. -/
theorem kept_diagnostics (d : Nat) : Kept fun s => d ≤ s.diagnostics.size where
  next h := Nat.le_trans h (diagnostics_next _)
  pushBack h := by rwa [diagnostics_pushBack]
  reject h := by rw [diagnostics_reject]; omega
  note _ h := h

/-- Every invalid token that was drawn has been reported. -/
theorem kept_valid :
    Kept fun s => s.diagnostics = #[] → ∀ t ∈ s.feed.drawn.toList, t.kind ≠ .invalid where
  next := by
    intro s h hclean
    cases hs : s.slot with
    | pending t =>
      obtain ⟨-, hfeed, hdiag⟩ := next_pending hs
      rw [hfeed]
      exact h (hdiag ▸ hclean)
    | empty | taken t =>
      have hkind := s.fetch_kind_ne_invalid
      obtain ⟨bad, -, htake, hfetch⟩ := s.fetch_spec
      rw [next_of_not_pending (by simp [hs]), hfetch] at hclean ⊢
      obtain ⟨hdiag, hbad⟩ := Array.append_eq_empty_iff.1 hclean
      -- there is one report for each invalid token that is passed over
      obtain rfl : bad = [] := by simpa using hbad
      rw [Feed.toList_drawn_drop, htake, List.nil_append]
      intro u hu
      rcases List.mem_append.1 hu with hu | hu
      · exact h hdiag u hu
      · rwa [List.mem_singleton.1 hu]
  pushBack h := by rwa [diagnostics_pushBack, feed_pushBack]
  reject _ hclean := by simp [reject, report] at hclean
  note _ h := h

theorem Within.upcoming (h : s.Within f) (hf : f.drawn = #[]) (i : Nat) :
    ∃ j, s.upcoming i = f.upcoming j := by
  obtain ⟨hl, n, hn⟩ := h
  have hfeed : ∀ i, s.feed.upcoming i = f.upcoming (n + i) := fun i => by rw [hn, Feed.upcoming_drop]
  cases hs : s.slot with
  | empty | taken t =>
    rw [upcoming_of_not_pending (by simp [hs])]
    exact ⟨_, hfeed i⟩
  | pending t =>
    cases i with
    | zero =>
      rw [(upcoming_of_pending hs).1]
      have hmem : t ∈ s.feed.drawn.toList := by rw [(hl.drawn_of_pending hs).2]; simp
      rw [hn, Feed.toList_drawn_drop, hf] at hmem
      obtain ⟨j, -, hj⟩ := Feed.mem_take hmem
      exact ⟨j, hj.symm⟩
    | succ i =>
      rw [(upcoming_of_pending hs).2]
      exact ⟨_, hfeed i⟩

theorem Within.next (h : s.Within f) (hf : f.drawn = #[]) : ∃ j, s.next.1 = f.upcoming j := by
  obtain ⟨bad, -, hmove, -⟩ := h.1.next_spec
  have hlast := (begins_append.1 hmove.begins).2 0 s.next.1 rfl
  obtain ⟨j, hj⟩ := h.upcoming hf (bad.length + 0)
  exact ⟨j, hlast.symm.trans hj⟩

end Cursor

/-- From `s` to `s'`, something was reported, or the tokens passed over spell what `Q` says. -/
def Accepted {α : Type} (f : Feed) (Q : α → List Terminal → Prop) (s : Cursor) (a : α) (s' : Cursor) :
    Prop :=
  s'.Within f ∧ (s.diagnostics.size < s'.diagnostics.size ∨
    ∃ xs ts, Q a xs ∧ Spelled xs ts ∧ s.Passes ts s')

theorem Accepted.diagnostics_le {α : Type} {f : Feed} {Q : α → List Terminal → Prop} {s s' : Cursor}
    {a : α} (h : Accepted f Q s a s') : s.diagnostics.size ≤ s'.diagnostics.size := by
  obtain ⟨-, hrep | ⟨xs, ts, -, -, hpass⟩⟩ := h
  · exact Nat.le_of_lt hrep
  · exact Nat.le_of_eq (congrArg Array.size hpass.diagnostics.symm)

/-- A phrase is read from what its tree spells, or something is reported. -/
def accepting (f : Feed) : Contract where
  pre _ s := s.Within f
  post p s x s' := Accepted f (fun x xs => p.Whole x ∧ xs = p.yield x) s x s'

section
variable {α β : Type} {f : Feed} {n : Nonterminal} {Q : α → List Terminal → Prop} {t : Token}

/-- Whatever is done after a report, it has been made. -/
theorem wp_reported {s : Cursor} {d : Nat} (q : Procedure α) (h : s.Within f)
    (hd : d ≤ s.diagnostics.size) :
    q.wp (accepting f) (fun _ s' => s'.Within f ∧ d ≤ s'.diagnostics.size) s := by
  refine ((kept_within f).and (kept_diagnostics d)).wp (fun p s h => ⟨h.1, fun x s' hpost => ?_⟩) q
    ⟨h, hd⟩
  have hpost : Accepted f (fun x xs => p.Whole x ∧ xs = p.yield x) s x s' := hpost
  exact ⟨hpost.1, Nat.le_trans h.2 hpost.diagnostics_le⟩

/-- On the feed, the procedure passes over tokens that spell what `Q` says of its result, or reports
something. -/
def Accepts (f : Feed) (Q : α → List Terminal → Prop) (q : Procedure α) : Prop :=
  ∀ s, s.Within f → q.wp (accepting f) (Accepted f Q s) s

/-- As `Accepts`, but behind the token `t`, which has been drawn. -/
def AcceptsHeld (f : Feed) (t : Token) (Q : α → List Terminal → Prop) (q : Procedure α) : Prop :=
  ∀ s s', s'.Within f → s'.slot = .taken t → s.Passes [t] s' → q.wp (accepting f) (Accepted f Q s) s'

/-- The procedure reports something. -/
def Reports (f : Feed) (q : Procedure α) : Prop :=
  ∀ s, s.Within f → q.wp (accepting f)
    (fun _ s' => s'.Within f ∧ s.diagnostics.size < s'.diagnostics.size) s

theorem Reports.recover_bind {k : Unit → Procedure β} : Reports f (recover n >>= k) := by
  intro s h
  rw [wp_bind, wp_recover]
  have hreject := diagnostics_reject s
  exact wp_reported _ ((kept_within f).synchronize _ ((kept_within f).reject h))
    ((kept_diagnostics _).synchronize _ (Nat.le_of_eq hreject.symm))

theorem Reports.fail : Reports f (Procedure.fail (α := α) n) := recover_bind

theorem Reports.note_bind {e : Event} {k : Unit → Procedure β} (hk : Reports f (k ())) :
    Reports f (Procedure.note e >>= k) := fun s h => hk (s.note e) h

theorem Reports.accepts {q : Procedure α} (h : Reports f q) : Accepts f Q q :=
  fun s hs => wp_mono (fun _ _ h' => ⟨h'.1, .inl h'.2⟩) _ (h s hs)

/-- The procedure reads a whole tree of the part from what it spells, or reports something. -/
def AcceptsTree (f : Feed) (n : Nonterminal) (q : Procedure n.Result) : Prop :=
  Accepts f (fun t xs => n.Whole t ∧ xs = n.yield t) q

namespace AcceptsHeld

/-- The token that was drawn is passed over. -/
theorem take {x : Terminal} {q : Procedure α} (hx : x.SpelledBy t)
    (hq : Accepts f (fun a ys => Q a (x :: ys)) q) : AcceptsHeld f t Q q := by
  intro s s' h' _ hpass
  refine wp_mono ?_ _ (hq s' h')
  rintro a s₁ ⟨h₁, hrep | ⟨ys, ts, hQ, hys, hpass₁⟩⟩
  · exact ⟨h₁, .inl (by rwa [← hpass.diagnostics])⟩
  · exact ⟨h₁, .inr ⟨x :: ys, t :: ts, hQ, ⟨hx, hys⟩, hpass.trans hpass₁⟩⟩

/-- The token that was drawn is handed back. -/
theorem pushBack_bind {k : Unit → Procedure α} (hk : Accepts f Q (k ())) :
    AcceptsHeld f t Q (Procedure.pushBack >>= k) := by
  intro s s' h' hs' hpass
  rw [wp_bind, wp_pushBack]
  have hmove : s.Moves ([] ++ [t]) s' := hpass.toMoves
  have hpass' : s.Passes [] s'.pushBack :=
    ⟨hmove.pushBack hpass.linked hs', hpass.linked.pushBack,
      by rw [diagnostics_pushBack, hpass.diagnostics]⟩
  refine wp_mono ?_ _ (hk _ ((kept_within f).pushBack h'))
  rintro a s₁ ⟨h₁, hrep | ⟨ys, ts, hQ, hys, hpass₁⟩⟩
  · exact ⟨h₁, .inl (by rwa [← hpass'.diagnostics])⟩
  · exact ⟨h₁, .inr ⟨ys, ts, hQ, hys, hpass'.trans hpass₁⟩⟩

theorem of_reports {q : Procedure α} (hq : Reports f q) : AcceptsHeld f t Q q := by
  intro s s' h' _ hpass
  refine wp_mono ?_ _ (hq s' h')
  rintro a s₁ ⟨h₁, hrep⟩
  exact ⟨h₁, .inl (by rwa [← hpass.diagnostics])⟩

theorem fail {Q : Option α → List Terminal → Prop} : AcceptsHeld f t Q (Procedure.fail n) :=
  of_reports .fail

end AcceptsHeld

namespace Accepts

theorem mono {Q' : α → List Terminal → Prop} {q : Procedure α} (hq : Accepts f Q q)
    (h : ∀ a xs, Q a xs → Q' a xs) : Accepts f Q' q := by
  intro s hs
  refine wp_mono ?_ _ (hq s hs)
  rintro a s' ⟨hs', hrep | ⟨xs, ts, hQ, hxs, hpass⟩⟩
  · exact ⟨hs', .inl hrep⟩
  · exact ⟨hs', .inr ⟨xs, ts, h a xs hQ, hxs, hpass⟩⟩

theorem done {a : α} (h : Q a []) : Accepts f Q (.done a) :=
  fun _ hs => ⟨hs, .inr ⟨[], [], h, trivial, .refl hs.1⟩⟩

theorem bind {P : β → List Terminal → Prop} {p : Procedure β} {k : β → Procedure α}
    (hp : Accepts f P p) (hk : ∀ b xs, P b xs → Accepts f (fun a ys => Q a (xs ++ ys)) (k b)) :
    Accepts f Q (p >>= k) := by
  intro s h
  rw [wp_bind]
  refine wp_mono ?_ _ (hp s h)
  rintro b s₁ ⟨h₁, hrep | ⟨xs, ts, hP, hxs, hpass⟩⟩
  · exact wp_mono (fun _ _ h' => ⟨h'.1, .inl h'.2⟩) _ (wp_reported _ h₁ hrep)
  · refine wp_mono ?_ _ (hk b xs hP s₁ h₁)
    rintro a s₂ ⟨h₂, hrep | ⟨ys, us, hQ, hys, hpass'⟩⟩
    · exact ⟨h₂, .inl (by rwa [← hpass.diagnostics])⟩
    · exact ⟨h₂, .inr ⟨xs ++ ys, ts ++ us, hQ, hxs.append hys, hpass.trans hpass'⟩⟩

theorem read (p : Phrase) : Accepts f (fun x xs => p.Whole x ∧ xs = p.yield x) (Procedure.read p) :=
  fun _ h => ⟨h, fun _ _ hpost => hpost⟩

theorem next_bind {k : Token → Procedure α} (hf : f.Valued)
    (hk : ∀ t, t.Valued → AcceptsHeld f t Q (k t)) : Accepts f Q (Procedure.next >>= k) := by
  intro s h
  rw [wp_bind, wp_next]
  have h' : s.next.2.Within f := (kept_within f).next h
  by_cases hrep : s.diagnostics.size < s.next.2.diagnostics.size
  · exact wp_mono (fun _ _ h' => ⟨h'.1, .inl h'.2⟩) _ (wp_reported _ h' hrep)
  · obtain ⟨j, hj⟩ := h.next hf.1
    exact hk _ (hj ▸ hf.2 j) s _ h' s.slot_next (h.1.passes_next (Nat.le_of_not_lt hrep))

/-- A token that is looked at and handed back. -/
theorem peek_bind {k : Token → Procedure α} (hf : f.Valued) (hk : ∀ t, Accepts f Q (k t)) :
    Accepts f Q (Procedure.next >>= fun t => Procedure.pushBack >>= fun _ => k t) :=
  next_bind hf fun t _ => .pushBack_bind (hk t)

theorem expect_bind {k : Kind} {p q : Procedure α} (hf : f.Valued)
    (hp : Accepts f (fun a ys => Q a (.fixed k :: ys)) p) (hq : ∀ t, AcceptsHeld f t Q q) :
    Accepts f Q (expect k >>= fun c => if c then p else q) := by
  refine next_bind (k := fun t => if decide (t.kind = k) then p else q) hf fun t _ => ?_
  split
  · next hk => exact .take (x := .fixed k) (of_decide_eq_true hk) hp
  · exact hq t

theorem name_bind {p : Token → Procedure α} {q : Procedure α} (hf : f.Valued)
    (hp : ∀ t, Accepts f (fun a ys => Q a (.name (.ofToken t) :: ys)) (p t))
    (hq : ∀ t, AcceptsHeld f t Q q) :
    Accepts f Q (Procedure.next >>= fun t => if t.kind = .identifier then p t else q) := by
  refine next_bind hf fun t ht => ?_
  split
  · next hk => exact .take (ht.spelledBy_name hk) (hp t)
  · exact hq t

end Accepts

theorem accepts_oneOf {g : Kind → Option α} {kind : α → Kind} (hf : f.Valued)
    (hkind : ∀ k a, g k = some a → k = kind a) :
    Accepts f (fun o xs => Present (fun _ => True) o ∧ xs = opYield kind o) (oneOf n g) := by
  refine .next_bind hf fun t _ => ?_
  split
  · next a ha => exact .take (x := .fixed (kind a)) (hkind _ _ ha) (.done ⟨trivial, rfl⟩)
  · exact .fail

theorem AddOp.eq_kind (k : Kind) (op : AddOp) (h : AddOp.ofKind? k = some op) : k = op.kind := by
  cases k <;> cases h <;> rfl

theorem MulOp.eq_kind (k : Kind) (op : MulOp) (h : MulOp.ofKind? k = some op) : k = op.kind := by
  cases k <;> cases h <;> rfl

theorem RelOp.eq_kind (k : Kind) (op : RelOp) (h : RelOp.ofKind? k = some op) : k = op.kind := by
  cases k <;> cases h <;> rfl

theorem ScalarType.eq_kind (k : Kind) (type : ScalarType) (h : ScalarType.ofKind? k = some type) :
    k = type.kind := by
  cases k <;> cases h <;> rfl

theorem accepts_constant (hf : f.Valued) : AcceptsTree f .constant constant := by
  refine .next_bind hf fun t _ => ?_
  split
  · next c hc => exact .take (Constant.ofToken?_eq_some_iff.1 hc) (.done ⟨trivial, rfl⟩)
  · exact .fail

theorem accepts_primary (hf : f.Valued) : AcceptsTree f .primary primary := by
  refine .next_bind hf fun t ht => ?_
  split
  · next hk => exact .take (ht.spelledBy_name hk) (.done ⟨Primary.whole_name, rfl⟩)
  iterate 3
    refine .pushBack_bind ((accepts_constant hf).bind ?_)
    rintro c _ ⟨hc, rfl⟩
    obtain ⟨c, rfl, -⟩ := present_iff.1 hc
    exact .done ⟨Primary.whole_constant, rfl⟩
  · next hk =>
    refine .take (x := .fixed .leftParen) hk ((Accepts.read .expression).bind ?_)
    rintro e _ ⟨he, rfl⟩
    refine .expect_bind hf (.done ⟨Primary.whole_group.2 he, rfl⟩) fun _ => .of_reports ?_
    exact .recover_bind
  · exact .fail

theorem Sign.yield_eq (k : Kind) (sg : Sign) (h : Sign.ofKind? k = some sg) : sg.yield = [.fixed k] := by
  cases k <;> cases h <;> rfl

theorem accepts_sign (hf : f.Valued) : Accepts f (fun sg xs => xs = sg.yield) sign := by
  refine .next_bind hf fun t _ => ?_
  split
  · next sg hsg => exact .take (x := .fixed t.kind) rfl (.done (Sign.yield_eq _ _ hsg).symm)
  · exact .pushBack_bind (.done rfl)

theorem accepts_operand (hf : f.Valued) : AcceptsTree f .operand operand := by
  refine (accepts_sign hf).bind ?_
  rintro sg _ rfl
  refine (accepts_primary hf).bind ?_
  rintro p _ ⟨hp, rfl⟩
  obtain ⟨p, rfl, hp⟩ := present_iff.1 hp
  refine .done ⟨Operand.whole_of.2 hp, ?_⟩
  rw [List.append_nil]; rfl

theorem accepts_termTail (hf : f.Valued) : AcceptsTree f .termTail termTail := by
  refine .peek_bind hf fun t => ?_
  split
  · refine (accepts_oneOf hf MulOp.eq_kind).bind ?_
    rintro op _ ⟨hop, rfl⟩
    refine (accepts_operand hf).bind ?_
    rintro o _ ⟨ho, rfl⟩
    refine (Accepts.read .termTail).bind ?_
    rintro tail _ ⟨htail, rfl⟩
    refine .done ⟨TermTail.whole_cons.2 ⟨hop, ho, htail⟩, ?_⟩
    rw [List.append_nil, ← List.append_assoc]; rfl
  · exact .done ⟨TermTail.whole_nil, rfl⟩

theorem accepts_term (hf : f.Valued) : AcceptsTree f .term term := by
  refine (accepts_operand hf).bind ?_
  rintro o _ ⟨ho, rfl⟩
  refine (Accepts.read .termTail).bind ?_
  rintro tail _ ⟨htail, rfl⟩
  refine .done ⟨Term.whole_mk.2 ⟨ho, htail⟩, ?_⟩
  rw [List.append_nil]; rfl

theorem accepts_simpleTail (hf : f.Valued) : AcceptsTree f .simpleTail simpleTail := by
  refine .peek_bind hf fun t => ?_
  split
  · refine (accepts_oneOf hf AddOp.eq_kind).bind ?_
    rintro op _ ⟨hop, rfl⟩
    refine (accepts_term hf).bind ?_
    rintro x _ ⟨hx, rfl⟩
    refine (Accepts.read .simpleTail).bind ?_
    rintro tail _ ⟨htail, rfl⟩
    refine .done ⟨SimpleTail.whole_cons.2 ⟨hop, hx, htail⟩, ?_⟩
    rw [List.append_nil, ← List.append_assoc]; rfl
  · exact .done ⟨SimpleTail.whole_nil, rfl⟩

theorem accepts_simpleExpr (hf : f.Valued) : AcceptsTree f .simpleExpr simpleExpr := by
  refine (accepts_term hf).bind ?_
  rintro x _ ⟨hx, rfl⟩
  refine (Accepts.read .simpleTail).bind ?_
  rintro tail _ ⟨htail, rfl⟩
  refine .done ⟨SimpleExpr.whole_mk.2 ⟨hx, htail⟩, ?_⟩
  rw [List.append_nil]; rfl

theorem accepts_expression (hf : f.Valued) : AcceptsTree f .expression expression := by
  refine (accepts_simpleExpr hf).bind ?_
  rintro lhs _ ⟨hlhs, rfl⟩
  refine .peek_bind hf fun t => ?_
  split
  · refine (accepts_oneOf hf RelOp.eq_kind).bind ?_
    rintro op _ ⟨hop, rfl⟩
    refine (accepts_simpleExpr hf).bind ?_
    rintro rhs _ ⟨hrhs, rfl⟩
    refine .done ⟨Expr.whole_compare.2 ⟨hlhs, hop, hrhs⟩, ?_⟩
    rw [List.append_nil, ← List.append_assoc]; rfl
  · refine .done ⟨Expr.whole_simple.2 hlhs, ?_⟩
    rw [List.append_nil]; rfl

theorem accepts_assignment (hf : f.Valued) : AcceptsTree f .assignment assignment := by
  refine .name_bind hf (fun t => ?_) fun _ => .fail
  refine .expect_bind hf ((accepts_simpleExpr hf).bind ?_) fun _ => .fail
  rintro e _ ⟨he, rfl⟩
  refine .done ⟨⟨_, e, rfl, he⟩, ?_⟩
  rw [List.append_nil]; rfl

theorem accepts_condition : AcceptsTree f .condition condition := .read .expression

theorem accepts_conditional (hf : f.Valued) : AcceptsTree f .conditional conditional := by
  refine .expect_bind hf (accepts_condition.bind ?_) fun _ => .fail
  rintro cond _ ⟨hcond, rfl⟩
  refine .expect_bind hf ((Accepts.read .statements).bind ?_) fun _ => .fail
  rintro b _ ⟨hb, rfl⟩
  refine .next_bind hf fun t _ => ?_
  split
  · next hk => exact .take (x := .fixed .endKw) hk (.done ⟨.inl ⟨cond, b, rfl, hcond, hb⟩, rfl⟩)
  · next hk =>
    refine .take (x := .fixed .elseKw) hk ((Accepts.read .statements).bind ?_)
    rintro b' _ ⟨hb', rfl⟩
    exact .expect_bind hf (.done ⟨.inr ⟨cond, b, b', rfl, hcond, hb, hb'⟩, rfl⟩) fun _ => .fail
  · exact .fail

theorem accepts_loopHead (hf : f.Valued) : AcceptsTree f .loopHead loopHead := by
  refine .expect_bind hf (accepts_condition.bind ?_) fun _ => .fail
  rintro cond _ ⟨hcond, rfl⟩
  exact .expect_bind hf (.done ⟨hcond, rfl⟩) fun _ => .fail

theorem accepts_whileLoop (hf : f.Valued) : AcceptsTree f .whileLoop whileLoop := by
  refine (accepts_loopHead hf).bind ?_
  rintro cond _ ⟨hcond, rfl⟩
  obtain ⟨cond, rfl, hcond⟩ := present_iff.1 hcond
  refine (Accepts.read .statements).bind ?_
  rintro b _ ⟨hb, rfl⟩
  refine .expect_bind hf (.done ⟨⟨cond, b, rfl, hcond, hb⟩, ?_⟩) fun _ => .fail
  rw [← List.append_assoc]; rfl

theorem accepts_loopExit (hf : f.Valued) : AcceptsTree f .loopExit loopExit := by
  refine .expect_bind hf (accepts_condition.bind ?_) fun _ => .fail
  rintro cond _ ⟨hcond, rfl⟩
  refine .done ⟨hcond, ?_⟩
  rw [List.append_nil]; rfl

theorem accepts_repeatLoop (hf : f.Valued) : AcceptsTree f .repeatLoop repeatLoop := by
  refine .expect_bind hf ((Accepts.read .statements).bind ?_) fun _ => .fail
  rintro b _ ⟨hb, rfl⟩
  refine (accepts_loopExit hf).bind ?_
  rintro cond _ ⟨hcond, rfl⟩
  obtain ⟨cond, rfl, hcond⟩ := present_iff.1 hcond
  refine .done ⟨⟨b, cond, rfl, hb, hcond⟩, ?_⟩
  rw [List.append_nil]; rfl

theorem Accepts.opening_bind {word : Kind} {p q : Procedure α} (hf : f.Valued)
    (hp : Accepts f (fun a ys => Q a (.fixed word :: .fixed .leftParen :: ys)) p) (hq : Reports f q) :
    Accepts f Q (opening word >>= fun c => if c then p else q) := by
  rw [opening, bind_assoc]
  refine .next_bind (k := fun t => (if decide (t.kind = word) = true then _ else _) >>= _) hf
    fun t _ => ?_
  by_cases hk : t.kind = word
  · rw [if_pos (decide_eq_true hk)]
    exact .take (x := .fixed word) hk (.expect_bind hf hp fun _ => .of_reports hq)
  · rw [if_neg (by simpa using hk)]
    exact .of_reports hq

theorem accepts_reading (hf : f.Valued) : AcceptsTree f .reading reading := by
  refine .opening_bind hf (.name_bind hf (fun t => ?_) fun _ => .fail) .fail
  exact .expect_bind hf (.done ⟨⟨_, rfl⟩, rfl⟩) fun _ => .fail

theorem accepts_writable (hf : f.Valued) : AcceptsTree f .writable writable := by
  refine .next_bind hf fun t ht => ?_
  split
  · next hk => exact .take (ht.spelledBy_string hk) (.done ⟨Writable.whole_string, rfl⟩)
  iterate 7
    refine .pushBack_bind ((accepts_simpleExpr hf).bind ?_)
    rintro e _ ⟨he, rfl⟩
    refine .done ⟨Writable.whole_value.2 he, ?_⟩
    rw [List.append_nil]; rfl
  · exact .fail

theorem accepts_writing (hf : f.Valued) : AcceptsTree f .writing writing := by
  refine .opening_bind hf ((accepts_writable hf).bind ?_) .fail
  rintro w _ ⟨hw, rfl⟩
  obtain ⟨w, rfl, hw⟩ := present_iff.1 hw
  exact .expect_bind hf (.done ⟨⟨w, rfl, hw⟩, rfl⟩) fun _ => .of_reports .recover_bind

theorem accepts_statement (hf : f.Valued) : AcceptsTree f .statement statement := by
  refine .peek_bind hf fun t => ?_
  split
  · refine (accepts_assignment hf).mono ?_
    rintro _ _ ⟨⟨id, e, rfl, he⟩, rfl⟩
    exact ⟨Stmt.whole_assign.2 he, rfl⟩
  · refine (accepts_reading hf).mono ?_
    rintro _ _ ⟨⟨id, rfl⟩, rfl⟩
    exact ⟨Stmt.whole_read, rfl⟩
  · refine (accepts_writing hf).mono ?_
    rintro _ _ ⟨⟨w, rfl, hw⟩, rfl⟩
    exact ⟨Stmt.whole_write.2 hw, rfl⟩
  · refine (accepts_conditional hf).mono ?_
    rintro _ _ ⟨⟨cond, b, rfl, hcond, hb⟩ | ⟨cond, b, b', rfl, hcond, hb, hb'⟩, rfl⟩
    · exact ⟨Stmt.whole_ifThen.2 ⟨hcond, hb⟩, rfl⟩
    · exact ⟨Stmt.whole_ifElse.2 ⟨hcond, hb, hb'⟩, rfl⟩
  · refine (accepts_whileLoop hf).mono ?_
    rintro _ _ ⟨⟨cond, b, rfl, hcond, hb⟩, rfl⟩
    exact ⟨Stmt.whole_whileDo.2 ⟨hcond, hb⟩, rfl⟩
  · refine (accepts_repeatLoop hf).mono ?_
    rintro _ _ ⟨⟨b, cond, rfl, hb, hcond⟩, rfl⟩
    exact ⟨Stmt.whole_repeatUntil.2 ⟨hb, hcond⟩, rfl⟩
  · exact Reports.fail.accepts

theorem accepts_moreStatements (hf : f.Valued) :
    Accepts f (fun b xs => b.MoreWhole ∧ xs = b.moreYield) moreStatements := by
  refine .expect_bind hf ((accepts_statement hf).bind ?_) fun _ =>
    .pushBack_bind (.done ⟨Block.moreWhole_nil, rfl⟩)
  rintro s _ ⟨hs, rfl⟩
  obtain ⟨s, rfl, hs⟩ := present_iff.1 hs
  refine (Accepts.read .moreStatements).bind ?_
  rintro b _ ⟨hb, rfl⟩
  refine .done ⟨Block.moreWhole_stmt.2 ⟨hs, hb⟩, ?_⟩
  rw [List.append_nil]; rfl

theorem accepts_statements (hf : f.Valued) : AcceptsTree f .statements statements := by
  refine (accepts_statement hf).bind ?_
  rintro s _ ⟨hs, rfl⟩
  obtain ⟨s, rfl, hs⟩ := present_iff.1 hs
  refine (Accepts.read .moreStatements).bind ?_
  rintro b _ ⟨hb, rfl⟩
  refine .done ⟨Block.whole_stmt.2 ⟨hs, hb⟩, ?_⟩
  rw [List.append_nil]; rfl

theorem accepts_moreNames (hf : f.Valued) :
    Accepts f (fun o xs => Present (fun _ => True) o ∧ xs = yieldOrGap moreNamesYield o) moreNames := by
  refine .expect_bind hf (.name_bind hf (fun t => ?_) fun _ => .fail) fun _ =>
    .pushBack_bind (.done ⟨trivial, rfl⟩)
  refine (Accepts.read .moreNames).bind ?_
  rintro o _ ⟨ho, rfl⟩
  obtain ⟨ids, rfl, -⟩ := present_iff.1 ho
  refine .done ⟨trivial, ?_⟩
  rw [List.append_nil]; rfl

theorem accepts_names (hf : f.Valued) : AcceptsTree f .names names := by
  refine .name_bind hf (fun t => (Accepts.read .moreNames).bind ?_) fun _ => .fail
  rintro o _ ⟨ho, rfl⟩
  obtain ⟨ids, rfl, -⟩ := present_iff.1 ho
  refine .done ⟨List.cons_ne_nil _ _, ?_⟩
  rw [List.append_nil]; rfl

theorem accepts_declaration (hf : f.Valued) : AcceptsTree f .declaration declaration := by
  refine (accepts_oneOf hf ScalarType.eq_kind).bind ?_
  rintro type _ ⟨htype, rfl⟩
  refine (accepts_names hf).bind ?_
  rintro ids _ ⟨hids, rfl⟩
  refine .done ⟨Decl.whole_mk.2 ⟨htype, hids⟩, ?_⟩
  rw [List.append_nil]; rfl

theorem accepts_declarationAndMore (hf : f.Valued) :
    Accepts f (fun o xs => Present (fun ds => ds ≠ [] ∧ ∀ d ∈ ds, d.Whole) o ∧
      xs = yieldOrGap declsYield o) declarationAndMore := by
  refine (accepts_declaration hf).bind ?_
  rintro d _ ⟨hd, rfl⟩
  refine .expect_bind hf ((Accepts.read .moreDeclarations).bind ?_) fun _ => .fail
  rintro o _ ⟨ho, rfl⟩
  obtain ⟨ds, rfl, hds⟩ := present_iff.1 ho
  refine .done ⟨⟨List.cons_ne_nil _ _, List.forall_mem_cons.2 ⟨hd, hds⟩⟩, ?_⟩
  rw [List.append_nil]
  exact (declsYield_cons d ds).symm

theorem accepts_moreDeclarations (hf : f.Valued) :
    Accepts f (fun o xs => Present (fun ds => ∀ d ∈ ds, d.Whole) o ∧ xs = yieldOrGap declsYield o)
      moreDeclarations := by
  refine .peek_bind hf fun t => ?_
  split
  · refine (accepts_declarationAndMore hf).mono ?_
    rintro o _ ⟨ho, rfl⟩
    obtain ⟨ds, rfl, -, hds⟩ := present_iff.1 ho
    exact ⟨hds, rfl⟩
  · exact .done ⟨by simp, rfl⟩

theorem accepts_declarations (hf : f.Valued) : AcceptsTree f .declarations declarations := by
  refine .expect_bind hf ((accepts_declarationAndMore hf).mono ?_) fun _ => .fail
  rintro o _ ⟨ho, rfl⟩
  obtain ⟨ds, rfl, hds⟩ := present_iff.1 ho
  exact ⟨hds, rfl⟩

theorem accepts_declSection (hf : f.Valued) :
    Accepts f (fun ds xs => ds.Whole ∧ xs = ds.yield) declSection := by
  refine .peek_bind hf fun t => ?_
  split
  · exact .done ⟨DeclSection.whole_omitted, rfl⟩
  · refine (accepts_declarations hf).bind ?_
    rintro o _ ⟨ho, rfl⟩
    obtain ⟨ds, rfl, hds⟩ := present_iff.1 ho
    refine .done ⟨DeclSection.whole_listed.2 hds, ?_⟩
    rw [List.append_nil]; rfl

theorem accepts_body (hf : f.Valued) : AcceptsTree f .body body := by
  refine (accepts_declSection hf).bind ?_
  rintro ds _ ⟨hds, rfl⟩
  refine .expect_bind hf ((Accepts.read .statements).bind ?_) fun _ => .fail
  rintro b _ ⟨hb, rfl⟩
  exact .expect_bind hf (.done ⟨Body.whole_mk.2 ⟨hds, hb⟩, rfl⟩) fun _ => .fail

theorem accepts_program (hf : f.Valued) : AcceptsTree f .program program := by
  refine .expect_bind hf ((accepts_body hf).bind ?_) fun _ => .fail
  rintro b _ ⟨hb, rfl⟩
  refine .peek_bind hf fun t => ?_
  split
  · refine .done ⟨Program.whole_mk.2 hb, ?_⟩
    rw [List.append_nil]; rfl
  · exact (Reports.note_bind .recover_bind).accepts

/-! ### Parts and phrases -/

theorem accepts_phrase (hf : f.Valued) (p : Phrase) :
    Accepts f (fun x xs => p.Whole x ∧ xs = p.yield x) p.procedure := by
  cases p with
  | expression => exact accepts_expression hf
  | simpleTail => exact accepts_simpleTail hf
  | termTail => exact accepts_termTail hf
  | statements => exact accepts_statements hf
  | moreStatements => exact accepts_moreStatements hf
  | moreNames => exact accepts_moreNames hf
  | moreDeclarations => exact accepts_moreDeclarations hf

theorem accepts_procedure (hf : f.Valued) (n : Nonterminal) : AcceptsTree f n n.procedure := by
  cases n with
  | program => exact accepts_program hf
  | body => exact accepts_body hf
  | declarations => exact accepts_declarations hf
  | declaration => exact accepts_declaration hf
  | scalarType => exact accepts_oneOf hf ScalarType.eq_kind
  | names => exact accepts_names hf
  | statements => exact accepts_statements hf
  | statement => exact accepts_statement hf
  | assignment => exact accepts_assignment hf
  | conditional => exact accepts_conditional hf
  | whileLoop => exact accepts_whileLoop hf
  | repeatLoop => exact accepts_repeatLoop hf
  | reading => exact accepts_reading hf
  | writing => exact accepts_writing hf
  | writable => exact accepts_writable hf
  | loopHead => exact accepts_loopHead hf
  | loopExit => exact accepts_loopExit hf
  | condition => exact accepts_condition
  | expression => exact accepts_expression hf
  | simpleExpr => exact accepts_simpleExpr hf
  | simpleTail => exact accepts_simpleTail hf
  | term => exact accepts_term hf
  | termTail => exact accepts_termTail hf
  | operand => exact accepts_operand hf
  | primary => exact accepts_primary hf
  | constant => exact accepts_constant hf
  | addOp => exact accepts_oneOf hf AddOp.eq_kind
  | mulOp => exact accepts_oneOf hf MulOp.eq_kind
  | relOp => exact accepts_oneOf hf RelOp.eq_kind

end

namespace Cursor.Within
variable {f : Feed} {s : Cursor}

theorem ofFeed (f : Feed) (hf : f.drawn = #[]) : (Cursor.ofFeed f).Within f :=
  ⟨linked_ofFeed hf, .ofFeed f⟩

/-- A part that is parsed without a report has a tree that is there and whole, and what was consumed
is what the tree spells. -/
theorem parse (h : s.Within f) (hf : f.Valued) (n : Nonterminal)
    (hclean : (n.parse s).2.diagnostics = s.diagnostics) :
    n.Whole (n.parse s).1 ∧ ∃ ts, Spelled (n.yield (n.parse s).1) ts ∧ s.Passes ts (n.parse s).2 := by
  have hpost : Accepted f _ s (n.parse s).1 (n.parse s).2 :=
    n.post_parse (fun p s h => accepts_phrase hf p s h) (accepts_procedure hf n s h)
  obtain ⟨-, hrep | ⟨_, ts, ⟨hwhole, rfl⟩, hts, hpass⟩⟩ := hpost
  · rw [hclean] at hrep
    exact absurd hrep (Nat.lt_irrefl _)
  · exact ⟨hwhole, ts, hts, hpass⟩

end Cursor.Within

/-- If nothing is reported while a part is parsed, its tree is there and whole and spells exactly the
tokens that were consumed. If nothing is reported about a program, its tree is there and whole and
spells exactly the tokens before the first end. -/
theorem spelled_of_parse_clean (f : Feed) (hf : f.drawn = #[]) (hvalued : ∀ i, (f.upcoming i).Valued) :
    (∀ (ops : List Operation) (n : Nonterminal), let s := Operation.applyAll (.ofFeed f) ops
      (n.parse s).2.diagnostics = s.diagnostics →
        n.gaps (n.parse s).1 = 0 ∧ n.isRegular (n.parse s).1 = true ∧
          n.hasForm (n.parse s).1 = true ∧
          ∃ ts, Spelled (n.yield (n.parse s).1) ts ∧
            (n.parse s).2.consumed = s.consumed ++ ts ∧ s.Begins ts ∧
            ∀ i, (n.parse s).2.upcoming i = s.upcoming (ts.length + i)) ∧
      ((parse f).diagnostics = [] →
        ∃ p i, (parse f).program = some p ∧ p.gaps = 0 ∧ p.isRegular = true ∧
          (f.upcoming i).kind = .eof ∧
          (∀ j < i, (f.upcoming j).kind ≠ .eof ∧ (f.upcoming j).kind ≠ .invalid) ∧
          Spelled p.yield (f.take i)) := by
  constructor
  · intro ops n s hclean
    have h : s.Within f := (kept_within f).applyAll ops (Within.ofFeed f hf)
    obtain ⟨hwhole, ts, hts, hpass⟩ := h.parse ⟨hf, hvalued⟩ n hclean
    obtain ⟨hgaps, hregular, hform⟩ := (n.whole_iff _).1 hwhole
    exact ⟨hgaps, hregular, hform, ts, hts, hpass.consumed, hpass.begins, hpass.upcoming⟩
  · intro hclean
    have hnone : (parse f).cursor.diagnostics = #[] := Array.toList_eq_nil_iff.1 hclean
    obtain ⟨hwhole, ts, hts, hpass⟩ := (Within.ofFeed f hf).parse ⟨hf, hvalued⟩ .program hnone
    obtain ⟨p, hp, hgaps, hregular⟩ := present_iff.1 hwhole
    obtain ⟨hr, hend⟩ := parse_ready_atEnd hf
    obtain ⟨hk, hbefore, htake, hdrawn⟩ := hend.first_end hf (parse_on f) hr
    have hvalid := kept_valid.parse .program (s := .ofFeed f) (by simp [Cursor.ofFeed, hf]) hnone
    have hconsumed : (parse f).cursor.consumed = ts := by
      rw [show (parse f).cursor.consumed = _ from hpass.consumed]
      simp [consumed, Cursor.ofFeed, hf]
    rw [hconsumed] at hk hbefore htake hdrawn
    have htaken : f.take ts.length = ts := by
      rw [htake, Feed.take_add] at hdrawn
      exact (List.append_inj hdrawn (f.length_take _)).1
    refine ⟨p, ts.length, hp, hgaps, hregular, hk, fun j hj => ⟨hbefore j hj, hvalid _ ?_⟩, ?_⟩
    · show _ ∈ (parse f).cursor.feed.drawn.toList
      rw [htake]
      exact List.mem_of_getElem? (f.getElem?_take (Nat.lt_succ_of_lt hj))
    · rw [htaken]
      show Spelled (yieldOrGap Program.yield (some p)) ts
      rw [← hp]
      exact hts

theorem Feed.valued_ofTokens {ts : List Token} (h : ∀ t ∈ ts, t.Valued) (i : Nat) :
    ((Feed.ofTokens ts).upcoming i).Valued := by
  rcases Feed.upcoming_ofTokens ts i with hmem | heof
  · exact h _ hmem
  · simp only [Token.Valued, heof]

theorem parse_read_spelled :
    let f := Feed.ofTokens [⟨.routineKw, ⟨1, 1⟩, none⟩, ⟨.beginKw, ⟨1, 9⟩, none⟩,
      ⟨.readKw, ⟨1, 15⟩, none⟩, ⟨.leftParen, ⟨1, 20⟩, none⟩, ⟨.identifier, ⟨1, 21⟩, some (.name "x")⟩,
      ⟨.rightParen, ⟨1, 22⟩, none⟩, ⟨.endKw, ⟨1, 24⟩, none⟩]
    f.drawn = #[] ∧ (∀ i, (f.upcoming i).Valued) ∧ (parse f).diagnostics = [] ∧
      Nonterminal.program.gaps (Nonterminal.program.parse (.ofFeed f)).1 = 0 ∧
      ∃ p i, (parse f).program = some p ∧ p.gaps = 0 ∧ Spelled p.yield (f.take i) := by
  intro f
  have hvalued : ∀ i, (f.upcoming i).Valued := Feed.valued_ofTokens (by simp [Token.Valued])
  have hkind : Heads (Nonterminal.followKinds .program) [⟨.eof, ⟨1, 24⟩, none⟩] :=
    List.mem_singleton_self _
  have hpass := (Nonterminal.parse_of_whole (n := .program) (s := .ofFeed f)
    (t := some ⟨some ⟨.omitted, .stmt (.read ⟨"x", ⟨1, 21⟩⟩) .nil⟩⟩)
    ⟨rfl, rfl⟩ (show Spelled _ (f.take 7) by decide) hkind (linked_ofFeed rfl) (begins_take f 8)).2
  have hclean : (parse f).diagnostics = [] := congrArg Array.toList hpass.diagnostics
  obtain ⟨hpart, hprogram⟩ := spelled_of_parse_clean f rfl hvalued
  obtain ⟨p, i, hp, hgaps, -, -, -, hspelled⟩ := hprogram hclean
  exact ⟨rfl, hvalued, hclean, (hpart [] .program hpass.diagnostics).1, p, i, hp, hgaps, hspelled⟩

end Routine
