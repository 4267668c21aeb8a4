import Routine.Proofs.Stream

/-!
# What every step keeps

A property of cursors that is kept by drawing, handing back, rejecting and noting is kept by
recovery, by every procedure whatever it does, by parsing any part, and by every session
(`Kept.parse`, `Kept.applyAll`). Two such properties are used throughout: the slot is linked to the
feed, and the feed is what is left of the one the session began with.
-/

namespace Routine

open Cursor Procedure

/-- Every primitive step keeps the property. -/
structure Kept (I : Cursor → Prop) : Prop where
  next : ∀ {s}, I s → I s.next.2
  pushBack : ∀ {s}, I s → I s.pushBack
  reject : ∀ {s}, I s → I s.reject
  note : ∀ {s} (e : Event), I s → I (s.note e)

namespace Kept
variable {α : Type} {I J : Cursor → Prop} {s : Cursor}

theorem and (hI : Kept I) (hJ : Kept J) : Kept fun s => I s ∧ J s where
  next h := ⟨hI.next h.1, hJ.next h.2⟩
  pushBack h := ⟨hI.pushBack h.1, hJ.pushBack h.2⟩
  reject h := ⟨hI.reject h.1, hJ.reject h.2⟩
  note e h := ⟨hI.note e h.1, hJ.note e h.2⟩

theorem skip (hI : Kept I) (stop : KindSet) (count : Nat) (t : Token) (s : Cursor)
    (hs : s.slot = .taken t) (h : I s) : I (Cursor.skip stop count t s).cursor := by
  fun_induction Cursor.skip stop count t s with
  | case1 => exact h
  | case2 count t s hstop o ih =>
    have hnote : ∀ u, (s.note (.skipped t.kind t.position)).slot ≠ .pending u := by
      simp [Cursor.note, hs]
    refine ih (slot_fetch _) ?_
    show I (Cursor.fetch _).2
    rw [← next_of_not_pending hnote]
    exact hI.next (hI.note _ h)

theorem synchronize (hI : Kept I) (stop : KindSet) (h : I s) : I (s.synchronize stop) :=
  hI.note _ (hI.pushBack (hI.skip stop 0 _ _ (slot_next _) (hI.next (hI.pushBack h))))

theorem perform (hI : Kept I) (a : Action) (h : I s) : I (a.perform s).2 := by
  cases a with
  | next => exact hI.next h
  | pushBack => exact hI.pushBack h
  | reject => exact hI.reject h
  | synchronize stop => exact hI.synchronize stop h
  | note e => exact hI.note e h

/-- A procedure keeps the property if the calls in it do. -/
theorem wp (hI : Kept I) {c : Contract}
    (hc : ∀ p s, I s → c.pre p s ∧ ∀ x s', c.post p s x s' → I s') (q : Procedure α) (h : I s) :
    q.wp c (fun _ s' => I s') s := by
  induction q generalizing s with
  | done a => exact h
  | act a k ih => exact ih _ (hI.perform a h)
  | call p k ih => exact ⟨(hc p s h).1, fun x s' hx => ih x ((hc p s h).2 x s' hx)⟩

/-- The contract that says no more than that the property is kept. -/
def contract (I : Cursor → Prop) : Contract where
  pre _ s := I s
  post _ _ _ s' := I s'

theorem wp_contract (hI : Kept I) (q : Procedure α) (h : I s) :
    q.wp (contract I) (fun _ s' => I s') s :=
  hI.wp (fun _ _ h => ⟨h, fun _ _ h => h⟩) q h

theorem read (hI : Kept I) (p : Phrase) (h : I s) : I (p.read s).2 :=
  Phrase.read_post (c := contract I) (fun p _ h => hI.wp_contract p.procedure h) p s h

theorem parse (hI : Kept I) (n : Nonterminal) (h : I s) : I (n.parse s).2 :=
  n.post_parse (c := contract I) (fun p _ h => hI.wp_contract p.procedure h)
    (hI.wp_contract n.procedure h)

theorem apply (hI : Kept I) (op : Operation) (h : I s) : I (op.apply s) := by
  cases op with
  | parse n => exact hI.parse n h
  | reject => exact hI.reject h
  | synchronize stop => exact hI.synchronize stop h

theorem applyAll (hI : Kept I) (ops : List Operation) (h : I s) : I (Operation.applyAll s ops) := by
  induction ops generalizing s with
  | nil => exact h
  | cons op ops ih => exact ih (hI.apply op h)

theorem reachable (hI : Kept I) (hf : ∀ f : Feed, f.drawn = #[] → I (.ofFeed f))
    (h : s.Reachable) : I s := by
  obtain ⟨f, ops, hf', rfl⟩ := h
  exact hI.applyAll ops (hf f hf')

end Kept

theorem kept_linked : Kept Linked where
  next h := h.next
  pushBack h := h.pushBack
  reject h := h
  note _ h := h

theorem Cursor.Reachable.linked {s : Cursor} (h : s.Reachable) : s.Linked :=
  kept_linked.reachable (fun _ => linked_ofFeed) h

/-- The cursor has drawn some tokens from `f` and stands behind them. -/
def Cursor.On (f : Feed) (s : Cursor) : Prop := ∃ n, s.feed = f.drop n

theorem Cursor.feed_pushBack (s : Cursor) : s.pushBack.feed = s.feed := by
  unfold Cursor.pushBack
  split <;> rfl

theorem Cursor.diagnostics_pushBack (s : Cursor) : s.pushBack.diagnostics = s.diagnostics := by
  unfold Cursor.pushBack
  split <;> rfl

/-- Drawing a token leaves the feed alone or moves it on. -/
theorem Cursor.feed_next (s : Cursor) : ∃ n, s.next.2.feed = s.feed.drop n := by
  cases hs : s.slot with
  | pending t => exact ⟨0, (next_pending hs).2.1⟩
  | empty | taken t =>
    obtain ⟨bad, -, -, hfetch⟩ := s.fetch_spec
    rw [next_of_not_pending (by simp [hs]), hfetch]
    exact ⟨_, rfl⟩

/-- Drawing a token reports invalid tokens and nothing else. -/
theorem Cursor.reports_next (s : Cursor) :
    ∃ bad : List Token, s.next.2.diagnostics = s.diagnostics ++ (bad.map invalidAt).toArray := by
  cases hs : s.slot with
  | pending t => exact ⟨[], by simp [(next_pending hs).2.2]⟩
  | empty | taken t =>
    obtain ⟨bad, -, -, hfetch⟩ := s.fetch_spec
    rw [next_of_not_pending (by simp [hs]), hfetch]
    exact ⟨bad, rfl⟩

theorem kept_on (f : Feed) : Kept (Cursor.On f) where
  next := by
    rintro s ⟨n, hn⟩
    obtain ⟨m, hm⟩ := s.feed_next
    exact ⟨n + m, by rw [hm, hn, Feed.drop_drop]⟩
  pushBack := by
    rintro s ⟨n, hn⟩
    exact ⟨n, by rw [s.feed_pushBack, hn]⟩
  reject h := h
  note _ h := h

namespace Cursor.On
variable {f : Feed} {s : Cursor}

theorem ofFeed (f : Feed) : (Cursor.ofFeed f).On f := ⟨0, rfl⟩

/-- What has been drawn are the first tokens of the feed. -/
theorem drawn (h : s.On f) (hf : f.drawn = #[]) :
    s.feed.drawn.toList = f.take s.feed.pulls ∧ s.feed = f.drop s.feed.pulls := by
  obtain ⟨n, hn⟩ := h
  have hdrawn : s.feed.drawn.toList = f.take n := by rw [hn, Feed.toList_drawn_drop, hf]; rfl
  have hpulls : s.feed.pulls = n := by
    rw [Feed.pulls, ← Array.length_toList, hdrawn, Feed.length_take]
  rw [hpulls]
  exact ⟨hdrawn, hn⟩

end Cursor.On

end Routine
