import Routine.Proofs.Indexing
import Routine.Proofs.Recovery

/-!
# Where recovery resumes

`Cursor.onward` are the valid tokens from the one handed out last, whether or not it was handed back.
Recovery drops those in front of the first that is of its stop set or the end of the input
(`Cursor.Resumes`), and the tokens from there on come out as they would have (`synchronize_resumes`).
What it reports are the invalid tokens it has drawn. A recovery that follows it, with a stop set that
holds all of the first one, finds nothing to drop.
-/

namespace Routine

namespace Feed

/-- Every feed begins with invalid tokens and a valid one. -/
theorem exists_take_valid (f : Feed) : ∃ bad t, (∀ u ∈ bad, u.kind = .invalid) ∧
    t.kind ≠ .invalid ∧ f.take (bad.length + 1) = bad ++ [t] := by
  obtain ⟨bad, hbad, htake, -⟩ := (Cursor.ofFeed f).fetch_spec
  exact ⟨bad, _, hbad, Cursor.fetch_kind_ne_invalid _, htake⟩

/-- Where two numberings of the valid tokens are at the same place, they go on alike. -/
theorem reach_add_step {f : Feed} {m k : Nat}
    (h : f.reach (m + k) = f.reach m + (f.drop (f.reach m)).reach k) :
    f.valid (m + k) = (f.drop (f.reach m)).valid k ∧
      f.reach (m + k + 1) = f.reach m + (f.drop (f.reach m)).reach (k + 1) := by
  obtain ⟨bad, t, hbad, ht, htake⟩ := (f.drop (f.reach (m + k))).exists_take_valid
  obtain ⟨htoken, hreach⟩ := reach_of_take hbad ht htake
  rw [h, ← drop_drop] at htake
  obtain ⟨htoken', hreach'⟩ := reach_of_take hbad ht htake
  refine ⟨htoken.trans htoken'.symm, ?_⟩
  rw [hreach, hreach', h, Nat.add_assoc]

theorem reach_add (f : Feed) (m k : Nat) :
    f.reach (m + k) = f.reach m + (f.drop (f.reach m)).reach k := by
  induction k with
  | zero => rfl
  | succ k ih => exact (reach_add_step ih).2

/-- Behind the first `m` valid tokens the others are numbered anew. -/
theorem valid_drop (f : Feed) (m k : Nat) : (f.drop (f.reach m)).valid k = f.valid (m + k) :=
  (reach_add_step (f.reach_add m k)).1.symm

end Feed

namespace Cursor
variable {s s' : Cursor} {stop : KindSet} {t : Token} {k : Nat}

/-- The valid tokens from the one handed out last: that token, whether or not it was handed back, and
then those the feed has yet to hand out. -/
noncomputable def onward (s : Cursor) (k : Nat) : Token :=
  match s.slot, k with
  | .taken t, 0 | .pending t, 0 => t
  | .taken _, k + 1 | .pending _, k + 1 => s.feed.valid k
  | .empty, k => s.feed.valid k

/-- The token that comes out of a cursor when it is asked for one for the `i`th time. -/
def delivery (s : Cursor) : Nat → Token
  | 0 => s.next.1
  | i + 1 => s.next.2.delivery i

theorem onward_zero (h : s.slot = .taken t ∨ s.slot = .pending t) : s.onward 0 = t := by
  rcases h with h | h <;> simp only [onward, h]

theorem onward_succ (h : s.slot = .taken t ∨ s.slot = .pending t) (k : Nat) :
    s.onward (k + 1) = s.feed.valid k := by
  rcases h with h | h <;> simp only [onward, h]

theorem onward_pushBack (s : Cursor) : s.pushBack.onward = s.onward := by
  funext k
  cases hs : s.slot with
  | taken t =>
    have hp := slot_pushBack_of_taken hs
    cases k with
    | zero => rw [onward_zero (.inr hp), onward_zero (.inl hs)]
    | succ k => rw [onward_succ (.inr hp), onward_succ (.inl hs), feed_pushBack]
  | empty | pending t => rw [pushBack_of_not_taken (by simp [hs])]

/-- Behind the token that was handed out last come the valid ones of the feed. -/
theorem onward_fetch (s : Cursor) : s.fetch.2.onward = s.feed.valid := by
  obtain ⟨htoken, hfeed, -⟩ := fetch_valid (s := s) (f := s.feed) (k := 0) rfl
  funext k
  cases k with
  | zero => rw [onward_zero (.inl s.slot_fetch), htoken]
  | succ k => rw [onward_succ (.inl s.slot_fetch), hfeed, Feed.valid_drop, Nat.add_comm]

/-- A cursor that hands out its last token once more goes on from there. -/
theorem onward_next_pushBack (s : Cursor) : s.pushBack.next.2.onward = s.onward := by
  cases hs : s.slot with
  | empty =>
    rw [pushBack_of_not_taken (by simp [hs]), next_of_not_pending (by simp [hs]), onward_fetch]
    funext k
    simp only [onward, hs]
  | taken t =>
    rw [next_of_pending (slot_pushBack_of_taken hs)]
    funext k
    cases k with
    | zero => rw [onward_zero (.inl rfl), onward_zero (.inl hs)]
    | succ k =>
      rw [onward_succ (.inl rfl), onward_succ (.inl hs)]
      exact congrArg (Feed.valid · k) s.feed_pushBack
  | pending t =>
    rw [pushBack_of_not_taken (by simp [hs]), next_of_pending hs]
    funext k
    cases k with
    | zero => rw [onward_zero (.inl rfl), onward_zero (.inr hs)]
    | succ k =>
      rw [onward_succ (.inl rfl), onward_succ (.inr hs)]
      rfl

theorem delivery_of_not_pending (h : ∀ t, s.slot ≠ .pending t) (i : Nat) :
    s.delivery i = s.feed.valid i := by
  induction i generalizing s with
  | zero =>
    rw [delivery, next_of_not_pending h]
    exact (fetch_valid (f := s.feed) (k := 0) rfl).1
  | succ i ih =>
    have hfeed : s.fetch.2.feed = s.feed.drop (s.feed.reach 1) :=
      (fetch_valid (f := s.feed) (k := 0) rfl).2.1
    rw [delivery, next_of_not_pending h, ih (by simp [slot_fetch]), hfeed, Feed.valid_drop,
      Nat.add_comm]

/-- The tokens that come out of a cursor whose last token was handed back. -/
theorem delivery_of_pending (h : s.slot = .pending t) (i : Nat) : s.delivery i = s.onward i := by
  cases i with
  | zero => rw [delivery, next_of_pending h, onward_zero (.inr h)]
  | succ i =>
    have hnext := next_pending h
    rw [delivery, delivery_of_not_pending (by simp [slot_next]), hnext.2.1, onward_succ (.inr h)]

/-- Recovery with the stop set ends in front of the token. -/
def Stops (stop : KindSet) (t : Token) : Prop := stop.contains t.kind = true ∨ t.kind = .eof

/-- On the way from `s` to `s'` the first `k` tokens from the last one on have been dropped, none of
which stops recovery, and the one behind them, which does, was handed out last. The tokens that have
been drawn are valid ones and those that are reported. -/
structure Resumes (stop : KindSet) (s : Cursor) (k : Nat) (s' : Cursor) : Prop where
  stops : Stops stop (s.onward k)
  before : ∀ j < k, ¬ Stops stop (s.onward j)
  slot : s'.slot = .taken (s.onward k)
  onward : ∀ i, s'.onward i = s.onward (k + i)
  drawn : ∃ n, s'.feed = s.feed.drop n ∧ s'.diagnostics.toList = s.diagnostics.toList ++
    ((s.feed.take n).filter fun t => t.kind = .invalid).map invalidAt
  skips : s'.skips = s.skips ++
    (List.range k).map fun j => ((s.onward j).kind, (s.onward j).position)

/-- What is drawn to fetch a token are invalid tokens, which are reported, and it. -/
theorem drawn_fetch (s : Cursor) : ∃ n, s.fetch.2.feed = s.feed.drop n ∧
    s.fetch.2.diagnostics.toList = s.diagnostics.toList ++
      ((s.feed.take n).filter fun t => t.kind = .invalid).map invalidAt := by
  obtain ⟨bad, hbad, htake, hfetch⟩ := s.fetch_spec
  have hkind := s.fetch_kind_ne_invalid
  have hall : (bad.filter fun t => t.kind = .invalid) = bad := by simpa using hbad
  refine ⟨bad.length + 1, by rw [hfetch], ?_⟩
  rw [hfetch, htake, List.filter_append, hall, Array.toList_append]
  simp [hkind]

theorem drawn_next (s : Cursor) : ∃ n, s.next.2.feed = s.feed.drop n ∧
    s.next.2.diagnostics.toList = s.diagnostics.toList ++
      ((s.feed.take n).filter fun t => t.kind = .invalid).map invalidAt := by
  cases hs : s.slot with
  | pending t =>
    obtain ⟨-, hfeed, hdiag⟩ := next_pending hs
    exact ⟨0, hfeed, by simp [hdiag]⟩
  | empty | taken t =>
    rw [next_of_not_pending (by simp [hs])]
    exact s.drawn_fetch

/-- One token that does not stop recovery is dropped. -/
theorem Resumes.drop (hs : s.slot = .taken t) (ht : ¬ Stops stop t)
    (h : Resumes stop (s.note (.skipped t.kind t.position)).fetch.2 k s') :
    Resumes stop s (k + 1) s' := by
  have hstep : ∀ i, (s.note (.skipped t.kind t.position)).fetch.2.onward i = s.onward (i + 1) := by
    intro i
    rw [onward_fetch, onward_succ (.inl hs)]
    rfl
  have hzero := onward_zero (.inl hs)
  refine ⟨?_, ?_, ?_, ?_, ?_, ?_⟩
  · rw [← hstep]
    exact h.stops
  · intro j hj
    cases j with
    | zero => rwa [hzero]
    | succ j =>
      rw [← hstep]
      exact h.before j (by omega)
  · rw [← hstep]
    exact h.slot
  · intro i
    rw [h.onward, hstep, Nat.add_right_comm]
  · obtain ⟨m, hfeed, hdiag⟩ := (s.note (.skipped t.kind t.position)).drawn_fetch
    obtain ⟨n, hfeed', hdiag'⟩ := h.drawn
    refine ⟨m + n, ?_, ?_⟩
    · rw [hfeed', hfeed, Feed.drop_drop]
      rfl
    · rw [hdiag', hdiag, hfeed, List.append_assoc, ← List.map_append, ← List.filter_append,
        Feed.take_add]
      rfl
  · have hnoted : (s.note (.skipped t.kind t.position)).fetch.2.skips =
        s.skips ++ [(t.kind, t.position)] := by
      rw [skips_fetch]
      simp [Cursor.skips, Cursor.note, Event.skipped?]
    rw [h.skips, hnoted, List.append_assoc, List.singleton_append, List.range_succ_eq_map,
      List.map_cons, List.map_map, hzero]
    simp only [hstep, Function.comp_def]

/-- Handing out the last token once more drops nothing. -/
theorem Resumes.of_again (h : Resumes stop s.pushBack.next.2 k s') : Resumes stop s k s' := by
  have honward := s.onward_next_pushBack
  refine ⟨?_, ?_, ?_, ?_, ?_, ?_⟩
  · rw [← honward]
    exact h.stops
  · rw [← honward]
    exact h.before
  · rw [← honward]
    exact h.slot
  · rw [← honward]
    exact h.onward
  · obtain ⟨m, hfeed, hdiag⟩ := s.pushBack.drawn_next
    obtain ⟨n, hfeed', hdiag'⟩ := h.drawn
    rw [feed_pushBack] at hfeed hdiag
    refine ⟨m + n, ?_, ?_⟩
    · rw [hfeed', hfeed, Feed.drop_drop]
    · rw [hdiag', hdiag, hfeed, diagnostics_pushBack, List.append_assoc, ← List.map_append,
        ← List.filter_append, ← Feed.take_add]
  · rw [h.skips, skips_next, skips_pushBack, honward]

/-- Passing over tokens drops those in front of the first that stops recovery. -/
theorem skip_resumes (stop : KindSet) (count : Nat) (t : Token) (s : Cursor)
    (hs : s.slot = .taken t) : ∃ k, Resumes stop s k (skip stop count t s).cursor ∧
      (skip stop count t s).count = count + k ∧ (skip stop count t s).resume = s.onward k := by
  fun_induction skip stop count t s with
  | case1 count t s hstop =>
    have hzero := onward_zero (.inl hs)
    refine ⟨0, ⟨?_, by simp, ?_, by simp, ⟨0, rfl, by simp⟩, by simp⟩, rfl, hzero.symm⟩
    · rw [hzero]
      simpa [Stops] using hstop
    · rw [hzero, hs]
  | case2 count t s hstop o ih =>
    obtain ⟨k, hresumes, hcount, hresume⟩ := ih (slot_fetch _)
    have ht : ¬ Stops stop t := by simpa [Stops] using hstop
    refine ⟨k + 1, hresumes.drop hs ht, by rw [hcount]; omega, ?_⟩
    rw [hresume, onward_fetch, onward_succ (.inl hs)]
    rfl

/-- A recovery that begins in front of a token of its stop set, or of the end, passes over nothing. -/
theorem synchronize_of_stops (hs : s.slot = .pending t) (ht : Stops stop t) :
    s.synchronize stop = (s.note (.redelivered t.kind)).note (.synchronized 0 t.kind) := by
  have hstop : (stop.contains t.kind || decide (t.kind = .eof)) = true := by
    simpa [Stops] using ht
  have hback : s.pushBack = s := pushBack_of_not_taken (by simp [hs])
  rw [synchronize, hback, next_of_pending hs, skip, if_pos hstop]
  simp only [Cursor.pushBack, Cursor.note]
  rw [← hs]

/-- Recovery goes on from the first token that is of its stop set or the end of the input, the one
handed out last included. The tokens before it are dropped and noted as skipped, those behind it come
out as before, and what is reported are the invalid tokens that have been drawn. A further recovery
whose stop set holds all of the first one changes nothing but the log. -/
theorem synchronize_resumes (s : Cursor) (stop : KindSet) :
    let s' := s.synchronize stop
    ∃ k n, Stops stop (s.onward k) ∧ (∀ j < k, ¬ Stops stop (s.onward j)) ∧
      s'.next.1 = s.onward k ∧ (∀ i, s'.delivery i = s.onward (k + i)) ∧
      s'.skips = s.skips ++ ((List.range k).map fun j => ((s.onward j).kind, (s.onward j).position)) ∧
      s'.feed = s.feed.drop n ∧
      s'.diagnostics.toList = s.diagnostics.toList ++
        ((s.feed.take n).filter fun t => t.kind = .invalid).map (fun t => ⟨.invalid, t.position⟩) ∧
      ∀ stop' : KindSet, (∀ j, stop.contains j = true → stop'.contains j = true) →
        s'.synchronize stop' = (s'.note (.redelivered (s.onward k).kind)).note
          (.synchronized 0 (s.onward k).kind) := by
  intro s'
  obtain ⟨k, hskip, -, -⟩ := skip_resumes stop 0 _ _ s.pushBack.slot_next
  have hresumes := hskip.of_again
  obtain ⟨n, hfeed, hdiag⟩ := hresumes.drawn
  have hslot : s'.slot = .pending (s.onward k) := slot_pushBack_of_taken hresumes.slot
  have hdelivery : ∀ i, s'.delivery i = s.onward (k + i) := by
    intro i
    rw [delivery_of_pending hslot]
    exact (congrFun (onward_pushBack _) i).trans (hresumes.onward i)
  refine ⟨k, n, hresumes.stops, hresumes.before, hdelivery 0, hdelivery, ?_, ?_, ?_, ?_⟩
  · exact (skips_note rfl).trans ((skips_pushBack _).trans hresumes.skips)
  · exact (feed_pushBack _).trans hfeed
  · exact (congrArg Array.toList (diagnostics_pushBack _)).trans hdiag
  · intro stop' hsub
    exact synchronize_of_stops hslot (hresumes.stops.imp_left (hsub _))

end Cursor

end Routine
