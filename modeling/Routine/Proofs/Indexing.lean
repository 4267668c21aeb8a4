import Mathlib.Data.Nat.Nth
import Routine.Proofs.Lines

/-!
# A cursor as an index

The valid tokens of a feed are numbered (`Feed.valid`), the end of the input coming again and again
as the last of them. What a cursor hands out is found by counting: how many of the valid tokens have
been fetched, and whether the last of them is to come again. `Index` is that count and that flag,
with the reports made so far. Whatever is done to a cursor, it answers as the index does
(`Cursor.Indexes`), and it has drawn from the feed up to the last token fetched and no further.
-/

namespace Routine

namespace Feed

/-- The token with the number `i` is valid. -/
def ValidAt (f : Feed) (i : Nat) : Prop := (f.upcoming i).kind ≠ .invalid

/-- Where the `k`th of the valid tokens stands among the tokens to come. -/
noncomputable def place (f : Feed) (k : Nat) : Nat := Nat.nth f.ValidAt k

/-- The `k`th of the valid tokens to come. -/
noncomputable def valid (f : Feed) (k : Nat) : Token := f.upcoming (f.place k)

/-- How many tokens have to be drawn for the first `k` valid ones. -/
noncomputable def reach (f : Feed) : Nat → Nat
  | 0 => 0
  | k + 1 => f.place k + 1

theorem replay_end {f : Feed} {ts : List Token} (hf : f.source = .replay ts) (k : Nat) :
    (f.upcoming (ts.length + k)).kind = .eof := by
  induction ts generalizing f with
  | nil =>
    rw [List.length_nil, Nat.zero_add]
    induction k generalizing f with
    | zero => simp [next, hf, Source.next]
    | succ k ih => exact ih (by simp [next, hf, Source.next])
  | cons t ts ih =>
    have hnext : f.next.2.source = .replay ts := by simp [next, hf, Source.next]
    rw [List.length_cons, Nat.add_right_comm, upcoming_succ]
    exact ih hnext

/-- From some token on there is nothing but the end of the input. -/
theorem exists_end (f : Feed) : ∃ n, ∀ k ≥ n, (f.upcoming k).kind = .eof := by
  suffices h : ∃ n, ∀ k, (f.upcoming (n + k)).kind = .eof by
    obtain ⟨n, hn⟩ := h
    refine ⟨n, fun k hk => ?_⟩
    have hend := hn (k - n)
    rwa [Nat.add_sub_cancel' hk] at hend
  cases hf : f.source with
  | replay ts => exact ⟨ts.length, replay_end hf⟩
  | text scan =>
    obtain ⟨ts, e, htokens, he, -⟩ := Scan.tokens_newline scan.rest [] scan.position
    obtain ⟨-, hlast⟩ := take_of_scan hf htokens
    exact ⟨ts.length, fun k => by rw [hlast k, he]⟩

theorem infinite_validAt (f : Feed) : (Set.ofPred f.ValidAt).Infinite := by
  obtain ⟨n, hn⟩ := f.exists_end
  refine Set.infinite_of_forall_exists_gt fun i => ⟨max n i + 1, ?_, by omega⟩
  have hend := hn (max n i + 1) (by omega)
  show (f.upcoming (max n i + 1)).kind ≠ .invalid
  rw [hend]
  decide

theorem valid_kind_ne_invalid (f : Feed) (k : Nat) : (f.valid k).kind ≠ .invalid :=
  Nat.nth_mem_of_infinite f.infinite_validAt k

theorem exists_valid_end (f : Feed) : ∃ n, ∀ k ≥ n, (f.valid k).kind = .eof := by
  obtain ⟨n, hn⟩ := f.exists_end
  refine ⟨n, fun k hk => hn _ (Nat.le_trans hk ?_)⟩
  exact (Nat.nth_strictMono f.infinite_validAt).le_apply

/-- The next valid token is the first one that has not been drawn. -/
theorem isLeast_place (f : Feed) (k : Nat) :
    IsLeast {i | f.ValidAt i ∧ f.reach k ≤ i} (f.place k) := by
  classical
  have hcount : Nat.count f.ValidAt (f.reach k) = k := by
    cases k with
    | zero => exact Nat.count_zero _
    | succ k => exact Nat.count_nth_succ_of_infinite f.infinite_validAt k
  have hmem : f.ValidAt (f.place k) := Nat.nth_mem_of_infinite f.infinite_validAt k
  refine ⟨⟨hmem, ?_⟩, ?_⟩
  · exact (Nat.count_le_iff_le_nth f.infinite_validAt).1 (Nat.le_of_eq hcount)
  · rintro i ⟨hvalid, hle⟩
    have hmono := Nat.count_monotone f.ValidAt hle
    rw [hcount] at hmono
    calc f.place k ≤ Nat.nth f.ValidAt (Nat.count f.ValidAt i) :=
          Nat.nth_monotone f.infinite_validAt hmono
      _ = i := Nat.nth_count hvalid

/-- Where the next valid token comes behind invalid ones. -/
theorem reach_of_take {f : Feed} {k : Nat} {bad : List Token} {t : Token}
    (hbad : ∀ u ∈ bad, u.kind = .invalid) (ht : t.kind ≠ .invalid)
    (htake : (f.drop (f.reach k)).take (bad.length + 1) = bad ++ [t]) :
    f.valid k = t ∧ f.reach (k + 1) = f.reach k + (bad.length + 1) := by
  have hup : ∀ i u, (bad ++ [t])[i]? = some u → f.upcoming (f.reach k + i) = u := by
    intro i u hi
    have hlt : i < bad.length + 1 := by simpa using (List.getElem?_eq_some_iff.1 hi).1
    rw [← htake, getElem?_take _ hlt, upcoming_drop] at hi
    exact Option.some.inj hi
  have hlast : f.upcoming (f.reach k + bad.length) = t := hup _ _ (by simp)
  have hplace : f.place k = f.reach k + bad.length := by
    refine (f.isLeast_place k).unique ⟨⟨?_, Nat.le_add_right _ _⟩, ?_⟩
    · rwa [ValidAt, hlast]
    · rintro i ⟨hi, hle⟩
      by_contra hlt
      have hindex : i - f.reach k < bad.length := by omega
      have htoken := hup (i - f.reach k) bad[i - f.reach k] (by
        rw [List.getElem?_append_left hindex, List.getElem?_eq_getElem hindex])
      rw [Nat.add_sub_cancel' hle] at htoken
      exact hi (htoken ▸ hbad _ (List.getElem_mem hindex))
  refine ⟨?_, ?_⟩
  · rw [valid, hplace, hlast]
  · show f.place k + 1 = _
    rw [hplace, Nat.add_assoc]

/-- The tokens drawn for one more valid token are invalid ones, and then it. -/
theorem exists_take_reach (f : Feed) (k : Nat) : ∃ bad, (∀ t ∈ bad, t.kind = .invalid) ∧
    f.take (f.reach (k + 1)) = f.take (f.reach k) ++ (bad ++ [f.valid k]) := by
  obtain ⟨bad, hbad, htake, -⟩ := (Cursor.ofFeed (f.drop (f.reach k))).fetch_spec
  obtain ⟨hvalid, hreach⟩ := reach_of_take hbad (Cursor.fetch_kind_ne_invalid _) htake
  refine ⟨bad, hbad, ?_⟩
  rw [hreach, take_add, hvalid]
  exact congrArg _ htake

/-- The valid tokens are what is left of the tokens to come without the invalid ones. -/
theorem visible_take_reach (f : Feed) (k : Nat) :
    visible (f.take (f.reach k)) = (List.range k).map f.valid := by
  induction k with
  | zero => rfl
  | succ k ih =>
    obtain ⟨bad, hbad, htake⟩ := f.exists_take_reach k
    have hvalid := visible_singleton (f.valid_kind_ne_invalid k)
    rw [htake, visible_append, visible_append, ih, visible_of_invalid hbad, hvalid, List.range_succ,
      List.map_append, List.nil_append]
    rfl

end Feed

/-- What is done to a cursor by those who use it. -/
inductive Handling where
  | next
  | pushBack
  | report (d : Diagnostic)
deriving DecidableEq, Repr

/-- The answers to what is done, step by step, and what it leads to. -/
def Handling.run {σ : Type} (step : σ → Handling → Option Token × σ) (s : σ) :
    List Handling → List (Option Token) × σ
  | [] => ([], s)
  | h :: hs =>
    let o := step s h
    let rest := run step o.2 hs
    (o.1 :: rest.1, rest.2)

/-- The cursor answers with a token when it is asked for one. -/
def Cursor.handle (s : Cursor) : Handling → Option Token × Cursor
  | .next => (some s.next.1, s.next.2)
  | .pushBack => (none, s.pushBack)
  | .report d => (none, s.report d)

/-- How many valid tokens have been fetched, whether the last of them is to come again, and the
reports so far. -/
structure Index where
  fetched : Nat := 0
  back : Bool := false
  reports : List Diagnostic := []

namespace Index

/-- The invalid ones among the tokens that are drawn to fetch the `k`th valid token. -/
noncomputable def passed (f : Feed) (k : Nat) : List Token :=
  ((f.take (f.reach (k + 1))).drop (f.reach k)).filter fun t => t.kind = .invalid

/-- The last token comes again, if it is to and there is one; otherwise the next one is fetched, and
the invalid tokens in front of it are reported. -/
noncomputable def next (f : Feed) (m : Index) : Token × Index :=
  if m.back = true ∧ 0 < m.fetched then (f.valid (m.fetched - 1), { m with back := false })
  else (f.valid m.fetched,
    ⟨m.fetched + 1, false, m.reports ++ (passed f m.fetched).map Cursor.invalidAt⟩)

noncomputable def handle (f : Feed) (m : Index) : Handling → Option Token × Index
  | .next => (some (m.next f).1, (m.next f).2)
  | .pushBack => (none, { m with back := true })
  | .report d => (none, { m with reports := m.reports ++ [d] })

/-- The slot of a cursor at the index. -/
noncomputable def slot (f : Feed) (m : Index) : Slot :=
  match m.fetched with
  | 0 => .empty
  | k + 1 => if m.back then .pending (f.valid k) else .taken (f.valid k)

end Index

namespace Cursor
variable {f : Feed} {s : Cursor} {m : Index}

/-- The cursor stands at the index. -/
structure Indexes (f : Feed) (m : Index) (s : Cursor) : Prop where
  slot : s.slot = m.slot f
  feed : s.feed = f.drop (f.reach m.fetched)
  reports : s.diagnostics.toList = m.reports

/-- What is fetched behind `k` valid tokens is the next valid one. -/
theorem fetch_valid {k : Nat} (hfeed : s.feed = f.drop (f.reach k)) :
    s.fetch.1 = f.valid k ∧ s.fetch.2.feed = f.drop (f.reach (k + 1)) ∧
      s.fetch.2.diagnostics.toList =
        s.diagnostics.toList ++ (Index.passed f k).map invalidAt := by
  obtain ⟨bad, hbad, htake, hfetch⟩ := s.fetch_spec
  have hkind := s.fetch_kind_ne_invalid
  rw [hfeed] at htake
  obtain ⟨hvalid, hreach⟩ := Feed.reach_of_take hbad hkind htake
  have hpassed : Index.passed f k = bad := by
    have hdrop : (f.take (f.reach (k + 1))).drop (f.reach k) = bad ++ [s.fetch.1] := by
      rw [hreach, Feed.take_add, htake, List.drop_left' (f.length_take _)]
    rw [Index.passed, hdrop, List.filter_append, List.filter_eq_self.2 (by simpa using hbad)]
    simp [hkind]
  refine ⟨hvalid.symm, ?_, ?_⟩
  · rw [hfetch, hfeed, Feed.drop_drop, hreach]
  · rw [hfetch, hpassed, Array.toList_append]

namespace Indexes

theorem ofFeed (f : Feed) : Indexes f {} (.ofFeed f) := ⟨rfl, rfl, rfl⟩

theorem next (h : Indexes f m s) :
    s.next.1 = (m.next f).1 ∧ Indexes f (m.next f).2 s.next.2 := by
  obtain ⟨k, back, reports⟩ := m
  have hslot := h.slot
  by_cases hback : back = true ∧ 0 < k
  · obtain ⟨rfl, hk⟩ := hback
    obtain ⟨j, rfl⟩ := Nat.exists_eq_add_one_of_ne_zero (Nat.ne_of_gt hk)
    have hpending : s.slot = .pending (f.valid j) := hslot
    have hnext : Index.next f ⟨j + 1, true, reports⟩ = (f.valid j, ⟨j + 1, false, reports⟩) := by
      simp [Index.next]
    obtain ⟨htoken, hfeed, hdiag⟩ := next_pending hpending
    rw [hnext]
    refine ⟨htoken, ?_, ?_, ?_⟩
    · rw [slot_next, htoken]
      rfl
    · rw [hfeed, h.feed]
    · rw [hdiag, h.reports]
  · have hnot : ∀ t, s.slot ≠ .pending t := by
      intro t ht
      rw [ht] at hslot
      cases k with
      | zero => cases hslot
      | succ k =>
        cases back with
        | true => exact hback ⟨rfl, Nat.succ_pos k⟩
        | false => cases hslot
    have hnext : Index.next f ⟨k, back, reports⟩ =
        (f.valid k, ⟨k + 1, false, reports ++ (Index.passed f k).map invalidAt⟩) := by
      rw [Index.next, if_neg hback]
    obtain ⟨htoken, hfeed, hdiag⟩ := fetch_valid h.feed
    rw [hnext, next_of_not_pending hnot]
    refine ⟨htoken, ?_, hfeed, ?_⟩
    · rw [slot_fetch, htoken]
      rfl
    · rw [hdiag, h.reports]

theorem pushBack (h : Indexes f m s) : Indexes f { m with back := true } s.pushBack := by
  obtain ⟨k, back, reports⟩ := m
  refine ⟨?_, ?_, ?_⟩
  · have hslot := h.slot
    cases k with
    | zero => simp_all [Cursor.pushBack, Index.slot]
    | succ k => cases back <;> simp_all [Cursor.pushBack, Index.slot]
  · rw [feed_pushBack, h.feed]
  · rw [diagnostics_pushBack, h.reports]

theorem report (h : Indexes f m s) (d : Diagnostic) :
    Indexes f { m with reports := m.reports ++ [d] } (s.report d) := by
  refine ⟨h.slot, h.feed, ?_⟩
  rw [← h.reports]
  simp [Cursor.report, Cursor.note]

/-- One step: the answer is that of the index, and the cursor stands at the new index. -/
theorem handle (h : Indexes f m s) (a : Handling) :
    (s.handle a).1 = (m.handle f a).1 ∧ Indexes f (m.handle f a).2 (s.handle a).2 := by
  cases a with
  | next => exact ⟨congrArg some h.next.1, h.next.2⟩
  | pushBack => exact ⟨rfl, h.pushBack⟩
  | report d => exact ⟨rfl, h.report d⟩

theorem run (h : Indexes f m s) (as : List Handling) :
    (Handling.run Cursor.handle s as).1 = (Handling.run (Index.handle f) m as).1 ∧
      Indexes f (Handling.run (Index.handle f) m as).2 (Handling.run Cursor.handle s as).2 := by
  induction as generalizing m s with
  | nil => exact ⟨rfl, h⟩
  | cons a as ih =>
    obtain ⟨hanswer, hstep⟩ := h.handle a
    obtain ⟨hanswers, hrun⟩ := ih hstep
    refine ⟨?_, hrun⟩
    simp only [Handling.run, hanswer, hanswers]

end Indexes

end Cursor

theorem Index.kind_of_mem_run {f : Feed} {m : Index} {as : List Handling} {t : Token}
    (h : some t ∈ (Handling.run (Index.handle f) m as).1) : t.kind ≠ .invalid := by
  induction as generalizing m with
  | nil => cases h
  | cons a as ih =>
    rcases List.mem_cons.1 h with hanswer | hmem
    · cases a with
      | next =>
        obtain rfl : t = (m.next f).1 := Option.some.inj hanswer
        rw [Index.next]
        split <;> exact f.valid_kind_ne_invalid _
      | pushBack | report => cases hanswer
    · exact ih hmem

/-- Whatever is done to a cursor over a fresh source, it answers as the index into the valid tokens
does. An invalid token is never handed out; the feed has been drawn up to the last token fetched;
and the diagnostics are the reports of the index, in their order. -/
theorem cursor_run_index (source : Source) (as : List Handling) :
    let f : Feed := { source }
    let o := Handling.run Cursor.handle (.ofFeed f) as
    let m := Handling.run (Index.handle f) {} as
    o.1 = m.1 ∧ (∀ t, some t ∈ o.1 → t.kind ≠ .invalid) ∧
      o.2.feed = f.drop (f.reach m.2.fetched) ∧ o.2.feed.pulls = f.reach m.2.fetched ∧
      o.2.feed.drawn.toList = f.take (f.reach m.2.fetched) ∧
      o.2.diagnostics.toList = m.2.reports ∧
      (∀ k, visible (f.take (f.reach k)) = (List.range k).map f.valid) ∧
      ∃ n, ∀ k ≥ n, (f.valid k).kind = .eof := by
  intro f o m
  obtain ⟨hanswers, hindexes⟩ := (Cursor.Indexes.ofFeed f).run as
  have hdrawn : o.2.feed.drawn.toList = f.take (f.reach m.2.fetched) := by
    rw [hindexes.feed, Feed.toList_drawn_drop]
    rfl
  refine ⟨hanswers, ?_, hindexes.feed, ?_, hdrawn, hindexes.reports, f.visible_take_reach,
    f.exists_valid_end⟩
  · intro t ht
    rw [hanswers] at ht
    exact Index.kind_of_mem_run ht
  · rw [Feed.pulls, ← Array.length_toList, hdrawn, Feed.length_take]

end Routine
