import Routine.Proofs.History

/-!
# Invalid tokens leave no trace but their own reports

A list of tokens is parsed side by side with the list of its valid tokens. `Sifted` relates the two
cursors: they hold the same token, what is left of the second list are the valid tokens of what is
left of the first, and so are the reports. Behind an end of the input the two lists may run out at
different places, so the runs are compared only as long as the first has not drawn a token behind an
end; a parse never does (`Overrun`).
-/

namespace Routine

open Cursor Procedure

namespace Cursor
variable {s s' : Cursor} {bad us : List Token} {t : Token}

/-- A token has been drawn behind an end of the input. -/
def Overrun (s : Cursor) : Prop := ∃ t ∈ s.feed.drawn.pop, t.kind = .eof

theorem mem_pop_of_feed_drop {f g : Feed} {n : Nat} (h : g = f.drop n) (ht : t ∈ f.drawn.pop) :
    t ∈ g.drawn.pop := by
  rw [Array.mem_def, Array.toList_pop] at ht ⊢
  rw [h, Feed.toList_drawn_drop]
  cases n with
  | zero => simpa using ht
  | succ n =>
    rw [List.dropLast_append_of_ne_nil (by simp)]
    exact List.mem_append_left _ (List.dropLast_subset _ ht)

theorem kept_overrun : Kept Overrun where
  next := by
    rintro s ⟨t, ht, hk⟩
    obtain ⟨n, hn⟩ := s.feed_next
    exact ⟨t, mem_pop_of_feed_drop hn ht, hk⟩
  pushBack := by
    rintro s ⟨t, ht, hk⟩
    exact ⟨t, by rwa [feed_pushBack], hk⟩
  reject h := h
  note _ h := h

theorem Ready.not_overrun (h : s.Ready) : ¬ s.Overrun := by
  rintro ⟨t, ht, hk⟩
  exact h.not_end_of_mem_pop ht hk

/-- Drawing on when the last token was the end. -/
theorem overrun_of_taken (h : s.Linked) (hs : s.slot = .taken t) (hk : t.kind = .eof) :
    s.next.2.Overrun := by
  obtain ⟨us, hus⟩ := (h.drawn_of_taken hs).2
  obtain ⟨bad, -, -, hfetch⟩ := s.fetch_spec
  refine ⟨t, ?_, hk⟩
  rw [next_of_not_pending (by simp [hs]), hfetch, Array.mem_def, Array.toList_pop,
    Feed.toList_drawn_drop, List.dropLast_append_of_ne_nil (by simp), hus]
  simp

/-- The first valid token of a list is drawn, and the invalid ones before it are reported. -/
theorem fetch_of_replay (h : s.feed.source = .replay (bad ++ t :: us))
    (hbad : ∀ u ∈ bad, u.kind = .invalid) (ht : t.kind ≠ .invalid) :
    s.fetch.1 = t ∧ s.fetch.2.feed.source = .replay us ∧
      s.fetch.2.diagnostics = s.diagnostics ++ (bad.map invalidAt).toArray := by
  induction bad generalizing s with
  | nil =>
    have hnext : s.feed.next.1 = t := by simp [Feed.next, h, Source.next]
    rw [fetch, hnext, if_neg ht]
    simp [Feed.next, h, Source.next]
  | cons u bad ih =>
    have hnext : s.feed.next.1 = u := by simp [Feed.next, h, Source.next]
    rw [fetch, hnext, if_pos (hbad u (List.mem_cons_self ..))]
    obtain ⟨h₁, h₂, h₃⟩ := ih
      (s := { s with feed := s.feed.next.2 }.report ⟨.invalid, s.feed.next.2.position⟩)
      (by simp [report, note, Feed.next, h, Source.next])
      (fun v hv => hbad v (List.mem_cons_of_mem _ hv))
    refine ⟨h₁, h₂, h₃.trans ?_⟩
    simp [report, note, hnext, invalidAt]

/-- The cursor `s'` is behind the valid tokens of what `s` is behind, in front of the valid tokens of
what `s` is in front of, and has reported what `s` has but for the invalid tokens. In front of `s`
there is an end of the input, unless it is the token that was drawn last. -/
structure Sifted (s s' : Cursor) : Prop where
  linked : s.Linked
  linked' : s'.Linked
  slot : s.slot = s'.slot
  rest : ∃ us, s.feed.source = .replay us ∧ s'.feed.source = .replay (visible us) ∧
    ((∃ t ∈ us, t.kind = .eof) ∨ ∃ t, (s.slot = .taken t ∨ s.slot = .pending t) ∧ t.kind = .eof)
  diagnostics : s'.diagnostics.toList = s.diagnostics.toList.filter fun d => d.fault ≠ .invalid

/-- A list is what comes before the first token with a property, that token, and the rest. -/
theorem exists_first {P : Token → Prop} [DecidablePred P] (h : ∃ t ∈ us, P t) :
    ∃ front t rest, us = front ++ t :: rest ∧ (∀ u ∈ front, ¬ P u) ∧ P t := by
  have hsome : (us.find? fun t => P t).isSome = true := by simpa [List.find?_isSome] using h
  obtain ⟨t, ht⟩ := Option.isSome_iff_exists.1 hsome
  obtain ⟨hP, front, rest, heq, hfront⟩ := List.find?_eq_some_iff_append.1 ht
  exact ⟨front, t, rest, heq, by simpa using hfront, by simpa using hP⟩

/-- A list in which there is an end begins with invalid tokens and a valid one. -/
theorem exists_first_valid (h : ∃ t ∈ us, t.kind = .eof) : ∃ bad t rest, us = bad ++ t :: rest ∧
    (∀ u ∈ bad, u.kind = .invalid) ∧ t.kind ≠ .invalid ∧ (t.kind = .eof ∨ ∃ u ∈ rest, u.kind = .eof) := by
  obtain ⟨e, he, hend⟩ := h
  obtain ⟨bad, t, rest, rfl, hbad, ht⟩ :=
    exists_first (P := fun t => t.kind ≠ .invalid) ⟨e, he, by rw [hend]; decide⟩
  have hinvalid : ∀ u ∈ bad, u.kind = .invalid := by simpa using hbad
  refine ⟨bad, t, rest, rfl, hinvalid, ht, ?_⟩
  rcases List.mem_append.1 he with he | he
  · rw [hinvalid e he] at hend
    exact absurd hend (by decide)
  · rcases List.mem_cons.1 he with rfl | he
    · exact .inl hend
    · exact .inr ⟨e, he, hend⟩

theorem filter_invalidAt (bad : List Token) :
    ((bad.map invalidAt).filter fun d => d.fault ≠ .invalid) = [] := by
  simp [invalidAt]

namespace Sifted

/-- The first valid token of both lists is drawn. -/
theorem fetch (h : Sifted s s') (hus : s.feed.source = .replay us)
    (hus' : s'.feed.source = .replay (visible us)) (hend : ∃ t ∈ us, t.kind = .eof) :
    s.fetch.1 = s'.fetch.1 ∧ Sifted s.fetch.2 s'.fetch.2 := by
  obtain ⟨bad, t, rest, rfl, hbad, ht, hrest⟩ := exists_first_valid hend
  have hvisible : visible (bad ++ t :: rest) = [] ++ t :: visible rest := by
    rw [← List.singleton_append, visible_append, visible_append, visible_of_invalid hbad,
      visible_singleton ht, List.singleton_append]
  obtain ⟨h₁, h₂, h₃⟩ := fetch_of_replay hus hbad ht
  obtain ⟨h₁', h₂', h₃'⟩ := fetch_of_replay (hvisible ▸ hus') (by simp) ht
  refine ⟨h₁.trans h₁'.symm, Linked.fetch s, Linked.fetch s', ?_, ⟨rest, h₂, h₂', ?_⟩, ?_⟩
  · rw [slot_fetch, slot_fetch, h₁, h₁']
  · rcases hrest with hk | hk
    · exact .inr ⟨t, .inl (by rw [slot_fetch, h₁]), hk⟩
    · exact .inl hk
  · rw [h₃, h₃', Array.toList_append, Array.toList_append, List.filter_append, filter_invalidAt,
      h.diagnostics]
    rfl

theorem next (h : Sifted s s') :
    s.next.2.Overrun ∨ s.next.1 = s'.next.1 ∧ Sifted s.next.2 s'.next.2 := by
  obtain ⟨us, hus, hus', hrest⟩ := h.rest
  cases hs : s.slot with
  | pending t =>
    have hs' : s'.slot = .pending t := h.slot ▸ hs
    have hnext : Sifted s.next.2 s'.next.2 := by
      refine ⟨h.linked.next, h.linked'.next, ?_, ⟨us, ?_, ?_, ?_⟩, ?_⟩
      · rw [slot_next, slot_next, next_of_pending hs, next_of_pending hs']
      · rwa [(next_pending hs).2.1]
      · rwa [(next_pending hs').2.1]
      · rw [slot_next, (next_pending hs).1]
        simpa [hs] using hrest
      · rw [(next_pending hs).2.2, (next_pending hs').2.2, h.diagnostics]
    refine .inr ⟨?_, hnext⟩
    rw [(next_pending hs).1, (next_pending hs').1]
  | empty =>
    have hend : ∃ t ∈ us, t.kind = .eof := by simpa [hs] using hrest
    have hs' : s'.slot = .empty := h.slot ▸ hs
    rw [next_of_not_pending (by simp [hs]), next_of_not_pending (by simp [hs'])]
    exact .inr (h.fetch hus hus' hend)
  | taken t =>
    have hs' : s'.slot = .taken t := h.slot ▸ hs
    rcases hrest with hend | ⟨u, hu, hk⟩
    · rw [next_of_not_pending (by simp [hs]), next_of_not_pending (by simp [hs'])]
      exact .inr (h.fetch hus hus' hend)
    · obtain rfl : t = u := by simpa [hs] using hu
      exact .inl (overrun_of_taken h.linked hs hk)

theorem pushBack (h : Sifted s s') : Sifted s.pushBack s'.pushBack := by
  cases hs : s.slot with
  | taken t =>
    have hs' : s'.slot = .taken t := h.slot ▸ hs
    have hp := slot_pushBack_of_taken hs
    have hp' := slot_pushBack_of_taken hs'
    obtain ⟨us, hus, hus', hrest⟩ := h.rest
    refine ⟨h.linked.pushBack, h.linked'.pushBack, by rw [hp, hp'], ⟨us, ?_, ?_, ?_⟩, ?_⟩
    · rwa [feed_pushBack]
    · rwa [feed_pushBack]
    · rw [hp]
      simpa [hs] using hrest
    · rw [diagnostics_pushBack, diagnostics_pushBack, h.diagnostics]
  | empty | pending t =>
    have hs' := h.slot ▸ hs
    rwa [pushBack_of_not_taken (by simp [hs]), pushBack_of_not_taken (by simp [hs'])]

theorem position (h : Sifted s s') : s.position = s'.position := by
  cases hs : s.slot with
  | empty =>
    have hs' : s'.slot = .empty := h.slot ▸ hs
    obtain ⟨us, hus, hus', -⟩ := h.rest
    have hdrawn : s.feed.drawn = #[] := by simpa only [Linked, hs] using h.linked
    have hdrawn' : s'.feed.drawn = #[] := by simpa only [Linked, hs'] using h.linked'
    simp [Cursor.position, Feed.position, hdrawn, hdrawn', hus, hus', Source.start]
  | taken t => rw [h.linked.position (.inl hs), h.linked'.position (.inl (h.slot ▸ hs))]
  | pending t => rw [h.linked.position (.inr hs), h.linked'.position (.inr (h.slot ▸ hs))]

theorem reject (h : Sifted s s') : Sifted s.reject s'.reject := by
  refine ⟨h.linked, h.linked', h.slot, h.rest, ?_⟩
  simp [Cursor.reject, report, Cursor.note, h.diagnostics, h.position]

theorem note (h : Sifted s s') (e e' : Event) : Sifted (s.note e) (s'.note e') :=
  ⟨h.linked, h.linked', h.slot, h.rest, h.diagnostics⟩

end Sifted

theorem simulation_sifted : Simulation Overrun Sifted where
  kept := kept_overrun
  slot h := h.slot
  next h := h.next
  pushBack h := h.pushBack
  reject h := h.reject
  note e e' h := h.note e e'

/-- The invalid tokens that were drawn have been reported, in order and once each. -/
theorem kept_invalid : Kept fun s => (s.diagnostics.toList.filter fun d => d.fault = .invalid) =
    (s.feed.drawn.toList.filter fun t => t.kind = .invalid).map invalidAt where
  next := by
    intro s h
    cases hs : s.slot with
    | pending t =>
      obtain ⟨-, hfeed, hdiag⟩ := next_pending hs
      rwa [hfeed, hdiag]
    | empty | taken t =>
      have hkind := s.fetch_kind_ne_invalid
      obtain ⟨bad, hbad, htake, hfetch⟩ := s.fetch_spec
      have hall : (bad.filter fun t => t.kind = .invalid) = bad := by simpa using hbad
      rw [next_of_not_pending (by simp [hs]), hfetch, Feed.toList_drawn_drop, htake]
      simp only [Array.toList_append, List.filter_append, h, List.map_append, hall]
      simp [hkind, invalidAt]
  pushBack h := by rwa [diagnostics_pushBack, feed_pushBack]
  reject h := by simpa [Cursor.reject, report, Cursor.note] using h
  note _ h := h

end Cursor

/-- A list up to its first end is drawn in order. -/
theorem Feed.take_replay {f : Feed} {ts us : List Token} (h : f.source = .replay (ts ++ us)) :
    f.take ts.length = ts := by
  induction ts generalizing f with
  | nil => rfl
  | cons t ts ih =>
    have hnext : f.next.1 = t := by simp [next, h, Source.next]
    rw [List.length_cons, take_succ, hnext, ih (by simp [next, h, Source.next])]

/-- A list is handed out as it is up to its first end. -/
theorem Feed.first_end_ofTokens {front rest : List Token} {e : Token}
    (hbefore : ∀ t ∈ front, ¬ t.kind = .eof) (he : e.kind = .eof) :
    (Feed.ofTokens (front ++ e :: rest)).take (front.length + 1) = front ++ [e] ∧
      ((Feed.ofTokens (front ++ e :: rest)).upcoming front.length).kind = .eof ∧
      ∀ k < front.length, ¬ ((Feed.ofTokens (front ++ e :: rest)).upcoming k).kind = .eof := by
  have hsource : (Feed.ofTokens (front ++ e :: rest)).source = .replay (front ++ [e] ++ rest) := by
    rw [← List.append_cons]
    rfl
  have htake : (Feed.ofTokens (front ++ e :: rest)).take (front.length + 1) = front ++ [e] := by
    simpa using Feed.take_replay hsource
  have hbegins : (ofFeed (.ofTokens (front ++ e :: rest))).Begins (front ++ [e]) :=
    htake ▸ begins_take _ _
  have hget : ∀ i t, (front ++ [e])[i]? = some t →
      (Feed.ofTokens (front ++ e :: rest)).upcoming i = t := begins_iff.1 hbegins
  refine ⟨htake, ?_, fun k hlt => ?_⟩
  · rw [hget front.length e (by simp)]
    exact he
  · rw [hget k front[k] (by rw [List.getElem?_append_left hlt, List.getElem?_eq_getElem hlt])]
    exact hbefore _ (List.getElem_mem hlt)

/-- What is parsed from a list that holds an end are the tokens before the first end, and that end. -/
theorem drawn_parse_ofTokens {ts : List Token} (h : ∃ t ∈ ts, t.kind = .eof) : ∃ e, e.kind = .eof ∧
    (parse (.ofTokens ts)).cursor.feed.drawn.toList =
      (ts.takeWhile fun t => t.kind ≠ .eof) ++ [e] := by
  obtain ⟨front, e, rest, rfl, hbefore, he⟩ := exists_first h
  have hwhile : ((front ++ e :: rest).takeWhile fun t => t.kind ≠ .eof) = front := by
    rw [List.takeWhile_append_of_pos (by simpa using hbefore), List.takeWhile_cons_of_neg (by simp [he]),
      List.append_nil]
  obtain ⟨htake, hend, hfirst⟩ := Feed.first_end_ofTokens hbefore he
  obtain ⟨hr, hatEnd⟩ := parse_ready_atEnd (f := .ofTokens (front ++ e :: rest)) rfl
  obtain ⟨hend', hfirst', hdrawn, -⟩ := hatEnd.first_end rfl (parse_on _) hr
  have hlength := first_unique (P := fun i =>
    ((Feed.ofTokens (front ++ e :: rest)).upcoming i).kind = .eof) hend' hfirst' hend hfirst
  exact ⟨e, he, by rw [hdrawn, hlength, htake, hwhile]⟩

/-- The reports of invalid tokens are those of the tokens before the first end. -/
theorem invalid_parse_ofTokens {ts : List Token} (h : ∃ t ∈ ts, t.kind = .eof) :
    ((parse (.ofTokens ts)).diagnostics.filter fun d => d.fault = .invalid) =
      (((ts.takeWhile fun t => t.kind ≠ .eof).filter fun t => t.kind = .invalid).map invalidAt) := by
  have hreports := kept_invalid.parse (s := ofFeed (.ofTokens ts)) Nonterminal.program rfl
  obtain ⟨e, he, hdrawn⟩ := drawn_parse_ofTokens h
  refine Eq.trans hreports ?_
  show ((parse (.ofTokens ts)).cursor.feed.drawn.toList.filter _).map invalidAt = _
  rw [hdrawn, List.filter_append, List.filter_cons_of_neg (by simp [he]), List.filter_nil,
    List.append_nil]

theorem sifted_ofTokens {ts : List Token} (h : ∃ t ∈ ts, t.kind = .eof) :
    Sifted (ofFeed (.ofTokens ts)) (ofFeed (.ofTokens (visible ts))) where
  linked := linked_ofFeed rfl
  linked' := linked_ofFeed rfl
  slot := rfl
  rest := ⟨ts, rfl, rfl, .inl h⟩
  diagnostics := rfl

/-- Without its invalid tokens a list is parsed to the same program, with the same reports but for
those of the invalid tokens before the first end. -/
theorem parse_visible (ts : List Token) (h : ∃ t ∈ ts, t.kind = .eof) :
    (parse (.ofTokens (visible ts))).program = (parse (.ofTokens ts)).program ∧
      ((parse (.ofTokens (visible ts))).diagnostics.filter fun d => d.fault = .unexpected) =
        ((parse (.ofTokens ts)).diagnostics.filter fun d => d.fault = .unexpected) ∧
      (parse (.ofTokens (visible ts))).diagnostics =
        ((parse (.ofTokens ts)).diagnostics.filter fun d => d.fault ≠ .invalid) ∧
      ((parse (.ofTokens ts)).diagnostics.filter fun d => d.fault = .invalid) =
        ((ts.takeWhile fun t => t.kind ≠ .eof).filter fun t => t.kind = .invalid).map
          fun t => ⟨.invalid, t.position⟩ := by
  obtain ⟨hr, -⟩ := parse_ready_atEnd (f := .ofTokens ts) rfl
  -- no token behind an end is drawn, so the two runs stay side by side
  have hrun := simulation_sifted.run Production.program (sifted_ofTokens h)
  obtain ⟨htree, hsifted⟩ := hrun.resolve_left hr.not_overrun
  have hreports : (parse (.ofTokens (visible ts))).diagnostics =
      (parse (.ofTokens ts)).diagnostics.filter fun d => d.fault ≠ .invalid := hsifted.diagnostics
  refine ⟨htree.symm, ?_, hreports, invalid_parse_ofTokens h⟩
  rw [hreports, List.filter_filter]
  refine List.filter_congr fun d _ => ?_
  cases hd : d.fault <;> simp

/-- The invalid token behind the end is not reported. -/
theorem parse_visible_semicolon :
    let ts : List Token := [⟨.invalid, ⟨1, 1⟩, none⟩, ⟨.semicolon, ⟨1, 2⟩, none⟩,
      ⟨.invalid, ⟨1, 3⟩, none⟩, ⟨.eof, ⟨1, 4⟩, none⟩, ⟨.invalid, ⟨1, 5⟩, none⟩]
    (∃ t ∈ ts, t.kind = .eof) ∧
      visible ts = [⟨.semicolon, ⟨1, 2⟩, none⟩, ⟨.eof, ⟨1, 4⟩, none⟩] ∧
      ((parse (.ofTokens ts)).diagnostics.filter fun d => d.fault = .unexpected) =
        [⟨.unexpected, ⟨1, 2⟩⟩] ∧
      ((parse (.ofTokens ts)).diagnostics.filter fun d => d.fault = .invalid) =
        [⟨.invalid, ⟨1, 1⟩⟩, ⟨.invalid, ⟨1, 3⟩⟩] := by
  intro ts
  have h : ∃ t ∈ ts, t.kind = .eof := by decide
  obtain ⟨-, hunexpected, -, hinvalid⟩ := parse_visible ts h
  have hvisible : visible ts = [⟨.semicolon, ⟨1, 2⟩, none⟩, ⟨.eof, ⟨1, 4⟩, none⟩] := rfl
  have hone : (parse (.ofTokens [⟨.semicolon, ⟨1, 2⟩, none⟩, ⟨.eof, ⟨1, 4⟩, none⟩])).diagnostics =
      [⟨.unexpected, ⟨1, 2⟩⟩] := by decide +kernel
  refine ⟨h, hvisible, ?_, hinvalid⟩
  rw [← hunexpected, hvisible, hone]
  rfl

end Routine
