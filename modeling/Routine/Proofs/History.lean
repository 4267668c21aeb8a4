import Routine.Proofs.Draining
import Routine.Proofs.Simulation

/-!
# What comes next decides what is read

Two cursors with the same tokens to come may have got there in different ways: the token to come
next may have been handed back by one and not yet been drawn by the other, and what they have
reported before need not agree. `Alike` is what they have in common once each has drawn a token.
Every part of a program begins by drawing one, so `next_alike` leads from the first situation to the
second, and from there on the two runs are side by side (`simulation_alike`).
-/

namespace Routine

open Cursor Procedure

namespace Cursor
variable {s s' s₁ s₁' : Cursor} {d d' : Array Diagnostic} {bad bad' : List Token} {t t' : Token}

theorem Begins.first_valid (h : s.Begins (bad ++ [t])) (hbad : ∀ u ∈ bad, u.kind = .invalid)
    (ht : t.kind ≠ .invalid) :
    (s.upcoming bad.length).kind ≠ .invalid ∧
      ∀ j < bad.length, ¬ (s.upcoming j).kind ≠ .invalid := by
  rw [begins_iff] at h
  constructor
  · rwa [h bad.length t (by simp)]
  · intro j hj
    have hget : (bad ++ [t])[j]? = some bad[j] := by
      rw [List.getElem?_append_left hj, List.getElem?_eq_getElem hj]
    rw [h j _ hget]
    exact not_not_intro (hbad _ (List.getElem_mem hj))

/-- The invalid tokens that come first, and the valid one behind them, are determined by the stream. -/
theorem begins_unique (hup : s.upcoming = s'.upcoming) (h : s.Begins (bad ++ [t]))
    (hbad : ∀ u ∈ bad, u.kind = .invalid) (ht : t.kind ≠ .invalid) (h' : s'.Begins (bad' ++ [t']))
    (hbad' : ∀ u ∈ bad', u.kind = .invalid) (ht' : t'.kind ≠ .invalid) : bad = bad' ∧ t = t' := by
  obtain ⟨hvalid, hbefore⟩ := h.first_valid hbad ht
  obtain ⟨hvalid', hbefore'⟩ := h'.first_valid hbad' ht'
  rw [← hup] at hvalid' hbefore'
  have hlen : bad.length = bad'.length :=
    first_unique (P := fun j => (s.upcoming j).kind ≠ .invalid) hvalid hbefore hvalid' hbefore'
  have heq : bad ++ [t] = bad' ++ [t'] := by
    refine List.ext_getElem (by simp [hlen]) fun i hi hi' => ?_
    exact (h i hi).symm.trans ((congrFun hup i).trans (h' i hi'))
  simpa using List.append_inj heq hlen

/-- The cursors have handed out the same token, and the same tokens will follow it. What they have
reported behind `d` and `d'` is the same. -/
structure Alike (d d' : Array Diagnostic) (s s' : Cursor) : Prop where
  linked : s.Linked
  linked' : s'.Linked
  slot : s.slot = s'.slot
  begun : s.slot ≠ .empty
  feed : s.feed.upcoming = s'.feed.upcoming
  diagnostics : ∃ ds, s.diagnostics = d ++ ds ∧ s'.diagnostics = d' ++ ds

theorem Alike.upcoming (h : Alike d d' s s') : s.upcoming = s'.upcoming := by
  funext n
  simp only [Cursor.upcoming, h.slot, h.feed]

theorem Alike.trans (h : Alike d d' s s') (h' : Alike s.diagnostics s'.diagnostics s₁ s₁') :
    Alike d d' s₁ s₁' := by
  obtain ⟨ds, hds, hds'⟩ := h.diagnostics
  obtain ⟨es, hes, hes'⟩ := h'.diagnostics
  refine ⟨h'.linked, h'.linked', h'.slot, h'.begun, h'.feed, ds ++ es, ?_, ?_⟩
  · rw [hes, hds, Array.append_assoc]
  · rw [hes', hds', Array.append_assoc]

/-- Cursors with the same tokens to come draw the same token, after reporting the same. -/
theorem next_alike (hl : s.Linked) (hl' : s'.Linked) (hup : s.upcoming = s'.upcoming) :
    s.next.1 = s'.next.1 ∧ Alike s.diagnostics s'.diagnostics s.next.2 s'.next.2 := by
  obtain ⟨bad, hbad, hmove, hdiag⟩ := hl.next_spec
  obtain ⟨bad', hbad', hmove', hdiag'⟩ := hl'.next_spec
  have hvalid := (hl.next.drawn_of_taken s.slot_next).1
  have hvalid' := (hl'.next.drawn_of_taken s'.slot_next).1
  obtain ⟨rfl, heq⟩ := begins_unique hup hmove.begins hbad hvalid hmove'.begins hbad' hvalid'
  have hslot : s.next.2.slot = s'.next.2.slot := by rw [slot_next, slot_next, heq]
  have hup' : s.next.2.upcoming = s'.next.2.upcoming := by
    funext i
    rw [hmove.upcoming, hmove'.upcoming, hup, List.length_append, List.length_append]
    rfl
  refine ⟨heq, hl.next, hl'.next, hslot, by simp [slot_next], ?_, _, hdiag, hdiag'⟩
  rwa [upcoming_of_not_pending (by simp [slot_next]),
    upcoming_of_not_pending (by simp [slot_next])] at hup'

namespace Alike

theorem next (h : Alike d d' s s') : s.next.1 = s'.next.1 ∧ Alike d d' s.next.2 s'.next.2 := by
  obtain ⟨heq, h'⟩ := next_alike h.linked h.linked' h.upcoming
  exact ⟨heq, h.trans h'⟩

theorem pushBack (h : Alike d d' s s') : Alike d d' s.pushBack s'.pushBack := by
  cases hs : s.slot with
  | empty => exact absurd hs h.begun
  | taken t =>
    have hs' : s'.slot = .taken t := h.slot ▸ hs
    refine ⟨h.linked.pushBack, h.linked'.pushBack, ?_, ?_, ?_, ?_⟩
    · rw [slot_pushBack_of_taken hs, slot_pushBack_of_taken hs']
    · simp [slot_pushBack_of_taken hs]
    · rw [feed_pushBack, feed_pushBack, h.feed]
    · rw [diagnostics_pushBack, diagnostics_pushBack]
      exact h.diagnostics
  | pending t =>
    have hs' : s'.slot = .pending t := h.slot ▸ hs
    rwa [pushBack_of_not_taken (by simp [hs]), pushBack_of_not_taken (by simp [hs'])]

/-- The token that is rejected is the same, so its position is. -/
theorem reject (h : Alike d d' s s') : Alike d d' s.reject s'.reject := by
  have hposition : s.position = s'.position := by
    cases hs : s.slot with
    | empty => exact absurd hs h.begun
    | taken t => rw [h.linked.position (.inl hs), h.linked'.position (.inl (h.slot ▸ hs))]
    | pending t => rw [h.linked.position (.inr hs), h.linked'.position (.inr (h.slot ▸ hs))]
  obtain ⟨ds, hds, hds'⟩ := h.diagnostics
  refine ⟨h.linked, h.linked', h.slot, h.begun, h.feed, ds.push ⟨.unexpected, s.position⟩, ?_, ?_⟩
  · simp [Cursor.reject, report, Cursor.note, hds]
  · simp [Cursor.reject, report, Cursor.note, hds', hposition]

theorem note (h : Alike d d' s s') (e e' : Event) : Alike d d' (s.note e) (s'.note e') :=
  ⟨h.linked, h.linked', h.slot, h.begun, h.feed, h.diagnostics⟩

end Alike

theorem simulation_alike (d d' : Array Diagnostic) : Simulation (fun _ => False) (Alike d d') where
  kept := ⟨id, id, id, fun _ => id⟩
  slot h := h.slot
  next h := .inr h.next
  pushBack h := h.pushBack
  reject h := h.reject
  note e e' h := h.note e e'

end Cursor

/-- A part is parsed by drawing a token and going on from there. -/
theorem Nonterminal.parse_draws (n : Nonterminal) :
    ∃ k : Token → Procedure n.Result, ∀ s, n.parse s = (k s.next.1).run Phrase.read s.next.2 := by
  have hdraws : (∃ k, n.procedure = .act .next k) ∨
      ∃ k : Token → Procedure n.Result, ∀ s, n.parse s = (k s.next.1).run Phrase.read s.next.2 := by
    cases n with
    | condition =>
      obtain ⟨k, hk⟩ : ∃ k, Production.expression = .act .next k := ⟨_, rfl⟩
      refine .inr ⟨k, fun s => ?_⟩
      have hread : Phrase.read .expression s = Production.expression.run Phrase.read s :=
        Phrase.read_eq .expression s
      rw [hk] at hread
      exact hread
    | _ => exact .inl ⟨_, rfl⟩
  rcases hdraws with ⟨k, hk⟩ | h
  · refine ⟨k, fun s => ?_⟩
    rw [parse, hk]
    rfl
  · exact h

namespace Cursor
variable {s s' : Cursor}

theorem parse_alike (n : Nonterminal) (hl : s.Linked) (hl' : s'.Linked)
    (hup : s.upcoming = s'.upcoming) :
    (n.parse s).1 = (n.parse s').1 ∧
      Alike s.diagnostics s'.diagnostics (n.parse s).2 (n.parse s').2 := by
  obtain ⟨k, hk⟩ := n.parse_draws
  obtain ⟨heq, halike⟩ := next_alike hl hl' hup
  rw [hk, hk, heq]
  exact ((simulation_alike _ _).run _ halike).resolve_left id

theorem parseAll_alike (ns : List Nonterminal) (hl : s.Linked) (hl' : s'.Linked)
    (hup : s.upcoming = s'.upcoming) :
    (s.parseAll ns).1 = (s'.parseAll ns).1 ∧
      (∃ ds, (s.parseAll ns).2.diagnostics = s.diagnostics ++ ds ∧
        (s'.parseAll ns).2.diagnostics = s'.diagnostics ++ ds) ∧
      (s.parseAll ns).2.upcoming = (s'.parseAll ns).2.upcoming := by
  induction ns generalizing s s' with
  | nil => exact ⟨rfl, ⟨#[], by simp [parseAll], by simp [parseAll]⟩, hup⟩
  | cons n ns ih =>
    obtain ⟨htree, halike⟩ := parse_alike n hl hl' hup
    obtain ⟨htrees, ⟨ds, hds, hds'⟩, hrest⟩ := ih halike.linked halike.linked' halike.upcoming
    obtain ⟨es, hes, hes'⟩ := halike.diagnostics
    refine ⟨?_, ⟨es ++ ds, ?_, ?_⟩, hrest⟩
    · simp only [parseAll, htree, htrees]
    · rw [← Array.append_assoc, ← hes, ← hds]
      rfl
    · rw [← Array.append_assoc, ← hes', ← hds']
      rfl

end Cursor

/-! ### A text and its tokens -/

/-- Nothing is left of a text behind its end. -/
theorem Scan.next_of_eof {scan : Scan} (h : scan.next.1.kind = .eof) :
    scan.next = (⟨.eof, scan.next.1.position, none⟩, ⟨[], scan.next.1.position⟩) := by
  cases hs : (Spacing.split scan.rest).2 with
  | nil => simp [Scan.next, hs]
  | cons c cs =>
    have hkind : scan.next.1.kind = (Lexeme.read c cs).1.kind := by simp [Scan.next, hs]
    exact absurd (hkind ▸ h) (read_kind_ne_eof c cs)

theorem Scan.next_end (p : Position) : Scan.next ⟨[], p⟩ = (⟨.eof, p, none⟩, ⟨[], p⟩) := rfl

namespace Feed
variable {f g : Feed} {scan : Scan} {p : Position}

/-- At its end a text goes on as a list does that has run out. -/
theorem upcoming_of_end (hf : f.source = .text ⟨[], p⟩) (hg : g.source = .replay [])
    (hp : g.position = p) (i : Nat) : g.upcoming i = f.upcoming i := by
  have hf' : f.next = (⟨.eof, p, none⟩, ⟨.text ⟨[], p⟩, f.drawn.push ⟨.eof, p, none⟩⟩) := by
    simp [next, hf, Source.next, Scan.next_end]
  have hg' : g.next = (⟨.eof, p, none⟩, ⟨.replay [], g.drawn.push ⟨.eof, p, none⟩⟩) := by
    simp [next, hg, hp, Source.next]
  induction i generalizing f g with
  | zero => rw [upcoming_zero, upcoming_zero, hf', hg']
  | succ i ih =>
    rw [upcoming_succ, upcoming_succ, hf', hg']
    refine ih rfl rfl ?_ ?_ ?_
    · simp [position]
    · simp [next, Source.next, Scan.next_end]
    · simp [next, Source.next, position]

theorem upcoming_of_scan (hf : f.source = .text scan) (hg : g.source = .replay scan.tokens)
    (i : Nat) : g.upcoming i = f.upcoming i := by
  have hf' : f.next = (scan.next.1, ⟨.text scan.next.2, f.drawn.push scan.next.1⟩) := by
    simp [next, hf, Source.next]
  rw [Scan.tokens] at hg
  induction i generalizing f g scan with
  | zero =>
    rw [upcoming_zero, upcoming_zero, hf']
    split at hg <;> simp [next, hg, Source.next]
  | succ i ih =>
    rw [upcoming_succ, upcoming_succ, hf']
    split at hg
    · next hend =>
      have hrest : scan.next.2 = ⟨[], scan.next.1.position⟩ := by rw [Scan.next_of_eof hend]
      refine upcoming_of_end (p := scan.next.1.position) (by rw [hrest]) ?_ ?_ i
      · simp [next, hg, Source.next]
      · rw [position_next]
        simp [next, hg, Source.next]
    · refine ih rfl ?_ ?_
      · rw [← Scan.tokens]
        simp [next, hg, Source.next]
      · simp [next, Source.next]

/-- A text and the list of its tokens give the same stream. -/
theorem upcoming_tokenize (source : String) :
    (ofTokens (tokenize source)).upcoming = (ofString source).upcoming :=
  funext fun i => upcoming_of_scan rfl rfl i

end Feed

/-- Parsing draws the tokens up to the first end. -/
theorem parse_pulls {f : Feed} (hf : f.drawn = #[]) : ∃ i, (f.upcoming i).kind = .eof ∧
    (∀ j < i, (f.upcoming j).kind ≠ .eof) ∧ (parse f).cursor.feed.pulls = i + 1 := by
  obtain ⟨hr, hend⟩ := parse_ready_atEnd hf
  obtain ⟨hk, hbefore, htake, -⟩ := hend.first_end hf (parse_on f) hr
  refine ⟨_, hk, hbefore, ?_⟩
  rw [Feed.pulls, ← Array.length_toList, htake, Feed.length_take]

/-- What is parsed depends on nothing but the tokens to come, not on what was parsed or reported
before, nor on where the tokens come from. -/
theorem parse_depends_on_upcoming :
    (∀ (s s' : Cursor) (ns : List Nonterminal), s.Reachable → s'.Reachable →
      s.upcoming = s'.upcoming →
        (s.parseAll ns).1 = (s'.parseAll ns).1 ∧
          (∃ ds, (s.parseAll ns).2.diagnostics = s.diagnostics ++ ds ∧
            (s'.parseAll ns).2.diagnostics = s'.diagnostics ++ ds) ∧
          (s.parseAll ns).2.upcoming = (s'.parseAll ns).2.upcoming) ∧
      ∀ source : String,
        (parse (.ofTokens (tokenize source))).program = (parse (.ofString source)).program ∧
          (parse (.ofTokens (tokenize source))).diagnostics = (parse (.ofString source)).diagnostics ∧
          (parse (.ofTokens (tokenize source))).cursor.feed.pulls =
            (parse (.ofString source)).cursor.feed.pulls := by
  constructor
  · intro s s' ns hs hs' hup
    exact parseAll_alike ns hs.linked hs'.linked hup
  · intro source
    have hup := Feed.upcoming_tokenize source
    have hcursors : (ofFeed (.ofTokens (tokenize source))).upcoming =
        (ofFeed (.ofString source)).upcoming := by
      rw [upcoming_of_not_pending (by simp [ofFeed]), upcoming_of_not_pending (by simp [ofFeed])]
      exact hup
    obtain ⟨htree, halike⟩ := parse_alike .program (linked_ofFeed rfl) (linked_ofFeed rfl) hcursors
    obtain ⟨ds, hds, hds'⟩ := halike.diagnostics
    refine ⟨htree, congrArg Array.toList (hds.trans hds'.symm), ?_⟩
    obtain ⟨i, hend, hbefore, hpulls⟩ := parse_pulls (f := .ofTokens (tokenize source)) rfl
    obtain ⟨j, hend', hbefore', hpulls'⟩ := parse_pulls (f := .ofString source) rfl
    rw [hup] at hend hbefore
    have heq : i = j :=
      first_unique (P := fun k => ((Feed.ofString source).upcoming k).kind = .eof) hend hbefore hend'
        hbefore'
    rw [hpulls, hpulls', heq]

/-- A cursor that has failed on a token and handed it back reads on as one that has drawn nothing. -/
theorem parse_statement_after_constant :
    let f := Feed.ofTokens [⟨.semicolon, ⟨1, 1⟩, none⟩, ⟨.identifier, ⟨1, 2⟩, some (.name "x")⟩]
    let s := Operation.applyAll (.ofFeed f) [.parse .constant]
    s.Reachable ∧ s.diagnostics = #[⟨.unexpected, ⟨1, 1⟩⟩] ∧ (ofFeed f).Reachable ∧
      s.upcoming = (ofFeed f).upcoming ∧
      (s.parseAll [.statement, .names]).1 = ((ofFeed f).parseAll [.statement, .names]).1 := by
  intro f s
  have hs : s.Reachable := ⟨f, [.parse .constant], rfl, rfl⟩
  have hs' : (ofFeed f).Reachable := ⟨f, [], rfl, rfl⟩
  have hdiag : s.diagnostics = #[⟨.unexpected, ⟨1, 1⟩⟩] := by decide +kernel
  have hslot : s.slot = .pending ⟨.semicolon, ⟨1, 1⟩, none⟩ := by decide +kernel
  have hfeed : s.feed = f.next.2 := by decide +kernel
  have hup : s.upcoming = (ofFeed f).upcoming := by
    obtain ⟨hzero, hsucc⟩ := upcoming_of_pending hslot
    funext n
    cases n with
    | zero => rw [hzero]; rfl
    | succ n => rw [hsucc, hfeed]; rfl
  exact ⟨hs, hdiag, hs', hup, (parse_depends_on_upcoming.1 s (ofFeed f) _ hs hs' hup).1⟩

end Routine
