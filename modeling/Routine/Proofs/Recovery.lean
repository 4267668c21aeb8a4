import Routine.Proofs.Draining

/-!
# What recovery passes over

Recovery begins by handing back the last token and ends in front of a token of its stop set. What lies
between the two is passed over: `synchronize_spec` says that these are the tokens noted as skipped,
and the invalid ones among them. `Performs` tells what is done in the course of a run, and where,
the phrases that are called being part of the run; `Skips` are the numbers of the tokens that are
passed over in all its recoveries.
-/

namespace Routine

open Cursor Procedure

/-- The tokens that are noted as skipped. -/
def Event.skipped? : Event → Option (Kind × Position)
  | .skipped k p => some (k, p)
  | _ => none

namespace Cursor
variable {s s' : Cursor} {t : Token} {ts : List Token}

/-- The number of the token to come, counted from the first token of the feed. -/
def place (s : Cursor) : Nat := s.consumed.length

/-- The tokens that were noted as skipped, in order. -/
def skips (s : Cursor) : List (Kind × Position) := s.log.toList.filterMap Event.skipped?

theorem moves_of_taken (h : s.Linked) (hs : s.slot = .taken t) : s.pushBack.Moves [t] s := by
  obtain ⟨hzero, hsucc⟩ := upcoming_of_pending (slot_pushBack_of_taken hs)
  refine ⟨consumed_of_taken h hs, begins_iff.2 fun i u hi => ?_, fun i => ?_⟩
  · cases i with
    | zero => simpa [hzero] using hi
    | succ i => simp at hi
  · rw [List.length_singleton, Nat.add_comm, hsucc, feed_pushBack,
      upcoming_of_not_pending (by simp [hs])]

theorem Moves.note (h : s.Moves ts s') (e : Event) : s.Moves ts (s'.note e) :=
  ⟨h.consumed, h.begins, h.upcoming⟩

theorem Moves.of_note {e : Event} (h : (s.note e).Moves ts s') : s.Moves ts s' :=
  ⟨h.consumed, h.begins, h.upcoming⟩

theorem skips_note {e : Event} (he : e.skipped? = none) : (s.note e).skips = s.skips := by
  simp [skips, Cursor.note, he]

theorem skips_fetch (s : Cursor) : s.fetch.2.skips = s.skips := by
  obtain ⟨bad, -, -, hfetch⟩ := s.fetch_spec
  have hnone : (bad.map fun t => Event.reported (invalidAt t)).filterMap Event.skipped? = [] := by
    simp [List.filterMap_map, Event.skipped?, Function.comp_def]
  rw [hfetch, skips, Array.toList_append, List.filterMap_append, hnone, List.append_nil, skips]

theorem skips_next (s : Cursor) : s.next.2.skips = s.skips := by
  cases hs : s.slot with
  | pending t =>
    rw [next_of_pending hs]
    exact skips_note rfl
  | empty | taken t =>
    rw [next_of_not_pending (by simp [hs])]
    exact s.skips_fetch

theorem skips_pushBack (s : Cursor) : s.pushBack.skips = s.skips := by
  unfold Cursor.pushBack
  split <;> rfl

/-- From a token to the first of a stop set, each valid token is noted. -/
theorem skip_spec (stop : KindSet) (count : Nat) (t : Token) (s : Cursor) (hl : s.Linked)
    (hs : s.slot = .taken t) : ∃ ts, s.pushBack.Moves ts (skip stop count t s).cursor.pushBack ∧
      (skip stop count t s).cursor.skips =
        s.skips ++ (visible ts).map fun u => (u.kind, u.position) := by
  fun_induction skip stop count t s with
  | case1 => exact ⟨[], .refl _, by simp [visible]⟩
  | case2 count t s hstop o ih =>
    have hvalid : t.kind ≠ .invalid := (hl.drawn_of_taken hs).1
    have hnp : ∀ u, (s.note (.skipped t.kind t.position)).slot ≠ .pending u := by
      simp [Cursor.note, hs]
    obtain ⟨bad, hbad, hmove, -⟩ := (hl.note (.skipped t.kind t.position)).next_spec
    rw [next_of_not_pending hnp] at hmove
    have hback := (hmove.pushBack (Linked.fetch _) (slot_fetch _)).of_note
    obtain ⟨ts, hts, hskips⟩ := ih (Linked.fetch _) (slot_fetch _)
    refine ⟨[t] ++ bad ++ ts, ((moves_of_taken hl hs).trans hback).trans hts, ?_⟩
    have hfirst : visible ([t] ++ bad) = [t] := by
      rw [visible_append, visible_singleton hvalid, visible_of_invalid hbad, List.append_nil]
    rw [hskips, skips_fetch, visible_append, hfirst]
    simp [skips, Cursor.note, Event.skipped?]

/-- What recovery passes over are the tokens that it notes as skipped, and invalid ones. -/
theorem synchronize_spec (stop : KindSet) (h : s.Linked) :
    ∃ ts, s.pushBack.Moves ts (s.synchronize stop) ∧
      (s.synchronize stop).skips = s.skips ++ (visible ts).map fun u => (u.kind, u.position) := by
  obtain ⟨bad, hbad, hmove, -⟩ := h.pushBack.next_spec
  have hback := hmove.pushBack h.pushBack.next s.pushBack.slot_next
  obtain ⟨ts, hts, hskips⟩ := skip_spec stop 0 _ _ h.pushBack.next s.pushBack.slot_next
  refine ⟨bad ++ ts, (hback.trans hts).note _, ?_⟩
  show ((skip stop 0 s.pushBack.next.1 s.pushBack.next.2).cursor.pushBack.note _).skips = _
  rw [skips_note rfl, skips_pushBack, hskips, skips_next, skips_pushBack, visible_append,
    visible_of_invalid hbad, List.nil_append]

/-- The token with the number `i` is passed over in a recovery from the cursor. -/
def PassesOver (s : Cursor) (stop : KindSet) (i : Nat) : Prop :=
  s.pushBack.place ≤ i ∧ i < (s.synchronize stop).place

theorem place_synchronize_le (stop : KindSet) (h : s.Linked) :
    s.pushBack.place ≤ (s.synchronize stop).place := by
  obtain ⟨ts, hts, -⟩ := synchronize_spec stop h
  rw [place, place, hts.consumed, List.length_append]
  exact Nat.le_add_right ..

end Cursor

namespace Procedure
variable {α β : Type} {a b : Action} {s s' : Cursor} {i : Nat} {p : Phrase}

/-- In the run of a procedure from a cursor, the action `a` is performed at the cursor `s'`. -/
inductive Performs (a : Action) (s' : Cursor) : {α : Type} → Procedure α → Cursor → Prop
  | here {α : Type} (k : a.Answer → Procedure α) : Performs a s' (.act a k) s'
  | act {α : Type} {b : Action} {k : b.Answer → Procedure α} {s : Cursor} :
    Performs a s' (k (b.perform s).1) (b.perform s).2 → Performs a s' (.act b k) s
  /-- The action is performed while the phrase is read. -/
  | inside {α : Type} {p : Phrase} {k : p.Result → Procedure α} {s : Cursor} :
    Performs a s' p.procedure s → Performs a s' (.call p k) s
  | behind {α : Type} {p : Phrase} {k : p.Result → Procedure α} {s : Cursor} :
    Performs a s' (k (p.read s).1) (p.read s).2 → Performs a s' (.call p k) s

/-- The token with the number `i` is passed over by a recovery in the run. -/
def Skips (q : Procedure α) (s : Cursor) (i : Nat) : Prop :=
  ∃ stop s', Performs (.synchronize stop) s' q s ∧ s'.PassesOver stop i

theorem not_skips_done (x : α) : ¬ (done x).Skips s i := by
  rintro ⟨stop, s', h, -⟩
  cases h

theorem skips_act_iff {k : b.Answer → Procedure α} : (act b k).Skips s i ↔
    (∃ stop, b = .synchronize stop ∧ s.PassesOver stop i) ∨
      (k (b.perform s).1).Skips (b.perform s).2 i := by
  constructor
  · rintro ⟨stop, s', h, hi⟩
    cases h with
    | here k => exact .inl ⟨stop, rfl, hi⟩
    | act h => exact .inr ⟨stop, s', h, hi⟩
  · rintro (⟨stop, rfl, hi⟩ | ⟨stop, s', h, hi⟩)
    · exact ⟨stop, s, .here k, hi⟩
    · exact ⟨stop, s', .act h, hi⟩

theorem skips_call_iff {k : p.Result → Procedure α} : (call p k).Skips s i ↔
    p.procedure.Skips s i ∨ (k (p.read s).1).Skips (p.read s).2 i := by
  constructor
  · rintro ⟨stop, s', h, hi⟩
    cases h with
    | inside h => exact .inl ⟨stop, s', h, hi⟩
    | behind h => exact .inr ⟨stop, s', h, hi⟩
  · rintro (⟨stop, s', h, hi⟩ | ⟨stop, s', h, hi⟩)
    · exact ⟨stop, s', .inside h, hi⟩
    · exact ⟨stop, s', .behind h, hi⟩

theorem skips_bind_iff {q : Procedure α} {k : α → Procedure β} : (q >>= k).Skips s i ↔
    q.Skips s i ∨ (k (q.run Phrase.read s).1).Skips (q.run Phrase.read s).2 i := by
  induction q generalizing s with
  | done x => simp [not_skips_done, run]
  | act b k' ih => rw [act_bind, skips_act_iff, skips_act_iff, ih, or_assoc]; rfl
  | call p k' ih => rw [call_bind, skips_call_iff, skips_call_iff, ih, or_assoc]; rfl

/-- Actions other than recovery pass over nothing. -/
theorem skips_act_iff_of_ne {k : b.Answer → Procedure α} (hb : ∀ stop, b ≠ .synchronize stop) :
    (act b k).Skips s i ↔ (k (b.perform s).1).Skips (b.perform s).2 i := by
  rw [skips_act_iff, or_iff_right]
  rintro ⟨stop, rfl, -⟩
  exact hb stop rfl

theorem skips_read_iff : (read p).Skips s i ↔ p.procedure.Skips s i := by
  rw [read, skips_call_iff, or_iff_left (not_skips_done _)]

theorem skips_recover_bind_iff {n : Nonterminal} {k : Unit → Procedure α} :
    (recover n >>= k).Skips s i ↔
      s.reject.PassesOver n.follow i ∨ (k ()).Skips (s.reject.synchronize n.follow) i := by
  have hact : (recover n >>= k) = act .reject fun _ => act (.synchronize n.follow) k := rfl
  rw [hact, skips_act_iff_of_ne (by simp), skips_act_iff]
  simp [Action.perform]

end Procedure

end Routine
