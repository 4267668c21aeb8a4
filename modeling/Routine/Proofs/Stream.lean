import Routine.Session
import Routine.Upcoming

/-!
# What is behind a cursor and what is ahead of it

A cursor stands between the tokens it has consumed and the tokens that are still to come.
`fetch_spec` says once what drawing a token does to a cursor; everything else here is derived from
it. `Linked` ties the slot to the feed: the token in the slot is the one drawn last. `Passes` is a
move over some tokens that reports nothing.
-/

namespace Routine

/-- The tokens that are valid. -/
def visible (ts : List Token) : List Token := ts.filter fun t => t.kind ≠ .invalid

theorem visible_append (ts us : List Token) : visible (ts ++ us) = visible ts ++ visible us :=
  List.filter_append ..

theorem visible_of_invalid {ts : List Token} (h : ∀ t ∈ ts, t.kind = .invalid) : visible ts = [] := by
  simpa [visible] using h

theorem visible_singleton {t : Token} (h : t.kind ≠ .invalid) : visible [t] = [t] := by
  simp [visible, h]

namespace Feed

/-- The next `n` tokens. -/
def take (f : Feed) : Nat → List Token
  | 0 => []
  | n + 1 => f.next.1 :: f.next.2.take n

@[simp] theorem take_zero (f : Feed) : f.take 0 = [] := rfl

@[simp] theorem take_succ (f : Feed) (n : Nat) : f.take (n + 1) = f.next.1 :: f.next.2.take n := rfl

@[simp] theorem drop_zero (f : Feed) : f.drop 0 = f := rfl

@[simp] theorem drop_succ (f : Feed) (n : Nat) : f.drop (n + 1) = f.next.2.drop n := rfl

theorem drop_drop (f : Feed) (m n : Nat) : (f.drop m).drop n = f.drop (m + n) := by
  induction m generalizing f with
  | zero => rw [Nat.zero_add]; rfl
  | succ m ih => rw [drop_succ, ih, Nat.add_right_comm]; rfl

theorem upcoming_drop (f : Feed) (m n : Nat) : (f.drop m).upcoming n = f.upcoming (m + n) := by
  rw [upcoming, upcoming, drop_drop]

theorem toList_drawn_drop (f : Feed) (n : Nat) :
    (f.drop n).drawn.toList = f.drawn.toList ++ f.take n := by
  induction n generalizing f with
  | zero => simp
  | succ n ih => rw [drop_succ, ih, take_succ, drawn_next, Array.toList_push, List.append_assoc]; rfl

theorem take_add (f : Feed) (m n : Nat) : f.take (m + n) = f.take m ++ (f.drop m).take n := by
  induction m generalizing f with
  | zero => rw [Nat.zero_add]; rfl
  | succ m ih => rw [Nat.add_right_comm, take_succ, ih]; rfl

@[simp] theorem length_take (f : Feed) (n : Nat) : (f.take n).length = n := by
  induction n generalizing f with
  | zero => rfl
  | succ n ih => rw [take_succ, List.length_cons, ih]

theorem getElem?_take (f : Feed) {n i : Nat} (h : i < n) : (f.take n)[i]? = some (f.upcoming i) := by
  induction n generalizing f i with
  | zero => omega
  | succ n ih =>
    cases i with
    | zero => rfl
    | succ i => rw [take_succ, List.getElem?_cons_succ, ih _ (by omega), upcoming_succ]

theorem mem_take {f : Feed} {n : Nat} {t : Token} (h : t ∈ f.take n) : ∃ i < n, f.upcoming i = t := by
  obtain ⟨i, hi, rfl⟩ := List.mem_iff_getElem.1 h
  rw [length_take] at hi
  refine ⟨i, hi, ?_⟩
  have := f.getElem?_take hi
  rw [List.getElem?_eq_getElem (by rwa [length_take]), Option.some.injEq] at this
  exact this.symm

/-- A list is handed out in order, and then an end. -/
theorem take_ofTokens (ts : List Token) :
    ∃ t, t.kind = .eof ∧ (ofTokens ts).take (ts.length + 1) = ts ++ [t] := by
  have h : ∀ f : Feed, f.source = .replay ts →
      ∃ t, t.kind = .eof ∧ f.take (ts.length + 1) = ts ++ [t] := by
    induction ts with
    | nil =>
      intro f hf
      exact ⟨f.next.1, by simp [next, hf, Source.next], rfl⟩
    | cons u ts ih =>
      intro f hf
      obtain ⟨t, ht, htake⟩ := ih f.next.2 (by simp [next, hf, Source.next])
      refine ⟨t, ht, ?_⟩
      rw [List.length_cons, take_succ, htake]
      simp [next, hf, Source.next]
  exact h _ rfl

theorem upcoming_ofTokens (ts : List Token) (i : Nat) :
    (ofTokens ts).upcoming i ∈ ts ∨ ((ofTokens ts).upcoming i).kind = .eof := by
  have h : ∀ f : Feed, f.source = .replay ts → f.upcoming i ∈ ts ∨ (f.upcoming i).kind = .eof := by
    induction i generalizing ts with
    | zero =>
      intro f hf
      cases ts <;> simp [next, hf, Source.next]
    | succ i ih =>
      intro f hf
      rw [upcoming_succ]
      cases ts with
      | nil => exact ih [] f.next.2 (by simp [next, hf, Source.next])
      | cons t ts =>
        have := ih ts f.next.2 (by simp [next, hf, Source.next])
        exact this.imp_left (List.mem_cons_of_mem t)
  exact h _ rfl

end Feed

namespace Cursor
variable {s s' s'' : Cursor} {ts us : List Token} {t : Token}

/-- The diagnostic for an invalid token. -/
def invalidAt (t : Token) : Diagnostic := ⟨.invalid, t.position⟩

/-- A token that is drawn is the first valid one of the feed; the invalid ones before it are reported
in order. -/
theorem fetch_spec (s : Cursor) : ∃ bad : List Token, (∀ t ∈ bad, t.kind = .invalid) ∧
    s.feed.take (bad.length + 1) = bad ++ [s.fetch.1] ∧
    s.fetch.2 = { feed := s.feed.drop (bad.length + 1), slot := .taken s.fetch.1,
                  diagnostics := s.diagnostics ++ (bad.map invalidAt).toArray,
                  log := s.log ++ (bad.map fun t => .reported (invalidAt t)).toArray } := by
  fun_induction fetch s with
  | case1 s t s' h ih =>
    obtain ⟨bad, hbad, htake, hnext⟩ := ih
    refine ⟨t :: bad, ?_, ?_, ?_⟩
    · rintro u (- | ⟨-, hu⟩)
      · exact h
      · exact hbad u hu
    · rw [List.length_cons, Feed.take_succ, List.cons_append, ← htake]; rfl
    · rw [hnext]
      simp [report, note, s', position, invalidAt, t]
  | case2 s t s' h => exact ⟨[], by simp, rfl, by simp [s', t]⟩

theorem next_of_not_pending (h : ∀ t, s.slot ≠ .pending t) : s.next = s.fetch := by
  unfold next
  split
  · next t ht => exact absurd ht (h t)
  · rfl
  · rfl

/-- Handing out the token that was handed back leaves the feed and the diagnostics alone. -/
theorem next_pending (h : s.slot = .pending t) :
    s.next.1 = t ∧ s.next.2.feed = s.feed ∧ s.next.2.diagnostics = s.diagnostics := by
  rw [next_of_pending h]; exact ⟨rfl, rfl, rfl⟩

/-- The tokens that were handed out and not handed back, the invalid ones among them included. -/
def consumed (s : Cursor) : List Token :=
  match s.slot with
  | .pending _ => s.feed.drawn.toList.dropLast
  | .empty | .taken _ => s.feed.drawn.toList

/-- The token in the slot is valid and is the one drawn last; without one, nothing has been drawn. -/
def Linked (s : Cursor) : Prop :=
  match s.slot with
  | .empty => s.feed.drawn = #[]
  | .taken t | .pending t => t.kind ≠ .invalid ∧ ∃ ts, s.feed.drawn.toList = ts ++ [t]

theorem begins_iff : s.Begins ts ↔ ∀ i t, ts[i]? = some t → s.upcoming i = t := by
  constructor
  · intro h i t hi
    obtain ⟨hlt, rfl⟩ := List.getElem?_eq_some_iff.1 hi
    exact h i hlt
  · intro h i hi
    exact h i _ (List.getElem?_eq_getElem hi)

theorem begins_nil : s.Begins [] := by simp [begins_iff]

theorem begins_append : s.Begins (ts ++ us) ↔
    s.Begins ts ∧ ∀ i t, us[i]? = some t → s.upcoming (ts.length + i) = t := by
  simp only [begins_iff]
  constructor
  · intro h
    refine ⟨fun i t hi => h i t ?_, fun i t hi => h _ t ?_⟩
    · rwa [List.getElem?_append_left (List.getElem?_eq_some_iff.1 hi).1]
    · rwa [List.getElem?_append_right (Nat.le_add_right _ _), Nat.add_sub_cancel_left]
  · rintro ⟨h, h'⟩ i t hi
    by_cases hlt : i < ts.length
    · exact h i t (by rwa [List.getElem?_append_left hlt] at hi)
    · rw [List.getElem?_append_right (by omega)] at hi
      have := h' _ t hi
      rwa [show ts.length + (i - ts.length) = i by omega] at this

theorem begins_cons (h : s.Begins (t :: ts)) : s.upcoming 0 = t := begins_iff.1 h 0 t rfl

/-- From one cursor to another over the tokens `ts`, invalid ones included. -/
structure Moves (s : Cursor) (ts : List Token) (s' : Cursor) : Prop where
  consumed : s'.consumed = s.consumed ++ ts
  begins : s.Begins ts
  upcoming : ∀ i, s'.upcoming i = s.upcoming (ts.length + i)

namespace Moves

theorem refl (s : Cursor) : s.Moves [] s := ⟨by simp, begins_nil, fun i => by simp⟩

theorem begins_append_iff (h : s.Moves ts s') : s.Begins (ts ++ us) ↔ s'.Begins us := by
  rw [begins_append, @begins_iff s']
  simp only [h.begins, true_and, h.upcoming]

theorem trans (h : s.Moves ts s') (h' : s'.Moves us s'') : s.Moves (ts ++ us) s'' where
  consumed := by rw [h'.consumed, h.consumed, List.append_assoc]
  begins := h.begins_append_iff.2 h'.begins
  upcoming i := by rw [h'.upcoming, h.upcoming, List.length_append, Nat.add_assoc]

end Moves

theorem upcoming_of_not_pending (h : ∀ t, s.slot ≠ .pending t) : s.upcoming = s.feed.upcoming := by
  funext n
  unfold upcoming
  split
  · next t ht => exact absurd ht (h t)
  · next t n ht => exact absurd ht (h t)
  · rfl
  · rfl

theorem upcoming_of_pending (h : s.slot = .pending t) :
    s.upcoming 0 = t ∧ ∀ n, s.upcoming (n + 1) = s.feed.upcoming n := by
  constructor
  · simp only [upcoming, h]
  · intro n; simp only [upcoming, h]

theorem consumed_of_not_pending (h : ∀ t, s.slot ≠ .pending t) : s.consumed = s.feed.drawn.toList := by
  unfold consumed
  split
  · next t ht => exact absurd ht (h t)
  · rfl
  · rfl

theorem begins_take (f : Feed) (n : Nat) : (ofFeed f).Begins (f.take n) := by
  rw [begins_iff, upcoming_of_not_pending (by simp [ofFeed])]
  intro i t hi
  have hlt : i < n := by simpa using (List.getElem?_eq_some_iff.1 hi).1
  rw [Feed.getElem?_take _ hlt] at hi
  exact Option.some.inj hi

theorem linked_ofFeed {f : Feed} (h : f.drawn = #[]) : (ofFeed f).Linked := h

namespace Linked

theorem drawn_of_pending (h : s.Linked) (ht : s.slot = .pending t) :
    t.kind ≠ .invalid ∧ s.feed.drawn.toList = s.consumed ++ [t] := by
  simp only [Linked, ht] at h
  obtain ⟨hk, us, hus⟩ := h
  simp [consumed, ht, hus, hk]

theorem drawn_of_taken (h : s.Linked) (ht : s.slot = .taken t) :
    t.kind ≠ .invalid ∧ ∃ us, s.feed.drawn.toList = us ++ [t] := by
  simpa only [Linked, ht] using h

/-- The cursor stands where the token in its slot does. -/
theorem position (h : s.Linked) (ht : s.slot = .taken t ∨ s.slot = .pending t) :
    s.position = t.position := by
  obtain ⟨us, hus⟩ : ∃ us, s.feed.drawn.toList = us ++ [t] := by
    rcases ht with ht | ht
    · exact (h.drawn_of_taken ht).2
    · exact ⟨_, (h.drawn_of_pending ht).2⟩
  rw [Cursor.position, Feed.position, ← Array.getLast?_toList, hus, List.getLast?_concat]

theorem fetch (s : Cursor) : s.fetch.2.Linked := by
  obtain ⟨bad, -, htake, hnext⟩ := s.fetch_spec
  have hkind := s.fetch_kind_ne_invalid
  have hdrawn := s.feed.toList_drawn_drop (bad.length + 1)
  rw [htake, ← List.append_assoc] at hdrawn
  rw [hnext]
  exact ⟨hkind, _, hdrawn⟩

theorem next (h : s.Linked) : s.next.2.Linked := by
  cases hs : s.slot with
  | pending t =>
    rw [next_of_pending hs]
    simp only [Linked, hs] at h
    exact h
  | empty | taken t =>
    rw [next_of_not_pending (by simp [hs])]
    exact fetch s

theorem pushBack (h : s.Linked) : s.pushBack.Linked := by
  unfold Cursor.pushBack
  split
  · next t ht => simpa only [Linked, ht] using h
  · exact h
  · exact h

theorem note (h : s.Linked) (e : Event) : (s.note e).Linked := h

theorem reject (h : s.Linked) : s.reject.Linked := h

/-- The token handed out is the first valid one to come. -/
theorem next_spec (h : s.Linked) : ∃ bad : List Token, (∀ t ∈ bad, t.kind = .invalid) ∧
    s.Moves (bad ++ [s.next.1]) s.next.2 ∧
    s.next.2.diagnostics = s.diagnostics ++ (bad.map invalidAt).toArray := by
  cases hs : s.slot with
  | pending t =>
    have hdrawn := (h.drawn_of_pending hs).2
    have hup := upcoming_of_pending hs
    refine ⟨[], by simp, ?_, ?_⟩ <;> rw [next_of_pending hs]
    · refine ⟨hdrawn, begins_iff.2 fun i u hi => ?_, fun i => ?_⟩
      · cases i with
        | zero => simpa [hup.1] using hi
        | succ i => simp at hi
      · rw [Nat.add_comm]; exact (hup.2 i).symm
    · simp [Cursor.note]
  | empty | taken t =>
    have hnp : ∀ t, s.slot ≠ .pending t := by simp [hs]
    obtain ⟨bad, hbad, htake, hfetch⟩ := s.fetch_spec
    rw [next_of_not_pending hnp]
    refine ⟨bad, hbad, ⟨?_, begins_iff.2 fun i u hi => ?_, fun i => ?_⟩, by rw [hfetch]⟩
    · rw [consumed_of_not_pending hnp, ← htake, ← Feed.toList_drawn_drop, hfetch]; rfl
    · obtain ⟨hlt, -⟩ := List.getElem?_eq_some_iff.1 hi
      rw [← htake, Feed.getElem?_take _ (by simpa using hlt), Option.some.injEq] at hi
      rw [upcoming_of_not_pending hnp, hi]
    · rw [upcoming_of_not_pending hnp, List.length_append, List.length_singleton, ← Feed.upcoming_drop,
        hfetch]
      rfl

end Linked

theorem Moves.pushBack (h : s.Moves (ts ++ [t]) s') (hl : s'.Linked) (hs : s'.slot = .taken t) :
    s.Moves ts s'.pushBack := by
  have hp := slot_pushBack_of_taken hs
  have hup := upcoming_of_pending hp
  have hfeed : s'.pushBack.feed = s'.feed := by simp only [Cursor.pushBack, hs]
  have hnp : ∀ u, s'.slot ≠ .pending u := by simp [hs]
  obtain ⟨hb, hlast⟩ := begins_append.1 h.begins
  refine ⟨?_, hb, fun i => ?_⟩
  · have hdrawn := (hl.pushBack.drawn_of_pending hp).2
    rw [hfeed, ← consumed_of_not_pending hnp, h.consumed, ← List.append_assoc] at hdrawn
    exact (List.append_cancel_right hdrawn).symm
  · cases i with
    | zero => rw [hup.1]; exact (hlast 0 t rfl).symm
    | succ i =>
      rw [hup.2, hfeed, ← upcoming_of_not_pending hnp, h.upcoming, List.length_append]
      simp only [List.length_singleton]
      congr 1; omega

/-- A move over valid tokens, in which nothing is reported. -/
structure Passes (s : Cursor) (ts : List Token) (s' : Cursor) : Prop extends Moves s ts s' where
  linked : s'.Linked
  diagnostics : s'.diagnostics = s.diagnostics

namespace Passes

theorem refl (h : s.Linked) : s.Passes [] s := ⟨.refl s, h, rfl⟩

theorem trans (h : s.Passes ts s') (h' : s'.Passes us s'') : s.Passes (ts ++ us) s'' :=
  ⟨h.toMoves.trans h'.toMoves, h'.linked, h'.diagnostics.trans h.diagnostics⟩

end Passes

namespace Linked

theorem passes_next (h : s.Linked) (hd : s.next.2.diagnostics.size ≤ s.diagnostics.size) :
    s.Passes [s.next.1] s.next.2 := by
  obtain ⟨bad, -, hmove, hdiag⟩ := h.next_spec
  obtain rfl : bad = [] := by
    have hsize := congrArg Array.size hdiag
    simp only [Array.size_append, List.size_toArray, List.length_map] at hsize
    exact List.eq_nil_of_length_eq_zero (by omega)
  exact ⟨hmove, h.next, by simpa using hdiag⟩

theorem passes_peek (h : s.Linked) (hd : s.next.2.diagnostics.size ≤ s.diagnostics.size) :
    s.Passes [] s.next.2.pushBack := by
  have hp := h.passes_next hd
  have hmove : s.Moves ([] ++ [s.next.1]) s.next.2 := hp.toMoves
  refine ⟨hmove.pushBack hp.linked s.slot_next, hp.linked.pushBack, ?_⟩
  rw [← hp.diagnostics]
  unfold Cursor.pushBack
  split <;> rfl

/-- A valid token that comes first is the one handed out. -/
theorem next_of_begins (h : s.Linked) (hb : s.Begins (t :: ts)) (ht : t.kind ≠ .invalid) :
    s.next.1 = t ∧ s.Passes [t] s.next.2 := by
  obtain ⟨bad, hbad, hmove, hdiag⟩ := h.next_spec
  have hzero := begins_cons hb
  cases bad with
  | nil =>
    have hnext : s.next.1 = t := (begins_cons hmove.begins).symm.trans hzero
    exact ⟨hnext, ⟨hnext ▸ hmove, h.next, by simpa using hdiag⟩⟩
  | cons b bad =>
    have : b = t := (begins_cons hmove.begins).symm.trans hzero
    exact absurd (hbad b (by simp)) (this ▸ ht)

end Linked

end Cursor

end Routine
