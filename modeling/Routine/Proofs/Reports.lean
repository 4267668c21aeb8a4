import Routine.Proofs.Gaps
import Routine.Proofs.Pieces
import Routine.Proofs.Recovery
import Routine.Proofs.Sifting

/-!
# Reports stand in order

Reports come from two places: drawing a token reports the invalid ones in front of it, and a rejection
reports the token that was drawn last. `Ordered` is what keeps the two in one order: no report stands
behind the token drawn last, and no token to come stands before it. Where a rejection was made, and on
which token, is told by the course of the run (`Accounts`).
-/

namespace Routine

open Cursor Procedure

theorem Scan.position_next_le (s : Scan) : s.next.1.position ≤ s.next.2.position := by
  by_cases h : s.next.1.kind = .eof
  · rw [Scan.next_of_eof h]
    exact Position.le_refl _
  · exact Position.le_of_lt (Scan.position_next_lt h)

namespace Feed
variable {f : Feed}

/-- A feed that reads a text and has not drawn a token behind what is left of it. -/
def Reads (f : Feed) : Prop := ∃ scan, f.source = .text scan ∧ f.position ≤ scan.position

theorem reads_ofString (source : String) : (ofString source).Reads := ⟨_, rfl, Position.le_refl _⟩

theorem Reads.drop (h : f.Reads) (n : Nat) : (f.drop n).Reads := by
  induction n generalizing f with
  | zero => exact h
  | succ n ih =>
    obtain ⟨scan, hf, -⟩ := h
    obtain ⟨hfirst, hsource⟩ := next_of_text hf
    refine ih ⟨scan.next.2, hsource, ?_⟩
    rw [position_next, hfirst]
    exact scan.position_next_le

/-- The tokens of a text stand in order. Only the end stands where the token before it does. -/
theorem take_sorted {scan : Scan} (hf : f.source = .text scan) (n : Nat) :
    (∀ t ∈ f.take n, scan.position ≤ t.position) ∧
      (f.take n).Pairwise fun t u =>
        t.position ≤ u.position ∧ (t.kind ≠ .eof → t.position < u.position) := by
  induction n generalizing f scan with
  | zero => exact ⟨by simp, .nil⟩
  | succ n ih =>
    obtain ⟨hfirst, hsource⟩ := next_of_text hf
    obtain ⟨hfrom, hsorted⟩ := ih hsource
    have hle := scan.position_le_next
    have hback := scan.position_next_le
    rw [take_succ, hfirst]
    refine ⟨fun t ht => ?_, List.pairwise_cons.2 ⟨fun u hu => ⟨?_, fun hkind => ?_⟩, hsorted⟩⟩
    · rcases List.mem_cons.1 ht with rfl | ht
      · exact hle
      · exact Position.le_trans hle (Position.le_trans hback (hfrom t ht))
    · exact Position.le_trans hback (hfrom u hu)
    · exact Position.lt_of_lt_of_le (Scan.position_next_lt hkind) (hfrom u hu)

end Feed

namespace Cursor
variable {s s' s₁ : Cursor}

/-- The reports stand in order, none behind the token drawn last. -/
structure Ordered (s : Cursor) : Prop where
  linked : s.Linked
  reads : s.feed.Reads
  sorted : s.diagnostics.toList.Pairwise fun d e => d.position ≤ e.position
  bound : ∀ d ∈ s.diagnostics.toList, d.position ≤ s.position

theorem Ordered.next (h : s.Ordered) : s.next.2.Ordered := by
  cases hs : s.slot with
  | pending t =>
    obtain ⟨-, hfeed, hdiag⟩ := next_pending hs
    refine ⟨h.linked.next, hfeed ▸ h.reads, hdiag ▸ h.sorted, fun d hd => ?_⟩
    rw [position, hfeed]
    exact h.bound d (hdiag ▸ hd)
  | empty | taken t =>
    have hposition := h.linked.next.position (.inl s.slot_next)
    have hlinked := h.linked.next
    rw [next_of_not_pending (by simp [hs])] at hposition hlinked ⊢
    obtain ⟨bad, hbad, htake, hfetch⟩ := s.fetch_spec
    obtain ⟨scan, hsource, hle⟩ := h.reads
    obtain ⟨hfrom, hsorted⟩ := Feed.take_sorted hsource (bad.length + 1)
    rw [htake] at hfrom hsorted
    obtain ⟨hsortedBad, -, hbefore⟩ := List.pairwise_append.1 hsorted
    have hdiag : s.fetch.2.diagnostics.toList = s.diagnostics.toList ++ bad.map invalidAt := by
      rw [hfetch, Array.toList_append]
    -- what was reported before stands at the token drawn last, and no token to come stands before it
    have hold : ∀ d ∈ s.diagnostics.toList, ∀ t ∈ bad ++ [s.fetch.1], d.position ≤ t.position :=
      fun d hd t ht => Position.le_trans (h.bound d hd) (Position.le_trans hle (hfrom t ht))
    refine ⟨hlinked, ?_, ?_, fun d hd => ?_⟩
    · rw [hfetch]
      exact h.reads.drop _
    · rw [hdiag]
      refine List.pairwise_append.2 ⟨h.sorted, ?_, fun d hd e he => ?_⟩
      · exact List.pairwise_map.2 (hsortedBad.imp fun htu => htu.1)
      · obtain ⟨t, ht, rfl⟩ := List.mem_map.1 he
        exact hold d hd t (List.mem_append_left _ ht)
    · rw [hposition]
      rw [hdiag] at hd
      rcases List.mem_append.1 hd with hd | hd
      · exact hold d hd _ (by simp)
      · obtain ⟨t, ht, rfl⟩ := List.mem_map.1 hd
        exact (hbefore t ht _ (by simp)).1

theorem Ordered.pushBack (h : s.Ordered) : s.pushBack.Ordered := by
  refine ⟨h.linked.pushBack, ?_, ?_, ?_⟩
  · rw [feed_pushBack]
    exact h.reads
  · rw [diagnostics_pushBack]
    exact h.sorted
  · rw [diagnostics_pushBack, position, feed_pushBack]
    exact h.bound

theorem Ordered.reject (h : s.Ordered) : s.reject.Ordered := by
  have hdiag : s.reject.diagnostics.toList = s.diagnostics.toList ++ [⟨.unexpected, s.position⟩] := by
    simp [Cursor.reject, report, Cursor.note]
  refine ⟨h.linked.reject, h.reads, ?_, fun d hd => ?_⟩
  · rw [hdiag]
    refine List.pairwise_append.2 ⟨h.sorted, List.pairwise_singleton .., fun d hd e he => ?_⟩
    rw [List.mem_singleton.1 he]
    exact h.bound d hd
  · show d.position ≤ s.position
    rw [hdiag] at hd
    rcases List.mem_append.1 hd with hd | hd
    · exact h.bound d hd
    · rw [List.mem_singleton.1 hd]
      exact Position.le_refl _

theorem kept_ordered : Kept Ordered where
  next h := h.next
  pushBack h := h.pushBack
  reject h := h.reject
  note _ h := ⟨h.linked, h.reads, h.sorted, h.bound⟩

theorem ordered_ofString (source : String) : (ofFeed (.ofString source)).Ordered :=
  ⟨linked_ofFeed rfl, Feed.reads_ofString source, .nil, by simp [ofFeed]⟩

/-- The invalid tokens that have been drawn stand one behind the other. -/
theorem On.invalid_sorted {source : String} (h : s.On (.ofString source)) :
    (s.feed.drawn.toList.filter fun t => t.kind = .invalid).Pairwise fun t u =>
      t.position < u.position := by
  obtain ⟨hdrawn, -⟩ := h.drawn rfl
  obtain ⟨-, hsorted⟩ := Feed.take_sorted (f := .ofString source) rfl s.feed.pulls
  rw [← hdrawn] at hsorted
  refine List.Pairwise.imp_of_mem (fun {t u} ht _ htu => htu.2 ?_) (hsorted.filter _)
  have hkind : t.kind = .invalid := by simpa using (List.mem_filter.1 ht).2
  rw [hkind]
  decide

/-- What was reported on the way from `s` to `s'` stands behind what was reported before, and each
unexpected token among it was reported at a cursor `r` with `P r`, as the token drawn last. -/
structure Accounts (P : Cursor → Prop) (s s' : Cursor) : Prop where
  kept : s.diagnostics.toList <+: s'.diagnostics.toList
  rejected : ∀ i d, s.diagnostics.size ≤ i → s'.diagnostics[i]? = some d → d.fault = .unexpected →
    ∃ r, P r ∧ r.diagnostics.toList = s'.diagnostics.toList.take i ∧ d.position = r.position

namespace Accounts
variable {P P' : Cursor → Prop}

theorem refl (P : Cursor → Prop) (s : Cursor) : Accounts P s s := by
  refine ⟨List.prefix_refl _, fun i d hi hd => ?_⟩
  rw [Array.getElem?_eq_none hi] at hd
  cases hd

theorem mono (h : Accounts P s s') (hP : ∀ r, P r → P' r) : Accounts P' s s' where
  kept := h.kept
  rejected i d hi hd hfault :=
    let ⟨r, hr, hds, hposition⟩ := h.rejected i d hi hd hfault
    ⟨r, hP r hr, hds, hposition⟩

theorem trans (h : Accounts P s s₁) (h' : Accounts P s₁ s') : Accounts P s s' := by
  refine ⟨h.kept.trans h'.kept, fun i d hi hd hfault => ?_⟩
  by_cases hlt : i < s₁.diagnostics.size
  · obtain ⟨ds, hds⟩ := h'.kept
    rw [← Array.getElem?_toList, ← hds, List.getElem?_append_left (by simpa using hlt),
      Array.getElem?_toList] at hd
    obtain ⟨r, hr, htake, hposition⟩ := h.rejected i d hi hd hfault
    refine ⟨r, hr, ?_, hposition⟩
    rw [htake, ← hds, List.take_append_of_le_length (by simpa using Nat.le_of_lt hlt)]
  · exact h'.rejected i d (Nat.le_of_not_lt hlt) hd hfault

/-- Where only invalid tokens are reported, there is nothing to account for. -/
theorem of_invalid (bad : List Token)
    (h : s'.diagnostics = s.diagnostics ++ (bad.map invalidAt).toArray) : Accounts P s s' := by
  refine ⟨by simp [h], fun i d hi hd hfault => ?_⟩
  rw [h, Array.getElem?_append_right hi] at hd
  have hmem : d ∈ bad.map invalidAt := by simpa using Array.mem_of_getElem? hd
  obtain ⟨t, -, rfl⟩ := List.mem_map.1 hmem
  cases hfault

theorem next (s : Cursor) : Accounts P s s.next.2 :=
  let ⟨bad, h⟩ := s.reports_next
  .of_invalid bad h

theorem pushBack (s : Cursor) : Accounts P s s.pushBack :=
  .of_invalid [] (by simp [diagnostics_pushBack])

theorem note (s : Cursor) (e : Event) : Accounts P s (s.note e) :=
  .of_invalid [] (by simp [Cursor.note])

theorem reject (s : Cursor) : Accounts (· = s) s s.reject := by
  have hdiag : s.reject.diagnostics = s.diagnostics.push ⟨.unexpected, s.position⟩ := rfl
  refine ⟨by simp [hdiag], fun i d hi hd _ => ⟨s, rfl, ?_⟩⟩
  have hlt : i < (s.diagnostics.push ⟨.unexpected, s.position⟩).size :=
    (Array.getElem?_eq_some_iff.1 (hdiag ▸ hd)).1
  obtain rfl : i = s.diagnostics.size := by
    rw [Array.size_push] at hlt
    omega
  rw [hdiag, Array.getElem?_push_size] at hd
  cases hd
  exact ⟨by simp [hdiag], rfl⟩

theorem skip (stop : KindSet) (count : Nat) (t : Token) (s : Cursor) :
    Accounts P s (Cursor.skip stop count t s).cursor := by
  fun_induction Cursor.skip stop count t s with
  | case1 => exact .refl P _
  | case2 count t s hstop o ih =>
    obtain ⟨bad, -, -, hfetch⟩ := (s.note (.skipped t.kind t.position)).fetch_spec
    have hdraw : Accounts P s o.2 := .of_invalid bad (by rw [hfetch]; rfl)
    exact hdraw.trans ih

theorem synchronize (stop : KindSet) (s : Cursor) : Accounts P s (s.synchronize stop) :=
  (pushBack s).trans ((next _).trans ((skip stop 0 _ _).trans ((pushBack _).trans (note _ _))))

theorem perform (a : Action) (s : Cursor) :
    Accounts (fun r => a = .reject ∧ r = s) s (a.perform s).2 := by
  cases a with
  | next => exact next s
  | pushBack => exact pushBack s
  | reject => exact (reject s).mono fun r hr => ⟨rfl, hr⟩
  | synchronize stop => exact synchronize stop s
  | note e => exact note s e

end Accounts

end Cursor

namespace Procedure
variable {α : Type} {a : Action} {q : Procedure α} {r s : Cursor} {n : Nonterminal}

/-- A phrase answers as it does in the run, and its rejections account for its reports. -/
def reporting : Contract where
  pre _ _ := True
  post p s x s' := (x, s') = p.read s ∧ Accounts (Performs .reject · p.procedure s) s s'

theorem accounts_run (q : Procedure α) (s : Cursor) :
    q.wp reporting (fun x s' => (x, s') = q.run Phrase.read s ∧
      Accounts (Performs .reject · q s) s s') s := by
  induction q generalizing s with
  | done x => exact ⟨rfl, .refl _ s⟩
  | act b k ih =>
    refine wp_mono ?_ _ (ih (b.perform s).1 (b.perform s).2)
    rintro x s' ⟨hrun, hbehind⟩
    refine ⟨hrun, ((Accounts.perform b s).mono ?_).trans (hbehind.mono fun r hr => .act hr)⟩
    rintro r ⟨rfl, rfl⟩
    exact .here k
  | call p k ih =>
    refine ⟨trivial, fun y s₁ ⟨hread, hinside⟩ => ?_⟩
    refine wp_mono ?_ _ (ih y s₁)
    rintro x s' ⟨hrun, hbehind⟩
    have hmono : ∀ r, Performs .reject r (k y) s₁ → Performs .reject r (.call p k) s := by
      intro r hr
      refine .behind ?_
      rwa [← hread]
    refine ⟨?_, (hinside.mono fun r hr => .inside hr).trans (hbehind.mono hmono)⟩
    rw [run, ← hread]
    exact hrun

theorem accounts_phrase (p : Phrase) (s : Cursor) :
    p.procedure.wp reporting (reporting.post p s) s := by
  refine wp_mono ?_ _ (accounts_run p.procedure s)
  rintro x s' ⟨hrun, haccounts⟩
  exact ⟨hrun.trans (p.read_eq s).symm, haccounts⟩

/-- What every step keeps holds wherever an action is performed. -/
theorem Performs.kept {I : Cursor → Prop} (hI : Kept I) (h : Performs a r q s) (hs : I s) : I r := by
  induction h with
  | here k => exact hs
  | act _ ih => exact ih (hI.perform _ hs)
  | inside _ ih => exact ih hs
  | behind _ ih => exact ih (hI.read _ hs)

theorem kept_begun : Kept fun s => s.slot ≠ .empty where
  next _ := by simp [slot_next]
  pushBack {s} h := by
    unfold Cursor.pushBack
    split <;> simp_all
  reject h := h
  note _ h := h

theorem begun_of_performs_next {k : Token → Procedure α} (h : Performs .reject r (.act .next k) s) :
    r.slot ≠ .empty := by
  cases h with
  | act h => exact h.kept kept_begun (by simp [Action.perform, slot_next])

/-- Nothing is rejected before a token has been drawn. -/
theorem begun_of_performs (h : Performs .reject r n.procedure s) : r.slot ≠ .empty := by
  cases n with
  | condition =>
    cases h with
    | inside h => exact begun_of_performs_next h
    | behind h => cases h
  | _ => exact begun_of_performs_next h

end Procedure

open Procedure

theorem Nonterminal.accounts_parse (n : Nonterminal) (s : Cursor) :
    Accounts (Performs .reject · n.procedure s) s (n.parse s).2 :=
  (n.post_parse (fun p s _ => accounts_phrase p s) (accounts_run n.procedure s)).2

/-- A cursor that has drawn a token stands at it, and it is valid. -/
theorem Cursor.Linked.last_drawn {s : Cursor} (h : s.Linked) (hs : s.slot ≠ .empty) :
    ∃ t, s.feed.drawn.back? = some t ∧ t.kind ≠ .invalid ∧ s.position = t.position := by
  have hlast : ∀ t us, s.feed.drawn.toList = us ++ [t] → s.feed.drawn.back? = some t := by
    intro t us hus
    rw [← Array.getLast?_toList, hus, List.getLast?_concat]
  cases hslot : s.slot with
  | empty => exact absurd hslot hs
  | taken t =>
    obtain ⟨hkind, us, hus⟩ := h.drawn_of_taken hslot
    exact ⟨t, hlast t us hus, hkind, h.position (.inl hslot)⟩
  | pending t =>
    obtain ⟨hkind, hus⟩ := h.drawn_of_pending hslot
    exact ⟨t, hlast t _ hus, hkind, h.position (.inr hslot)⟩

/-- In a session on a text reports are only added, and stand in order. The invalid tokens that have
been drawn are reported once each, and stand one behind the other. What a part reports as unexpected
is a valid token, which was the one drawn last when it was rejected. -/
theorem reports_in_order (source : String) (ops : List Operation) (op : Operation) :
    let s := Operation.applyAll (.ofFeed (.ofString source)) ops
    let s' := op.apply s
    s.diagnostics.toList <+: s'.diagnostics.toList ∧
      (s.diagnostics.toList.Pairwise fun d e => d.position ≤ e.position) ∧
      ((s.diagnostics.toList.filter fun d => d.fault = .invalid) =
        (s.feed.drawn.toList.filter fun t => t.kind = .invalid).map fun t => ⟨.invalid, t.position⟩) ∧
      ((s.feed.drawn.toList.filter fun t => t.kind = .invalid).Pairwise fun t u =>
        t.position < u.position) ∧
      ∀ n, op = .parse n → ∀ i d, s.diagnostics.size ≤ i → s'.diagnostics[i]? = some d →
        d.fault = .unexpected → ∃ r t, Performs .reject r n.procedure s ∧
          r.diagnostics.toList = s'.diagnostics.toList.take i ∧ r.feed.drawn.back? = some t ∧
          t.kind ≠ .invalid ∧ d.position = t.position := by
  intro s s'
  have hordered : s.Ordered := kept_ordered.applyAll ops (ordered_ofString source)
  have hon : s.On (.ofString source) := (kept_on _).applyAll ops (.ofFeed _)
  have hinvalid := kept_invalid.applyAll ops (s := ofFeed (.ofString source)) rfl
  refine ⟨(kept_reported _).apply op (List.prefix_refl _), hordered.sorted, hinvalid,
    hon.invalid_sorted, ?_⟩
  rintro n rfl i d hi hd hfault
  obtain ⟨r, hr, htake, hposition⟩ := (n.accounts_parse s).rejected i d hi hd hfault
  have hlinked : r.Linked := hr.kept kept_linked hordered.linked
  obtain ⟨t, ht, hkind, hat⟩ := hlinked.last_drawn (begun_of_performs hr)
  exact ⟨r, t, hr, htake, ht, hkind, hposition.trans hat⟩

end Routine
