import Routine.Proofs.Reports
import Routine.Proofs.Resumption
import Routine.Proofs.Tidy

/-!
# What the log tells

The log of a run is made up of two things: single events that have no part in a recovery, and
recoveries, each from the report of the token that was rejected to the note that says how it ended
(`Orderly`). `Cursor.Writes` is what a step writes, to the log and to the diagnostics at once. The
tokens that are noted as skipped are found by their numbers: a cursor knows how many valid tokens
came before the one it handed out last (`Cursor.Numbered`), and a recovery begins where that one is
and leaves off in front of another. `log_accounts` is what can be read off the log in the end.
-/

namespace Routine

open Cursor Procedure

/-- What was noted in the course of the run, in order. -/
def Parse.events (p : Parse) : List Event := p.cursor.log.toList

namespace Event

/-- The diagnostic that is reported. -/
def diagnostic? : Event → Option Diagnostic
  | .reported d => some d
  | _ => none

/-- The end of a recovery: how many tokens were passed over, and the kind of the next one. -/
def synchronized? : Event → Option (Nat × Kind)
  | .synchronized n k => some (n, k)
  | _ => none

/-- A token is reported as unexpected. -/
def isRejection : Event → Bool
  | .reported ⟨.unexpected, _⟩ => true
  | _ => false

/-- An event that can stand between a rejection and the end of the recovery from it. -/
structure Passing (e : Event) : Prop where
  accepted : e.isRejection = false
  unfinished : e.synchronized? = none

/-- An event that has no part in a recovery. -/
structure Calm (e : Event) : Prop extends Passing e where
  kept : e.skipped? = none

theorem not_passing_rejection (p : Position) : ¬ Passing (.reported ⟨.unexpected, p⟩) := by
  intro h
  cases h.accepted

end Event

open Event

/-- A log of events apart from recoveries and of whole recoveries, each of which notes how many
tokens it has skipped, the rejected one first. -/
inductive Orderly : List Event → Prop
  | nil : Orderly []
  | calm {e : Event} {es : List Event} (he : e.Calm) (h : Orderly es) : Orderly (e :: es)
  | recovery {p : Position} {during es : List Event} {resume : Kind}
    (hduring : ∀ e ∈ during, e.Passing)
    (hfirst : ∀ q ∈ (during.filterMap skipped?).head?, q.2 = p) (h : Orderly es) :
    Orderly (.reported ⟨.unexpected, p⟩ ::
      (during ++ .synchronized (during.filterMap skipped?).length resume :: es))

namespace Orderly
variable {es fs before behind : List Event} {p : Position}

theorem append (h : Orderly es) (h' : Orderly fs) : Orderly (es ++ fs) := by
  induction h with
  | nil => exact h'
  | calm he _ ih => exact .calm he ih
  | recovery hduring hfirst _ ih =>
    rw [List.cons_append, List.append_assoc, List.cons_append]
    exact .recovery hduring hfirst ih

theorem of_calm (h : ∀ e ∈ es, e.Calm) : Orderly es := by
  induction es with
  | nil => exact .nil
  | cons e es ih =>
    obtain ⟨he, hes⟩ := List.forall_mem_cons.1 h
    exact .calm he (ih hes)

/-- What comes before the first rejection has no part in a recovery. -/
theorem calm_takeWhile (h : Orderly es) : ∀ e ∈ es.takeWhile (!·.isRejection), e.Calm := by
  induction h with
  | nil => simp
  | calm he _ ih =>
    rw [List.takeWhile_cons_of_pos (by simp [he.accepted])]
    exact List.forall_mem_cons.2 ⟨he, ih⟩
  | recovery => simp [isRejection]

/-- Up to the next rejection a recovery ends, and what comes behind its end has no part in one. -/
theorem takeWhile_recovery {during : List Event} (n : Nat) (resume : Kind)
    (hduring : ∀ e ∈ during, e.Passing) (h : Orderly es) :
    ∃ after, (during ++ .synchronized n resume :: es).takeWhile (!·.isRejection) =
      during ++ .synchronized n resume :: after ∧ ∀ e ∈ after, e.Calm := by
  refine ⟨es.takeWhile (!·.isRejection), ?_, h.calm_takeWhile⟩
  rw [List.takeWhile_append_of_pos (by simpa using fun e he => (hduring e he).accepted),
    List.takeWhile_cons_of_pos (by simp [isRejection])]

/-- One recovery ends there, and what is skipped is skipped before its end. -/
theorem filterMap_recovery {during after : List Event} (n : Nat) (resume : Kind)
    (hduring : ∀ e ∈ during, e.Passing) (hafter : ∀ e ∈ after, e.Calm) :
    (during ++ .synchronized n resume :: after).filterMap synchronized? = [(n, resume)] ∧
      (during ++ .synchronized n resume :: after).filterMap skipped? =
        during.filterMap skipped? := by
  have hends : during.filterMap synchronized? = [] :=
    List.filterMap_eq_nil_iff.2 fun e he => (hduring e he).unfinished
  have hends' : after.filterMap synchronized? = [] :=
    List.filterMap_eq_nil_iff.2 fun e he => (hafter e he).unfinished
  have hskips : after.filterMap skipped? = [] :=
    List.filterMap_eq_nil_iff.2 fun e he => (hafter e he).kept
  have hend : synchronized? (.synchronized n resume) = some (n, resume) := rfl
  constructor
  · rw [List.filterMap_append, hends, List.filterMap_cons_some hend, hends', List.nil_append]
  · rw [List.filterMap_append, List.filterMap_cons_none rfl, hskips, List.append_nil]

/-- A rejection in what comes behind another one stands behind the end of the recovery from that. -/
theorem behind_recovery {during : List Event} {n : Nat} {resume : Kind}
    (hduring : ∀ e ∈ during, e.Passing)
    (hsplit : during ++ .synchronized n resume :: es =
      before ++ .reported ⟨.unexpected, p⟩ :: behind) :
    ∃ middle, es = middle ++ .reported ⟨.unexpected, p⟩ :: behind := by
  rcases List.append_eq_append_iff.1 hsplit with ⟨middle, -, hend⟩ | ⟨middle, rfl, hend⟩
  · cases middle with
    | nil => cases hend
    | cons e middle => exact ⟨middle, (List.cons.inj hend).2⟩
  · cases middle with
    | nil => cases hend
    | cons e middle =>
      obtain ⟨rfl, -⟩ := List.cons.inj hend
      exact absurd (hduring _ (by simp)) (not_passing_rejection p)

/-- From a rejection up to the next one a single recovery ends. It has skipped as many tokens as are
noted, all of them before its end, and the first, if there is one, is the token that was rejected. -/
theorem recovers (h : Orderly es) (hsplit : es = before ++ .reported ⟨.unexpected, p⟩ :: behind) :
    let between := behind.takeWhile (!·.isRejection)
    ∃ resume, between.filterMap synchronized? =
        [((between.filterMap skipped?).length, resume)] ∧
      (∀ q ∈ (between.filterMap skipped?).head?, q.2 = p) ∧
      ∃ during after,
        between = during ++ .synchronized (between.filterMap skipped?).length resume :: after ∧
        ∀ e ∈ after, e.skipped? = none := by
  induction h generalizing before with
  | nil => simp at hsplit
  | calm he _ ih =>
    cases before with
    | nil =>
      obtain ⟨rfl, -⟩ := List.cons.inj hsplit
      exact absurd he.toPassing (not_passing_rejection p)
    | cons e before => exact ih (List.cons.inj hsplit).2
  | @recovery p' during es resume hduring hfirst h ih =>
    cases before with
    | nil =>
      rw [List.nil_append, List.cons.injEq] at hsplit
      obtain ⟨hp, rfl⟩ := hsplit
      obtain rfl : p' = p := by simpa using hp
      obtain ⟨after, hbetween, hcalm⟩ := takeWhile_recovery _ resume hduring h
      obtain ⟨hends, hskips⟩ := filterMap_recovery _ resume hduring hcalm
      rw [hbetween]
      refine ⟨resume, by rw [hends, hskips], by rwa [hskips], during, after, by rw [hskips], ?_⟩
      exact fun e he => (hcalm e he).kept
    | cons e before =>
      obtain ⟨middle, hes⟩ := behind_recovery hduring (List.cons.inj hsplit).2
      exact ih hes

end Orderly

namespace Cursor
variable {s s' s'' : Cursor} {es fs : List Event} {e : Event} {f : Feed}

/-- From `s` to `s'` the events `es` are written to the log, and what they report is added to the
diagnostics. -/
structure Writes (s : Cursor) (es : List Event) (s' : Cursor) : Prop where
  log : s'.log.toList = s.log.toList ++ es
  diagnostics : s'.diagnostics.toList = s.diagnostics.toList ++ es.filterMap diagnostic?

namespace Writes

theorem refl (s : Cursor) : s.Writes [] s := ⟨by simp, by simp⟩

theorem trans (h : s.Writes es s') (h' : s'.Writes fs s'') : s.Writes (es ++ fs) s'' where
  log := by rw [h'.log, h.log, List.append_assoc]
  diagnostics := by rw [h'.diagnostics, h.diagnostics, List.append_assoc, List.filterMap_append]

theorem note (s : Cursor) (he : e.diagnostic? = none) : s.Writes [e] (s.note e) :=
  ⟨by simp [Cursor.note], by simp [Cursor.note, he]⟩

theorem report (s : Cursor) (d : Diagnostic) : s.Writes [.reported d] (s.report d) :=
  ⟨by simp [Cursor.report, Cursor.note], by simp [Cursor.report, Cursor.note, diagnostic?]⟩

theorem pushBack (s : Cursor) : s.Writes [] s.pushBack := by
  unfold Cursor.pushBack
  split <;> exact ⟨by simp, by simp⟩

theorem skips (h : s.Writes es s') : s'.skips = s.skips ++ es.filterMap skipped? := by
  rw [Cursor.skips, h.log, List.filterMap_append, Cursor.skips]

/-- Only invalid tokens are reported when a token is drawn from the feed. -/
theorem fetch (s : Cursor) : ∃ es, s.Writes es s.fetch.2 ∧ ∀ e ∈ es, e.Calm := by
  obtain ⟨bad, -, -, hfetch⟩ := s.fetch_spec
  refine ⟨bad.map fun t => .reported (invalidAt t), ⟨?_, ?_⟩, ?_⟩
  · rw [hfetch, Array.toList_append]
  · rw [hfetch, Array.toList_append, List.filterMap_map]
    exact congrArg _ (congrFun List.filterMap_eq_map bad).symm
  · intro e he
    obtain ⟨t, -, rfl⟩ := List.mem_map.1 he
    exact ⟨⟨rfl, rfl⟩, rfl⟩

theorem next (s : Cursor) : ∃ es, s.Writes es s.next.2 ∧ ∀ e ∈ es, e.Calm := by
  cases hs : s.slot with
  | pending t =>
    rw [next_of_pending hs]
    have hnote := note s (e := .redelivered t.kind) rfl
    refine ⟨[.redelivered t.kind], ⟨hnote.log, hnote.diagnostics⟩, ?_⟩
    exact List.forall_mem_singleton.2 ⟨⟨rfl, rfl⟩, rfl⟩
  | empty | taken t =>
    rw [next_of_not_pending (by simp [hs])]
    exact fetch s

theorem skip (stop : KindSet) (count : Nat) (t : Token) (s : Cursor) :
    ∃ es, s.Writes es (Cursor.skip stop count t s).cursor ∧ ∀ e ∈ es, e.Passing := by
  fun_induction Cursor.skip stop count t s with
  | case1 => exact ⟨[], refl _, by simp⟩
  | case2 count t s hstop o ih =>
    obtain ⟨es, hes, hpassing⟩ := ih
    obtain ⟨fs, hfs, hcalm⟩ := fetch (s.note (.skipped t.kind t.position))
    refine ⟨_, ((note s rfl).trans hfs).trans hes, ?_⟩
    intro e he
    simp only [List.mem_append, List.mem_singleton] at he
    rcases he with (rfl | he) | he
    · exact ⟨rfl, rfl⟩
    · exact (hcalm e he).toPassing
    · exact hpassing e he

/-- A recovery passes over the first tokens from the last one on, up to one that stops it. Each is
noted as it goes along, and in the end how many they were. -/
theorem synchronize (stop : KindSet) (s : Cursor) : ∃ k during resume,
    s.Writes (during ++ [.synchronized k resume]) (s.synchronize stop) ∧
      (∀ e ∈ during, e.Passing) ∧
      during.filterMap skipped? =
        (List.range k).map (fun j => ((s.onward j).kind, (s.onward j).position)) ∧
      (∀ j < k, ¬ Stops stop (s.onward j)) ∧
      ∀ i, (s.synchronize stop).onward i = s.onward (k + i) := by
  obtain ⟨es, hes, hcalm⟩ := next s.pushBack
  obtain ⟨fs, hfs, hpassing⟩ := skip stop 0 s.pushBack.next.1 s.pushBack.next.2
  obtain ⟨k, hskip, hcount, -⟩ := skip_resumes stop 0 _ _ s.pushBack.slot_next
  have hresumes := hskip.of_again
  have hpassed : s.Writes (es ++ fs) (Cursor.skip stop 0 _ _).cursor :=
    ((pushBack s).trans hes).trans hfs
  refine ⟨k, es ++ fs, (Cursor.skip stop 0 s.pushBack.next.1 s.pushBack.next.2).resume.kind,
    ?_, ?_, ?_, hresumes.before, ?_⟩
  · rw [← Nat.zero_add k, ← hcount]
    exact hpassed.trans ((pushBack _).trans (note _ rfl))
  · intro e he
    rcases List.mem_append.1 he with he | he
    · exact (hcalm e he).toPassing
    · exact hpassing e he
  · have hskips := hpassed.skips
    rw [hresumes.skips] at hskips
    exact (List.append_cancel_left hskips).symm
  · intro i
    rw [← hresumes.onward]
    exact congrFun (onward_pushBack _) i

end Writes

/-- A token has been drawn, the log is orderly, and the diagnostics are what it reports. -/
structure Recorded (s : Cursor) : Prop where
  linked : s.Linked
  begun : s.slot ≠ .empty
  orderly : Orderly s.log.toList
  accounts : s.log.toList.filterMap diagnostic? = s.diagnostics.toList

/-- The token handed out last is where the cursor stands. -/
theorem Linked.position_onward (h : s.Linked) (hs : s.slot ≠ .empty) :
    s.position = (s.onward 0).position := by
  cases ht : s.slot with
  | empty => exact absurd ht hs
  | taken t => rw [onward_zero (.inl ht), h.position (.inl ht)]
  | pending t => rw [onward_zero (.inr ht), h.position (.inr ht)]

theorem kept_linked_begun : Kept fun s => s.Linked ∧ s.slot ≠ .empty :=
  kept_linked.and kept_begun

namespace Recorded

theorem of_writes (h : s.Recorded) (hkept : s'.Linked ∧ s'.slot ≠ .empty) (hwrites : s.Writes es s')
    (hes : Orderly es) : s'.Recorded where
  linked := hkept.1
  begun := hkept.2
  orderly := by
    rw [hwrites.log]
    exact h.orderly.append hes
  accounts := by rw [hwrites.log, hwrites.diagnostics, List.filterMap_append, h.accounts]

theorem next (h : s.Recorded) : s.next.2.Recorded := by
  obtain ⟨es, hwrites, hcalm⟩ := Writes.next s
  exact h.of_writes (kept_linked_begun.next ⟨h.linked, h.begun⟩) hwrites (.of_calm hcalm)

theorem pushBack (h : s.Recorded) : s.pushBack.Recorded :=
  h.of_writes (kept_linked_begun.pushBack ⟨h.linked, h.begun⟩) (.pushBack s) .nil

theorem leftover (h : s.Recorded) : (s.note .leftover).Recorded :=
  h.of_writes ⟨h.linked, h.begun⟩ (.note s rfl) (.calm ⟨⟨rfl, rfl⟩, rfl⟩ .nil)

/-- The first token that is skipped is the one that is rejected. -/
theorem recovery (h : s.Recorded) (stop : KindSet) : (s.reject.synchronize stop).Recorded := by
  have hkept := kept_linked_begun.upheld.recovery stop ⟨h.linked, h.begun⟩
  obtain ⟨k, during, resume, hwrites, hpassing, hskips, -⟩ := Writes.synchronize stop s.reject
  have hlength : (during.filterMap skipped?).length = k := by simp [hskips]
  refine h.of_writes hkept ((Writes.report s ⟨.unexpected, s.position⟩).trans hwrites) ?_
  rw [List.singleton_append, ← hlength]
  refine .recovery hpassing ?_ .nil
  intro q hq
  rw [hskips] at hq
  cases k with
  | zero => simp at hq
  | succ k =>
    obtain rfl : ((s.reject.onward 0).kind, (s.reject.onward 0).position) = q := by
      simpa [List.range_succ_eq_map] using hq
    exact (h.linked.position_onward h.begun).symm

theorem upheld : Upheld Recorded where
  next := next
  pushBack := pushBack
  leftover := leftover
  recovery stop h := h.recovery stop

/-- The first token of a feed is drawn, and nothing has happened before. -/
theorem start (f : Feed) : (ofFeed f).next.2.Recorded := by
  have hslot : (ofFeed f).next.2.slot = .taken (ofFeed f).next.1 := slot_next _
  obtain ⟨es, hwrites, hcalm⟩ := Writes.next (ofFeed f)
  have hlog : (ofFeed f).next.2.log.toList = es := by simpa [ofFeed] using hwrites.log
  refine ⟨Linked.fetch _, by simp [hslot], ?_, ?_⟩
  · rw [hlog]
    exact .of_calm hcalm
  · rw [hlog]
    simpa [ofFeed] using hwrites.diagnostics.symm

end Recorded

/-! ### The numbers of the tokens that are skipped -/

/-- The token handed out last is the valid one of the feed with the number `k`. Those noted as
skipped have the numbers `ks`, in order; all came before it, and the end was not among them. -/
structure Numbered (f : Feed) (k : Nat) (ks : List Nat) (s : Cursor) : Prop where
  onward : ∀ i, s.onward i = f.valid (k + i)
  sorted : ks.Pairwise (· < ·)
  before : ∀ j ∈ ks, j < k
  proper : ∀ j ∈ ks, (f.valid j).kind ≠ .eof
  skips : s.skips = ks.map fun j => ((f.valid j).kind, (f.valid j).position)

/-- The token that is drawn is the one handed back, or the one behind it. -/
theorem onward_next (s : Cursor) : ∃ j, ∀ i, s.next.2.onward i = s.onward (j + i) := by
  cases hs : s.slot with
  | pending t =>
    have hback : s.pushBack = s := pushBack_of_not_taken (by simp [hs])
    refine ⟨0, fun i => ?_⟩
    rw [Nat.zero_add, ← s.onward_next_pushBack, hback]
  | empty =>
    refine ⟨0, fun i => ?_⟩
    rw [next_of_not_pending (by simp [hs]), onward_fetch, Nat.zero_add]
    simp only [Cursor.onward, hs]
  | taken t =>
    refine ⟨1, fun i => ?_⟩
    rw [next_of_not_pending (by simp [hs]), onward_fetch, Nat.add_comm, onward_succ (.inl hs)]

namespace Numbered
variable {k j : Nat} {ks : List Nat}

theorem ofFeed (f : Feed) : Numbered f 0 [] (.ofFeed f) where
  onward i := by rw [Nat.zero_add]; rfl
  sorted := .nil
  before := by simp
  proper := by simp
  skips := rfl

/-- Going on without skipping a token. -/
theorem of_onward (h : Numbered f k ks s) (honward : ∀ i, s'.onward i = s.onward (j + i))
    (hskips : s'.skips = s.skips) : Numbered f (k + j) ks s' where
  onward i := by rw [honward, h.onward, Nat.add_assoc]
  sorted := h.sorted
  before i hi := Nat.lt_add_right j (h.before i hi)
  proper := h.proper
  skips := by rw [hskips, h.skips]

theorem next (h : Numbered f k ks s) : ∃ k', Numbered f k' ks s.next.2 := by
  obtain ⟨j, honward⟩ := s.onward_next
  exact ⟨k + j, h.of_onward honward s.skips_next⟩

theorem pushBack (h : Numbered f k ks s) : Numbered f k ks s.pushBack := by
  refine h.of_onward (j := 0) (fun i => ?_) s.skips_pushBack
  rw [Nat.zero_add, onward_pushBack]

theorem synchronize (h : Numbered f k ks s) (stop : KindSet) :
    ∃ k' ks', Numbered f k' ks' (s.synchronize stop) := by
  obtain ⟨n, during, resume, hwrites, -, hduring, hbefore, honward⟩ := Writes.synchronize stop s
  refine ⟨k + n, ks ++ (List.range n).map (k + ·), ?_, ?_, ?_, ?_, ?_⟩
  · intro i
    rw [honward, h.onward, Nat.add_assoc]
  · refine List.pairwise_append.2 ⟨h.sorted, ?_, ?_⟩
    · exact List.pairwise_lt_range.map _ fun i j hij => Nat.add_lt_add_left hij k
    · intro i hi j hj
      obtain ⟨j, -, rfl⟩ := List.mem_map.1 hj
      exact Nat.lt_add_right j (h.before i hi)
  · intro i hi
    rcases List.mem_append.1 hi with hi | hi
    · exact Nat.lt_add_right n (h.before i hi)
    · obtain ⟨j, hj, rfl⟩ := List.mem_map.1 hi
      exact Nat.add_lt_add_left (List.mem_range.1 hj) k
  · intro i hi hend
    rcases List.mem_append.1 hi with hi | hi
    · exact h.proper i hi hend
    · obtain ⟨j, hj, rfl⟩ := List.mem_map.1 hi
      refine hbefore j (List.mem_range.1 hj) (.inr ?_)
      rwa [h.onward]
  · have hskips := hwrites.skips
    rw [List.filterMap_append, hduring] at hskips
    rw [hskips, h.skips, List.map_append, List.map_map]
    simp [h.onward, Function.comp_def, skipped?]

theorem upheld (f : Feed) : Upheld fun s => ∃ k ks, Numbered f k ks s where
  next := by
    rintro s ⟨k, ks, h⟩
    obtain ⟨k', h'⟩ := h.next
    exact ⟨k', ks, h'⟩
  pushBack := by
    rintro s ⟨k, ks, h⟩
    exact ⟨k, ks, h.pushBack⟩
  leftover := by
    rintro s ⟨k, ks, h⟩
    exact ⟨k, ks, h.onward, h.sorted, h.before, h.proper, (skips_note rfl).trans h.skips⟩
  recovery := by
    rintro s stop ⟨k, ks, h⟩
    have hskips : s.reject.skips = s.skips := skips_note rfl
    have hreject : Numbered f k ks s.reject :=
      ⟨h.onward, h.sorted, h.before, h.proper, hskips.trans h.skips⟩
    exact hreject.synchronize stop

end Numbered

end Cursor

/-- The log of a parse tells all that was reported, in order. In front of the first rejection no
recovery ends, and between a rejection and the next one, or the end of the log, a single one does. It
notes how many tokens were skipped there, all of them before it ends; the first is the one that was
rejected. The tokens that are skipped at all are tokens of the stream, no two of them the same, in the
order in which they stand there, and neither invalid nor the end. -/
theorem log_accounts (f : Feed) :
    let events := (parse f).events
    events.filterMap diagnostic? = (parse f).diagnostics ∧
      (∀ e ∈ events.takeWhile (!·.isRejection), e.synchronized? = none) ∧
      (∀ before p behind, events = before ++ .reported ⟨.unexpected, p⟩ :: behind →
        let between := behind.takeWhile (!·.isRejection)
        ∃ resume, between.filterMap synchronized? =
            [((between.filterMap skipped?).length, resume)] ∧
          (∀ q ∈ (between.filterMap skipped?).head?, q.2 = p) ∧
          ∃ during after,
            between = during ++ .synchronized (between.filterMap skipped?).length resume :: after ∧
            ∀ e ∈ after, e.skipped? = none) ∧
      ∃ ns : List Nat, ns.Pairwise (· < ·) ∧
        (∀ i ∈ ns, (f.upcoming i).kind ≠ .invalid ∧ (f.upcoming i).kind ≠ .eof) ∧
        events.filterMap skipped? = ns.map fun i => ((f.upcoming i).kind, (f.upcoming i).position) := by
  intro events
  have hrecorded : (parse f).cursor.Recorded := Recorded.upheld.parse f (.start f)
  obtain ⟨k, hstart⟩ := (Numbered.ofFeed f).next
  obtain ⟨n, ks, hnumbered⟩ := (Numbered.upheld f).parse f ⟨k, [], hstart⟩
  refine ⟨hrecorded.accounts, ?_, ?_, ks.map f.place, ?_, ?_, ?_⟩
  · intro e he
    exact (hrecorded.orderly.calm_takeWhile e he).unfinished
  · intro before p behind hsplit
    exact hrecorded.orderly.recovers hsplit
  · exact hnumbered.sorted.map _ fun i j hij => Nat.nth_strictMono f.infinite_validAt hij
  · intro i hi
    obtain ⟨j, hj, rfl⟩ := List.mem_map.1 hi
    exact ⟨f.valid_kind_ne_invalid j, hnumbered.proper j hj⟩
  · rw [List.map_map]
    exact hnumbered.skips

end Routine
