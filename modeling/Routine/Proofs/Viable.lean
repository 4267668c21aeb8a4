import Routine.Proofs.Derivation
import Routine.Proofs.Soundness

/-!
# The first token with which no program goes on

A cursor `Awaits` a language of words: those that, behind the valid tokens it has consumed, still make
a program. Only the words that lead with the next token matter, so that a procedure that looks at the
next token may narrow them down. It has `Stopped` once a token has been reported with which no word
leads. `Goes f M L q` says that the procedure `q` takes a cursor that awaits `M` to one that awaits
`L`, or stops.
-/

namespace Routine

open Cursor Procedure Production Grammar

/-- Some program begins with the kinds; the end of the input counts as its last kind. -/
def Grammar.Viable (ks : List Kind) : Prop := ∃ w, IsProgram w ∧ ks <+: w ++ [.eof]

theorem Grammar.Viable.mono {ks ls : List Kind} (h : Viable ls) (hpre : ks <+: ls) : Viable ks := by
  obtain ⟨w, hw, hls⟩ := h
  exact ⟨w, hw, hpre.trans hls⟩

/-- What is next behind the kinds leads the rest of the word. -/
theorem Grammar.lead_of_prefix {ks w : List Kind} {k : Kind} (h : ks ++ [k] <+: w ++ [.eof]) :
    ∃ w', w = ks ++ w' ∧ lead w' = k := by
  induction ks generalizing w with
  | nil =>
    cases w with
    | nil => exact ⟨[], rfl, (List.cons_prefix_cons.1 h).1.symm⟩
    | cons j w => exact ⟨j :: w, rfl, (List.cons_prefix_cons.1 h).1.symm⟩
  | cons j ks ih =>
    cases w with
    | nil => simp at h
    | cons i w =>
      obtain ⟨rfl, hpre⟩ := List.cons_prefix_cons.1 h
      obtain ⟨w', rfl, hlead⟩ := ih hpre
      exact ⟨w', rfl, hlead⟩

/-- The first report of an unexpected token. -/
def firstUnexpected (ds : List Diagnostic) : Option Diagnostic := ds.find? fun d => d.fault = .unexpected

namespace Cursor
variable {f : Feed} {s s' : Cursor} {t : Token} {L M : List Kind → Prop}

/-- The kinds of the valid tokens that were consumed. -/
def kinds (s : Cursor) : List Kind := (visible s.consumed).map Token.kind

/-- A token has been reported as unexpected, and it is the first with which no program goes on. -/
def Stopped (s : Cursor) : Prop :=
  ∃ ts t, ts ++ [t] <+: visible s.feed.drawn.toList ∧ Viable (ts.map Token.kind) ∧
    ¬ Viable ((ts ++ [t]).map Token.kind) ∧
    firstUnexpected s.diagnostics.toList = some ⟨.unexpected, t.position⟩

theorem Stopped.mono (h : s.Stopped) (hdrawn : s.feed.drawn.toList <+: s'.feed.drawn.toList)
    (hdiag : s.diagnostics.toList <+: s'.diagnostics.toList) : s'.Stopped := by
  obtain ⟨ts, t, hpre, hviable, hnot, hfirst⟩ := h
  obtain ⟨us, hus⟩ := hdrawn
  obtain ⟨ds, hds⟩ := hdiag
  refine ⟨ts, t, hpre.trans ?_, hviable, hnot, ?_⟩
  · rw [← hus, visible_append]
    exact List.prefix_append ..
  · rw [firstUnexpected, ← hds, List.find?_append, ← firstUnexpected, hfirst]; rfl

theorem kept_stopped : Kept Stopped where
  next := by
    intro s h
    cases hs : s.slot with
    | pending t =>
      obtain ⟨-, hfeed, hdiag⟩ := next_pending hs
      exact h.mono (hfeed ▸ List.prefix_refl _) (hdiag ▸ List.prefix_refl _)
    | empty | taken t =>
      obtain ⟨bad, -, -, hfetch⟩ := s.fetch_spec
      rw [next_of_not_pending (by simp [hs]), hfetch]
      refine h.mono ?_ ?_
      · rw [Feed.toList_drawn_drop]; exact List.prefix_append ..
      · rw [Array.toList_append]; exact List.prefix_append ..
  pushBack h :=
    h.mono (feed_pushBack _ ▸ List.prefix_refl _) (diagnostics_pushBack _ ▸ List.prefix_refl _)
  reject {s} h := by
    have hdiag : s.diagnostics.toList <+: s.reject.diagnostics.toList := by
      simp [reject, report, note]
    exact h.mono (List.prefix_refl _) hdiag
  note e h := h

/-- The words of `L` that lead with the next token are what may still come. -/
structure Awaits (f : Feed) (L : List Kind → Prop) (s : Cursor) : Prop where
  within : s.Within f
  clean : firstUnexpected s.diagnostics.toList = none
  sound : ∀ w, L w → IsProgram (s.kinds ++ w)
  complete : ∀ w, IsProgram (s.kinds ++ w) → lead w = s.next.1.kind → L w
  inhabited : ∃ w, L w

/-- The cursor awaits the words of `L`, or has stopped before. -/
def Ahead (f : Feed) (L : List Kind → Prop) (s : Cursor) : Prop := s.Stopped ∨ s.Awaits f L

namespace Awaits

theorem narrow (h : s.Awaits f M) (hnar : Narrows s.next.1.kind M L) : s.Awaits f L where
  within := h.within
  clean := h.clean
  sound w hw := h.sound w (hnar.sub w hw)
  complete w hw hlead := hnar.of_lead w (h.complete w hw hlead) hlead
  inhabited := hnar.inhabited h.inhabited

theorem peek (h : s.Awaits f L) : s.next.2.pushBack.Awaits f L := by
  obtain ⟨bad, hbad, hmove, hdiag⟩ := h.within.1.next_spec
  have hkinds : s.next.2.pushBack.kinds = s.kinds := by
    rw [kinds, (hmove.pushBack h.within.1.next s.slot_next).consumed, visible_append,
      visible_of_invalid hbad, List.append_nil, kinds]
  refine ⟨(kept_within f).pushBack ((kept_within f).next h.within), ?_, ?_, ?_, h.inhabited⟩
  · rw [diagnostics_pushBack, hdiag]
    simp only [firstUnexpected, Array.toList_append, List.find?_append]
    rw [← firstUnexpected, h.clean]
    simp [invalidAt]
  · rw [hkinds]; exact h.sound
  · rw [hkinds, next_pushBack_next]; exact h.complete

theorem note (h : s.Awaits f L) (hs : s.slot = .pending t) (e : Event) : (s.note e).Awaits f L where
  within := h.within
  clean := h.clean
  sound := h.sound
  complete w hw hlead := by
    refine h.complete w hw ?_
    rw [(next_pending hs).1]
    rwa [(next_pending (s := s.note e) hs).1] at hlead
  inhabited := h.inhabited

/-- A token that leads is passed over. -/
theorem take {row : List Symbol} (hw : s.Within f) (hs : s.slot = .taken t)
    (h : s.pushBack.Awaits f (InFront (.token t.kind :: row) L)) : s.Awaits f (InFront row L) := by
  have hnext : s.pushBack.next.1 = t := (next_pending (slot_pushBack_of_taken hs)).1
  have hkinds : s.kinds = s.pushBack.kinds ++ [t.kind] := by
    rw [kinds, consumed_of_taken hw.1 hs, visible_append, visible_singleton (hw.1.drawn_of_taken hs).1,
      List.map_append]
    rfl
  refine ⟨hw, by rw [← diagnostics_pushBack]; exact h.clean, fun w hL => ?_, fun w hprog _ => ?_,
    exists_inFront.2 (exists_inFront.1 h.inhabited)⟩
  · rw [hkinds, List.append_assoc]
    exact h.sound _ (inFront_token.2 ⟨w, rfl, hL⟩)
  · rw [hkinds, List.append_assoc] at hprog
    obtain ⟨w', heq, hw'⟩ := inFront_token.1 (h.complete _ hprog (by rw [hnext]; rfl))
    have heq : w = w' := (List.cons.inj heq).2
    rwa [heq]

/-- The next token is rejected where no word leads with it. -/
theorem stop (h : s.Awaits f L) (hs : s.slot = .pending t) (hL : ∀ w, L w → lead w ≠ t.kind) :
    s.reject.Stopped := by
  obtain ⟨hvalid, hdrawn⟩ := h.within.1.drawn_of_pending hs
  have hvisible : visible s.feed.drawn.toList = visible s.consumed ++ [t] := by
    rw [hdrawn, visible_append, visible_singleton hvalid]
  refine ⟨visible s.consumed, t, hvisible ▸ List.prefix_refl _, ?_, ?_, ?_⟩
  · obtain ⟨w, hw⟩ := h.inhabited
    refine ⟨_, h.sound w hw, ?_⟩
    rw [List.append_assoc]
    exact List.prefix_append _ _
  · rintro ⟨w, hw, hpre⟩
    rw [List.map_append] at hpre
    obtain ⟨w', rfl, hlead⟩ := lead_of_prefix hpre
    have hnext : lead w' = s.next.1.kind := by rw [hlead, (next_pending hs).1]
    exact hL w' (h.complete w' hw hnext) hlead
  · have hposition : s.position = t.position := by
      rw [position, Feed.position, ← Array.getLast?_toList, hdrawn, List.getLast?_concat]
    have hdiag : s.reject.diagnostics.toList = s.diagnostics.toList ++ [⟨.unexpected, t.position⟩] := by
      simp [Cursor.reject, report, Cursor.note, hposition]
    rw [hdiag, firstUnexpected, List.find?_append, ← firstUnexpected, h.clean]
    rfl

theorem stop_held (h : s.pushBack.Awaits f L) (hs : s.slot = .taken t)
    (hL : ∀ w, L w → lead w ≠ t.kind) : s.reject.Stopped := by
  have hstop := h.stop (slot_pushBack_of_taken hs) hL
  rw [← pushBack_reject] at hstop
  exact hstop.mono (feed_pushBack s.reject ▸ List.prefix_refl _)
    (diagnostics_pushBack s.reject ▸ List.prefix_refl _)

end Awaits

end Cursor

/-! ### Judgements -/

/-- The variable that a phrase reads. -/
def Phrase.variable : Phrase → Variable
  | expression => .part .expression
  | simpleTail => .part .simpleTail
  | termTail => .part .termTail
  | statements => .part .statements
  | moreStatements => .moreStatements
  | moreNames => .moreNames
  | moreDeclarations => .moreDeclarations

/-- A phrase takes a cursor past its variable. -/
def reaching (f : Feed) : Contract where
  pre _ _ := True
  post p s _ s' := ∀ L, Leads L p.followKinds → s.Ahead f (InFront [.of p.variable] L) → s'.Ahead f L

/-- Every constant of the feed has a value of its kind. -/
def Feed.ConstantsValued (f : Feed) : Prop :=
  f.drawn = #[] ∧
    ∀ i, (f.upcoming i).kind ∈ [.intConst, .floatConst, .charConst] → (f.upcoming i).Valued

section
variable {α β : Type} {f : Feed} {n : Nonterminal} {t : Token} {L L' M N : List Kind → Prop}
  {row : List Symbol} {ks : List Kind} {x : Symbol}

/-- The procedure takes a cursor that awaits `M` to one that awaits `L`, or stops. -/
def Goes (f : Feed) (M L : List Kind → Prop) (q : Procedure α) : Prop :=
  ∀ s, s.Awaits f M → q.wp (reaching f) (fun _ s' => s'.Ahead f L) s

/-- As `Goes`, with `t` handed back. -/
def GoesSeen (f : Feed) (t : Token) (M L : List Kind → Prop) (q : Procedure α) : Prop :=
  ∀ s, s.slot = .pending t → s.Awaits f M → q.wp (reaching f) (fun _ s' => s'.Ahead f L) s

/-- As `Goes`, with `t` drawn from a cursor that awaited `M`. -/
def GoesHeld (f : Feed) (t : Token) (M L : List Kind → Prop) (q : Procedure α) : Prop :=
  ∀ s, s.Within f → s.slot = .taken t → s.pushBack.Awaits f M →
    q.wp (reaching f) (fun _ s' => s'.Ahead f L) s

/-- The procedure takes a cursor past `x`, if that is followed by one of `ks`. -/
def GoesPast (f : Feed) (ks : List Kind) (x : Symbol) (q : Procedure α) : Prop :=
  ∀ L, Leads L ks → Goes f (InFront [x] L) L q

/-- The procedure takes a cursor past the part, if that is followed as it may be. -/
def GoesPart (f : Feed) (n : Nonterminal) (q : Procedure α) : Prop :=
  GoesPast f n.followKinds (.part n) q

/-- Whatever is done after the cursor has stopped, it has. -/
theorem wp_stopped {s : Cursor} (q : Procedure α) (h : s.Stopped) :
    q.wp (reaching f) (fun _ s' => s'.Ahead f L) s := by
  refine wp_mono (fun _ _ => .inl) q (kept_stopped.wp (fun p s h => ⟨trivial, fun x s' hpost => ?_⟩) q h)
  -- after nothing at all, only a cursor that has stopped can come
  rcases hpost (fun _ => False) (fun _ => False.elim) (.inl h) with hstop | hawait
  · exact hstop
  · obtain ⟨w, hw⟩ := hawait.inhabited
    exact hw.elim

theorem wp_ahead {s : Cursor} {q : Procedure α} (hq : Goes f M L q) (h : s.Ahead f M) :
    q.wp (reaching f) (fun _ s' => s'.Ahead f L) s :=
  h.elim (wp_stopped q) (hq s)

namespace GoesSeen

theorem narrow {q : Procedure α} (hq : GoesSeen f t N L q) (h : Narrows t.kind M N) :
    GoesSeen f t M L q := by
  intro s hs hawait
  refine hq s hs (hawait.narrow ?_)
  rwa [(next_pending hs).1]

theorem of_goes {q : Procedure α} (hq : Goes f M L q) : GoesSeen f t M L q := fun s _ h => hq s h

theorem choose {alts : List (List Symbol)} (alt : List Symbol) {q : Procedure α} (hN : Leads N ks)
    (halt : alt ∈ alts) (hother : ∀ alt' ∈ alts, alt' = alt ∨ t.kind ∉ firstOfRow ks alt')
    (hq : GoesSeen f t (InFront alt N) L q) : GoesSeen f t (Choice alts N) L q :=
  hq.narrow (narrows_choice hN halt hother)

/-- A row that may be left out is read where its first token is seen. -/
theorem optional (g : Kind → Option β) (alt : List Symbol) {q : Procedure α} (hL : Leads L ks)
    (hsome : ∀ k, (g k).isSome = true → k ∉ ks) (hnone : ∀ k, g k = none → k ∉ firstOfRow ks alt)
    (hq : ∀ b, g t.kind = some b → Goes f (InFront alt L) L q)
    (hend : g t.kind = none → Goes f (InFront [] L) L q) :
    GoesSeen f t (Choice [[], alt] L) L q := by
  cases hb : g t.kind with
  | some b =>
    refine .choose alt hL (by simp) ?_ (.of_goes (hq b hb))
    rintro _ (_ | ⟨_, _ | ⟨_, ⟨⟩⟩⟩)
    · exact .inr (hsome _ (by rw [hb]; rfl))
    · exact .inl rfl
  | none =>
    refine .choose [] hL (by simp) ?_ (.of_goes (hend hb))
    rintro _ (_ | ⟨_, _ | ⟨_, ⟨⟩⟩⟩)
    · exact .inl rfl
    · exact .inr (hnone _ hb)

theorem recover_bind {k : Unit → Procedure α} (ks : List Kind) (hM : Leads M ks) (ht : t.kind ∉ ks) :
    GoesSeen f t M L (recover n >>= k) := by
  intro s hs hawait
  have hstop := hawait.stop hs fun w hw hlead => ht (hlead ▸ hM w hw)
  rw [wp_bind, wp_recover]
  exact wp_stopped _ (kept_stopped.synchronize _ hstop)

theorem note_bind {e : Event} {k : Unit → Procedure α} (hk : GoesSeen f t M L (k ())) :
    GoesSeen f t M L (Procedure.note e >>= k) :=
  fun s hs hawait => hk (s.note e) hs (hawait.note hs e)

end GoesSeen

namespace GoesHeld

theorem narrow {q : Procedure α} (hq : GoesHeld f t N L q) (h : Narrows t.kind M N) :
    GoesHeld f t M L q := by
  intro s hw hs hawait
  refine hq s hw hs (hawait.narrow ?_)
  rwa [(next_pending (slot_pushBack_of_taken hs)).1]

theorem take {k : Kind} {q : Procedure α} (hk : t.kind = k) (hq : Goes f (InFront row N) L q) :
    GoesHeld f t (InFront (.token k :: row) N) L q := by
  subst hk
  exact fun s hw hs hawait => hq s (hawait.take hw hs)

theorem pushBack_bind {k : Unit → Procedure α} (hk : GoesSeen f t M L (k ())) :
    GoesHeld f t M L (Procedure.pushBack >>= k) := by
  intro s _ hs hawait
  rw [wp_bind, wp_pushBack]
  exact hk _ (slot_pushBack_of_taken hs) hawait

theorem choose {alts : List (List Symbol)} (alt : List Symbol) {q : Procedure α} (hN : Leads N ks)
    (halt : alt ∈ alts) (hother : ∀ alt' ∈ alts, alt' = alt ∨ t.kind ∉ firstOfRow ks alt')
    (hq : GoesHeld f t (InFront alt N) L q) : GoesHeld f t (Choice alts N) L q :=
  hq.narrow (narrows_choice hN halt hother)

theorem recover_bind {k : Unit → Procedure α} (ks : List Kind) (hM : Leads M ks) (ht : t.kind ∉ ks) :
    GoesHeld f t M L (recover n >>= k) := by
  intro s _ hs hawait
  have hstop := hawait.stop_held hs fun w hw hlead => ht (hlead ▸ hM w hw)
  rw [wp_bind, wp_recover]
  exact wp_stopped _ (kept_stopped.synchronize _ hstop)

end GoesHeld

namespace Goes

theorem done (a : α) : Goes f L L (.done a) := fun _ h => .inr h

/-- The end of a row. -/
theorem finish {a : α} : Goes f (InFront [] L) L (.done a) := by
  rw [inFront_nil]
  exact done a

theorem bind {p : Procedure β} {k : β → Procedure α} (hp : Goes f M N p) (hk : ∀ b, Goes f N L (k b)) :
    Goes f M L (p >>= k) := by
  intro s h
  rw [wp_bind]
  exact wp_mono (fun b s' h' => wp_ahead (hk b) h') p (hp s h)

theorem step {p : Procedure β} {k : β → Procedure α} (hp : GoesPast f ks x p)
    (hlead : Leads (InFront row N) ks) (hk : ∀ b, Goes f (InFront row N) L (k b)) :
    Goes f (InFront (x :: row) N) L (p >>= k) := by
  rw [show x :: row = [x] ++ row from rfl, inFront_append]
  exact bind (hp _ hlead) hk

/-- The last step of a row. -/
theorem last {p : Procedure β} {g : β → α} (hp : GoesPast f ks x p) (hlead : Leads L ks) :
    Goes f (InFront [x] L) L (p >>= fun b => pure (g b)) :=
  bind (hp L hlead) fun _ => done _

theorem next_bind {k : Token → Procedure α} (hk : ∀ t, GoesHeld f t M L (k t)) :
    Goes f M L (Procedure.next >>= k) := by
  intro s h
  rw [wp_bind, wp_next]
  exact hk _ _ ((kept_within f).next h.within) s.slot_next h.peek

theorem constant_bind {k : Token → Procedure α} (hf : f.ConstantsValued)
    (hk : ∀ t, (t.kind ∈ [.intConst, .floatConst, .charConst] → t.Valued) → GoesHeld f t M L (k t)) :
    Goes f M L (Procedure.next >>= k) := by
  intro s h
  obtain ⟨j, hj⟩ := h.within.next hf.1
  rw [wp_bind, wp_next]
  exact hk _ (hj ▸ hf.2 j) _ ((kept_within f).next h.within) s.slot_next h.peek

theorem peek_bind {k : Token → Procedure α} (hk : ∀ t, GoesSeen f t M L (k t)) :
    Goes f M L (Procedure.next >>= fun t => Procedure.pushBack >>= fun _ => k t) :=
  next_bind fun t => .pushBack_bind (hk t)

theorem expect_bind {k : Kind} {p : Procedure α} {g : Unit → Procedure α}
    (hp : Goes f (InFront row N) L p) :
    Goes f (InFront (.token k :: row) N) L
      (expect k >>= fun c => if c then p else recover n >>= g) := by
  refine next_bind (k := fun t => if decide (t.kind = k) then p else recover n >>= g) fun t => ?_
  split
  · next hk => exact .take (of_decide_eq_true hk) hp
  · next hk => exact .recover_bind _ leads_token (by simpa using hk)

theorem name_bind {p : Token → Procedure α} {g : Unit → Procedure α}
    (hp : ∀ t, Goes f (InFront row N) L (p t)) :
    Goes f (InFront (.token .identifier :: row) N) L
      (Procedure.next >>= fun t => if t.kind = .identifier then p t else recover n >>= g) := by
  refine next_bind fun t => ?_
  split
  · next hk => exact .take hk (hp t)
  · next hk => exact .recover_bind _ leads_token (by simpa using hk)

end Goes

theorem GoesPast.read (p : Phrase) : GoesPast f p.followKinds (.of p.variable) (Procedure.read p) :=
  fun _ hL _ h => ⟨trivial, fun _ _ hpost => hpost _ hL (.inr h)⟩

/-- A variable with one alternative is its row. -/
theorem GoesPast.of_row {v : Variable} {q : Procedure α} (hv : alternatives v = [row])
    (hq : ∀ L, Leads L ks → Goes f (InFront row L) L q) : GoesPast f ks (.of v) q := by
  intro L hL
  rw [inFront_of, hv, choice_single]
  exact hq L hL

theorem GoesPast.of_choice {v : Variable} {q : Procedure α}
    (hq : ∀ L, Leads L ks → Goes f (Choice (alternatives v) L) L q) : GoesPast f ks (.of v) q := by
  intro L hL
  rw [inFront_of]
  exact hq L hL

/-- A list goes on behind the separator, and ends in front of anything else. -/
theorem GoesPast.of_separated {v : Variable} {k : Kind} {a : α} {p : Procedure α}
    (hv : alternatives v = [[], .token k :: row]) (hks : k ∉ ks)
    (hp : ∀ L, Leads L ks → Goes f (InFront row L) L p) :
    GoesPast f ks (.of v)
      (expect k >>= fun c => if c then p else Procedure.pushBack >>= fun _ => .done a) := by
  refine .of_choice fun L hL => ?_
  rw [hv]
  refine .next_bind
    (k := fun t => if decide (t.kind = k) then p else Procedure.pushBack >>= fun _ => .done a)
    fun t => ?_
  by_cases hk : t.kind = k
  · rw [if_pos (decide_eq_true hk)]
    refine .choose (.token k :: row) hL (by simp) ?_ (.take hk (hp L hL))
    rintro alt (_ | ⟨_, _ | ⟨_, ⟨⟩⟩⟩)
    · exact .inr (by rwa [hk])
    · exact .inl rfl
  · rw [if_neg (by simpa using hk)]
    refine .choose [] hL (by simp) ?_ (.pushBack_bind (.of_goes .finish))
    rintro alt (_ | ⟨_, _ | ⟨_, ⟨⟩⟩⟩)
    · exact .inl rfl
    · exact .inr (by simpa [firstOfRow] using hk)

/-- A part of one token, which may be one of `js`. -/
theorem goes_oneOf {g : Kind → Option α} (js : List Kind)
    (hv : partAlternatives n = js.map fun k => [.token k]) (hg : ∀ k, (g k).isSome = true ↔ k ∈ js) :
    GoesPart f n (oneOf n g) := by
  refine .of_choice fun L hL => ?_
  rw [show alternatives (.part n) = _ from hv]
  refine .next_bind fun t => ?_
  split
  · next a ha =>
    have ht : t.kind ∈ js := (hg _).1 (by rw [ha]; rfl)
    refine .choose [.token t.kind] hL (List.mem_map_of_mem ht) ?_ (.take rfl .finish)
    intro alt halt
    obtain ⟨j, -, rfl⟩ := List.mem_map.1 halt
    by_cases hj : t.kind = j
    · exact .inl (by rw [hj])
    · exact .inr (by simpa [firstOfRow] using hj)
  · next hnone =>
    have hlead : Leads (Choice (js.map fun k => [.token k]) L) js := by
      refine hL.choice fun alt halt => ?_
      obtain ⟨j, hj, rfl⟩ := List.mem_map.1 halt
      simpa [firstOfRow] using hj
    refine .recover_bind _ hlead fun ht => ?_
    rw [← hg, hnone] at ht
    cases ht

theorem goes_addOp : GoesPart f .addOp addOp :=
  goes_oneOf [.plus, .minus, .orKw] rfl fun k => by cases k <;> decide

theorem goes_mulOp : GoesPart f .mulOp mulOp :=
  goes_oneOf [.star, .slash, .andKw] rfl fun k => by cases k <;> decide

theorem goes_relOp : GoesPart f .relOp relOp :=
  goes_oneOf Nonterminal.comparisons rfl fun k => by cases k <;> decide

theorem goes_scalarType : GoesPart f .scalarType scalarType :=
  goes_oneOf [.intKw, .floatKw, .charKw] rfl fun k => by cases k <;> decide

theorem Constant.isSome_ofToken? {t : Token} (ht : t.Valued)
    (hk : t.kind ∈ [Kind.intConst, .floatConst, .charConst]) : (Constant.ofToken? t).isSome = true := by
  simp only [List.mem_cons, List.not_mem_nil, or_false] at hk
  rcases hk with hk | hk | hk <;> simp only [Token.Valued, hk] at ht <;> obtain ⟨x, hx⟩ := ht <;>
    simp [Constant.ofToken?, hk, hx]

theorem goes_constant (hf : f.ConstantsValued) :
    GoesPart f .constant constant := by
  refine .of_choice fun L hL => .constant_bind hf fun t ht => ?_
  split
  · next c hc =>
    have hkind : t.kind = c.kind := (Constant.ofToken?_eq_some_iff.1 hc).1
    rcases c.kind_cases with hk | hk | hk <;> rw [hk] at hkind <;>
      exact .choose _ hL (by decide) (by rw [hkind]; decide) (.take hkind .finish)
  · next hnone =>
    refine .recover_bind [.intConst, .floatConst, .charConst] (hL.choice (by decide)) fun hk => ?_
    have := Constant.isSome_ofToken? (ht hk) hk
    rw [hnone] at this
    cases this

theorem goes_primary (hf : f.ConstantsValued) : GoesPart f .primary primary := by
  refine .of_choice fun L hL => .next_bind fun t => ?_
  split
  · next hk =>
    exact .choose [.token .identifier] hL (by decide) (by rw [hk]; decide) (.take hk .finish)
  iterate 3
    next hk =>
      exact .choose [.part .constant] hL (by decide) (by rw [hk]; decide)
        (.pushBack_bind (.of_goes (.last (goes_constant hf) hL)))
  · next hk =>
    exact .choose [.token .leftParen, .part .expression, .token .rightParen] hL (by decide)
      (by rw [hk]; decide)
      (.take hk (.step (.read .expression) (hL.inFront (by decide)) fun _ => .expect_bind .finish))
  · exact .recover_bind primaryHeads (hL.choice (by decide)) (by simp_all [primaryHeads])

/-- The sign leaves what it stands in front of. -/
theorem goes_sign (hL : Leads L ks) (hks : ks = Nonterminal.behindOperand) :
    Goes f (Choice (alternatives (.part .operand)) L) (InFront [.part .primary] L) sign := by
  subst hks
  refine .next_bind fun t => ?_
  split
  · next sg hsg =>
    have hk : t.kind = .notKw ∨ t.kind = .minus := by
      revert hsg
      cases t.kind <;> simp [Sign.ofKind?]
    rcases hk with hk | hk
    · exact .choose [.token .notKw, .part .primary] hL (by decide) (by rw [hk]; decide)
        (.take hk (.done sg))
    · exact .choose [.token .minus, .part .primary] hL (by decide) (by rw [hk]; decide)
        (.take hk (.done sg))
  · next hnone =>
    refine .pushBack_bind (.choose [.part .primary] hL (by decide) ?_ (.of_goes (.done _)))
    revert hnone
    cases t.kind <;> decide

theorem goes_operand (hf : f.ConstantsValued) : GoesPart f .operand operand :=
  .of_choice fun _ hL => .bind (goes_sign hL rfl) fun _ => .last (goes_primary hf) hL

theorem goes_termTail (hf : f.ConstantsValued) : GoesPart f .termTail termTail := by
  refine .of_choice fun L hL => .peek_bind fun t => ?_
  refine .optional MulOp.ofKind? [.part .mulOp, .part .operand, .part .termTail] hL
    (fun k => by cases k <;> decide) (fun k => by cases k <;> decide) (fun op hop => ?_) fun hnone => ?_
  · rw [hop]
    exact .step goes_mulOp (hL.inFront (by decide)) fun _ =>
      .step (goes_operand hf) (hL.inFront (by decide)) fun _ => .last (.read .termTail) hL
  · rw [hnone]
    exact .finish

theorem goes_term (hf : f.ConstantsValued) : GoesPart f .term term :=
  .of_row rfl fun _ hL => .step (goes_operand hf) (hL.inFront (by decide)) fun _ =>
    .last (.read .termTail) hL

theorem goes_simpleTail (hf : f.ConstantsValued) : GoesPart f .simpleTail simpleTail := by
  refine .of_choice fun L hL => .peek_bind fun t => ?_
  refine .optional AddOp.ofKind? [.part .addOp, .part .term, .part .simpleTail] hL
    (fun k => by cases k <;> decide) (fun k => by cases k <;> decide) (fun op hop => ?_) fun hnone => ?_
  · rw [hop]
    exact .step goes_addOp (hL.inFront (by decide)) fun _ =>
      .step (goes_term hf) (hL.inFront (by decide)) fun _ => .last (.read .simpleTail) hL
  · rw [hnone]
    exact .finish

theorem goes_simpleExpr (hf : f.ConstantsValued) : GoesPart f .simpleExpr simpleExpr :=
  .of_row rfl fun _ hL => .step (goes_term hf) (hL.inFront (by decide)) fun _ =>
    .last (.read .simpleTail) hL

theorem goes_expression (hf : f.ConstantsValued) : GoesPart f .expression expression := by
  refine .of_choice fun L hL => ?_
  rw [show alternatives (.part .expression) =
    [[], [.part .relOp, .part .simpleExpr]].map ([.part .simpleExpr] ++ ·) from rfl, choice_append]
  refine .bind (goes_simpleExpr hf _ (hL.choice (by decide))) fun lhs => .peek_bind fun t => ?_
  refine .optional RelOp.ofKind? [.part .relOp, .part .simpleExpr] hL
    (fun k => by cases k <;> decide) (fun k => by cases k <;> decide) (fun op hop => ?_) fun hnone => ?_
  · rw [hop]
    exact .step goes_relOp (hL.inFront (by decide)) fun _ =>
      .last (goes_simpleExpr hf) (hL.mono (by decide))
  · rw [hnone]
    exact .finish

theorem goes_assignment (hf : f.ConstantsValued) : GoesPart f .assignment assignment :=
  .of_row rfl fun _ hL => .name_bind fun _ =>
    .expect_bind (.last (goes_simpleExpr hf) (hL.mono (by decide)))

theorem goes_condition : GoesPart f .condition condition :=
  .of_row rfl fun L hL => GoesPast.read .expression L (hL.mono (by decide))

/-- The two forms of a branch differ only behind the first block. -/
theorem goes_conditional : GoesPart f .conditional conditional := by
  refine .of_choice fun L hL => ?_
  rw [show alternatives (.part .conditional) =
    [[.token .endKw], [.token .elseKw, .part .statements, .token .endKw]].map
      ([.token .ifKw, .part .condition, .token .thenKw, .part .statements] ++ ·) from rfl, choice_append]
  have hbehind : Leads (Choice [[.token .endKw], [.token .elseKw, .part .statements, .token .endKw]] L)
      [.endKw, .elseKw] := hL.choice (by decide)
  refine .expect_bind (.step goes_condition (hbehind.inFront (by decide)) fun cond => .expect_bind ?_)
  refine .bind (GoesPast.read .statements _ (hbehind.mono (by decide))) fun b => .next_bind fun t => ?_
  split
  · next hk => exact .choose [.token .endKw] hL (by decide) (by rw [hk]; decide) (.take hk .finish)
  · next hk =>
    exact .choose [.token .elseKw, .part .statements, .token .endKw] hL (by decide)
      (by rw [hk]; decide)
      (.take hk (.step (.read .statements) (hL.inFront (by decide)) fun _ => .expect_bind .finish))
  · exact .recover_bind _ hbehind (by simp_all)

theorem goes_loopHead : GoesPart f .loopHead loopHead :=
  .of_row rfl fun _ hL => .expect_bind (.step goes_condition (hL.inFront (by decide)) fun _ =>
    .expect_bind .finish)

theorem goes_whileLoop : GoesPart f .whileLoop whileLoop :=
  .of_row rfl fun _ hL => .step goes_loopHead (hL.inFront (by decide)) fun _ =>
    .step (.read .statements) (hL.inFront (by decide)) fun _ => .expect_bind .finish

theorem goes_loopExit : GoesPart f .loopExit loopExit :=
  .of_row rfl fun _ hL => .expect_bind (.last goes_condition (hL.mono (by decide)))

theorem goes_repeatLoop : GoesPart f .repeatLoop repeatLoop :=
  .of_row rfl fun _ hL => .expect_bind (.step (.read .statements) (hL.inFront (by decide)) fun _ =>
    .last goes_loopExit hL)

theorem Goes.opening_bind {word : Kind} {p : Procedure (Option α)} (hp : Goes f (InFront row N) L p) :
    Goes f (InFront (.token word :: .token .leftParen :: row) N) L
      (opening word >>= fun c => if c then p else Procedure.fail n) := by
  rw [opening, bind_assoc]
  refine .next_bind (k := fun t => (if decide (t.kind = word) = true then _ else _) >>= _) fun t => ?_
  by_cases hk : t.kind = word
  · rw [if_pos (decide_eq_true hk)]
    exact .take hk (.expect_bind hp)
  · rw [if_neg (by simpa using hk)]
    exact .recover_bind _ leads_token (by simpa using hk)

theorem goes_reading : GoesPart f .reading reading :=
  .of_row rfl fun _ _ => .opening_bind (.name_bind fun _ => .expect_bind .finish)

theorem goes_writable (hf : f.ConstantsValued) : GoesPart f .writable writable := by
  refine .of_choice fun L hL => .next_bind fun t => ?_
  split
  · next hk =>
    exact .choose [.token .stringConst] hL (by decide) (by rw [hk]; decide) (.take hk .finish)
  iterate 7
    next hk =>
      exact .choose [.part .simpleExpr] hL (by decide) (by rw [hk]; decide)
        (.pushBack_bind (.of_goes (.last (goes_simpleExpr hf) (hL.mono (by decide)))))
  · exact .recover_bind (.stringConst :: simpleExprHeads) (hL.choice (by decide))
      (by simp_all [simpleExprHeads, primaryHeads])

theorem goes_writing (hf : f.ConstantsValued) : GoesPart f .writing writing :=
  .of_row rfl fun _ hL => .opening_bind (.step (goes_writable hf) (hL.inFront (by decide)) fun _ =>
    .expect_bind .finish)

theorem goes_statement (hf : f.ConstantsValued) : GoesPart f .statement statement := by
  refine .of_choice fun L hL => .peek_bind fun t => ?_
  split
  · next hk =>
    exact .choose [.part .assignment] hL (by decide) (by rw [hk]; decide)
      (.of_goes (goes_assignment hf L hL))
  · next hk =>
    exact .choose [.part .reading] hL (by decide) (by rw [hk]; decide) (.of_goes (goes_reading L hL))
  · next hk =>
    exact .choose [.part .writing] hL (by decide) (by rw [hk]; decide)
      (.of_goes (goes_writing hf L hL))
  · next hk =>
    exact .choose [.part .conditional] hL (by decide) (by rw [hk]; decide)
      (.of_goes (goes_conditional L hL))
  · next hk =>
    exact .choose [.part .whileLoop] hL (by decide) (by rw [hk]; decide)
      (.of_goes (goes_whileLoop L hL))
  · next hk =>
    exact .choose [.part .repeatLoop] hL (by decide) (by rw [hk]; decide)
      (.of_goes (goes_repeatLoop L hL))
  · exact .recover_bind (firstOfPart .statement) (hL.choice (by decide)) (by simp_all [firstOfPart])

theorem goes_moreStatements (hf : f.ConstantsValued) :
    GoesPast f Nonterminal.behindBlock (.of .moreStatements) moreStatements :=
  .of_separated rfl (by decide) fun _ hL => .step (goes_statement hf) (hL.inFront (by decide)) fun _ =>
    .last (.read .moreStatements) hL

theorem goes_statements (hf : f.ConstantsValued) : GoesPart f .statements statements :=
  .of_row rfl fun _ hL => .step (goes_statement hf) (hL.inFront (by decide)) fun _ =>
    .last (.read .moreStatements) hL

theorem goes_moreNames : GoesPast f [.semicolon, .eof] (.of .moreNames) moreNames :=
  .of_separated rfl (by decide) fun _ hL => .name_bind fun _ => .last (.read .moreNames) hL

theorem goes_names : GoesPart f .names names :=
  .of_row rfl fun _ hL => .name_bind fun _ => .last (.read .moreNames) hL

theorem goes_declaration : GoesPart f .declaration declaration :=
  .of_row rfl fun _ hL => .step goes_scalarType (hL.inFront (by decide)) fun _ => .last goes_names hL

theorem goes_declarationAndMore (hL : Leads L [.beginKw, .eof]) :
    Goes f (InFront [.part .declaration, .token .semicolon, .of .moreDeclarations] L) L
      declarationAndMore :=
  .step goes_declaration (hL.inFront (by decide)) fun _ =>
    .expect_bind (.last (.read .moreDeclarations) hL)

theorem goes_moreDeclarations :
    GoesPast f [.beginKw, .eof] (.of .moreDeclarations) moreDeclarations := by
  refine .of_choice fun L hL => .peek_bind fun t => ?_
  refine .optional ScalarType.ofKind? [.part .declaration, .token .semicolon, .of .moreDeclarations] hL
    (fun k => by cases k <;> decide) (fun k => by cases k <;> decide)
    (fun type htype => ?_) fun hnone => ?_
  · rw [htype]
    exact goes_declarationAndMore hL
  · rw [hnone]
    exact .finish

theorem goes_declarations : GoesPart f .declarations declarations :=
  .of_row rfl fun _ hL => .expect_bind (goes_declarationAndMore hL)

/-- Anything but the first word of the statements begins the declarations, or is rejected there. -/
theorem goes_declSection (hL : Leads L ks) :
    Goes f (Choice (alternatives (.part .body)) L)
      (InFront [.token .beginKw, .part .statements, .token .endKw] L) declSection := by
  refine .peek_bind fun t => ?_
  split
  · next hk =>
    refine .choose [.token .beginKw, .part .statements, .token .endKw] hL (by decide) ?_
      (.of_goes (.done _))
    rw [hk]
    simp [alternatives, partAlternatives, firstOfRow, first, firstOfPart, nullable]
  · next hk =>
    refine .choose [.part .declarations, .token .beginKw, .part .statements, .token .endKw] hL
      (by decide) ?_ (.of_goes (.step goes_declarations (leads_token.mono (by decide)) fun ds => ?_))
    · simpa [alternatives, partAlternatives, firstOfRow] using hk
    · split <;> exact .done _

theorem goes_body : GoesPart f .body body :=
  .of_choice fun _ hL => .bind (goes_declSection hL) fun _ =>
    .expect_bind (.step (.read .statements) (leads_token.mono (by decide)) fun _ => .expect_bind .finish)

theorem goes_program : GoesPart f .program program := by
  refine .of_row rfl fun L hL => .expect_bind (.bind (goes_body L hL) fun b => .peek_bind fun t => ?_)
  split
  · exact .of_goes (.done _)
  · next hk => exact .note_bind (.recover_bind _ hL (by simpa [Nonterminal.followKinds] using hk))

theorem goes_phrase (hf : f.ConstantsValued) (p : Phrase) :
    GoesPast f p.followKinds (.of p.variable) p.procedure := by
  cases p with
  | expression => exact goes_expression hf
  | simpleTail => exact goes_simpleTail hf
  | termTail => exact goes_termTail hf
  | statements => exact goes_statements hf
  | moreStatements => exact goes_moreStatements hf
  | moreNames => exact goes_moreNames
  | moreDeclarations => exact goes_moreDeclarations

theorem reaching_phrase (hf : f.ConstantsValued) (p : Phrase) (s : Cursor) :
    p.procedure.wp (reaching f) ((reaching f).post p s) s := by
  refine wp_forall (fun _ _ => trivial) _ fun L => ?_
  refine wp_forall (fun _ _ => trivial) _ fun hL => ?_
  exact wp_forall (fun _ _ => trivial) _ fun h => wp_ahead (goes_phrase hf p L hL) h

end

/-! ### The whole run -/

namespace Cursor
variable {f : Feed}

/-- Before anything is drawn, all programs may come. -/
theorem awaits_ofFeed (hf : f.drawn = #[]) :
    (Cursor.ofFeed f).Awaits f (InFront [.part .program] fun w => w = []) where
  within := .ofFeed f hf
  clean := rfl
  sound := by
    rintro w ⟨u, _, rfl, hu, rfl⟩
    simpa [kinds, consumed, Cursor.ofFeed, hf, visible] using isProgram_iff.2 hu
  complete := by
    intro w hw _
    refine ⟨w, [], (List.append_nil w).symm, isProgram_iff.1 ?_, rfl⟩
    simpa [kinds, consumed, Cursor.ofFeed, hf, visible] using hw
  inhabited := exists_inFront.2 ⟨[], rfl⟩

end Cursor

theorem parse_ahead {f : Feed} (hf : f.ConstantsValued) :
    (parse f).cursor.Ahead f fun w => w = [] := by
  have hlead : Leads (fun w => w = []) (Nonterminal.followKinds .program) := by
    rintro _ rfl
    exact List.mem_singleton_self _
  exact Nonterminal.program.post_parse (fun p s _ => reaching_phrase hf p s)
    (goes_program _ hlead _ (awaits_ofFeed hf.1))

/-- A cursor that has stopped has reported the first of its valid tokens behind which, with those
before it, no program goes on. -/
theorem Cursor.Stopped.least {s : Cursor} (h : s.Stopped) :
    ∃ i t, (visible s.feed.drawn.toList)[i]? = some t ∧
      (∀ m ≤ i, Viable (((visible s.feed.drawn.toList).take m).map Token.kind)) ∧
      ¬ Viable (((visible s.feed.drawn.toList).take (i + 1)).map Token.kind) ∧
      firstUnexpected s.diagnostics.toList = some ⟨.unexpected, t.position⟩ := by
  obtain ⟨ts, t, ⟨us, hus⟩, hviable, hnot, hfirst⟩ := h
  rw [← hus, List.append_assoc]
  refine ⟨ts.length, t, by simp, fun m hm => ?_, ?_, hfirst⟩
  · rw [List.take_append_of_le_length hm]
    exact hviable.mono ((List.take_prefix m ts).map _)
  · rwa [← List.append_assoc, List.take_append_of_le_length (by simp), List.take_of_length_le (by simp)]

/-- Let the input be the valid tokens up to the first end. A program is parsed without a report of an
unexpected token. Otherwise the first such report is at the least token of the input that, with those
before it, begins no program. -/
theorem first_unexpected_not_viable (f : Feed) (hf : f.drawn = #[])
    (hconst : ∀ i, (f.upcoming i).kind ∈ [.intConst, .floatConst, .charConst] →
      (f.upcoming i).Valued) :
    ∃ n, (f.upcoming n).kind = .eof ∧ (∀ j < n, (f.upcoming j).kind ≠ .eof) ∧
      (IsProgram ((visible (f.take n)).map Token.kind) →
        ∀ d ∈ (parse f).diagnostics, d.fault ≠ .unexpected) ∧
      (¬ IsProgram ((visible (f.take n)).map Token.kind) →
        ∃ i t, (visible (f.take (n + 1)))[i]? = some t ∧
          (∀ m ≤ i, Viable (((visible (f.take (n + 1))).take m).map Token.kind)) ∧
          ¬ Viable (((visible (f.take (n + 1))).take (i + 1)).map Token.kind) ∧
          firstUnexpected (parse f).diagnostics = some ⟨.unexpected, t.position⟩) := by
  obtain ⟨hr, hend⟩ := parse_ready_atEnd hf
  obtain ⟨hk, hbefore, htake, hdrawn⟩ := hend.first_end hf (parse_on f) hr
  have hconsumed : f.take (parse f).cursor.consumed.length = (parse f).cursor.consumed := by
    rw [htake, Feed.take_add] at hdrawn
    exact (List.append_inj hdrawn (f.length_take _)).1
  refine ⟨_, hk, hbefore, ?_⟩
  rw [hconsumed]
  rcases parse_ahead ⟨hf, hconst⟩ with hstop | hawait
  · refine ⟨fun hprog => ?_, fun _ => htake ▸ hstop.least⟩
    -- the valid tokens drawn are a program and its end, so a program begins with any prefix of them
    obtain ⟨ts, t, hpre, -, hnot, -⟩ := hstop
    refine absurd ⟨_, hprog, ?_⟩ hnot
    have heof : visible [f.upcoming (parse f).cursor.consumed.length] = [f.upcoming _] :=
      visible_singleton (by rw [hk]; decide)
    rw [hdrawn, visible_append, heof] at hpre
    simpa [hk] using hpre.map Token.kind
  · refine ⟨fun _ d hd => ?_, fun hnot => absurd ?_ hnot⟩
    · simpa using List.find?_eq_none.1 hawait.clean d hd
    · simpa [kinds] using hawait.sound [] rfl

/-- Five tokens begin a program, and behind them none goes on with the parenthesis. -/
theorem first_unexpected_parenthesis :
    let f := Feed.ofTokens [⟨.routineKw, ⟨1, 1⟩, none⟩, ⟨.beginKw, ⟨1, 9⟩, none⟩,
      ⟨.identifier, ⟨1, 15⟩, some (.name "x")⟩, ⟨.assign, ⟨1, 17⟩, none⟩,
      ⟨.intConst, ⟨1, 20⟩, some (.int 1)⟩, ⟨.rightParen, ⟨1, 22⟩, none⟩, ⟨.endKw, ⟨1, 24⟩, none⟩]
    f.drawn = #[] ∧
      (∀ i, (f.upcoming i).kind ∈ [.intConst, .floatConst, .charConst] → (f.upcoming i).Valued) ∧
      firstUnexpected (parse f).diagnostics = some ⟨.unexpected, ⟨1, 22⟩⟩ ∧
      Viable [.routineKw, .beginKw, .identifier, .assign, .intConst] ∧
      ¬ Viable [.routineKw, .beginKw, .identifier, .assign, .intConst, .rightParen] := by
  intro f
  have hvalued : ∀ i, (f.upcoming i).kind ∈ [.intConst, .floatConst, .charConst] →
      (f.upcoming i).Valued := fun i _ => Feed.valued_ofTokens (by simp [Token.Valued]) i
  have hreport : firstUnexpected (parse f).diagnostics = some ⟨.unexpected, ⟨1, 22⟩⟩ := by
    decide +kernel
  obtain ⟨n, hk, hbefore, hclean, hfirst⟩ := first_unexpected_not_viable f rfl hvalued
  have hn : n = 7 := first_unique (P := fun j => (f.upcoming j).kind = .eof) hk hbefore
    (by decide +kernel) (by decide +kernel)
  subst hn
  obtain ⟨i, t, ht, hviable, hnot, hreported⟩ := hfirst fun hprogram =>
    absurd rfl (hclean hprogram _ (List.mem_of_find?_eq_some hreport))
  -- the positions differ, so the report tells which token it is
  have hi : i = 5 := by
    have hposition : t.position = ⟨1, 22⟩ := by
      rw [hreport] at hreported
      exact (congrArg Diagnostic.position (Option.some.inj hreported)).symm
    have hget : ((visible (f.take 8))[i]?.map Token.position) = some ⟨1, 22⟩ := by
      rw [ht, Option.map_some, hposition]
    have hlt : i < (visible (f.take 8)).length := (List.getElem?_eq_some_iff.1 ht).1
    have hall : ∀ j < (visible (f.take 8)).length,
        ((visible (f.take 8))[j]?.map Token.position) = some ⟨1, 22⟩ → j = 5 := by decide +kernel
    exact hall i hlt hget
  subst hi
  exact ⟨rfl, hvalued, hreport, hviable 5 (Nat.le_refl 5), hnot⟩

end Routine
