import Mathlib.Data.List.Nodup
import Routine.Proofs.Lookahead
import Routine.Proofs.Reports

/-!
# Tokens that are reported again

A part with a fault ends in front of a token of its follow set, which may be the very token at which
the fault was. Whatever reads on there meets a token that has been reported already. `Renews` bounds
the kinds of such tokens, and `Guards` carries the bound through a procedure: an operator, the word of
a statement or a name that stands there is accepted by what is read next, so only what may come behind
a simple expression is rejected again. Of each kind that may come there some token is, in some text
(`unexpected_nodup_iff`).
-/

namespace Routine

open Cursor Procedure Production Nonterminal

/-- The places of the tokens that were reported as unexpected, in the order of the reports. -/
def Parse.unexpected (p : Parse) : List Position :=
  (p.diagnostics.filter fun d => d.fault = .unexpected).map Diagnostic.position

theorem Position.lt_irrefl (p : Position) : ¬ p < p := by
  rw [lt_iff]
  omega

/-- Behind an end of the text there are only ends. -/
theorem Feed.take_ended {f : Feed} {scan : Scan} (hf : f.source = .text scan) (n : Nat) :
    (f.take n).Pairwise fun t u => t.kind = .eof → u.kind = .eof := by
  induction n generalizing f scan with
  | zero => exact .nil
  | succ n ih =>
    obtain ⟨hfirst, hsource⟩ := next_of_text hf
    refine List.pairwise_cons.2 ⟨fun u hu hend => ?_, ih hsource⟩
    rw [hfirst] at hend
    rw [Scan.next_of_eof hend] at hsource
    obtain ⟨i, -, rfl⟩ := mem_take hu
    rw [upcoming_end hsource]

namespace Cursor
variable {source : String} {s s' : Cursor} {t : Token} {ks ls : List Kind}

/-- If the token to come has been reported already, it is of one of the kinds. -/
def Renews (ks : List Kind) (s : Cursor) : Prop :=
  ⟨.unexpected, s.next.1.position⟩ ∈ s.diagnostics.toList → s.next.1.kind ∈ ks

/-- The cursor stands in the text, and a token that has been reported twice could come behind a simple
expression. -/
structure Sparing (source : String) (s : Cursor) : Prop where
  ordered : s.Ordered
  on : s.On (.ofString source)
  once : ∀ p, 1 < s.diagnostics.toList.count ⟨.unexpected, p⟩ →
    ∃ t ∈ s.feed.drawn.toList, t.position = p ∧ t.kind ∈ behindSimpleExpr

theorem kept_drawn (ts : List Token) : Kept fun s => ts <+: s.feed.drawn.toList where
  next := by
    intro s h
    obtain ⟨n, hn⟩ := s.feed_next
    rw [hn, Feed.toList_drawn_drop]
    exact h.trans (List.prefix_append ..)
  pushBack {s} h := by rwa [s.feed_pushBack]
  reject h := h
  note _ h := h

/-- Nothing is rejected on the way from one cursor to another. -/
abbrev Quiet (s s' : Cursor) : Prop := Accounts (fun _ => False) s s'

theorem Quiet.count_eq (h : Quiet s s') (p : Position) :
    s'.diagnostics.toList.count ⟨.unexpected, p⟩ = s.diagnostics.toList.count ⟨.unexpected, p⟩ := by
  obtain ⟨ds, hds⟩ := h.kept
  have hnone : ⟨.unexpected, p⟩ ∉ ds := by
    intro hmem
    obtain ⟨i, hi⟩ := List.mem_iff_getElem?.1 hmem
    have hat : s'.diagnostics[s.diagnostics.size + i]? = some ⟨.unexpected, p⟩ := by
      rw [← Array.getElem?_toList, ← hds, List.getElem?_append_right (by simp)]
      simpa using hi
    obtain ⟨r, hr, -⟩ := h.rejected _ _ (Nat.le_add_right ..) hat rfl
    exact hr
  rw [← hds, List.count_append, List.count_eq_zero.2 hnone, Nat.add_zero]

theorem Quiet.mem_iff (h : Quiet s s') (p : Position) :
    ⟨.unexpected, p⟩ ∈ s'.diagnostics.toList ↔ ⟨.unexpected, p⟩ ∈ s.diagnostics.toList := by
  rw [← List.count_pos_iff, ← List.count_pos_iff, h.count_eq]

namespace Sparing

theorem of_quiet (h : s.Sparing source) (hquiet : Quiet s s') (hordered : s'.Ordered)
    (hon : s'.On (.ofString source)) (hdrawn : s.feed.drawn.toList <+: s'.feed.drawn.toList) :
    s'.Sparing source := by
  refine ⟨hordered, hon, fun p hp => ?_⟩
  rw [hquiet.count_eq] at hp
  obtain ⟨t, ht, hat⟩ := h.once p hp
  exact ⟨t, hdrawn.subset ht, hat⟩

theorem ofString (source : String) : (ofFeed (.ofString source)).Sparing source :=
  ⟨ordered_ofString source, .ofFeed _, fun p hp => by simp [ofFeed] at hp⟩

theorem next (h : s.Sparing source) : s.next.2.Sparing source :=
  h.of_quiet (.next s) h.ordered.next ((kept_on _).next h.on) ((kept_drawn _).next (List.prefix_refl _))

theorem pushBack (h : s.Sparing source) : s.pushBack.Sparing source :=
  h.of_quiet (.pushBack s) h.ordered.pushBack ((kept_on _).pushBack h.on)
    ((kept_drawn _).pushBack (List.prefix_refl _))

theorem note (h : s.Sparing source) (e : Event) : (s.note e).Sparing source :=
  h.of_quiet (.note s e) (kept_ordered.note e h.ordered) h.on (List.prefix_refl _)

theorem synchronize (h : s.Sparing source) (stop : KindSet) : (s.synchronize stop).Sparing source :=
  h.of_quiet (.synchronize stop s) (kept_ordered.synchronize stop h.ordered)
    ((kept_on _).synchronize stop h.on) ((kept_drawn _).synchronize stop (List.prefix_refl _))

/-- A token is rejected for the first time, or it could come behind a simple expression. -/
theorem reject (h : s.Sparing source) (hs : s.slot = .taken t ∨ s.slot = .pending t)
    (ht : ⟨.unexpected, t.position⟩ ∈ s.diagnostics.toList → t.kind ∈ behindSimpleExpr) :
    s.reject.Sparing source := by
  refine ⟨h.ordered.reject, h.on, fun p hp => ?_⟩
  have hdiag : s.reject.diagnostics.toList = s.diagnostics.toList ++ [⟨.unexpected, t.position⟩] := by
    rw [← h.ordered.linked.position hs]
    exact Array.toList_push
  rw [hdiag, List.count_append, List.count_singleton] at hp
  by_cases hat : p = t.position
  · subst hat
    have hmem : t ∈ s.feed.drawn.toList := by
      rcases hs with hs | hs
      · obtain ⟨-, us, hus⟩ := h.ordered.linked.drawn_of_taken hs
        simp [hus]
      · simp [(h.ordered.linked.drawn_of_pending hs).2]
    refine ⟨t, hmem, rfl, ht (List.count_pos_iff.1 ?_)⟩
    rw [if_pos (by simp)] at hp
    omega
  · rw [if_neg (by simpa using Ne.symm hat)] at hp
    exact h.once p hp

/-- Only an end is drawn at a place where something has been reported. -/
theorem renews_of_taken (h : s.Sparing source) (hs : s.slot = .taken t) : s.Renews [.eof] := by
  intro hmem
  obtain ⟨-, us, hus⟩ := h.ordered.linked.drawn_of_taken hs
  obtain ⟨bad, -, htake, -⟩ := s.fetch_spec
  obtain ⟨hdrawn, hfeed⟩ := h.on.drawn rfl
  have hnext : s.next.1 = s.fetch.1 := by rw [next_of_not_pending (by simp [hs])]
  rw [hnext] at hmem ⊢
  have hall : (Feed.ofString source).take (s.feed.pulls + (bad.length + 1)) =
      us ++ [t] ++ (bad ++ [s.fetch.1]) := by
    rw [Feed.take_add, ← hdrawn, ← hfeed, htake, hus]
  have hbehind : ∀ {R : Token → Token → Prop}, (us ++ [t] ++ (bad ++ [s.fetch.1])).Pairwise R →
      R t s.fetch.1 := fun hR => (List.pairwise_append.1 hR).2.2 _ (by simp) _ (by simp)
  have hlt := (hbehind (hall ▸ (Feed.take_sorted (f := .ofString source) rfl _).2)).2
  have hend := hbehind (hall ▸ Feed.take_ended (f := .ofString source) rfl _)
  by_cases hkind : t.kind = .eof
  · rw [hend hkind]
    exact List.mem_singleton_self _
  · have hle := h.ordered.bound _ hmem
    rw [h.ordered.linked.position (.inl hs)] at hle
    exact absurd (Position.lt_of_lt_of_le (hlt hkind) hle) (Position.lt_irrefl _)

end Sparing

end Cursor

namespace Phrase

/-- The kinds of the tokens that a phrase can begin with although they have been reported. -/
def entry : Phrase → List Kind
  | termTail => behindOperand
  | simpleTail => behindTerm
  | statements => behindLoopHead ++ behindSimpleExpr
  | expression | moreStatements | moreNames | moreDeclarations => behindSimpleExpr

/-- The kinds of the tokens that can be next behind a phrase although they have been reported. -/
def exit : Phrase → List Kind
  | termTail => behindTerm
  | moreDeclarations => .beginKw :: behindSimpleExpr
  | expression | simpleTail | statements | moreStatements | moreNames => behindSimpleExpr

end Phrase

/-- A phrase rejects no token that has been reported, those aside that could come behind a simple
expression. -/
def sparing (source : String) : Contract where
  pre p s := s.Sparing source ∧ s.Renews p.entry
  post p _ _ s' := s'.Sparing source ∧ s'.Renews p.exit

section
variable {α β : Type} {source : String} {ks ks' ls ls' ms : List Kind} {t : Token} {n : Nonterminal}

/-- Where a token that has been reported is next only if it is of `ks`, the procedure leaves one only
if it is of `ls`. -/
def Guards (source : String) (ks ls : List Kind) (q : Procedure α) : Prop :=
  ∀ s, s.Sparing source → s.Renews ks →
    q.wp (sparing source) (fun _ s' => s'.Sparing source ∧ s'.Renews ls) s

/-- As `Guards`, behind the token `t`. -/
def GuardsHeld (source : String) (t : Token) (ks ls : List Kind) (q : Procedure α) : Prop :=
  ∀ s, s.Sparing source → s.slot = .taken t →
    (⟨.unexpected, t.position⟩ ∈ s.diagnostics.toList → t.kind ∈ ks) →
    q.wp (sparing source) (fun _ s' => s'.Sparing source ∧ s'.Renews ls) s

/-- As `Guards`, in front of the token `t`, which has been seen and handed back. -/
def GuardsSeen (source : String) (t : Token) (ks ls : List Kind) (q : Procedure α) : Prop :=
  ∀ s, s.Sparing source → s.slot = .pending t →
    (⟨.unexpected, t.position⟩ ∈ s.diagnostics.toList → t.kind ∈ ks) →
    q.wp (sparing source) (fun _ s' => s'.Sparing source ∧ s'.Renews ls) s

namespace Guards

theorem mono {q : Procedure α} (hq : Guards source ks ls q) (hks : ks' ⊆ ks) (hls : ls ⊆ ls') :
    Guards source ks' ls' q := by
  intro s hs hr
  refine wp_mono ?_ _ (hq s hs fun hmem => hks (hr hmem))
  rintro a s' ⟨hs', hr'⟩
  exact ⟨hs', fun hmem => hls (hr' hmem)⟩

theorem done {a : α} (h : ks ⊆ ls) : Guards source ks ls (.done a) :=
  fun _ hs hr => ⟨hs, fun hmem => h (hr hmem)⟩

theorem stay {a : α} : Guards source ks ks (.done a) := done (List.Subset.refl ks)

theorem bind {p : Procedure β} {k : β → Procedure α} (hp : Guards source ks ms p)
    (hk : ∀ b, Guards source ms ls (k b)) : Guards source ks ls (p >>= k) := by
  intro s hs hr
  rw [wp_bind]
  refine wp_mono ?_ _ (hp s hs hr)
  rintro b s' ⟨hs', hr'⟩
  exact hk b s' hs' hr'

theorem read (p : Phrase) : Guards source p.entry p.exit (Procedure.read p) :=
  fun _ hs hr => ⟨⟨hs, hr⟩, fun _ _ hpost => hpost⟩

theorem next_bind {k : Token → Procedure α} (hk : ∀ t, GuardsHeld source t ks ls (k t)) :
    Guards source ks ls (Procedure.next >>= k) := by
  intro s hs hr
  rw [wp_bind, wp_next]
  refine hk _ _ hs.next s.slot_next fun hmem => hr ?_
  rwa [Quiet.mem_iff (.next s)] at hmem

end Guards

namespace GuardsHeld

/-- A token that is accepted is not met again. -/
theorem take {q : Procedure α} (hq : Guards source behindSimpleExpr ls q) :
    GuardsHeld source t ks ls q := by
  intro s hs hslot _
  refine hq s hs fun hmem => ?_
  rw [List.mem_singleton.1 (hs.renews_of_taken hslot hmem)]
  decide

theorem pushBack_bind {q : Procedure α} (hq : GuardsSeen source t ks ls q) :
    GuardsHeld source t ks ls (Procedure.pushBack >>= fun _ => q) := by
  intro s hs hslot hr
  rw [wp_bind, wp_pushBack]
  refine hq _ hs.pushBack (slot_pushBack_of_taken hslot) fun hmem => hr ?_
  rwa [s.diagnostics_pushBack] at hmem

end GuardsHeld

theorem wp_recover_guards {s : Cursor} {k : Unit → Procedure α} (hs : s.Sparing source)
    (hslot : s.slot = .taken t ∨ s.slot = .pending t)
    (hr : ⟨.unexpected, t.position⟩ ∈ s.diagnostics.toList → t.kind ∈ behindSimpleExpr)
    (hk : Guards source n.followKinds ls (k ())) :
    (recover n >>= k).wp (sparing source) (fun _ s' => s'.Sparing source ∧ s'.Renews ls) s := by
  rw [wp_bind, wp_recover]
  refine hk _ ((hs.reject hslot hr).synchronize _) fun _ => ?_
  exact KindSet.contains_ofList.1 (contains_follow_synchronize n _)

namespace GuardsHeld

theorem recover_bind {k : Unit → Procedure α} (h : t.kind ∈ ks → t.kind ∈ behindSimpleExpr)
    (hk : Guards source n.followKinds ls (k ())) : GuardsHeld source t ks ls (recover n >>= k) :=
  fun _ hs hslot hr => wp_recover_guards hs (.inl hslot) (fun hmem => h (hr hmem)) hk

theorem fail (h : t.kind ∈ ks → t.kind ∈ behindSimpleExpr) (hn : n.followKinds ⊆ ls) :
    GuardsHeld source t ks ls (Procedure.fail n : Procedure (Option α)) :=
  recover_bind h (.done hn)

end GuardsHeld

namespace GuardsSeen

theorem of_guards {q : Procedure α} (h : t.kind ∈ ks → t.kind ∈ ms) (hq : Guards source ms ls q) :
    GuardsSeen source t ks ls q := by
  intro s hs hslot hr
  obtain ⟨hnext, -⟩ := next_pending hslot
  refine hq s hs fun hmem => ?_
  rw [hnext] at hmem ⊢
  exact h (hr hmem)

theorem recover_bind {k : Unit → Procedure α} (h : t.kind ∈ ks → t.kind ∈ behindSimpleExpr)
    (hk : Guards source n.followKinds ls (k ())) : GuardsSeen source t ks ls (recover n >>= k) :=
  fun _ hs hslot hr => wp_recover_guards hs (.inr hslot) (fun hmem => h (hr hmem)) hk

theorem note_bind {e : Event} {k : Unit → Procedure α} (hk : GuardsSeen source t ks ls (k ())) :
    GuardsSeen source t ks ls (Procedure.note e >>= k) :=
  fun s hs hslot hr => hk (s.note e) (hs.note e) hslot hr

/-- An operator that has been seen is accepted. -/
theorem oneOf_bind {f : Kind → Option β} {b : β} {k : Option β → Procedure α}
    (hb : f t.kind = some b) (hk : Guards source behindSimpleExpr ls (k (some b))) :
    GuardsSeen source t ks ls (oneOf n f >>= k) := by
  intro s hs hslot hr
  have hnext : s.next.1 = t := (next_pending hslot).1
  have htaken : s.next.2.slot = .taken t := by rw [slot_next, hnext]
  rw [oneOf, bind_assoc, wp_bind, wp_next, hnext, hb]
  refine GuardsHeld.take hk _ hs.next htaken fun hmem => hr ?_
  rwa [Quiet.mem_iff (.next s)] at hmem

end GuardsSeen

namespace Guards

/-- A token that is looked at and handed back. -/
theorem seen_bind {k : Token → Procedure α} (hk : ∀ t, GuardsSeen source t ks ls (k t)) :
    Guards source ks ls (Procedure.next >>= fun t => Procedure.pushBack >>= fun _ => k t) :=
  next_bind fun t => .pushBack_bind (hk t)

theorem peek_bind {k : Kind → Procedure α} (hk : ∀ t, GuardsSeen source t ks ls (k t.kind)) :
    Guards source ks ls (peek >>= k) :=
  seen_bind (k := fun t => k t.kind) hk

theorem expect_bind {k : Kind} {p q : Procedure α} (hp : Guards source behindSimpleExpr ls p)
    (hq : ∀ t, t.kind ≠ k → GuardsHeld source t ks ls q) :
    Guards source ks ls (expect k >>= fun c => if c then p else q) := by
  refine next_bind (k := fun t => if decide (t.kind = k) then p else q) fun t => ?_
  split
  · exact .take hp
  · next h => exact hq t (by simpa using h)

/-- The kind that is asked for may be that of a token which has been reported. -/
theorem expect_or_fail {k : Kind} {p : Procedure (Option α)} (hp : Guards source behindSimpleExpr ls p)
    (hn : n.followKinds ⊆ ls) :
    Guards source (k :: behindSimpleExpr) ls
      (expect k >>= fun c => if c then p else Procedure.fail n) :=
  .expect_bind hp fun _ ht => .fail (List.mem_of_ne_of_mem ht) hn

theorem name_or_fail {p : Token → Procedure (Option α)}
    (hp : ∀ t, Guards source behindSimpleExpr ls (p t)) (hn : n.followKinds ⊆ ls) :
    Guards source (.identifier :: behindSimpleExpr) ls
      (Procedure.next >>= fun t => if t.kind = .identifier then p t else Procedure.fail n) := by
  refine next_bind fun t => ?_
  split
  · exact .take (hp t)
  · next ht => exact .fail (List.mem_of_ne_of_mem ht) hn

theorem of_cons {k : Kind} {q : Procedure α} (hq : Guards source (k :: ks) ls q) :
    Guards source ks ls q :=
  hq.mono (List.subset_cons_self ..) (List.Subset.refl _)

end Guards

end

section
variable {source : String}

theorem behindSimpleExpr_subset_operand : behindSimpleExpr ⊆ behindOperand := by decide

theorem behindStatement_subset : behindStatement ⊆ behindSimpleExpr := by decide

theorem guards_constant : Guards source behindSimpleExpr behindOperand constant := by
  refine .next_bind fun t => ?_
  split
  · exact .take (.done behindSimpleExpr_subset_operand)
  · exact .fail id (List.Subset.refl _)

theorem guards_primary : Guards source behindSimpleExpr behindOperand primary := by
  refine .next_bind fun t => ?_
  split
  · exact .take (.done behindSimpleExpr_subset_operand)
  iterate 3
    exact .pushBack_bind (.of_guards id (guards_constant.bind fun _ => .stay))
  · refine .take ((Guards.read .expression).bind fun e => .expect_bind ?_ fun u _ => ?_)
    · exact .done behindSimpleExpr_subset_operand
    · exact .recover_bind id .stay
  · exact .fail id (List.Subset.refl _)

theorem guards_sign : Guards source behindSimpleExpr behindSimpleExpr sign := by
  refine .next_bind fun t => ?_
  split
  · exact .take .stay
  · exact .pushBack_bind (.of_guards id .stay)

theorem guards_operand : Guards source behindSimpleExpr behindOperand operand :=
  guards_sign.bind fun _ => guards_primary.bind fun _ => .stay

/-- A multiplicative operator at which an operand ended is accepted here. -/
theorem guards_termTail : Guards source behindOperand behindTerm termTail := by
  refine .seen_bind fun t => ?_
  split
  · next op hop =>
    exact .oneOf_bind hop (guards_operand.bind fun _ =>
      (Guards.read .termTail).bind fun _ => .stay)
  · next hnone =>
    have hrest : ∀ k ∈ behindOperand, MulOp.ofKind? k = none → k ∈ behindTerm := by decide
    exact .of_guards (fun ht => hrest _ ht hnone) .stay

theorem guards_term : Guards source behindSimpleExpr behindTerm term :=
  guards_operand.bind fun _ => (Guards.read .termTail).bind fun _ => .stay

/-- An additive operator at which a term ended is accepted here. -/
theorem guards_simpleTail : Guards source behindTerm behindSimpleExpr simpleTail := by
  refine .seen_bind fun t => ?_
  split
  · next op hop =>
    exact .oneOf_bind hop (guards_term.bind fun _ =>
      (Guards.read .simpleTail).bind fun _ => .stay)
  · next hnone =>
    have hrest : ∀ k ∈ behindTerm, AddOp.ofKind? k = none → k ∈ behindSimpleExpr := by decide
    exact .of_guards (fun ht => hrest _ ht hnone) .stay

theorem guards_simpleExpr : Guards source behindSimpleExpr behindSimpleExpr simpleExpr :=
  guards_term.bind fun _ => (Guards.read .simpleTail).bind fun _ => .stay

theorem guards_expression : Guards source behindSimpleExpr behindSimpleExpr expression := by
  refine guards_simpleExpr.bind fun lhs => .seen_bind fun t => ?_
  split
  · next op hop =>
    exact .oneOf_bind hop (guards_simpleExpr.bind fun _ => .stay)
  · exact .of_guards id .stay

theorem guards_condition : Guards source behindSimpleExpr behindSimpleExpr condition :=
  .read .expression

theorem guards_assignment :
    Guards source (.identifier :: behindSimpleExpr) behindSimpleExpr assignment :=
  .name_or_fail (fun _ => .of_cons (.expect_or_fail
    (guards_simpleExpr.bind fun _ => .stay) behindStatement_subset))
    behindStatement_subset

/-- Behind a token that has been accepted, a block begins as it likes. -/
theorem guards_block : Guards source behindSimpleExpr behindSimpleExpr (Procedure.read .statements) :=
  (Guards.read .statements).mono (List.subset_append_right ..) (List.Subset.refl _)

theorem guards_conditional :
    Guards source (.ifKw :: behindSimpleExpr) behindSimpleExpr conditional := by
  refine .expect_or_fail (guards_condition.bind fun cond => .of_cons (.expect_or_fail
    (guards_block.bind fun b => .next_bind fun t => ?_) behindStatement_subset)) behindStatement_subset
  split
  · exact .take .stay
  · exact .take (guards_block.bind fun b' => .of_cons (.expect_or_fail .stay behindStatement_subset))
  · exact .fail id behindStatement_subset

/-- Behind the head of a loop, a token that has been reported may begin a statement. -/
theorem guards_loopHead :
    Guards source (.whileKw :: behindSimpleExpr) (behindLoopHead ++ behindSimpleExpr) loopHead := by
  have hfollow : behindLoopHead ⊆ behindLoopHead ++ behindSimpleExpr := List.subset_append_left ..
  have hdone : behindSimpleExpr ⊆ behindLoopHead ++ behindSimpleExpr := List.subset_append_right ..
  exact .expect_or_fail (guards_condition.bind fun _ => .of_cons (.expect_or_fail (.done hdone) hfollow))
    hfollow

theorem guards_whileLoop :
    Guards source (.whileKw :: behindSimpleExpr) behindSimpleExpr whileLoop :=
  guards_loopHead.bind fun _ => (Guards.read .statements).bind fun _ =>
    .of_cons (.expect_or_fail .stay behindStatement_subset)

theorem guards_loopExit : Guards source behindSimpleExpr behindSimpleExpr loopExit :=
  .of_cons (.expect_or_fail (guards_condition.bind fun _ => .stay) behindStatement_subset)

theorem guards_repeatLoop :
    Guards source (.repeatKw :: behindSimpleExpr) behindSimpleExpr repeatLoop :=
  .expect_or_fail (guards_block.bind fun _ => guards_loopExit.bind fun _ => .stay)
    behindStatement_subset

theorem Guards.opening_bind {α : Type} {word : Kind} {n : Nonterminal} {p : Procedure (Option α)}
    {ls : List Kind} (hp : Guards source behindSimpleExpr ls p) (hn : n.followKinds ⊆ ls) :
    Guards source (word :: behindSimpleExpr) ls
      (opening word >>= fun c => if c then p else Procedure.fail n) := by
  rw [opening, bind_assoc]
  refine .next_bind fun t => ?_
  by_cases ht : t.kind = word
  · rw [decide_eq_true ht]
    exact .take (.of_cons (.expect_or_fail hp hn))
  · rw [decide_eq_false ht]
    exact .fail (List.mem_of_ne_of_mem ht) hn

theorem guards_reading : Guards source (.readKw :: behindSimpleExpr) behindSimpleExpr reading :=
  .opening_bind (.of_cons (.name_or_fail
    (fun _ => .of_cons (.expect_or_fail .stay behindStatement_subset)) behindStatement_subset))
    behindStatement_subset

theorem guards_writable : Guards source behindSimpleExpr behindSimpleExpr writable := by
  refine .next_bind fun t => ?_
  split
  · exact .take .stay
  iterate 7
    exact .pushBack_bind (.of_guards id (guards_simpleExpr.bind fun _ => .stay))
  · exact .fail id (by decide)

theorem guards_writing : Guards source (.writeKw :: behindSimpleExpr) behindSimpleExpr writing := by
  refine .opening_bind (guards_writable.bind fun w => .expect_bind .stay fun t _ => ?_)
    behindStatement_subset
  exact .recover_bind id (.done behindStatement_subset)

/-- A token that begins a statement is accepted by the form it stands for. -/
theorem guards_statement :
    Guards source (behindLoopHead ++ behindSimpleExpr) behindSimpleExpr statement := by
  refine .peek_bind fun t => ?_
  have hseen : ∀ {q : Procedure (Option Stmt)} {k : Kind}, t.kind = k →
      Guards source (k :: behindSimpleExpr) behindSimpleExpr q →
      GuardsSeen source t (behindLoopHead ++ behindSimpleExpr) behindSimpleExpr q := fun ht hq =>
    .of_guards (fun _ => ht ▸ List.mem_cons_self ..) hq
  split
  · next ht => exact hseen ht guards_assignment
  · next ht => exact hseen ht guards_reading
  · next ht => exact hseen ht guards_writing
  · next ht => exact hseen ht guards_conditional
  · next ht => exact hseen ht guards_whileLoop
  · next ht => exact hseen ht guards_repeatLoop
  · next hid hread hwrite hif hwhile hrepeat =>
    refine .recover_bind (fun hmem => ?_) (.done behindStatement_subset)
    rcases List.mem_append.1 hmem with hmem | hmem
    · simp only [behindLoopHead, List.mem_cons, List.not_mem_nil, or_false] at hmem
      rcases hmem with hk | hk | hk | hk | hk | hk | hk
      · exact (hid hk).elim
      · exact (hif hk).elim
      · exact (hwhile hk).elim
      · exact (hrepeat hk).elim
      · exact (hread hk).elim
      · exact (hwrite hk).elim
      · rw [hk]
        decide
    · exact hmem

theorem guards_moreStatements : Guards source behindSimpleExpr behindSimpleExpr moreStatements := by
  refine .expect_bind ?_ fun t _ => .pushBack_bind (.of_guards id .stay)
  exact (guards_statement.mono (List.subset_append_right ..) (List.Subset.refl _)).bind fun _ =>
    (Guards.read .moreStatements).bind fun _ => .stay

theorem guards_statements :
    Guards source (behindLoopHead ++ behindSimpleExpr) behindSimpleExpr statements :=
  guards_statement.bind fun _ => (Guards.read .moreStatements).bind fun _ => .stay

theorem guards_moreNames : Guards source behindSimpleExpr behindSimpleExpr moreNames :=
  .expect_bind (.of_cons (.name_or_fail
    (fun _ => (Guards.read .moreNames).bind fun _ => .stay) (by decide)))
    fun _ _ => .pushBack_bind (.of_guards id .stay)

/-- A name at which a type was missing is accepted here. -/
theorem guards_names : Guards source (.identifier :: behindSimpleExpr) behindSimpleExpr names :=
  .name_or_fail (fun _ => (Guards.read .moreNames).bind fun _ => .stay) (by decide)

theorem guards_scalarType :
    Guards source behindSimpleExpr (.identifier :: behindSimpleExpr) scalarType := by
  refine .next_bind fun t => ?_
  split
  · exact .take (.done (List.subset_cons_self ..))
  · exact .fail id (by decide)

theorem guards_declaration : Guards source behindSimpleExpr behindSimpleExpr declaration :=
  guards_scalarType.bind fun _ => guards_names.bind fun _ => .stay

theorem guards_declarationAndMore :
    Guards source behindSimpleExpr (.beginKw :: behindSimpleExpr) declarationAndMore :=
  guards_declaration.bind fun _ => .of_cons (.expect_or_fail
    ((Guards.read .moreDeclarations).bind fun _ => .stay) (by decide))

theorem guards_moreDeclarations :
    Guards source behindSimpleExpr (.beginKw :: behindSimpleExpr) moreDeclarations := by
  refine .peek_bind fun t => ?_
  split
  · exact .of_guards id guards_declarationAndMore
  · exact .of_guards id (.done (List.subset_cons_self ..))

theorem guards_declarations :
    Guards source behindSimpleExpr (.beginKw :: behindSimpleExpr) declarations :=
  .of_cons (.expect_or_fail guards_declarationAndMore (by decide))

theorem guards_declSection :
    Guards source behindSimpleExpr (.beginKw :: behindSimpleExpr) declSection := by
  refine .peek_bind fun t => ?_
  split
  · exact .of_guards id (.done (List.subset_cons_self ..))
  · refine .of_guards id (guards_declarations.bind fun ds => ?_)
    split
    · exact .stay
    · exact .stay

/-- The word at which the declarations were missing is accepted here. -/
theorem guards_body : Guards source behindSimpleExpr behindSimpleExpr body :=
  guards_declSection.bind fun _ => .expect_or_fail
    (guards_block.bind fun _ => .of_cons (.expect_or_fail .stay (by decide))) (by decide)

theorem guards_program : Guards source behindSimpleExpr behindSimpleExpr program := by
  refine .of_cons (.expect_or_fail (guards_body.bind fun b => .peek_bind fun t => ?_) (by decide))
  split
  · exact .of_guards id .stay
  · exact .note_bind (.recover_bind id (.done (by decide)))

end

theorem sparing_phrase {source : String} (p : Phrase) (s : Cursor) (h : (sparing source).pre p s) :
    p.procedure.wp (sparing source) ((sparing source).post p s) s := by
  obtain ⟨hs, hr⟩ := h
  cases p with
  | expression => exact guards_expression s hs hr
  | simpleTail => exact guards_simpleTail s hs hr
  | termTail => exact guards_termTail s hs hr
  | statements => exact guards_statements s hs hr
  | moreStatements => exact guards_moreStatements s hs hr
  | moreNames => exact guards_moreNames s hs hr
  | moreDeclarations => exact guards_moreDeclarations s hs hr

theorem parse_sparing (source : String) : (parse (.ofString source)).cursor.Sparing source := by
  have hnew : (ofFeed (.ofString source)).Renews behindSimpleExpr := by
    intro hmem
    simp [ofFeed] at hmem
  exact (Nonterminal.program.post_parse sparing_phrase
    (guards_program _ (.ofString source) hnew)).1

/-! ### Which tokens are reported again -/

theorem Parse.count_unexpected (o : Parse) (p : Position) :
    o.unexpected.count p = o.diagnostics.count ⟨.unexpected, p⟩ := by
  rw [unexpected, List.count, List.countP_map, List.countP_filter, List.count]
  refine List.countP_congr fun d _ => ?_
  obtain ⟨fault, position⟩ := d
  simp [and_comm]

/-- A text in which a token of the kind is reported twice, if one of the kind can be. No other token is
reported in it. -/
def repetition : Kind → String
  | .semicolon => "routine begin x := (; x := 1 end"
  | .endKw => "routine begin x := ( end"
  | .elseKw => "routine begin if x then x := ( else x := 1 end end"
  | .untilKw => "routine begin repeat x := ( until x end"
  | .thenKw => "routine begin if ( then x := 1 end end"
  | .doKw => "routine begin while ( do x := 1 end end"
  | .eof => "routine"
  | k => "routine begin x := " ++ k.label

theorem repetition_spec : ∀ k ∈ behindSimpleExpr,
    (∀ t ∈ (parse (.ofString (repetition k))).cursor.feed.drawn.toList,
      ⟨.unexpected, t.position⟩ ∈ (parse (.ofString (repetition k))).diagnostics → t.kind = k) ∧
      ¬ (parse (.ofString (repetition k))).unexpected.Nodup := by
  decide +kernel

/-- The tokens that are reported as unexpected are pairwise different, in every text in which only
tokens of the kinds `ks` are reported, exactly if none of the kinds is that of a token that could come
behind a simple expression. -/
theorem unexpected_nodup_iff (ks : List Kind) :
    (∀ source : String, (∀ t ∈ (parse (.ofString source)).cursor.feed.drawn.toList,
        ⟨.unexpected, t.position⟩ ∈ (parse (.ofString source)).diagnostics → t.kind ∈ ks) →
      (parse (.ofString source)).unexpected.Nodup) ↔
      ∀ k ∈ ks, k ∉ Nonterminal.simpleExpr.followKinds := by
  constructor
  · intro h k hk hbehind
    obtain ⟨honly, hdup⟩ := repetition_spec k hbehind
    refine hdup (h _ fun t ht hmem => ?_)
    rw [honly t ht hmem]
    exact hk
  · intro h source honly
    refine List.nodup_iff_count_le_one.2 fun p => Nat.le_of_not_lt fun hp => ?_
    rw [Parse.count_unexpected] at hp
    obtain ⟨t, ht, rfl, hkind⟩ := (parse_sparing source).once p hp
    have hmem : ⟨.unexpected, t.position⟩ ∈ (parse (.ofString source)).diagnostics :=
      List.count_pos_iff.1 (Nat.lt_of_succ_lt hp)
    exact h _ (honly t ht hmem) hkind

example : (parse (.ofString "routine begin x := (; y := 1 end")).unexpected =
    [⟨1, 21⟩, ⟨1, 21⟩] := by decide +kernel

end Routine
