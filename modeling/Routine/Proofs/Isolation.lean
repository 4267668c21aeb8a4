import Mathlib.Data.List.Forall2
import Routine.Proofs.Completeness
import Routine.Proofs.Recovery

/-!
# A fault stays in its statement

The tokens between two semicolons of a block are a segment. A segment is faulty if it departs from
the form that its first token asks for before anything in it could be nested; then its statement is
missing, the token at which it departs is the only one that is reported, and recovery ends at the
token behind the segment (`fails_statement`). A segment that spells a statement is read as that
statement. In both cases reading goes on behind the segment as if nothing had happened, so the
statements of a block are read segment by segment (`run_segments`).
-/

namespace Routine

open Cursor Procedure Production Nonterminal

/-- The kinds that have to come behind the first token of a statement, as far as the kind of that
token fixes them. There are none if no statement begins with a token of the kind. -/
def Kind.opening? : Kind → Option (List Kind)
  | .identifier => some [.assign]
  | .readKw => some [.leftParen, .identifier, .rightParen]
  | .writeKw => some [.leftParen]
  | .ifKw | .whileKw | .repeatKw => some []
  | _ => none

theorem Kind.opening?_cases {k : Kind} {ks : List Kind} (h : k.opening? = some ks) :
    (k = .identifier ∧ ks = [.assign]) ∨
      (k = .readKw ∧ ks = [.leftParen, .identifier, .rightParen]) ∨
      (k = .writeKw ∧ ks = [.leftParen]) ∨ ks = [] := by
  unfold opening? at h
  split at h <;> cases h <;> simp

/-- The first of the tokens that is not of the kind asked for in its place. -/
def departure? : List Kind → List Token → Option Token
  | k :: ks, t :: ts => if t.kind = k then departure? ks ts else some t
  | _, _ => none

/-- The statement holds no other statements. -/
def Stmt.isPlain : Stmt → Bool
  | .assign .. | .read .. | .write .. => true
  | .ifThen .. | .ifElse .. | .whileDo .. | .repeatUntil .. => false

/-- Tokens of a block between two that separate or enclose statements, and the second of these. -/
structure Segment where
  tokens : List Token
  behind : Token
deriving DecidableEq, Repr

namespace Segment

/-- The tokens of the segment and the one behind them. -/
def all (g : Segment) : List Token := g.tokens ++ [g.behind]

/-- No token of the segment is invalid, or could stand behind it. -/
def IsClosed (g : Segment) : Prop := ∀ t ∈ g.tokens, t.kind ≠ .invalid ∧ t.kind ∉ behindStatement

/-- The segment spells a statement without others in it, in which nothing is missing. -/
def Spells (g : Segment) (st : Stmt) : Prop :=
  st.isPlain = true ∧ st.gaps = 0 ∧ st.isRegular = true ∧ Spelled st.yield g.tokens

/-- The segment is empty, or does not begin as a statement does. -/
def isFaulty (g : Segment) : Bool :=
  match g.tokens with
  | [] => true
  | t :: ts =>
    match t.kind.opening? with
    | some ks => !ks.isPrefixOf (ts.map Token.kind)
    | none => true

/-- The first token that departs from the beginning of a statement; it may be the one behind. -/
def fault (g : Segment) : Token :=
  match g.tokens with
  | [] => g.behind
  | t :: ts =>
    match t.kind.opening? with
    | some ks => (departure? ks (ts ++ [g.behind])).getD g.behind
    | none => t

/-- What is reported of the segment. -/
def reports (g : Segment) : List Diagnostic :=
  if g.isFaulty then [⟨.unexpected, g.fault.position⟩] else []

end Segment

theorem Nonterminal.ne_invalid_of_mem_followKinds {k : Kind} (n : Nonterminal)
    (h : k ∈ n.followKinds) : k ≠ .invalid := by
  rintro rfl
  revert h
  cases n <;> decide

/-- The tokens are passed over in a recovery of the part. -/
def Dropped (n : Nonterminal) (ts : List Token) : Prop :=
  ∀ t ∈ ts, t.kind ≠ .invalid ∧ t.kind ∉ n.followKinds

namespace Dropped
variable {n : Nonterminal} {rest ts us : List Token} {t : Token}

theorem tail (h : Dropped n (t :: ts)) : Dropped n ts := fun u hu => h u (List.mem_cons_of_mem t hu)

/-- The first token to come is valid, whether it is passed over or stops the recovery. -/
theorem valid (hts : Dropped n ts) (hrest : Heads n.followKinds rest) (h : ts ++ rest = t :: us) :
    t.kind ≠ .invalid := by
  cases ts with
  | nil =>
    obtain rfl : rest = t :: us := h
    exact n.ne_invalid_of_mem_followKinds hrest
  | cons v ts =>
    obtain rfl : v = t := (List.cons.inj h).1
    exact (hts v (List.mem_cons_self ..)).1

end Dropped

namespace Cursor
variable {s s' : Cursor} {t u : Token} {ts us rest : List Token} {n : Nonterminal}

/-- A move over some tokens in which the diagnostics `ds` are added. -/
structure Adds (s : Cursor) (ds : List Diagnostic) (ts : List Token) (s' : Cursor) : Prop
    extends Moves s ts s' where
  linked : s'.Linked
  diagnostics : s'.diagnostics.toList = s.diagnostics.toList ++ ds

theorem Passes.adds (h : s.Passes ts s') : s.Adds [] ts s' :=
  ⟨h.toMoves, h.linked, by rw [h.diagnostics, List.append_nil]⟩

theorem Adds.trans {ds ds' : List Diagnostic} {s'' : Cursor} (h : s.Adds ds ts s')
    (h' : s'.Adds ds' us s'') : s.Adds (ds ++ ds') (ts ++ us) s'' :=
  ⟨h.toMoves.trans h'.toMoves, h'.linked, by rw [h'.diagnostics, h.diagnostics, List.append_assoc]⟩

/-- The token that would be handed out again is the one handed out last. -/
theorem eq_of_begins (hs : s.slot = .taken t) (hb : s.pushBack.Begins (u :: us)) : t = u :=
  (upcoming_of_pending (slot_pushBack_of_taken hs)).1.symm.trans (begins_cons hb)

/-- One token is dropped in recovery, and the one behind it is handed out. -/
theorem passes_drop (hl : s.Linked) (hs : s.slot = .taken t) (hb : s.pushBack.Begins (t :: u :: us))
    (hu : u.kind ≠ .invalid) :
    s.pushBack.Passes [t] (s.note (.skipped t.kind t.position)).fetch.2.pushBack := by
  have hpass : s.pushBack.Passes [t] (s.note (.skipped t.kind t.position)) :=
    ⟨(moves_of_taken hl hs).note _, hl.note _, (diagnostics_pushBack s).symm⟩
  have hb' : (s.note (.skipped t.kind t.position)).Begins (u :: us) :=
    hpass.begins_append_iff.1 hb
  obtain ⟨-, hdraw⟩ := hpass.linked.next_of_begins hb' hu
  have hpeek := hpass.linked.passes_peek (Nat.le_of_eq (congrArg Array.size hdraw.diagnostics))
  rw [next_of_not_pending (by simp [Cursor.note, hs])] at hpeek
  exact hpass.trans hpeek

/-- Tokens that do not stop recovery are passed over up to one that does. -/
theorem skip_passes (hl : s.Linked) (hs : s.slot = .taken t) (hb : s.pushBack.Begins (ts ++ rest))
    (hts : Dropped n ts) (hrest : Heads n.followKinds rest) (count : Nat) :
    s.pushBack.Passes ts (skip n.follow count t s).cursor.pushBack := by
  induction ts generalizing s t count with
  | nil =>
    obtain ⟨r, us, rfl, hr⟩ := hrest.cons
    obtain rfl := eq_of_begins hs hb
    have hstop : (n.follow.contains t.kind || decide (t.kind = .eof)) = true := by
      rw [Nonterminal.follow, KindSet.contains_ofList.2 hr, Bool.true_or]
    rw [skip, if_pos hstop]
    exact .refl hl.pushBack
  | cons v ts ih =>
    obtain rfl := eq_of_begins hs hb
    have hgo : ¬ (n.follow.contains t.kind || decide (t.kind = .eof)) = true := by
      rw [Bool.or_eq_true, Nonterminal.follow, KindSet.contains_ofList, decide_eq_true_eq]
      rintro (hmem | heq)
      · exact (hts t (List.mem_cons_self ..)).2 hmem
      · exact (hts t (List.mem_cons_self ..)).2 (heq ▸ n.eof_mem_followKinds)
    obtain ⟨u, us, hcons⟩ : ∃ u us, ts ++ rest = u :: us := by
      obtain ⟨r, us, rfl, -⟩ := hrest.cons
      cases ts with
      | nil => exact ⟨r, us, rfl⟩
      | cons u ts => exact ⟨u, ts ++ r :: us, rfl⟩
    have hb' : s.pushBack.Begins (t :: (ts ++ rest)) := hb
    have hdrop := passes_drop hl hs (hcons ▸ hb') (hts.tail.valid hrest hcons)
    rw [skip, if_neg hgo]
    have hskip := ih (Linked.fetch (s.note (.skipped t.kind t.position))) (slot_fetch _)
      (hdrop.begins_append_iff.1 hb) hts.tail (count + 1)
    exact hdrop.trans hskip

/-- Recovery from the token handed out last passes over what comes in front of its stop set. -/
theorem adds_recover (hl : s.Linked) (hs : s.slot = .taken t ∨ s.slot = .pending t)
    (hb : s.pushBack.Begins (ts ++ rest))
    (hts : Dropped n ts) (hrest : Heads n.followKinds rest) :
    s.pushBack.Adds [⟨.unexpected, t.position⟩] ts (s.reject.synchronize n.follow) := by
  have hpending : s.pushBack.slot = .pending t := by
    rcases hs with hs | hs
    · exact slot_pushBack_of_taken hs
    · rwa [pushBack_of_not_taken (by simp [hs])]
  have hback : s.reject.pushBack = s.pushBack.reject := pushBack_reject s
  have hl' : s.pushBack.reject.Linked := hl.pushBack.reject
  obtain ⟨hnext, -, hdiag⟩ := next_pending (s := s.pushBack.reject) hpending
  -- the token is handed out again before recovery looks at it
  have hpeek := hl'.passes_peek (Nat.le_of_eq (congrArg Array.size hdiag))
  have hslot : s.pushBack.reject.next.2.slot = .taken t := by rw [slot_next, hnext]
  have hskip := skip_passes (n := n) hl'.next hslot (hpeek.begins_append_iff.1 hb) hts hrest 0
  have hpass := hpeek.trans hskip
  rw [synchronize, hback, hnext]
  refine ⟨⟨hpass.consumed, hpass.begins, hpass.upcoming⟩, hpass.linked, ?_⟩
  have hposition : s.pushBack.position = t.position := hl.pushBack.position (.inr hpending)
  show (skip n.follow 0 t s.pushBack.reject.next.2).cursor.pushBack.diagnostics.toList = _
  rw [hpass.diagnostics, ← hposition]
  exact Array.toList_push

end Cursor

/-- In front of `rest`, the procedure comes to nothing over the tokens `ts`, for which it rejects the
token `u`. -/
def Fails {α : Type} (rest : List Token) (q : Procedure (Option α)) (u : Token) (ts : List Token) :
    Prop :=
  ∀ s, s.Linked → s.Begins (ts ++ rest) →
    q.wp completing (fun x s' => x = none ∧ s.Adds [⟨.unexpected, u.position⟩] ts s') s

namespace Fails
variable {α : Type} {n : Nonterminal} {rest ts us : List Token} {t u : Token}
  {k : Token → Procedure (Option α)} {p q : Procedure (Option α)}

/-- The token that comes first is the one that is rejected. -/
theorem next_fail (h : ts ++ rest = t :: us) (hk : k t = Procedure.fail n) (hts : Dropped n ts)
    (hrest : Heads n.followKinds rest) : Fails rest (Procedure.next >>= k) t ts := by
  intro s hl hb
  obtain ⟨hnext, hpass⟩ := hl.next_of_begins (h ▸ hb) (hts.valid hrest h)
  have hpeek := hl.passes_peek (Nat.le_of_eq (congrArg Array.size hpass.diagnostics))
  have hslot : s.next.2.slot = .taken t := by rw [slot_next, hnext]
  have hb' : s.next.2.pushBack.Begins (ts ++ rest) := hpeek.begins_append_iff.1 hb
  rw [wp_bind, wp_next, hnext, hk, wp_fail]
  exact ⟨rfl, hpeek.adds.trans (adds_recover hpass.linked (.inl hslot) hb' hts hrest)⟩

/-- The token that comes first is handed back before it is rejected. -/
theorem peek_fail (h : ts ++ rest = t :: us) (hk : k t = Procedure.fail n) (hts : Dropped n ts)
    (hrest : Heads n.followKinds rest) :
    Fails rest (Procedure.next >>= fun t => Procedure.pushBack >>= fun _ => k t) t ts := by
  intro s hl hb
  obtain ⟨hnext, hpass⟩ := hl.next_of_begins (h ▸ hb) (hts.valid hrest h)
  have hpeek := hl.passes_peek (Nat.le_of_eq (congrArg Array.size hpass.diagnostics))
  have hslot : s.next.2.pushBack.slot = .pending t :=
    slot_pushBack_of_taken (by rw [slot_next, hnext])
  have htwice : s.next.2.pushBack.pushBack = s.next.2.pushBack :=
    pushBack_of_not_taken (by simp [hslot])
  have hb' : s.next.2.pushBack.pushBack.Begins (ts ++ rest) := by
    rw [htwice]
    exact hpeek.begins_append_iff.1 hb
  have hadds := adds_recover hpeek.linked (.inr hslot) hb' hts hrest
  rw [htwice] at hadds
  rw [wp_bind, wp_next, hnext, wp_bind, wp_pushBack, hk, wp_fail]
  exact ⟨rfl, hpeek.adds.trans hadds⟩

theorem next_bind (ht : t.kind ≠ .invalid) (hk : Fails rest (k t) u ts) :
    Fails rest (Procedure.next >>= k) u (t :: ts) := by
  intro s hl hb
  obtain ⟨hnext, hpass⟩ := hl.next_of_begins hb ht
  have hb' : s.Begins ([t] ++ (ts ++ rest)) := hb
  rw [wp_bind, wp_next, hnext]
  refine wp_mono ?_ _ (hk _ hpass.linked (hpass.begins_append_iff.1 hb'))
  rintro x s₁ ⟨hx, hadds⟩
  exact ⟨hx, hpass.adds.trans hadds⟩

theorem peek_bind (h : ts ++ rest = t :: us) (ht : t.kind ≠ .invalid) (hk : Fails rest (k t) u ts) :
    Fails rest (Procedure.next >>= fun t => Procedure.pushBack >>= fun _ => k t) u ts := by
  intro s hl hb
  obtain ⟨hnext, hpass⟩ := hl.next_of_begins (h ▸ hb) ht
  have hpeek := hl.passes_peek (Nat.le_of_eq (congrArg Array.size hpass.diagnostics))
  rw [wp_bind, wp_next, hnext, wp_bind, wp_pushBack]
  refine wp_mono ?_ _ (hk _ hpeek.linked (hpeek.begins_append_iff.1 hb))
  rintro x s₁ ⟨hx, hadds⟩
  exact ⟨hx, hpeek.adds.trans hadds⟩

theorem expect_bind {j : Kind} (ht : t.kind = j) (hj : j ≠ .invalid) (hp : Fails rest p u ts) :
    Fails rest (expect j >>= fun c => if c then p else q) u (t :: ts) := by
  refine next_bind (k := fun u => if decide (u.kind = j) then p else q) (ht ▸ hj) ?_
  rwa [if_pos (decide_eq_true ht)]

theorem expect_fail {j : Kind} (h : ts ++ rest = t :: us) (ht : t.kind ≠ j) (hts : Dropped n ts)
    (hrest : Heads n.followKinds rest) :
    Fails rest (expect j >>= fun c => if c then p else Procedure.fail n) t ts := by
  refine next_fail (k := fun u => if decide (u.kind = j) then p else _) h ?_ hts hrest
  rw [if_neg (by simpa using ht)]

theorem name_bind {p : Token → Procedure (Option α)} (ht : t.kind = .identifier)
    (hp : Fails rest (p t) u ts) :
    Fails rest (Procedure.next >>= fun t => if t.kind = .identifier then p t else q) u (t :: ts) := by
  refine next_bind (by rw [ht]; decide) ?_
  rwa [if_pos ht]

theorem name_fail {p : Token → Procedure (Option α)} (h : ts ++ rest = t :: us)
    (ht : t.kind ≠ .identifier) (hts : Dropped n ts) (hrest : Heads n.followKinds rest) :
    Fails rest (Procedure.next >>= fun t => if t.kind = .identifier then p t else Procedure.fail n)
      t ts :=
  next_fail h (if_neg ht) hts hrest

/-- The word of a statement is there, so what fails is behind it. -/
theorem opening_bind {word : Kind} (ht : t.kind = word) (hword : word ≠ .invalid)
    (hp : Fails rest (expect .leftParen >>= fun c => if c then p else q) u ts) :
    Fails rest (opening word >>= fun c => if c then p else q) u (t :: ts) := by
  rw [opening, bind_assoc]
  refine next_bind (ht ▸ hword) ?_
  rw [decide_eq_true ht]
  exact hp

end Fails

/-! ### Faulty segments -/

/-- Tokens depart from the kinds asked for either at once or behind the first of them. -/
theorem departure?_cases {k : Kind} {ks : List Kind} {ts : List Token} {u : Token} (hu : u.kind ≠ k)
    (h : (k :: ks).isPrefixOf (ts.map Token.kind) = false) :
    (∃ v vs, ts ++ [u] = v :: vs ∧ v.kind ≠ k ∧ departure? (k :: ks) (ts ++ [u]) = some v) ∨
      ∃ v vs, ts = v :: vs ∧ v.kind = k ∧ ks.isPrefixOf (vs.map Token.kind) = false ∧
        departure? (k :: ks) (ts ++ [u]) = departure? ks (vs ++ [u]) := by
  cases ts with
  | nil => exact .inl ⟨u, [], rfl, hu, if_neg hu⟩
  | cons v vs =>
    by_cases hv : v.kind = k
    · refine .inr ⟨v, vs, rfl, hv, ?_, if_pos hv⟩
      simpa [List.isPrefixOf, hv] using h
    · exact .inl ⟨v, vs ++ [u], rfl, hv, if_neg hv⟩

section
variable {t u : Token} {ts us : List Token}

/-- The last of the kinds that are asked for is missing. -/
theorem fails_expect {α : Type} {n : Nonterminal} {k : Kind} {p : Procedure (Option α)}
    (hu : u.kind ∈ n.followKinds) (hk : k ∉ n.followKinds) (hts : Dropped n ts)
    (h : [k].isPrefixOf (ts.map Token.kind) = false) :
    Fails [u] (expect k >>= fun c => if c then p else Procedure.fail n)
      ((departure? [k] (ts ++ [u])).getD u) ts := by
  obtain ⟨v, vs, hcons, hv, hdep⟩ | ⟨v, vs, -, -, hnil, -⟩ :=
    departure?_cases (ne_of_mem_of_not_mem hu hk) h
  · rw [hdep]
    exact .expect_fail hcons hv hts hu
  · cases hnil

theorem fails_statement_head {rest : List Token} (h : ts ++ rest = t :: us)
    (ht : t.kind.opening? = none) (hts : Dropped .statement ts) (hrest : Heads behindStatement rest) :
    Fails rest statement t ts := by
  refine .peek_fail h ?_ hts hrest
  split
  iterate 6
    next hk =>
      rw [hk] at ht
      cases ht
  · rfl

theorem fails_assignment (hu : u.kind ∈ behindStatement) (ht : t.kind = .identifier)
    (hts : Dropped .assignment ts) (h : [Kind.assign].isPrefixOf (ts.map Token.kind) = false) :
    Fails [u] assignment ((departure? [.assign] (ts ++ [u])).getD u) (t :: ts) :=
  .name_bind ht (fails_expect hu (by decide) hts h)

theorem fails_writing (hu : u.kind ∈ behindStatement) (ht : t.kind = .writeKw)
    (hts : Dropped .writing ts) (h : [Kind.leftParen].isPrefixOf (ts.map Token.kind) = false) :
    Fails [u] writing ((departure? [.leftParen] (ts ++ [u])).getD u) (t :: ts) :=
  .opening_bind ht (by decide) (fails_expect hu (by decide) hts h)

theorem fails_reading (hu : u.kind ∈ behindStatement) (ht : t.kind = .readKw)
    (hts : Dropped .reading ts)
    (h : [Kind.leftParen, .identifier, .rightParen].isPrefixOf (ts.map Token.kind) = false) :
    Fails [u] reading
      ((departure? [.leftParen, .identifier, .rightParen] (ts ++ [u])).getD u) (t :: ts) := by
  have hparen : u.kind ≠ .leftParen := ne_of_mem_of_not_mem hu (by decide)
  have hname : u.kind ≠ .identifier := ne_of_mem_of_not_mem hu (by decide)
  refine .opening_bind ht (by decide) ?_
  -- the parenthesis, the name and the other parenthesis are asked for in turn
  obtain ⟨v, vs, hcons, hv, hdep⟩ | ⟨v, vs, rfl, hv, h, hdep⟩ :=
    departure?_cases hparen h <;> rw [hdep]
  · exact .expect_fail hcons hv hts hu
  refine .expect_bind hv (by decide) ?_
  obtain ⟨v, ws, hcons, hv, hdep⟩ | ⟨v, ws, rfl, hv, h, hdep⟩ :=
    departure?_cases hname h <;> rw [hdep]
  · exact .name_fail hcons hv hts.tail hu
  · exact .name_bind hv (fails_expect hu (by decide) hts.tail.tail h)

end

namespace Segment
variable {g : Segment} {st : Stmt}

/-- A faulty segment comes to no statement; one token of it is reported, and all are passed over. -/
theorem fails_statement (hg : g.IsClosed) (hbehind : g.behind.kind ∈ behindStatement)
    (hf : g.isFaulty = true) : Fails [g.behind] statement g.fault g.tokens := by
  obtain ⟨ts, u⟩ := g
  have hts : Dropped .statement ts := hg
  cases ts with
  | nil =>
    have hhead : ∀ k ∈ behindStatement, k.opening? = none := by decide
    exact fails_statement_head rfl (hhead _ hbehind) hts hbehind
  | cons t ts =>
    cases hopen : t.kind.opening? with
    | none =>
      simp only [fault, hopen]
      exact fails_statement_head rfl hopen hts hbehind
    | some ks =>
      have hvalid : t.kind ≠ .invalid := (hts t (List.mem_cons_self ..)).1
      have hks : ks.isPrefixOf (ts.map Token.kind) = false := by simpa [isFaulty, hopen] using hf
      simp only [fault, hopen]
      refine .peek_bind rfl hvalid ?_
      obtain ⟨hk, rfl⟩ | ⟨hk, rfl⟩ | ⟨hk, rfl⟩ | rfl := Kind.opening?_cases hopen
      · rw [hk]
        exact fails_assignment hbehind hk hts.tail hks
      · rw [hk]
        exact fails_reading hbehind hk hts.tail hks
      · rw [hk]
        exact fails_writing hbehind hk hts.tail hks
      · cases hks

theorem not_isFaulty_of_spells (h : g.Spells st) : g.isFaulty = false := by
  obtain ⟨ts, u⟩ := g
  obtain ⟨hplain, -, -, hs⟩ := h
  cases st with
  | assign id e =>
    obtain ⟨t, _, rfl, ht, hs⟩ := Spelled.cons_iff.1 hs
    obtain ⟨v, vs, rfl, hv, -⟩ := Spelled.cons_iff.1 hs
    have ht : t.kind = .identifier := ht.1
    have hv : v.kind = .assign := hv
    simp [isFaulty, Kind.opening?, List.isPrefixOf, ht, hv]
  | read id =>
    simp only [Stmt.yield, Spelled.cons_iff, Spelled.nil_iff] at hs
    obtain ⟨t, _, rfl, ht, v, _, rfl, hv, w, _, rfl, hw, x, _, rfl, hx, rfl⟩ := hs
    have ht : t.kind = .readKw := ht
    have hv : v.kind = .leftParen := hv
    have hw : w.kind = .identifier := hw.1
    have hx : x.kind = .rightParen := hx
    simp [isFaulty, Kind.opening?, List.isPrefixOf, ht, hv, hw, hx]
  | write w =>
    obtain ⟨t, _, rfl, ht, hs⟩ := Spelled.cons_iff.1 hs
    obtain ⟨v, vs, rfl, hv, -⟩ := Spelled.cons_iff.1 hs
    have ht : t.kind = .writeKw := ht
    have hv : v.kind = .leftParen := hv
    simp [isFaulty, Kind.opening?, List.isPrefixOf, ht, hv]
  | ifThen | ifElse | whileDo | repeatUntil => cases hplain

/-- What is read of the segment: its own statement if it spells one, and nothing if it is faulty. -/
def Gives (g : Segment) (e : Option Stmt) : Prop :=
  (g.isFaulty = true → e = none) ∧ ∀ st, g.Spells st → e = some st

variable {s : Cursor}

/-- Whatever is in the segment, reading goes on behind it. -/
theorem parse_statement (hl : s.Linked) (hb : s.Begins g.all) (hg : g.IsClosed)
    (hbehind : g.behind.kind ∈ behindStatement)
    (hform : g.isFaulty = true ∨ ∃ st, g.Spells st) :
    g.Gives (Nonterminal.statement.parse s).1 ∧
      s.Adds g.reports g.tokens (Nonterminal.statement.parse s).2 := by
  obtain hf | ⟨st, hst⟩ := hform
  · obtain ⟨hnone, hadds⟩ := Nonterminal.statement.post_parse
      (fun p s _ => completing_phrase p s) (fails_statement hg hbehind hf s hl hb)
    refine ⟨⟨fun _ => hnone, fun st hst => ?_⟩, ?_⟩
    · rw [not_isFaulty_of_spells hst] at hf
      cases hf
    · rw [reports, if_pos hf]
      exact hadds
  · have hf := not_isFaulty_of_spells hst
    have hr : Heads behindStatement [g.behind] := hbehind
    have hread : ∀ st, g.Spells st → (Nonterminal.statement.parse s).1 = some st ∧
        s.Passes g.tokens (Nonterminal.statement.parse s).2 := fun st hst =>
      Nonterminal.parse_of_whole (n := .statement) (t := some st) ⟨hst.2.1, hst.2.2.1⟩ hst.2.2.2
        hr hl hb
    refine ⟨⟨fun h => ?_, fun st hst => (hread st hst).1⟩, ?_⟩
    · rw [hf] at h
      cases h
    · rw [reports, if_neg (by simp [hf])]
      exact (hread st hst).2.adds

/-- Behind the statement of a segment comes what is behind the segment. -/
theorem next_behind_statement {us : List Token} (hl : s.Linked) (hb : s.Begins (g.all ++ us))
    (hg : g.IsClosed) (hbehind : g.behind.kind ∈ behindStatement)
    (hform : g.isFaulty = true ∨ ∃ st, g.Spells st) :
    (Nonterminal.statement.parse s).2.next.1 = g.behind ∧
      (Nonterminal.statement.parse s).2.Passes [g.behind]
        (Nonterminal.statement.parse s).2.next.2 := by
  obtain ⟨-, hadds⟩ := g.parse_statement hl (begins_append.1 hb).1 hg hbehind hform
  rw [all, List.append_assoc] at hb
  exact hadds.linked.next_of_begins (hadds.begins_append_iff.1 hb)
    (Nonterminal.statement.ne_invalid_of_mem_followKinds hbehind)

end Segment

theorem parse_statements (s : Cursor) : Nonterminal.statements.parse s =
    (.cons (Nonterminal.statement.parse s).1
        (Phrase.moreStatements.read (Nonterminal.statement.parse s).2).1,
      (Phrase.moreStatements.read (Nonterminal.statement.parse s).2).2) := by
  show Production.statements.run Phrase.read s = _
  rw [Production.statements, run_bind, run_bind]
  rfl

theorem read_moreStatements (s : Cursor) : Phrase.moreStatements.read s =
    if s.next.1.kind = .semicolon then Nonterminal.statements.parse s.next.2
    else (.nil, s.next.2.pushBack) := by
  rw [Phrase.read_eq]
  show Production.moreStatements.run Phrase.read s = _
  rw [Production.moreStatements, run_bind]
  have hnext : (expect .semicolon).run Phrase.read s =
      (decide (s.next.1.kind = .semicolon), s.next.2) := rfl
  rw [hnext]
  by_cases h : s.next.1.kind = .semicolon
  · rw [if_pos h, if_pos (decide_eq_true h)]
    rfl
  · rw [if_neg h, if_neg (by simpa using h)]
    rfl

/-- Statements are read segment by segment up to what comes behind the last one. -/
theorem run_segments {gs : List Segment} {last : Segment} {s : Cursor} (hl : s.Linked)
    (hb : s.Begins (gs.flatMap Segment.all ++ last.all))
    (hsep : ∀ g ∈ gs, g.behind.kind = .semicolon) (hlast : last.behind.kind ∈ behindBlock)
    (hclosed : ∀ g ∈ gs ++ [last], g.IsClosed)
    (hform : ∀ g ∈ gs ++ [last], g.isFaulty = true ∨ ∃ st, g.Spells st) :
    List.Forall₂ Segment.Gives (gs ++ [last]) (Nonterminal.statements.parse s).1.toList ∧
      s.Adds ((gs ++ [last]).flatMap Segment.reports) (gs.flatMap Segment.all ++ last.tokens)
        (Nonterminal.statements.parse s).2 := by
  induction gs generalizing s with
  | nil =>
    have hbehind : last.behind.kind ∈ behindStatement := List.mem_cons_of_mem _ hlast
    have hlastForm := hform last (List.mem_singleton_self _)
    have hlastClosed := hclosed last (List.mem_singleton_self _)
    obtain ⟨hgives, hadds⟩ := last.parse_statement hl hb hlastClosed hbehind hlastForm
    have hb : s.Begins (last.all ++ []) := by rwa [List.append_nil]
    obtain ⟨hnext, hpass⟩ := last.next_behind_statement hl hb hlastClosed hbehind hlastForm
    have hpeek := hadds.linked.passes_peek (Nat.le_of_eq (congrArg Array.size hpass.diagnostics))
    have hend : last.behind.kind ≠ .semicolon := ne_of_mem_of_not_mem hlast (by decide)
    rw [parse_statements, read_moreStatements, hnext, if_neg hend]
    refine ⟨?_, ?_⟩
    · rw [Block.toList_cons]
      exact .cons hgives .nil
    · simpa using hadds.trans hpeek.adds
  | cons g gs ih =>
    obtain ⟨hsemi, hsep⟩ := List.forall_mem_cons.1 hsep
    rw [List.cons_append] at hclosed hform
    obtain ⟨hgClosed, hclosed⟩ := List.forall_mem_cons.1 hclosed
    obtain ⟨hgForm, hform⟩ := List.forall_mem_cons.1 hform
    have hbehind : g.behind.kind ∈ behindStatement := hsemi ▸ List.mem_cons_self ..
    rw [List.flatMap_cons, List.append_assoc] at hb
    obtain ⟨hgives, hadds⟩ :=
      g.parse_statement hl (begins_append.1 hb).1 hgClosed hbehind hgForm
    obtain ⟨hnext, hpass⟩ := g.next_behind_statement hl hb hgClosed hbehind hgForm
    have hover := hadds.trans hpass.adds
    obtain ⟨hrest, hadds'⟩ := ih hpass.linked (hover.begins_append_iff.1 hb) hsep hclosed hform
    rw [parse_statements, read_moreStatements, hnext, if_pos hsemi]
    refine ⟨?_, ?_⟩
    · rw [Block.toList_cons]
      exact .cons hgives hrest
    · simpa [Segment.all] using hover.trans hadds'

/-- A fault in one statement of a block leaves the others as they are: every segment that spells a
statement is read as it, every faulty one comes to a gap and to one report of the token at which it
departs from its form, and what comes behind the last segment is next. -/
theorem parse_segments (s : Cursor) (gs : List Segment) (last : Segment) (h : s.Reachable)
    (hb : s.Begins (gs.flatMap Segment.all ++ last.all))
    (hsep : ∀ g ∈ gs, g.behind.kind = .semicolon) (hlast : last.behind.kind ∈ behindBlock)
    (hclosed : ∀ g ∈ gs ++ [last], g.IsClosed)
    (hform : ∀ g ∈ gs ++ [last], g.isFaulty = true ∨ ∃ st, g.Spells st) :
    let o := Nonterminal.statements.parse s
    List.Forall₂ Segment.Gives (gs ++ [last]) o.1.toList ∧
      o.2.diagnostics.toList = s.diagnostics.toList ++ (gs ++ [last]).flatMap Segment.reports ∧
      o.2.consumed = s.consumed ++ (gs.flatMap Segment.all ++ last.tokens) ∧
      (∀ i, o.2.upcoming i = s.upcoming ((gs.flatMap Segment.all ++ last.tokens).length + i)) ∧
      o.2.next.1 = last.behind ∧ o.2.next.2.diagnostics = o.2.diagnostics := by
  intro o
  obtain ⟨hgives, hadds⟩ := run_segments h.linked hb hsep hlast hclosed hform
  rw [Segment.all, ← List.append_assoc] at hb
  have hvalid : last.behind.kind ≠ .invalid :=
    Nonterminal.statements.ne_invalid_of_mem_followKinds hlast
  obtain ⟨hnext, hpass⟩ := hadds.linked.next_of_begins (hadds.begins_append_iff.1 hb) hvalid
  exact ⟨hgives, hadds.diagnostics, hadds.consumed, hadds.upcoming, hnext,
    hpass.diagnostics⟩

theorem parse_segments_read :
    let o := Nonterminal.statements.parse (.ofFeed (.ofTokens [
      ⟨.identifier, ⟨1, 1⟩, some (.name "x")⟩, ⟨.plus, ⟨1, 3⟩, none⟩, ⟨.semicolon, ⟨1, 4⟩, none⟩,
      ⟨.readKw, ⟨2, 1⟩, none⟩, ⟨.leftParen, ⟨2, 6⟩, none⟩, ⟨.identifier, ⟨2, 7⟩, some (.name "y")⟩,
      ⟨.rightParen, ⟨2, 8⟩, none⟩, ⟨.endKw, ⟨3, 1⟩, none⟩]))
    o.1.toList = [none, some (.read ⟨"y", ⟨2, 7⟩⟩)] ∧
      o.2.diagnostics.toList = [⟨.unexpected, ⟨1, 3⟩⟩] ∧ o.2.next.1 = ⟨.endKw, ⟨3, 1⟩, none⟩ := by
  intro o
  have hspells : (⟨[⟨.readKw, ⟨2, 1⟩, none⟩, ⟨.leftParen, ⟨2, 6⟩, none⟩,
      ⟨.identifier, ⟨2, 7⟩, some (.name "y")⟩, ⟨.rightParen, ⟨2, 8⟩, none⟩],
      ⟨.endKw, ⟨3, 1⟩, none⟩⟩ : Segment).Spells (.read ⟨"y", ⟨2, 7⟩⟩) :=
    ⟨rfl, rfl, rfl, by decide⟩
  obtain ⟨hgives, hadds, -, -, hnext, -⟩ := parse_segments
    (.ofFeed (.ofTokens [
      ⟨.identifier, ⟨1, 1⟩, some (.name "x")⟩, ⟨.plus, ⟨1, 3⟩, none⟩, ⟨.semicolon, ⟨1, 4⟩, none⟩,
      ⟨.readKw, ⟨2, 1⟩, none⟩, ⟨.leftParen, ⟨2, 6⟩, none⟩, ⟨.identifier, ⟨2, 7⟩, some (.name "y")⟩,
      ⟨.rightParen, ⟨2, 8⟩, none⟩, ⟨.endKw, ⟨3, 1⟩, none⟩]))
    [⟨[⟨.identifier, ⟨1, 1⟩, some (.name "x")⟩, ⟨.plus, ⟨1, 3⟩, none⟩], ⟨.semicolon, ⟨1, 4⟩, none⟩⟩]
    ⟨[⟨.readKw, ⟨2, 1⟩, none⟩, ⟨.leftParen, ⟨2, 6⟩, none⟩, ⟨.identifier, ⟨2, 7⟩, some (.name "y")⟩,
      ⟨.rightParen, ⟨2, 8⟩, none⟩], ⟨.endKw, ⟨3, 1⟩, none⟩⟩
    ⟨_, [], rfl, rfl⟩ (begins_take _ 8) (by decide) (by decide)
    (by simp [Segment.IsClosed, behindStatement, behindBlock])
    (List.forall_mem_cons.2 ⟨.inl rfl, List.forall_mem_singleton.2 (.inr ⟨_, hspells⟩)⟩)
  refine ⟨?_, hadds, hnext⟩
  obtain ⟨e, l, hgap, hl, hlist⟩ := List.forall₂_cons_left_iff.1 hgives
  obtain ⟨e', l', hread, hnil, rfl⟩ := List.forall₂_cons_left_iff.1 hl
  rw [hlist, hgap.1 rfl, hread.2 _ hspells, List.forall₂_nil_left_iff.1 hnil]

end Routine
