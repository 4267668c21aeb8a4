import Routine.Proofs.Recovery
import Routine.Proofs.Soundness

/-!
# Every leaf is a token of its own

However malformed the input is, the leaves of a tree come from tokens in the order of the input, no
token is used twice, and none that recovery passed over. `Gleaned f K m n xs` says so of terminals
`xs` and of the tokens with numbers from `m` up to `n`, of which those in `K` were passed over. A
failing procedure hands the offending token back before it passes over anything, so what it passes
over begins behind all that was gleaned before: `Gathers` is the account of a procedure from where it
begins, `GathersHeld` that of one whose last token is yet to be used or handed back, and
`GathersSeen` that of one which has handed it back.
-/

namespace Routine

open Cursor Procedure Production

/-- The leaves among the terminals `ys` are among `xs`, in the same order. -/
def Among (ys xs : List Terminal) : Prop := (ys.filter Terminal.isLeaf).Sublist xs

namespace Among
variable {xs xs' ys ys' : List Terminal} {k : Kind}

theorem nil : Among [] xs := List.nil_sublist _

theorem append (h : Among ys xs) (h' : Among ys' xs') : Among (ys ++ ys') (xs ++ xs') := by
  rw [Among, List.filter_append]
  exact List.Sublist.append h h'

theorem front (h : Among ys xs) : Among ys (xs ++ xs') :=
  List.Sublist.trans h (List.sublist_append_left ..)

theorem back (h : Among ys xs') : Among ys (xs ++ xs') :=
  List.Sublist.trans h (List.sublist_append_right ..)

/-- A word or a mark that is no leaf. -/
theorem word (hk : Terminal.leafKinds.contains k = false) (h : Among ys xs) :
    Among (.fixed k :: ys) xs := by
  rwa [Among, List.filter_cons_of_neg (by simpa [Terminal.isLeaf] using hk)]

theorem leaf {x : Terminal} (h : Among ys xs) : Among (x :: ys) (x :: xs) := by
  rw [Among, List.filter_cons]
  split
  · exact List.Sublist.cons_cons x h
  · exact List.Sublist.cons x h

end Among

/-- The terminals `xs` are spelled by some of the tokens with numbers from `m` up to `n`, in order;
the tokens in `K` lie there too, but are not used. -/
structure Gleaned (f : Feed) (K : Nat → Prop) (m n : Nat) (xs : List Terminal) : Prop where
  le : m ≤ n
  skipped : ∀ i, K i → m ≤ i ∧ i < n
  tokens : ∃ is : List Nat, is.Pairwise (· < ·) ∧ (∀ i ∈ is, m ≤ i ∧ i < n ∧ ¬ K i) ∧
    Spelled xs (is.map f.upcoming)

namespace Gleaned
variable {f : Feed} {K L M : Nat → Prop} {m n o : Nat} {xs ys : List Terminal} {x : Terminal}

theorem nil (h : m ≤ n) (hK : ∀ i, K i → m ≤ i ∧ i < n) : Gleaned f K m n [] :=
  ⟨h, hK, [], List.Pairwise.nil, by simp, trivial⟩

theorem pass (h : m ≤ n) : Gleaned f (fun _ => False) m n [] := nil h fun _ => False.elim

theorem single (hx : x.SpelledBy (f.upcoming m)) : Gleaned f (fun _ => False) m (m + 1) [x] :=
  ⟨Nat.le_succ m, fun _ => False.elim, [m], by simp, by simp, hx, trivial⟩

theorem append (h : Gleaned f K m n xs) (h' : Gleaned f L n o ys) (hM : ∀ i, M i ↔ K i ∨ L i) :
    Gleaned f M m o (xs ++ ys) := by
  obtain ⟨is, hsorted, his, hspelled⟩ := h.tokens
  obtain ⟨js, hsorted', hjs, hspelled'⟩ := h'.tokens
  refine ⟨Nat.le_trans h.le h'.le, fun i hi => ?_, is ++ js, ?_, fun i hi => ?_, ?_⟩
  · have hle := h.le
    have hle' := h'.le
    rcases (hM i).1 hi with hK | hL
    · have := h.skipped i hK
      omega
    · have := h'.skipped i hL
      omega
  · refine List.pairwise_append.2 ⟨hsorted, hsorted', fun i hi j hj => ?_⟩
    have := his i hi
    have := hjs j hj
    omega
  · have hle := h.le
    have hle' := h'.le
    rw [hM]
    rcases List.mem_append.1 hi with hi | hi
    · obtain ⟨hm, hn, hK⟩ := his i hi
      refine ⟨hm, by omega, not_or.2 ⟨hK, fun hL => ?_⟩⟩
      have := h'.skipped i hL
      omega
    · obtain ⟨hn, ho, hL⟩ := hjs i hi
      refine ⟨by omega, ho, not_or.2 ⟨fun hK => ?_, hL⟩⟩
      have := h.skipped i hK
      omega
  · rw [List.map_append]
    exact hspelled.append hspelled'

end Gleaned

/-- Fewer terminals are spelled by fewer tokens. -/
theorem Spelled.sublist {g : Nat → Token} {xs ys : List Terminal} {is : List Nat}
    (h : Spelled xs (is.map g)) (hsub : ys.Sublist xs) :
    ∃ js : List Nat, js.Sublist is ∧ Spelled ys (js.map g) := by
  induction hsub generalizing is with
  | slnil => exact ⟨[], List.nil_sublist _, trivial⟩
  | cons x _ ih =>
    cases is with
    | nil => exact h.elim
    | cons i is =>
      obtain ⟨js, hjs, hspelled⟩ := ih h.2
      exact ⟨js, hjs.cons i, hspelled⟩
  | cons_cons x _ ih =>
    cases is with
    | nil => exact h.elim
    | cons i is =>
      obtain ⟨js, hjs, hspelled⟩ := ih h.2
      exact ⟨i :: js, hjs.cons_cons i, h.1, hspelled⟩

/-! ### The account of a procedure -/

/-- From the token with number `m` on, the run up to `s'` has gleaned what `Q` says of its result `a`,
passing over the tokens in `K`. -/
def Gathered {α : Type} (f : Feed) (Q : α → List Terminal → Prop) (m : Nat) (K : Nat → Prop) (a : α)
    (s' : Cursor) : Prop :=
  s'.Within f ∧ ∃ xs, Q a xs ∧ Gleaned f K m s'.place xs

theorem Gathered.prepend {α : Type} {f : Feed} {Q : α → List Terminal → Prop} {K L M : Nat → Prop}
    {m n : Nat} {xs : List Terminal} {a : α} {s' : Cursor}
    (h : Gathered f (fun a ys => Q a (xs ++ ys)) n L a s') (hxs : Gleaned f K m n xs)
    (hM : ∀ i, M i ↔ K i ∨ L i) : Gathered f Q m M a s' := by
  obtain ⟨h', ys, hQ, hys⟩ := h
  exact ⟨h', xs ++ ys, hQ, hxs.append hys hM⟩

/-- Tokens that are neither used nor passed over may come first. -/
theorem Gathered.widen {α : Type} {f : Feed} {Q : α → List Terminal → Prop} {K L : Nat → Prop}
    {m n : Nat} {a : α} {s' : Cursor} (h : Gathered f Q n L a s') (hle : m ≤ n)
    (hK : ∀ i, K i ↔ L i) : Gathered f Q m K a s' := by
  have hnone : Gleaned f (fun _ => False) m n [] := .pass hle
  obtain ⟨h', ys, hQ, hys⟩ := h
  exact ⟨h', ys, hQ, hnone.append hys fun i => by rw [hK, false_or]⟩

/-- A phrase answers as it does in the run, and its leaves are gleaned. -/
def gathering (f : Feed) : Contract where
  pre _ s := s.Within f
  post p s x s' := (x, s') = p.read s ∧
    Gathered f (fun x xs => Among (p.yield x) xs) s.place (p.procedure.Skips s) x s'

section
variable {α β : Type} {f : Feed} {n : Nonterminal} {Q : α → List Terminal → Prop} {s : Cursor}
  {t : Token}

/-- Within the contract there is but one run. -/
theorem wp_actual (q : Procedure α) (h : s.Within f) :
    q.wp (gathering f) (fun a s' => (a, s') = q.run Phrase.read s) s := by
  induction q generalizing s with
  | done a => rfl
  | act a k ih => exact ih _ ((kept_within f).perform a h)
  | call p k ih =>
    refine ⟨h, fun x s' hpost => ?_⟩
    have hread : (x, s') = p.read s := hpost.1
    have hx := ih x (hpost.2.1 : s'.Within f)
    rw [run, ← hread]
    exact hx

/-- The procedure gleans what `Q` says of its result. -/
def Gathers (f : Feed) (Q : α → List Terminal → Prop) (q : Procedure α) : Prop :=
  ∀ s, s.Within f → q.wp (gathering f) (Gathered f Q s.place (q.Skips s)) s

/-- As `Gathers`, but the token `t`, which has been drawn, may be used or handed back. -/
def GathersHeld (f : Feed) (t : Token) (Q : α → List Terminal → Prop) (q : Procedure α) : Prop :=
  ∀ s, s.Within f → s.slot = .taken t →
    q.wp (gathering f) (Gathered f Q s.pushBack.place (q.Skips s)) s

/-- As `Gathers`, but the token `t` has been handed back. -/
def GathersSeen (f : Feed) (t : Token) (Q : α → List Terminal → Prop) (q : Procedure α) : Prop :=
  ∀ s, s.Within f → s.slot = .pending t → q.wp (gathering f) (Gathered f Q s.place (q.Skips s)) s

/-- The procedure gleans the leaves of the tree of the part. -/
def GathersTree (f : Feed) (n : Nonterminal) (q : Procedure n.Result) : Prop :=
  Gathers f (fun t xs => Among (n.yield t) xs) q

namespace Cursor.Within

/-- The token drawn last is the one in front of which the cursor stands if it is handed back. -/
theorem upcoming_place (h : s.Within f) (hf : f.drawn = #[]) (hs : s.slot = .taken t) :
    f.upcoming s.pushBack.place = t ∧ s.place = s.pushBack.place + 1 := by
  have hconsumed := consumed_of_taken h.1 hs
  have hplace : s.place = s.pushBack.place + 1 := by
    rw [place, hconsumed, List.length_append]
    rfl
  have hdrawn := (h.2.drawn hf).1
  rw [← consumed_of_not_pending (by simp [hs])] at hdrawn
  have hlength : s.place = s.feed.pulls := by rw [place, hdrawn, Feed.length_take]
  have hget : s.consumed[s.pushBack.place]? = some t := by
    rw [hconsumed, place, List.getElem?_concat_length]
  rw [hdrawn, f.getElem?_take (by omega), Option.some.injEq] at hget
  exact ⟨hget, hplace⟩

theorem place_next (h : s.Within f) : s.place ≤ s.next.2.pushBack.place := by
  obtain ⟨bad, -, hmove, -⟩ := h.1.next_spec
  rw [place, place, (hmove.pushBack h.1.next s.slot_next).consumed, List.length_append]
  exact Nat.le_add_right ..

end Cursor.Within

/-- Recovery hands the last token back before it passes over any. -/
theorem wp_recover_gathered {k : Unit → Procedure α} (h : s.Within f) (hk : Gathers f Q (k ())) :
    (recover n >>= k).wp (gathering f)
      (Gathered f Q s.pushBack.place ((recover n >>= k).Skips s)) s := by
  rw [wp_bind, wp_recover]
  have hreject : s.reject.pushBack.place = s.pushBack.place := by
    rw [pushBack_reject]
    rfl
  have hpassed : Gleaned f (s.reject.PassesOver n.follow) s.pushBack.place
      (s.reject.synchronize n.follow).place [] := by
    rw [← hreject]
    exact .nil (place_synchronize_le _ h.1.reject) fun _ hi => hi
  have h' := (kept_within f).synchronize n.follow ((kept_within f).reject h)
  exact wp_mono (fun _ _ hq => hq.prepend hpassed fun _ => skips_recover_bind_iff) _ (hk _ h')

namespace GathersHeld

/-- The token that was drawn is used. -/
theorem take {x : Terminal} {q : Procedure α} (hf : f.Valued) (hx : x.SpelledBy t)
    (hq : Gathers f (fun a ys => Q a (x :: ys)) q) : GathersHeld f t Q q := by
  intro s h hs
  obtain ⟨hup, hplace⟩ := h.upcoming_place hf.1 hs
  have hsingle : Gleaned f (fun _ => False) s.pushBack.place s.place [x] := by
    rw [hplace]
    exact .single (hup.symm ▸ hx)
  exact wp_mono (fun _ _ hq' => hq'.prepend hsingle (by simp)) _ (hq s h)

/-- The token that was drawn is no leaf. -/
theorem pass {q : Procedure α} (hf : f.Valued) (hq : Gathers f Q q) : GathersHeld f t Q q := by
  intro s h hs
  have hle : s.pushBack.place ≤ s.place := by
    rw [(h.upcoming_place hf.1 hs).2]
    exact Nat.le_succ _
  exact wp_mono (fun _ _ hq' => hq'.widen hle fun _ => Iff.rfl) _ (hq s h)

/-- The token that was drawn is handed back. -/
theorem pushBack_bind {k : Unit → Procedure α} (hk : GathersSeen f t Q (k ())) :
    GathersHeld f t Q (Procedure.pushBack >>= k) := by
  intro s h hs
  have hskips : ∀ i, (Procedure.pushBack >>= k).Skips s i ↔ (k ()).Skips s.pushBack i :=
    fun _ => skips_act_iff_of_ne (by simp)
  rw [wp_bind, wp_pushBack]
  refine wp_mono (fun _ _ hq => ?_) _ (hk _ ((kept_within f).pushBack h) (slot_pushBack_of_taken hs))
  exact hq.widen (Nat.le_refl _) hskips

theorem recover_bind {k : Unit → Procedure α} (hk : Gathers f Q (k ())) :
    GathersHeld f t Q (recover n >>= k) := fun _ h _ => wp_recover_gathered h hk

end GathersHeld

namespace Gathers

theorem done {a : α} (h : Q a []) : Gathers f Q (.done a) := by
  intro s hs
  exact ⟨hs, [], h, .nil (Nat.le_refl _) fun i hi => absurd hi (not_skips_done a)⟩

theorem bind {P : β → List Terminal → Prop} {p : Procedure β} {k : β → Procedure α}
    (hp : Gathers f P p) (hk : ∀ b xs, P b xs → Gathers f (fun a ys => Q a (xs ++ ys)) (k b)) :
    Gathers f Q (p >>= k) := by
  intro s h
  rw [wp_bind]
  refine wp_mono ?_ _ (wp_and p (hp s h) (wp_actual p h))
  rintro b s₁ ⟨⟨h₁, xs, hP, hxs⟩, hrun⟩
  refine wp_mono (fun a s₂ h₂ => h₂.prepend hxs fun i => ?_) _ (hk b xs hP s₁ h₁)
  rw [skips_bind_iff, ← hrun]

theorem mono {Q' : α → List Terminal → Prop} {q : Procedure α} (hq : Gathers f Q q)
    (h : ∀ a xs, Q a xs → Q' a xs) : Gathers f Q' q :=
  fun s hs => wp_mono (fun _ _ ⟨h', xs, hQ, hxs⟩ => ⟨h', xs, h _ xs hQ, hxs⟩) _ (hq s hs)

theorem read (p : Phrase) : Gathers f (fun x xs => Among (p.yield x) xs) (Procedure.read p) := by
  intro s h
  refine ⟨h, fun x s' hpost => ?_⟩
  obtain ⟨h', xs, hxs, hgleaned⟩ := hpost.2
  exact ⟨h', xs, hxs, hgleaned.le, fun i hi => hgleaned.skipped i (skips_read_iff.1 hi), by
    simpa only [skips_read_iff] using hgleaned.tokens⟩

theorem next_bind {k : Token → Procedure α} (hf : f.Valued)
    (hk : ∀ t, t.Valued → GathersHeld f t Q (k t)) : Gathers f Q (Procedure.next >>= k) := by
  intro s h
  have hskips : ∀ i, (Procedure.next >>= k).Skips s i ↔ (k s.next.1).Skips s.next.2 i :=
    fun _ => skips_act_iff_of_ne (by simp)
  obtain ⟨j, hj⟩ := h.next hf.1
  rw [wp_bind, wp_next]
  refine wp_mono (fun _ _ hq => ?_) _
    (hk _ (hj ▸ hf.2 j) _ ((kept_within f).next h) s.slot_next)
  exact hq.widen h.place_next hskips

theorem peek_bind {k : Kind → Procedure α} (hf : f.Valued)
    (hk : ∀ t : Token, GathersSeen f t Q (k t.kind)) : Gathers f Q (Procedure.peek >>= k) :=
  next_bind (k := fun t => Procedure.pushBack >>= fun _ => k t.kind) hf
    fun t _ => .pushBack_bind (hk t)

/-- The word that is looked for is no leaf. -/
theorem expect_bind {k : Kind} {p q : Procedure α} (hf : f.Valued) (hp : Gathers f Q p)
    (hq : ∀ t, GathersHeld f t Q q) : Gathers f Q (expect k >>= fun c => if c then p else q) := by
  refine next_bind (k := fun t => if decide (t.kind = k) then p else q) hf fun t _ => ?_
  split
  · exact .pass hf hp
  · exact hq t

theorem name_bind {p : Token → Procedure α} {q : Procedure α} (hf : f.Valued)
    (hp : ∀ t, Gathers f (fun a ys => Q a (.name (.ofToken t) :: ys)) (p t))
    (hq : ∀ t, GathersHeld f t Q q) :
    Gathers f Q (Procedure.next >>= fun t => if t.kind = .identifier then p t else q) := by
  refine next_bind hf fun t ht => ?_
  split
  · next hk => exact .take hf (ht.spelledBy_name hk) (hp t)
  · exact hq t

end Gathers

theorem GathersHeld.fail {Q : Option α → List Terminal → Prop} (h : Q none []) :
    GathersHeld f t Q (Procedure.fail n) := recover_bind (.done h)

namespace GathersSeen

theorem of_gathers {q : Procedure α} (hq : Gathers f Q q) : GathersSeen f t Q q := fun s h _ => hq s h

theorem recover_bind {k : Unit → Procedure α} (hk : Gathers f Q (k ())) :
    GathersSeen f t Q (recover n >>= k) := by
  intro s h hs
  have hback := wp_recover_gathered (n := n) h hk
  rwa [pushBack_of_not_taken (by simp [hs])] at hback

theorem fail {Q : Option α → List Terminal → Prop} (h : Q none []) :
    GathersSeen f t Q (Procedure.fail n) := recover_bind (.done h)

theorem note_bind {e : Event} {k : Unit → Procedure α} (hk : GathersSeen f t Q (k ())) :
    GathersSeen f t Q (Procedure.note e >>= k) := by
  intro s h hs
  have hskips : ∀ i, (Procedure.note e >>= k).Skips s i ↔ (k ()).Skips (s.note e) i :=
    fun _ => skips_act_iff_of_ne (by simp)
  refine wp_mono (fun _ _ hq => ?_) _ (hk (s.note e) h hs)
  exact hq.widen (Nat.le_refl _) hskips

end GathersSeen

end

section
variable {f : Feed}

theorem gathers_oneOf {α : Type} {n : Nonterminal} {g : Kind → Option α} {kind : α → Kind}
    (hf : f.Valued) (hkind : ∀ k a, g k = some a → k = kind a) :
    Gathers f (fun o xs => Among (opYield kind o) xs) (oneOf n g) := by
  refine .next_bind hf fun t _ => ?_
  split
  · next a ha => exact .take hf (x := .fixed (kind a)) (hkind _ _ ha) (.done (.leaf .nil))
  · exact .fail .nil

theorem gathers_constant (hf : f.Valued) : GathersTree f .constant constant := by
  refine .next_bind hf fun t _ => ?_
  split
  · next c hc => exact .take hf (Constant.ofToken?_eq_some_iff.1 hc) (.done (.leaf .nil))
  · exact .fail .nil

theorem gathers_primary (hf : f.Valued) : GathersTree f .primary primary := by
  refine .next_bind hf fun t ht => ?_
  split
  · next hk => exact .take hf (ht.spelledBy_name hk) (.done (.leaf .nil))
  iterate 3
    refine .pushBack_bind (.of_gathers ((gathers_constant hf).bind ?_))
    rintro (_ | c) xs hxs
    · exact .done .nil
    · exact .done hxs.front
  · refine .pass hf ((Gathers.read .expression).bind fun e xs hxs => ?_)
    have hgroup : Among (.fixed .leftParen :: (e.yield ++ [.fixed .rightParen])) (xs ++ []) :=
      .word rfl (hxs.append (.word rfl .nil))
    exact .expect_bind hf (.done hgroup) fun _ => .recover_bind (.done hgroup)
  · exact .fail .nil

theorem gathers_sign (hf : f.Valued) : Gathers f (fun sg xs => Among sg.yield xs) sign := by
  refine .next_bind hf fun t _ => ?_
  split
  · next sg hsg =>
    have hsign : Among sg.yield [.fixed t.kind] := by
      rw [Sign.yield_eq _ _ hsg]
      exact .leaf .nil
    exact .take hf (x := .fixed t.kind) rfl (.done hsign)
  · exact .pushBack_bind (.of_gathers (.done .nil))

theorem gathers_operand (hf : f.Valued) : GathersTree f .operand operand := by
  refine (gathers_sign hf).bind fun sg xs hxs => (gathers_primary hf).bind ?_
  rintro (_ | p) ys hys
  · exact .done hxs.front
  · exact .done (hxs.append hys.front)

theorem gathers_termTail (hf : f.Valued) : GathersTree f .termTail termTail := by
  refine .next_bind hf fun t _ => .pushBack_bind (.of_gathers ?_)
  split
  · refine (gathers_oneOf hf MulOp.eq_kind).bind fun op xs hxs => ?_
    refine (gathers_operand hf).bind fun o ys hys => ?_
    refine (Gathers.read .termTail).bind fun tail zs hzs => .done ?_
    rw [← List.append_assoc]
    exact (hxs.append hys).append hzs.front
  · exact .done .nil

theorem gathers_term (hf : f.Valued) : GathersTree f .term term :=
  (gathers_operand hf).bind fun _ _ hxs => (Gathers.read .termTail).bind fun _ _ hys =>
    .done (hxs.append hys.front)

theorem gathers_simpleTail (hf : f.Valued) : GathersTree f .simpleTail simpleTail := by
  refine .next_bind hf fun t _ => .pushBack_bind (.of_gathers ?_)
  split
  · refine (gathers_oneOf hf AddOp.eq_kind).bind fun op xs hxs => ?_
    refine (gathers_term hf).bind fun x ys hys => ?_
    refine (Gathers.read .simpleTail).bind fun tail zs hzs => .done ?_
    rw [← List.append_assoc]
    exact (hxs.append hys).append hzs.front
  · exact .done .nil

theorem gathers_simpleExpr (hf : f.Valued) : GathersTree f .simpleExpr simpleExpr :=
  (gathers_term hf).bind fun _ _ hxs => (Gathers.read .simpleTail).bind fun _ _ hys =>
    .done (hxs.append hys.front)

theorem gathers_expression (hf : f.Valued) : GathersTree f .expression expression := by
  refine (gathers_simpleExpr hf).bind fun lhs xs hxs => ?_
  refine .next_bind hf fun t _ => .pushBack_bind (.of_gathers ?_)
  split
  · refine (gathers_oneOf hf RelOp.eq_kind).bind fun op ys hys => ?_
    refine (gathers_simpleExpr hf).bind fun rhs zs hzs => .done ?_
    rw [← List.append_assoc]
    exact (hxs.append hys).append hzs.front
  · exact .done hxs.front

theorem gathers_assignment (hf : f.Valued) : GathersTree f .assignment assignment := by
  refine .name_bind hf (fun t => ?_) fun _ => .fail .nil
  refine .expect_bind hf ((gathers_simpleExpr hf).bind fun e xs hxs => ?_) fun _ => .fail .nil
  exact .done (.leaf (.word rfl hxs.front))

theorem gathers_condition : GathersTree f .condition condition := .read .expression

theorem gathers_conditional (hf : f.Valued) : GathersTree f .conditional conditional := by
  refine .expect_bind hf (gathers_condition.bind fun cond xs hxs => ?_) fun _ => .fail .nil
  refine .expect_bind hf ((Gathers.read .statements).bind fun b ys hys => ?_) fun _ => .fail .nil
  refine .next_bind hf fun t _ => ?_
  split
  · refine .pass hf (.done (.word rfl (hxs.append ?_)))
    exact .word rfl (hys.append (.word rfl .nil))
  · refine .pass hf ((Gathers.read .statements).bind fun b' zs hzs => ?_)
    refine .expect_bind hf (.done ?_) fun _ => .fail .nil
    refine .word rfl (hxs.append (.word rfl (hys.append ?_)))
    exact .word rfl (hzs.append (.word rfl .nil))
  · exact .fail .nil

theorem gathers_loopHead (hf : f.Valued) : GathersTree f .loopHead loopHead := by
  refine .expect_bind hf (gathers_condition.bind fun cond xs hxs => ?_) fun _ => .fail .nil
  refine .expect_bind hf (.done ?_) fun _ => .fail .nil
  exact .word rfl (hxs.append (.word rfl .nil))

theorem gathers_whileLoop (hf : f.Valued) : GathersTree f .whileLoop whileLoop := by
  refine (gathers_loopHead hf).bind fun cond xs hxs => ?_
  refine (Gathers.read .statements).bind fun b ys hys => ?_
  refine .expect_bind hf (.done ?_) fun _ => .fail .nil
  rw [← List.append_assoc]
  exact (hxs.append hys).append (.word rfl .nil)

theorem gathers_loopExit (hf : f.Valued) : GathersTree f .loopExit loopExit := by
  refine .expect_bind hf (gathers_condition.bind fun cond xs hxs => ?_) fun _ => .fail .nil
  exact .done (.word rfl hxs.front)

theorem gathers_repeatLoop (hf : f.Valued) : GathersTree f .repeatLoop repeatLoop := by
  refine .expect_bind hf ((Gathers.read .statements).bind fun b xs hxs => ?_) fun _ => .fail .nil
  refine (gathers_loopExit hf).bind fun cond ys hys => .done ?_
  exact .word rfl (hxs.append hys.front)

/-- The word or the parenthesis that is missing is handed back. -/
theorem Gathers.opening_bind {α : Type} {Q : α → List Terminal → Prop} {word : Kind}
    {p q : Procedure α} (hf : f.Valued) (hp : Gathers f Q p) (hq : ∀ t, GathersHeld f t Q q) :
    Gathers f Q (opening word >>= fun c => if c then p else q) := by
  rw [opening, bind_assoc]
  refine .next_bind (k := fun t => (if decide (t.kind = word) = true then _ else _) >>= _) hf
    fun t _ => ?_
  by_cases hk : t.kind = word
  · rw [if_pos (decide_eq_true hk)]
    exact .pass hf (.expect_bind hf hp hq)
  · rw [if_neg (by simpa using hk)]
    exact hq t

theorem gathers_reading (hf : f.Valued) : GathersTree f .reading reading := by
  refine .opening_bind hf (.name_bind hf (fun t => ?_) fun _ => .fail .nil) fun _ => .fail .nil
  refine .expect_bind hf (.done ?_) fun _ => .fail .nil
  exact .word rfl (.word rfl (.leaf (.word rfl .nil)))

theorem gathers_writable (hf : f.Valued) : GathersTree f .writable writable := by
  refine .next_bind hf fun t ht => ?_
  split
  · next hk => exact .take hf (ht.spelledBy_string hk) (.done (.leaf .nil))
  iterate 7
    exact .pushBack_bind (.of_gathers ((gathers_simpleExpr hf).bind fun e xs hxs =>
      .done hxs.front))
  · exact .fail .nil

theorem gathers_writing (hf : f.Valued) : GathersTree f .writing writing := by
  refine .opening_bind hf ((gathers_writable hf).bind fun value xs hxs => ?_) fun _ => .fail .nil
  have hwrite : Among (Stmt.write value).yield (xs ++ []) :=
    .word rfl (.word rfl (hxs.append (.word rfl .nil)))
  exact .expect_bind hf (.done hwrite) fun _ => .recover_bind (.done hwrite)

theorem gathers_statement (hf : f.Valued) : GathersTree f .statement statement := by
  refine .peek_bind hf fun t => ?_
  split
  · exact .of_gathers (gathers_assignment hf)
  · exact .of_gathers (gathers_reading hf)
  · exact .of_gathers (gathers_writing hf)
  · exact .of_gathers (gathers_conditional hf)
  · exact .of_gathers (gathers_whileLoop hf)
  · exact .of_gathers (gathers_repeatLoop hf)
  · exact .fail .nil

/-- A gap among statements has no leaves. -/
theorem Among.block {s : Option Stmt} {rest : Block} {xs ys : List Terminal}
    (hs : Among (yieldOrGap Stmt.yield s) xs) (hrest : Among rest.moreYield ys) :
    Among (Block.cons s rest).yield (xs ++ ys) ∧ Among (Block.cons s rest).moreYield (xs ++ ys) := by
  cases s with
  | none => exact ⟨hrest.back, .word rfl hrest.back⟩
  | some s => exact ⟨hs.append hrest, .word rfl (hs.append hrest)⟩

theorem gathers_moreStatements (hf : f.Valued) :
    Gathers f (fun b xs => Among b.moreYield xs) moreStatements := by
  refine .expect_bind hf ((gathers_statement hf).bind fun s xs hxs => ?_)
    fun _ => .pushBack_bind (.of_gathers (.done .nil))
  exact (Gathers.read .moreStatements).bind fun rest ys hys => .done (hxs.block hys.front).2

theorem gathers_statements (hf : f.Valued) : GathersTree f .statements statements :=
  (gathers_statement hf).bind fun _ _ hxs => (Gathers.read .moreStatements).bind fun _ _ hys =>
    .done (hxs.block hys.front).1

theorem gathers_moreNames (hf : f.Valued) :
    Gathers f (fun ids xs => Among (yieldOrGap moreNamesYield ids) xs) moreNames := by
  refine .expect_bind hf (.name_bind hf (fun t => ?_) fun _ => .fail .nil)
    fun _ => .pushBack_bind (.of_gathers (.done .nil))
  refine (Gathers.read .moreNames).bind ?_
  rintro (_ | ids) xs hxs
  · exact .done .nil
  · exact .done (.word rfl (.leaf hxs.front))

theorem gathers_names (hf : f.Valued) : GathersTree f .names names := by
  refine .name_bind hf (fun t => ?_) fun _ => .fail .nil
  refine (Gathers.read .moreNames).bind ?_
  rintro (_ | ids) xs hxs
  · exact .done .nil
  · exact .done (.leaf hxs.front)

theorem gathers_declaration (hf : f.Valued) : GathersTree f .declaration declaration :=
  (gathers_oneOf hf ScalarType.eq_kind).bind fun _ _ hxs => (gathers_names hf).bind fun _ _ hys =>
    .done (hxs.append hys.front)

theorem gathers_declarationAndMore (hf : f.Valued) :
    Gathers f (fun ds xs => Among (yieldOrGap declsYield ds) xs) declarationAndMore := by
  refine (gathers_declaration hf).bind fun d xs hxs => ?_
  refine .expect_bind hf ((Gathers.read .moreDeclarations).bind ?_) fun _ => .fail .nil
  rintro (_ | ds) ys hys
  · exact .done .nil
  · refine .done ?_
    show Among (declsYield (d :: ds)) _
    rw [declsYield_cons]
    exact hxs.append (.word rfl hys.front)

theorem gathers_moreDeclarations (hf : f.Valued) :
    Gathers f (fun ds xs => Among (yieldOrGap declsYield ds) xs) moreDeclarations := by
  refine .peek_bind hf fun t => .of_gathers ?_
  split
  · exact gathers_declarationAndMore hf
  · exact .done .nil

theorem gathers_declarations (hf : f.Valued) : GathersTree f .declarations declarations := by
  refine .expect_bind hf ((gathers_declarationAndMore hf).mono ?_) fun _ => .fail .nil
  rintro (_ | ds) xs hxs
  · exact .nil
  · exact .word rfl hxs

theorem gathers_declSection (hf : f.Valued) :
    Gathers f (fun ds xs => Among ds.yield xs) declSection := by
  refine .peek_bind hf fun t => .of_gathers ?_
  split
  · exact .done .nil
  · refine (gathers_declarations hf).bind ?_
    rintro (_ | ds) xs hxs
    · exact .done .nil
    · exact .done hxs.front

theorem gathers_body (hf : f.Valued) : GathersTree f .body body := by
  refine (gathers_declSection hf).bind fun ds xs hxs => ?_
  refine .expect_bind hf ((Gathers.read .statements).bind fun b ys hys => ?_) fun _ => .fail .nil
  refine .expect_bind hf (.done (hxs.append (.word rfl ?_))) fun _ => .fail .nil
  exact hys.append (.word rfl .nil)

theorem gathers_program (hf : f.Valued) : GathersTree f .program program := by
  refine .expect_bind hf ((gathers_body hf).bind fun b xs hxs => ?_) fun _ => .fail .nil
  have hprogram : Among (Program.yield ⟨b⟩) (xs ++ []) := .word rfl hxs.front
  refine .peek_bind hf fun t => ?_
  split
  · exact .of_gathers (.done hprogram)
  · exact .note_bind (.recover_bind (.done hprogram))

theorem gathers_phrase (hf : f.Valued) (p : Phrase) :
    Gathers f (fun x xs => Among (p.yield x) xs) p.procedure := by
  cases p with
  | expression => exact gathers_expression hf
  | simpleTail => exact gathers_simpleTail hf
  | termTail => exact gathers_termTail hf
  | statements => exact gathers_statements hf
  | moreStatements => exact gathers_moreStatements hf
  | moreNames => exact gathers_moreNames hf
  | moreDeclarations => exact gathers_moreDeclarations hf

theorem gathering_phrase (hf : f.Valued) (p : Phrase) (s : Cursor) (h : s.Within f) :
    p.procedure.wp (gathering f) ((gathering f).post p s) s := by
  refine wp_mono ?_ _ (wp_and _ (wp_actual _ h) (gathers_phrase hf p s h))
  rintro x s' ⟨hrun, hgathered⟩
  exact ⟨hrun.trans (p.read_eq s).symm, hgathered⟩

end

/-- Every leaf of a program is the node of a token before the first end. The tokens of the leaves
follow one another in the input as the leaves do in the tree, and no recovery passed over any. -/
theorem leaves_parse (f : Feed) (hf : f.drawn = #[]) (hvalued : ∀ i, (f.upcoming i).Valued)
    (p : Program) (hp : (parse f).program = some p) :
    ∃ (n : Nat) (is : List Nat), (f.upcoming n).kind = .eof ∧ (∀ j < n, (f.upcoming j).kind ≠ .eof) ∧
      is.Pairwise (· < ·) ∧ (∀ i ∈ is, i < n) ∧
      Spelled (p.yield.filter Terminal.isLeaf) (is.map f.upcoming) ∧
      ∀ i ∈ is, ¬ Production.program.Skips (.ofFeed f) i := by
  have h : (ofFeed f).Within f := .ofFeed f hf
  have hgathered : Gathered f _ (ofFeed f).place (Production.program.Skips (.ofFeed f))
      (parse f).program (parse f).cursor :=
    Nonterminal.program.post_parse (fun p s h => gathering_phrase ⟨hf, hvalued⟩ p s h)
      (gathers_program ⟨hf, hvalued⟩ _ h)
  rw [hp] at hgathered
  obtain ⟨-, xs, hsub, hgleaned⟩ := hgathered
  obtain ⟨is, hsorted, his, hspelled⟩ := hgleaned.tokens
  obtain ⟨js, hjs, hleaves⟩ := hspelled.sublist hsub
  obtain ⟨hr, hend⟩ := parse_ready_atEnd hf
  obtain ⟨hk, hbefore, -, -⟩ := hend.first_end hf (parse_on f) hr
  exact ⟨_, js, hk, hbefore, hsorted.sublist hjs, fun i hi => (his i (hjs.subset hi)).2.1, hleaves,
    fun i hi => (his i (hjs.subset hi)).2.2⟩

/-- The second mark and the number behind it are passed over. -/
theorem leaves_parse_two_names :
    let f := Feed.ofTokens [⟨.routineKw, ⟨1, 1⟩, none⟩, ⟨.beginKw, ⟨1, 9⟩, none⟩,
      ⟨.identifier, ⟨1, 15⟩, some (.name "x")⟩, ⟨.assign, ⟨1, 17⟩, none⟩, ⟨.assign, ⟨1, 20⟩, none⟩,
      ⟨.intConst, ⟨1, 23⟩, some (.int 3)⟩, ⟨.semicolon, ⟨1, 24⟩, none⟩, ⟨.readKw, ⟨1, 26⟩, none⟩,
      ⟨.leftParen, ⟨1, 30⟩, none⟩, ⟨.identifier, ⟨1, 31⟩, some (.name "y")⟩,
      ⟨.rightParen, ⟨1, 32⟩, none⟩, ⟨.endKw, ⟨1, 34⟩, none⟩]
    f.drawn = #[] ∧ (∀ i, (f.upcoming i).Valued) ∧
      (parse f).cursor.skips = [(.assign, ⟨1, 20⟩), (.intConst, ⟨1, 23⟩)] ∧
      (∃ p, (parse f).program = some p ∧
        p.yield.filter Terminal.isLeaf = [.name ⟨"x", ⟨1, 15⟩⟩, .name ⟨"y", ⟨1, 31⟩⟩]) ∧
      ∃ is : List Nat, is.Pairwise (· < ·) ∧
        Spelled [.name ⟨"x", ⟨1, 15⟩⟩, .name ⟨"y", ⟨1, 31⟩⟩] (is.map f.upcoming) ∧
        ∀ i ∈ is, ¬ Production.program.Skips (.ofFeed f) i := by
  intro f
  have hvalued : ∀ i, (f.upcoming i).Valued := Feed.valued_ofTokens (by simp [Token.Valued])
  have hsome : (parse f).program.isSome = true := by decide +kernel
  obtain ⟨p, hp⟩ := Option.isSome_iff_exists.1 hsome
  have hleaves : p.yield.filter Terminal.isLeaf =
      [.name ⟨"x", ⟨1, 15⟩⟩, .name ⟨"y", ⟨1, 31⟩⟩] := by
    have hyield : (yieldOrGap Program.yield (parse f).program).filter Terminal.isLeaf =
        [.name ⟨"x", ⟨1, 15⟩⟩, .name ⟨"y", ⟨1, 31⟩⟩] := by decide +kernel
    rwa [hp] at hyield
  obtain ⟨-, is, -, -, hsorted, -, hspelled, hskips⟩ := leaves_parse f rfl hvalued p hp
  rw [hleaves] at hspelled
  have hskipped : (parse f).cursor.skips = [(.assign, ⟨1, 20⟩), (.intConst, ⟨1, 23⟩)] := by
    decide +kernel
  exact ⟨rfl, hvalued, hskipped, ⟨p, hp, hleaves⟩, is, hsorted, hspelled, hskips⟩

end Routine
