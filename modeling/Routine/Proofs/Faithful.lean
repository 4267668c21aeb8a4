import Routine.Proofs.Relocation
import Routine.Proofs.Rendering
import Routine.Proofs.Soundness

/-!
# What the text of a program tells

The tokens that are read from a source text can be spelled again, but for rejected texts and for
float constants (`Scan.token_cases`). So if a source text without float constants is parsed without
a report, the program that comes out spells its tokens and shows them in its text; and the text of a
program tells apart all that differs in more than places, and nothing else.
-/

namespace Routine

namespace Lexeme
variable {c : Char} {cs text rest : List Char}

theorem int_le_of_read {n : Nat} (hc : c.isDigit) (h : (read c cs).1.literal = some (.int n)) :
    n ≤ greatestInt := by
  simp only [read_of_digit hc, readNumber] at h
  split at h
  · split at h <;> cases h
  · simp only [ofDigits] at h
    split at h
    · next hle =>
      cases h
      exact hle
    · cases h

theorem printable_word {kind : Kind} {literal : Option Literal} (hform : Pattern.word.Matches text)
    (h : Pattern.word.Means text kind literal) : Content.Printable ⟨kind, literal⟩ := by
  rcases h with ⟨hk, -, rfl⟩ | ⟨hfree, rfl, rfl⟩
  · exact .keyword hk
  · refine .name (by rwa [String.toList_ofList]) ?_
    rcases hreserved : Kind.ofReserved? (String.ofList text) with - | k
    · rfl
    · obtain ⟨hk, hlabel⟩ := Kind.ofReserved?_eq_some_iff.1 hreserved
      exact absurd (by rw [hlabel, String.toList_ofList]) (hfree k hk)

/-- What is read is rejected, a float constant, or something that can be spelled again. -/
theorem read_cases (c : Char) (cs : List Char) :
    (read c cs).1.kind = .invalid ∨
      ((read c cs).1.kind = .floatConst ∧ ∃ x, (read c cs).1.literal = some (.float x)) ∨
      Content.Printable ⟨(read c cs).1.kind, (read c cs).1.literal⟩ := by
  rcases classified_read c cs with ⟨p, hform, hmeans, -⟩ | ⟨-, hkind, -⟩
  · cases p with
    | word => exact .inr (.inr (printable_word hform hmeans))
    | integer =>
      obtain ⟨hkind, hliteral⟩ := hmeans
      cases hform with
      | integer hds =>
        have hc : c.isDigit := isDigit_of_append hds (read_append c cs)
        rw [hkind, hliteral]
        exact .inr (.inr (.int (int_le_of_read hc hliteral)))
    | decimal =>
      obtain ⟨hkind, _, _, -, hliteral⟩ := hmeans
      exact .inr (.inl ⟨hkind, _, hliteral⟩)
    | char =>
      obtain ⟨hkind, d, htext, hliteral⟩ := hmeans
      rw [hkind, hliteral]
      rw [htext] at hform
      cases hform with
      | char hd hline => exact .inr (.inr (.char hd hline))
    | string =>
      obtain ⟨hkind, ds, htext, hliteral⟩ := hmeans
      rw [hkind, hliteral]
      refine .inr (.inr (.string ?_))
      rw [String.toList_ofList]
      generalize hwhole : (read c cs).1.text = whole at hform htext
      cases hform with
      | @string es hes =>
        obtain rfl : es = ds := by simpa using htext
        exact hes
    | symbol k =>
      obtain ⟨rfl, hliteral⟩ := hmeans
      rw [hliteral]
      generalize (read c cs).1.text = whole at hform
      cases hform with
      | symbol hk => exact .inr (.inr (.symbol hk))
  · exact .inl hkind

end Lexeme

theorem Scan.token_cases {s : Scan} {t : Token} (ht : t ∈ s.tokens) :
    t.kind = .eof ∨ t.kind = .invalid ∨ (t.kind = .floatConst ∧ ∃ x, t.literal = some (.float x)) ∨
      t.content.Printable := by
  obtain ⟨s, rfl⟩ := mem_tokens ht
  simp only [next]
  split
  · exact .inl rfl
  · next c cs _ => exact .inr (Lexeme.read_cases c cs)

theorem Content.Printable.valued {t : Token} (h : t.content.Printable) : t.Valued := by
  obtain ⟨k, p, l⟩ := t
  generalize hx : Token.content ⟨k, p, l⟩ = x at h
  cases h with
  | keyword hk | symbol hk =>
    cases hx
    revert hk
    cases k <;> simp [Token.Valued, Kind.keywords, Kind.symbols]
  | name | int | char | string =>
    cases hx
    exact ⟨_, rfl⟩

theorem Scan.valued_of_mem_tokens {s : Scan} {t : Token} (ht : t ∈ s.tokens) : t.Valued := by
  rcases token_cases ht with hkind | hkind | ⟨hkind, hvalue⟩ | hprintable
  · simp only [Token.Valued, hkind]
  · simp only [Token.Valued, hkind]
  · simpa only [Token.Valued, hkind] using hvalue
  · exact hprintable.valued

/-- A word or mark has no value. -/
theorem Content.Printable.eq_of_kind {x : Content} {k : Kind} (hx : x.Printable)
    (hk : Content.Printable ⟨k, none⟩) (h : x.kind = k) : x = ⟨k, none⟩ := by
  have hmem : k ∈ Kind.keywords ++ Kind.symbols := by
    cases hk with
    | keyword hk => exact List.mem_append_left _ hk
    | symbol hk => exact List.mem_append_right _ hk
  cases hx with
  | keyword | symbol => rw [← h]
  | name | int | char | string =>
    subst h
    simp [Kind.keywords, Kind.symbols] at hmem

/-- What a program spells is read off its text, so all of it can be spelled. -/
theorem Program.printable_of_mem {p : Program} (hp : p.Whole) (hy : Printable p.yield) {x : Terminal}
    (hx : x ∈ p.yield) (hend : x.content.kind ≠ .eof) (hvalid : x.content.kind ≠ .invalid) :
    x.content.Printable := by
  -- a word of the yield might have the kind of a name, for all its tokens say, but no text is read as such
  have hmem : x.content ∈ contents p.text.toList :=
    (p.shows hp hy).subset (List.mem_append_left _ (List.mem_map_of_mem hx))
  obtain ⟨t, ht, hcontent⟩ := List.mem_map.1 hmem
  rw [← hcontent] at hend hvalid ⊢
  rcases Scan.token_cases ht with hkind | hkind | ⟨-, y, hvalue⟩ | hprintable
  · exact absurd hkind hend
  · exact absurd hkind hvalid
  · have hliteral : x.content.literal = some (.float y) := hcontent ▸ hvalue
    cases x with
    | fixed => cases hliteral
    | name | string => cases hliteral
    | constant c =>
      have hc := hy _ hx
      cases c with
      | int | char => cases hliteral
      | float => cases hc
  · exact hprintable

theorem Spelled.printable {xs : List Terminal} {ts : List Token} (h : Spelled xs ts)
    (hts : ∀ t ∈ ts, t.content.Printable) : Printable xs := by
  induction xs generalizing ts with
  | nil => exact nofun
  | cons x xs ih =>
    obtain ⟨t, us, rfl, hx, hxs⟩ := Spelled.cons_iff.1 h
    obtain ⟨ht, hus⟩ := List.forall_mem_cons.1 hts
    refine printable_cons.2 ⟨?_, ih hxs hus⟩
    obtain ⟨k, p, l⟩ := t
    cases x with
    | fixed => exact True.intro
    | name | string =>
      obtain ⟨rfl, rfl, -⟩ := hx
      exact ht
    | constant c =>
      obtain ⟨rfl, rfl⟩ := hx
      exact ht

theorem Spelled.map_content {xs : List Terminal} {ts : List Token} (h : Spelled xs ts)
    (hxs : ∀ x ∈ xs, x.content.kind ≠ .eof → x.content.kind ≠ .invalid → x.content.Printable)
    (hts : ∀ t ∈ ts, t.content.Printable) : ts.map Token.content = xs.map Terminal.content := by
  induction xs generalizing ts with
  | nil =>
    obtain rfl := Spelled.nil_iff.1 h
    rfl
  | cons x xs ih =>
    obtain ⟨t, us, rfl, hx, hspelled⟩ := Spelled.cons_iff.1 h
    obtain ⟨ht, hus⟩ := List.forall_mem_cons.1 hts
    obtain ⟨hprintable, hxs⟩ := List.forall_mem_cons.1 hxs
    have hcontent : t.content = x.content := by
      obtain ⟨k, p, l⟩ := t
      cases x with
      | fixed k =>
        obtain rfl : _ = k := hx
        obtain ⟨hend, hvalid⟩ := ht.kind_ne
        exact ht.eq_of_kind (hprintable hend hvalid) rfl
      | name | constant | string =>
        obtain ⟨rfl, rfl, -⟩ := hx
        rfl
    rw [List.map_cons, List.map_cons, ih hspelled hxs hus, hcontent]

theorem Feed.upcoming_mem_tokens {f : Feed} {scan : Scan} (hf : f.source = .text scan) (i : Nat) :
    f.upcoming i ∈ scan.tokens := by
  obtain ⟨ts, e, htokens⟩ : ∃ ts e, scan.tokens = ts ++ [e] :=
    ⟨_, _, (List.dropLast_append_getLast (tokens_ne_nil scan)).symm⟩
  obtain ⟨htake, hlast⟩ := take_of_scan hf htokens
  rw [htokens]
  rcases Nat.lt_or_ge i ts.length with hlt | hge
  · have hget := f.getElem?_take (Nat.lt_succ_of_lt hlt)
    rw [htake] at hget
    exact List.mem_of_getElem? hget
  · obtain ⟨k, rfl⟩ := Nat.exists_eq_add_of_le hge
    rw [hlast k]
    exact List.mem_append_right _ (List.mem_singleton_self e)

/-- What is handed out before the first end are the tokens of the source text but the last. -/
theorem tokenize_of_take {source : String} {ts : List Token}
    (htake : (Feed.ofString source).take ts.length = ts) (hts : ∀ t ∈ ts, t.kind ≠ .eof)
    (hend : ((Feed.ofString source).upcoming ts.length).kind = .eof) :
    ∃ e, tokenize source = ts ++ [e] ∧ e.content = ⟨.eof, none⟩ := by
  obtain ⟨ps, last, -, -, htokens, hps⟩ := Scan.tokens_pieces [] source.toList
  obtain ⟨htake', hlast⟩ := Feed.take_of_scan (f := .ofString source) rfl htokens
  generalize hus : ps.map Piece.token = us at htokens htake' hlast
  have hbefore : ∀ t ∈ us, t.kind ≠ .eof := by
    rw [← hus]
    intro t ht
    obtain ⟨q, hq, rfl⟩ := List.mem_map.1 ht
    obtain ⟨front, back, hsplit⟩ := List.append_of_mem hq
    exact (hps front q back hsplit).kind
  have hfirst : ∀ vs : List Token, (Feed.ofString source).take vs.length = vs →
      (∀ t ∈ vs, t.kind ≠ .eof) → ∀ k < vs.length, ((Feed.ofString source).upcoming k).kind ≠ .eof := by
    intro vs hvs hkinds k hk
    have hmem := List.mem_of_getElem? (Feed.getElem?_take (Feed.ofString source) hk)
    rw [hvs] at hmem
    exact hkinds _ hmem
  have htake'' : (Feed.ofString source).take us.length = us := by
    rw [Feed.take_add] at htake'
    exact (List.append_inj htake' (Feed.length_take _ _)).1
  have hlength : us.length = ts.length :=
    first_unique (P := fun k => ((Feed.ofString source).upcoming k).kind = .eof)
      (congrArg Token.kind (hlast 0)) (hfirst us htake'' hbefore) hend (hfirst ts htake hts)
  rw [hlength, htake] at htake''
  exact ⟨_, htake'' ▸ htokens, rfl⟩

/-- A feed that is parsed without a report gives a whole program, which spells the tokens before the
first end. -/
theorem exists_program_of_clean {f : Feed} (hf : f.Valued) (hclean : (parse f).diagnostics = []) :
    ∃ p ts, (parse f).program = some p ∧ p.Whole ∧ Spelled p.yield ts ∧ f.take ts.length = ts ∧
      (∀ t ∈ ts, t.kind ≠ .eof ∧ t.kind ≠ .invalid) ∧ (f.upcoming ts.length).kind = .eof := by
  have hnone : (parse f).cursor.diagnostics = #[] := Array.toList_eq_nil_iff.1 hclean
  obtain ⟨hwhole, ts, hts, hpass⟩ := (Cursor.Within.ofFeed f hf.1).parse hf .program hnone
  obtain ⟨p, hp, hpwhole⟩ := present_iff.1 hwhole
  have hspelled : Spelled (yieldOrGap Program.yield (some p)) ts := hp ▸ hts
  have hconsumed : (parse f).cursor.consumed = ts := by
    rw [show (parse f).cursor.consumed = _ from hpass.consumed]
    simp [Cursor.consumed, Cursor.ofFeed, hf.1]
  obtain ⟨hready, hend⟩ := parse_ready_atEnd hf.1
  obtain ⟨hk, -, htake, hdrawn⟩ := hend.first_end hf.1 (parse_on f) hready
  rw [hconsumed] at hk htake hdrawn
  have hvalid := Cursor.kept_valid.parse .program (s := .ofFeed f) (by simp [Cursor.ofFeed, hf.1]) hnone
  refine ⟨p, ts, hp, hpwhole, hspelled, ?_, fun t ht => ⟨?_, hvalid t ?_⟩, hk⟩
  · rw [htake, Feed.take_add] at hdrawn
    exact (List.append_inj hdrawn (f.length_take _)).1
  · exact hready.consumed t (hconsumed ▸ ht)
  · show t ∈ (parse f).cursor.feed.drawn.toList
    rw [hdrawn]
    exact List.mem_append_left _ ht

/-- Without float constants, all that the tokens spell can be spelled. -/
theorem exists_printable_program {source : String} (hclean : (parse (.ofString source)).diagnostics = [])
    (hfloat : ∀ t ∈ tokenize source, t.kind ≠ .floatConst) :
    ∃ p ts, (parse (.ofString source)).program = some p ∧ p.Whole ∧ Spelled p.yield ts ∧
      Printable p.yield ∧ ts.map Token.content = p.yield.map Terminal.content ∧
      (tokenize source).map Token.content = ts.map Token.content ++ [⟨.eof, none⟩] := by
  have hvalued : (Feed.ofString source).Valued :=
    ⟨rfl, fun i => Scan.valued_of_mem_tokens (Feed.upcoming_mem_tokens rfl i)⟩
  obtain ⟨p, ts, hp, hwhole, hspelled, htake, hts, hend⟩ := exists_program_of_clean hvalued hclean
  obtain ⟨e, htokens, he⟩ := tokenize_of_take htake (fun t ht => (hts t ht).1) hend
  have hprintable : ∀ t ∈ ts, t.content.Printable := by
    intro t ht
    have hmem : t ∈ tokenize source := htokens ▸ List.mem_append_left _ ht
    rcases Scan.token_cases hmem with hkind | hkind | ⟨hkind, -⟩ | hprintable
    · exact absurd hkind (hts t ht).1
    · exact absurd hkind (hts t ht).2
    · exact absurd hkind (hfloat t hmem)
    · exact hprintable
  have hy : Printable p.yield := hspelled.printable hprintable
  have hcontent : ts.map Token.content = p.yield.map Terminal.content :=
    hspelled.map_content (fun _ => Program.printable_of_mem hwhole hy) hprintable
  refine ⟨p, ts, hp, hwhole, hspelled, hy, hcontent, ?_⟩
  rw [htokens, List.map_append, List.map_singleton, he]

/-- Source texts without float constants that are parsed without a report give programs that have the
same text exactly if the tokens are the same but for their places. -/
theorem text_eq_iff_contents {s₁ s₂ : String} (h₁ : (parse (.ofString s₁)).diagnostics = [])
    (h₂ : (parse (.ofString s₂)).diagnostics = []) (hfloat₁ : ∀ t ∈ tokenize s₁, t.kind ≠ .floatConst)
    (hfloat₂ : ∀ t ∈ tokenize s₂, t.kind ≠ .floatConst) :
    ∃ p₁ p₂, (parse (.ofString s₁)).program = some p₁ ∧ (parse (.ofString s₂)).program = some p₂ ∧
      (p₁.text = p₂.text ↔
        (tokenize s₁).map Token.content = (tokenize s₂).map Token.content) := by
  obtain ⟨p₁, ts₁, hp₁, hwhole₁, hspelled₁, hy₁, hcontent₁, htokens₁⟩ := exists_printable_program h₁ hfloat₁
  obtain ⟨p₂, ts₂, hp₂, hwhole₂, hspelled₂, hy₂, hcontent₂, htokens₂⟩ := exists_printable_program h₂ hfloat₂
  refine ⟨p₁, p₂, hp₁, hp₂, fun htext => ?_, fun htokens => ?_⟩
  · have hyields := Program.content_eq_of_text hwhole₁ hwhole₂ hy₁ hy₂ htext
    rw [htokens₁, htokens₂, hcontent₁, hcontent₂, hyields]
  · rw [htokens₁, htokens₂] at htokens
    exact Program.text_eq_of_contents hwhole₁ hwhole₂ hspelled₁ hspelled₂
      (List.append_cancel_right htokens)

/-- A sign and a difference of the same names are told apart. -/
theorem text_eq_iff_contents_minus :
    (parse (.ofString "routine begin x := -a end")).diagnostics = [] ∧
      (parse (.ofString "routine begin x := a - a // twice\n end")).diagnostics = [] ∧
      ∃ p₁ p₂, (parse (.ofString "routine begin x := -a end")).program = some p₁ ∧
        (parse (.ofString "routine begin x := a - a // twice\n end")).program = some p₂ ∧
        p₁.text ≠ p₂.text := by
  have h₁ : (parse (.ofString "routine begin x := -a end")).diagnostics = [] := by decide +kernel
  have h₂ : (parse (.ofString "routine begin x := a - a // twice\n end")).diagnostics = [] := by
    decide +kernel
  obtain ⟨p₁, p₂, hp₁, hp₂, htext⟩ :=
    text_eq_iff_contents h₁ h₂ (by decide +kernel) (by decide +kernel)
  refine ⟨h₁, h₂, p₁, p₂, hp₁, hp₂, fun heq => ?_⟩
  exact absurd (htext.1 heq) (by decide +kernel)

end Routine
