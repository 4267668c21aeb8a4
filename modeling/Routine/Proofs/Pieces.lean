import Routine.Proofs.History
import Routine.Proofs.Lexing

/-!
# The pieces of a text

A text is the spellings of its tokens with spacing in front of each and behind the last. Where a
token stands is read off the text before it: the line from its newlines, the column from the bytes
behind the last of them. The lexer takes one piece a step, never fails, and has counted the lines and
bytes of the pieces it has taken.
-/

namespace Routine

theorem Position.lt_of_lt_of_le {p q r : Position} (h : p < q) (h' : q ≤ r) : p < r := by
  rw [lt_iff] at *
  rw [le_iff] at h'
  omega

theorem Position.lt_afterAll (p : Position) {cs : List Char} (h : cs ≠ []) : p < p.afterAll cs := by
  obtain ⟨c, ds, rfl⟩ := List.exists_cons_of_ne_nil h
  exact lt_of_lt_of_le (lt_after p c) (le_afterAll _ ds)

/-- A token with its spelling and the spacing in front of it. -/
structure Piece where
  gap : List Char
  text : List Char
  token : Token

/-- The text that the pieces make. -/
def spell (ps : List Piece) : List Char :=
  ps.flatMap fun p => p.gap ++ p.text

@[simp] theorem spell_nil : spell [] = [] := rfl

@[simp] theorem spell_cons (p : Piece) (ps : List Piece) :
    spell (p :: ps) = p.gap ++ p.text ++ spell ps := rfl

@[simp] theorem spell_append (ps qs : List Piece) : spell (ps ++ qs) = spell ps ++ spell qs :=
  List.flatMap_append

/-- The piece stands between the texts `before` and `after`, and reading from the end of `before` on
takes it. -/
structure Piece.Stands (p : Piece) (before after : List Char) : Prop where
  kind : p.token.kind ≠ .eof
  ne_nil : p.text ≠ []
  newline : '\n' ∉ p.text
  fills : Spacing.Fills (p.text ++ after) p.gap
  next : Scan.next ⟨p.gap ++ p.text ++ after, Position.start.afterAll before⟩ =
    (p.token, ⟨after, Position.start.afterAll (before ++ p.gap ++ p.text)⟩)
  position : p.token.position.Behind (before ++ p.gap)
  /-- A lexer in front of the piece takes it, and does not fail. -/
  lexer : ∀ l : Lexer, l.At before (p.gap ++ p.text ++ after) → ∃ l', l.next = .ok (p.token, l') ∧
    l'.position = p.token.position ∧ l'.At (before ++ p.gap ++ p.text) after

namespace Scan
variable {before rest gap cs : List Char} {c : Char}

/-- What a step of a scan takes is a piece. -/
theorem stands_of_splits (before : List Char) (h : Spacing.Splits rest gap (c :: cs)) :
    Piece.Stands ⟨gap, (Lexeme.read c cs).1.text, ⟨(Lexeme.read c cs).1.kind,
      Position.start.afterAll (before ++ gap), (Lexeme.read c cs).1.literal⟩⟩ before
      (Lexeme.read c cs).2 := by
  have happend := Lexeme.read_append c cs
  have hrest : gap ++ (Lexeme.read c cs).1.text ++ (Lexeme.read c cs).2 = rest := by
    rw [List.append_assoc, happend, h.append]
  have hc : c ≠ '\n' := by
    rintro rfl
    exact absurd (h.clear.blank '\n' rfl) (by decide)
  exact {
    kind := read_kind_ne_eof c cs
    ne_nil := Lexeme.read_text_ne_nil c cs
    newline := Lexeme.newline_not_mem_read hc cs
    fills := by simpa only [happend] using h.fills
    next := by simp [hrest, next, h.split_eq, Position.afterAll_append]
    position := Position.behind_afterAll (before ++ gap)
    lexer := fun l hl => by
      rw [hrest] at hl
      exact hl.next_of_lexeme h }

/-- In front of a text there is a piece, or there is nothing but spacing. -/
theorem stands_or_blank (before rest : List Char) :
    (∃ p after, rest = p.gap ++ p.text ++ after ∧ Piece.Stands p before after) ∨
      Spacing.Fills [] rest ∧ next ⟨rest, Position.start.afterAll before⟩ =
        (⟨.eof, Position.start.afterAll (before ++ rest), none⟩,
          ⟨[], Position.start.afterAll (before ++ rest)⟩) := by
  have hsplits := Spacing.splits_split rest
  cases hclear : (Spacing.split rest).2 with
  | nil =>
    rw [hclear] at hsplits
    have hrest : rest = (Spacing.split rest).1 := by simpa using hsplits.append
    have hfills := hsplits.fills
    rw [← hrest] at hsplits hfills
    exact .inr ⟨hfills, by simp [next, hsplits.split_eq, Position.afterAll_append]⟩
  | cons c cs =>
    rw [hclear] at hsplits
    refine .inl ⟨_, _, ?_, stands_of_splits before hsplits⟩
    rw [List.append_assoc, Lexeme.read_append, ← hsplits.append]

/-- The tokens of a text are those of its pieces, and the end of the input behind the last spacing. -/
theorem tokens_pieces (before rest : List Char) : ∃ ps last, rest = spell ps ++ last ∧
    Spacing.Fills [] last ∧
    (Scan.mk rest (Position.start.afterAll before)).tokens =
      ps.map Piece.token ++ [⟨.eof, Position.start.afterAll (before ++ rest), none⟩] ∧
    ∀ front p back, ps = front ++ p :: back →
      p.Stands (before ++ spell front) (spell back ++ last) := by
  rcases stands_or_blank before rest with ⟨p, after, hrest, hp⟩ | ⟨hfills, hnext⟩
  · obtain ⟨ps, last, hafter, hlast, htokens, hps⟩ := tokens_pieces (before ++ p.gap ++ p.text) after
    refine ⟨p :: ps, last, ?_, hlast, ?_, ?_⟩
    · rw [hrest, hafter, spell_cons, List.append_assoc _ (spell ps)]
    · rw [tokens, hrest, hp.next, if_neg hp.kind, htokens]
      simp
    · intro front q back heq
      cases front with
      | nil =>
        obtain ⟨rfl, rfl⟩ := List.cons.inj heq
        rw [hafter] at hp
        simpa using hp
      | cons r front =>
        obtain ⟨rfl, htail⟩ := List.cons.inj heq
        simpa using hps front q back htail
  · refine ⟨[], rest, rfl, hfills, ?_, by simp⟩
    rw [tokens, hnext]
    rfl
termination_by rest.length
decreasing_by
  have := List.length_pos_iff.2 hp.ne_nil
  rw [hrest, List.length_append, List.length_append]
  omega

theorem position_le_next (s : Scan) : s.position ≤ s.next.1.position := by
  simp only [next]
  split <;> exact Position.le_afterAll _ _

/-- A step that takes a lexeme ends behind the position of its token. -/
theorem position_next_lt {s : Scan} (h : s.next.1.kind ≠ .eof) :
    s.next.1.position < s.next.2.position := by
  revert h
  simp only [next]
  split
  · simp
  · next c cs _ =>
    intro _
    exact Position.lt_afterAll _ (Lexeme.read_text_ne_nil c cs)

/-- The tokens of a text stand one behind the other. -/
theorem tokens_sorted (s : Scan) : (∀ t ∈ s.tokens, s.position ≤ t.position) ∧
    s.tokens.Pairwise fun t u => t.position < u.position := by
  have hle := s.position_le_next
  rw [tokens]
  split
  · simpa using hle
  · next hkind =>
    obtain ⟨hfrom, hsorted⟩ := tokens_sorted s.next.2
    have hlt := position_next_lt hkind
    refine ⟨?_, List.pairwise_cons.2 ⟨fun u hu => ?_, hsorted⟩⟩
    · intro t ht
      rcases List.mem_cons.1 ht with rfl | ht
      · exact hle
      · exact Position.le_trans hle (Position.le_trans (Position.le_of_lt hlt) (hfrom t ht))
    · exact Position.lt_of_lt_of_le hlt (hfrom u hu)
termination_by s.rest.length
decreasing_by exact length_next_lt ‹_›

end Scan

namespace Feed
variable {f : Feed} {p : Position}

theorem next_of_text {scan : Scan} (hf : f.source = .text scan) :
    f.next.1 = scan.next.1 ∧ f.next.2.source = .text scan.next.2 := by
  simp [next, hf, Source.next]

theorem upcoming_end (hf : f.source = .text ⟨[], p⟩) (k : Nat) : f.upcoming k = ⟨.eof, p, none⟩ := by
  induction k generalizing f with
  | zero => exact (next_of_text hf).1
  | succ k ih => exact ih (next_of_text hf).2

theorem tokens_ne_nil (scan : Scan) : scan.tokens ≠ [] := by
  rw [Scan.tokens]
  split <;> simp

/-- A text hands out its tokens, and from then on the last of them. -/
theorem take_of_scan {scan : Scan} (hf : f.source = .text scan) {ts : List Token} {e : Token}
    (h : scan.tokens = ts ++ [e]) :
    f.take (ts.length + 1) = ts ++ [e] ∧ ∀ k, f.upcoming (ts.length + k) = e := by
  induction ts generalizing f scan with
  | nil =>
    obtain ⟨hfirst, hsource⟩ := next_of_text hf
    rw [Scan.tokens] at h
    split at h
    · next hend =>
      have he : scan.next.1 = e := by simpa using h
      refine ⟨by simp [hfirst, he], fun k => ?_⟩
      rw [List.length_nil, Nat.zero_add]
      cases k with
      | zero => exact hfirst.trans he
      | succ k =>
        rw [Scan.next_of_eof hend] at hsource
        rw [upcoming_succ, upcoming_end hsource, ← he, Scan.next_of_eof hend]
    · exact absurd (List.cons.inj h).2 (tokens_ne_nil _)
  | cons t ts ih =>
    obtain ⟨hfirst, hsource⟩ := next_of_text hf
    rw [Scan.tokens] at h
    split at h
    · simp at h
    · obtain ⟨rfl, htail⟩ := List.cons.inj h
      obtain ⟨htake, hlast⟩ := ih hsource htail
      refine ⟨?_, fun k => ?_⟩
      · rw [List.length_cons, take_succ, hfirst, htake, List.cons_append]
      · rw [List.length_cons, Nat.add_right_comm, upcoming_succ]
        exact hlast k

end Feed

namespace Lexer
variable {l : Lexer} {before last : List Char}

/-- The lexer takes the pieces one by one. -/
theorem At.run_pieces {ps : List Piece} {after : List Char} (h : l.At before (spell ps ++ after))
    (hps : ∀ front p back, ps = front ++ p :: back →
      p.Stands (before ++ spell front) (spell back ++ after)) :
    ∃ l', l.run ps.length = .ok (ps.map Piece.token, l') ∧ l'.At (before ++ spell ps) after := by
  induction ps generalizing l before with
  | nil => exact ⟨l, rfl, by simpa using h⟩
  | cons p ps ih =>
    have hp : p.Stands before (spell ps ++ after) := by simpa using hps [] p ps rfl
    obtain ⟨l', hnext, -, hat⟩ := hp.lexer l (by simpa using h)
    obtain ⟨l'', hrun, hat'⟩ := ih hat fun front q back heq => by
      simpa using hps (p :: front) q back (congrArg (p :: ·) heq)
    exact ⟨l'', run_succ hnext hrun, by simpa using hat'⟩

/-- In front of nothing but spacing the lexer gives the end of the input, as often as it is asked. -/
theorem At.run_end (h : l.At before last) (hlast : Spacing.Fills [] last) (k : Nat) :
    ∃ l', l.run (k + 1) = .ok (List.replicate (k + 1)
        ⟨.eof, Position.start.afterAll (before ++ last), none⟩, l') ∧ l'.At (before ++ last) [] := by
  induction k generalizing l before last with
  | zero =>
    obtain ⟨l', hnext, -, hat⟩ := h.next_of_end ⟨(List.append_nil last).symm, hlast, by simp, rfl⟩
    exact ⟨l', run_succ hnext rfl, hat⟩
  | succ k ih =>
    obtain ⟨l', hnext, -, hat⟩ := h.next_of_end ⟨(List.append_nil last).symm, hlast, by simp, rfl⟩
    obtain ⟨l'', hrun, hat'⟩ := ih hat .nil
    rw [List.append_nil] at hrun hat'
    exact ⟨l'', run_succ hnext hrun, hat'⟩

/-- A run goes on where another one ends. -/
theorem run_add {l l' l'' : Lexer} {ts us : List Token} {m n : Nat} (h : l.run m = .ok (ts, l'))
    (h' : l'.run n = .ok (us, l'')) : l.run (m + n) = .ok (ts ++ us, l'') := by
  induction m generalizing l ts with
  | zero =>
    cases h
    rwa [Nat.zero_add]
  | succ m ih =>
    obtain ⟨t, l₁, rest, hnext, hrun, rfl⟩ := exists_of_run_succ h
    rw [Nat.add_right_comm]
    exact run_succ hnext (ih hrun)

end Lexer

/-- A text is its pieces and the spacing behind the last. Its tokens are those of the pieces, each
where its spelling stands, and then the end of the input, which does not go away. The lexer gives
them without a failure, and between two pieces its byte, its line and the byte at which the line
begins are those of the text before. -/
theorem tokenize_pieces (source : String) : ∃ ps last e,
    source.toList = spell ps ++ last ∧ tokenize source = ps.map Piece.token ++ [e] ∧
    (∀ front p back, ps = front ++ p :: back → p.Stands (spell front) (spell back ++ last)) ∧
    Spacing.Fills [] last ∧ e.kind = .eof ∧ e.position.Behind source.toList ∧
    ((tokenize source).Pairwise fun t u => t.position < u.position) ∧
    (Lexer.ofString source).tokens = .ok (tokenize source) ∧
    (∀ front back, ps = front ++ back → ∃ l : Lexer,
      (Lexer.ofString source).run front.length = .ok (front.map Piece.token, l) ∧
      l.At (spell front) (spell back ++ last)) ∧
    (∀ k, ∃ l : Lexer, (Lexer.ofString source).run (ps.length + (k + 1)) =
      .ok (ps.map Piece.token ++ List.replicate (k + 1) e, l) ∧ l.At source.toList []) ∧
    (Feed.ofString source).take (ps.length + 1) = tokenize source ∧
    ∀ k, (Feed.ofString source).upcoming (ps.length + k) = e := by
  obtain ⟨ps, last, htext, hlast, htokens, hps⟩ := Scan.tokens_pieces [] source.toList
  have htokens' : tokenize source =
      ps.map Piece.token ++ [⟨.eof, Position.start.afterAll source.toList, none⟩] := htokens
  obtain ⟨htake, hup⟩ := Feed.take_of_scan (f := .ofString source) rfl htokens'
  rw [List.length_map] at htake hup
  have hat := Lexer.at_ofString source
  rw [htext] at hat
  have hrun : ∀ front back, ps = front ++ back → ∃ l : Lexer,
      (Lexer.ofString source).run front.length = .ok (front.map Piece.token, l) ∧
      l.At (spell front) (spell back ++ last) := by
    rintro front back rfl
    have hfront : (Lexer.ofString source).At [] (spell front ++ (spell back ++ last)) := by
      simpa using hat
    refine hfront.run_pieces fun front' p back' heq => ?_
    simpa using hps front' p (back' ++ back) (by simp [heq])
  refine ⟨ps, last, _, htext, htokens', hps, hlast, rfl, Position.behind_afterAll _,
    (Scan.tokens_sorted _).2, Lexer.tokens_ofString source, hrun, fun k => ?_,
    htake.trans htokens'.symm, hup⟩
  obtain ⟨l, hpieces, hl⟩ := hrun ps [] (List.append_nil ps).symm
  obtain ⟨l', hend, hl'⟩ := Lexer.At.run_end (by simpa using hl) hlast k
  rw [← htext] at hend hl'
  exact ⟨l', Lexer.run_add hpieces hend, hl'⟩

end Routine
