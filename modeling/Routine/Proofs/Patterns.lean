import Mathlib.Data.List.TakeWhile
import Routine.Scan

/-!
# Patterns of lexemes

What the spacing between lexemes is (`Spacing.Splits`), which texts are lexemes (`Pattern.Matches`),
what they mean (`Pattern.Means`) and which texts are rejected (`Rejected`) is said here without a
reader. The reader takes the longest lexeme and gives it its meaning, and what it rejects is a
rejected text (`Lexeme.classified_read`). Lexemes of different forms are told apart by the character
they begin with (`Pattern.Starts`), all but whole numbers and those with a point.
-/

namespace Routine

/-- A run ends where a character does not belong to it. -/
theorem run_append (p : Char → Bool) (xs ys : List Char) (hxs : ∀ c ∈ xs, p c)
    (hys : ∀ c ∈ ys.head?, p c = false) :
    (xs ++ ys).takeWhile p = xs ∧ (xs ++ ys).dropWhile p = ys := by
  rw [List.takeWhile_append_of_pos hxs, List.dropWhile_append_of_pos hxs]
  cases ys with
  | nil => simp
  | cons c ys =>
    have hc : p c = false := hys c rfl
    simp [hc]

theorem head?_dropWhile (p : Char → Bool) (xs : List Char) :
    ∀ c ∈ (xs.dropWhile p).head?, p c = false := by
  intro c hc
  have h := List.head?_dropWhile_not p xs
  rw [Option.mem_def.1 hc] at h
  exact h

/-- No run in front of a text is longer than the longest one. -/
theorem length_le_run {p : Char → Bool} {xs ys : List Char} (hxs : ∀ c ∈ xs, p c) (h : xs <+: ys) :
    xs.length ≤ (ys.takeWhile p).length := by
  obtain ⟨zs, rfl⟩ := h
  rw [List.takeWhile_append_of_pos hxs, List.length_append]
  omega

namespace Spacing
variable {gap rest cs : List Char}

/-- `gap` is made of blanks and of comments, in front of the text `rest`. A comment runs up to a
newline or the end of the text. -/
inductive Fills (rest : List Char) : List Char → Prop
  | nil : Fills rest []
  | blank {c : Char} {gap : List Char} (hc : isBlank c) (h : Fills rest gap) : Fills rest (c :: gap)
  | comment {body gap : List Char} (hbody : '\n' ∉ body)
      (hend : ∀ c ∈ (gap ++ rest).head?, c = '\n') (h : Fills rest gap) :
      Fills rest ('/' :: '/' :: (body ++ gap))

/-- A text that begins with neither a blank nor a comment. -/
structure Clear (cs : List Char) : Prop where
  blank : ∀ c ∈ cs.head?, isBlank c = false
  comment : isComment cs = false

/-- `gap` is the spacing in front of the text `cs`, and `rest` what is left. -/
structure Splits (cs gap rest : List Char) : Prop where
  append : cs = gap ++ rest
  fills : Fills rest gap
  clear : Clear rest

theorem split_blank {c : Char} (hc : isBlank c) (cs : List Char) :
    split (c :: cs) = (c :: (split cs).1, (split cs).2) := by
  simp [split, splitFrom, hc]

theorem splitFrom_comment (cs : List Char) :
    splitFrom true cs = (cs.takeWhile (· != '\n') ++ (split (cs.dropWhile (· != '\n'))).1,
      (split (cs.dropWhile (· != '\n'))).2) := by
  induction cs with
  | nil => rfl
  | cons c cs ih =>
    by_cases hc : c = '\n'
    · subst hc
      exact (split_blank (c := '\n') (by decide) cs).symm
    · have hne : (c != '\n') = true := by simpa using hc
      simp only [splitFrom, hne, ih, List.takeWhile_cons, List.dropWhile_cons, if_true,
        List.cons_append]

theorem split_comment (cs : List Char) :
    split ('/' :: '/' :: cs) =
      ('/' :: '/' :: (cs.takeWhile (· != '\n') ++ (split (cs.dropWhile (· != '\n'))).1),
        (split (cs.dropWhile (· != '\n'))).2) := by
  show splitFrom false ('/' :: '/' :: cs) = _
  have hfrom : splitFrom false ('/' :: '/' :: cs) =
      ('/' :: '/' :: (splitFrom true cs).1, (splitFrom true cs).2) := rfl
  rw [hfrom, splitFrom_comment]

theorem Clear.split_eq (h : Clear cs) : split cs = ([], cs) := by
  cases cs with
  | nil => rfl
  | cons c cs =>
    have hblank : isBlank c = false := h.blank c rfl
    simp [split, splitFrom, hblank, h.comment]

/-- A text is clear, begins with a blank or begins with a comment. -/
theorem clear_or (cs : List Char) : Clear cs ∨ (∃ c ds, isBlank c ∧ cs = c :: ds) ∨
    ∃ ds, cs = '/' :: '/' :: ds := by
  cases cs with
  | nil => exact .inl ⟨by simp, rfl⟩
  | cons c cs =>
    cases hblank : isBlank c with
    | true => exact .inr (.inl ⟨c, cs, hblank, rfl⟩)
    | false =>
      cases hcomment : isComment (c :: cs) with
      | true =>
        simp only [isComment] at hcomment
        split at hcomment
        · next heq => exact .inr (.inr ⟨_, heq⟩)
        · contradiction
      | false => exact .inl ⟨by simpa using hblank, hcomment⟩

theorem splits_split (cs : List Char) : Splits cs (split cs).1 (split cs).2 := by
  rcases clear_or cs with hclear | ⟨c, ds, hc, rfl⟩ | ⟨ds, rfl⟩
  · rw [hclear.split_eq]
    exact ⟨rfl, .nil, hclear⟩
  · have ih := splits_split ds
    rw [split_blank hc]
    exact ⟨congrArg (c :: ·) ih.append, .blank hc ih.fills, ih.clear⟩
  · have ih := splits_split (ds.dropWhile (· != '\n'))
    rw [split_comment]
    refine ⟨?_, .comment ?_ ?_ ih.fills, ih.clear⟩
    · have happend := ih.append
      simp only [List.cons_append, List.append_assoc, ← happend, List.takeWhile_append_dropWhile]
    · intro hmem
      simpa using List.mem_takeWhile_imp hmem
    · intro c hc
      rw [← ih.append] at hc
      simpa using head?_dropWhile _ ds c hc
termination_by cs.length
decreasing_by
  · rename_i hcs
    simp [hcs]
  · rename_i hcs
    have := (List.dropWhile_sublist (l := ds) (· != '\n')).length_le
    rw [hcs, List.length_cons, List.length_cons]
    omega

/-- There is but one way to take the spacing off a text. -/
theorem Splits.split_eq (h : Splits cs gap rest) : split cs = (gap, rest) := by
  obtain ⟨rfl, hfills, hclear⟩ := h
  induction hfills with
  | nil => exact hclear.split_eq
  | blank hc _ ih => rw [List.cons_append, split_blank hc, ih]
  | @comment body gap hbody hend _ ih =>
    have hrun := run_append (· != '\n') body (gap ++ rest)
      (fun c hc => by simpa using ne_of_mem_of_not_mem hc hbody) (fun c hc => by simpa using hend c hc)
    rw [List.cons_append, List.cons_append, List.append_assoc, split_comment, hrun.1, hrun.2, ih]

end Spacing

/-! ### Lexemes and what they mean -/

/-- The marks and operators. -/
def Kind.symbols : List Kind :=
  [.assign, .semicolon, .comma, .leftParen, .rightParen, .plus, .minus, .star, .slash, .equal,
    .notEqual, .greater, .less, .greaterEqual, .lessEqual]

/-- At least one digit, and nothing but digits. -/
structure Digits (ds : List Char) : Prop where
  ne_nil : ds ≠ []
  digit : ∀ d ∈ ds, d.isDigit

/-- The forms of lexemes. -/
inductive Pattern where
  | word | integer | decimal | char | string
  | symbol (kind : Kind)
deriving DecidableEq

/-- The character may stand in a string constant. -/
def Inner (c : Char) : Prop := c ≠ '"' ∧ c ≠ '\n'

namespace Pattern

/-- The texts of a form. -/
inductive Matches : Pattern → List Char → Prop
  | word {c : Char} {cs : List Char} (hc : Lexeme.isWordStart c) (hcs : ∀ d ∈ cs, Lexeme.isWordChar d) :
    Matches word (c :: cs)
  | integer {ds : List Char} (h : Digits ds) : Matches integer ds
  | decimal {whole frac : List Char} (hwhole : Digits whole) (hfrac : Digits frac) :
    Matches decimal (whole ++ '.' :: frac)
  | char {c : Char} (hc : c ≠ Lexeme.quote) (hline : c ≠ '\n') : Matches char [Lexeme.quote, c, Lexeme.quote]
  | string {cs : List Char} (hcs : ∀ c ∈ cs, Inner c) : Matches string ('"' :: (cs ++ ['"']))
  | symbol {k : Kind} (hk : k ∈ Kind.symbols) : Matches (symbol k) k.label.toList

/-- What a text of a form means: the kind and the value of its token. -/
def Means (text : List Char) (kind : Kind) (literal : Option Literal) : Pattern → Prop
  | word => kind ∈ Kind.keywords ∧ kind.label.toList = text ∧ literal = none ∨
      (∀ k ∈ Kind.keywords, k.label.toList ≠ text) ∧ kind = .identifier ∧
        literal = some (.name (String.ofList text))
  | integer => kind = .intConst ∧ literal = some (.int (Nat.ofDigitChars 10 text 0))
  | decimal => kind = .floatConst ∧ ∃ whole frac, text = whole ++ '.' :: frac ∧
      literal = some (.float (Binary64.ofDecimal whole frac))
  | char => kind = .charConst ∧ ∃ c, text = [Lexeme.quote, c, Lexeme.quote] ∧ literal = some (.char c)
  | string => kind = .stringConst ∧ ∃ cs, text = '"' :: (cs ++ ['"']) ∧
      literal = some (.string (String.ofList cs))
  | symbol k => kind = k ∧ literal = none

end Pattern

/-- The texts that are rejected, each in front of what is left. -/
inductive Rejected : (text rest : List Char) → Prop
  | colon {rest : List Char} (h : rest.head? ≠ some '=') : Rejected [':'] rest
  /-- A number that ends in its point. -/
  | point {ds rest : List Char} (hds : Digits ds) (h : ∀ c ∈ rest.head?, c.isDigit = false) :
    Rejected (ds ++ ['.']) rest
  /-- A whole number that is too great. -/
  | great {ds rest : List Char} (hds : Digits ds) (hvalue : Nat.pow 2 63 - 1 < Nat.ofDigitChars 10 ds 0)
      (h : ∀ c ∈ rest.head?, c.isDigit = false ∧ c ≠ '.') : Rejected ds rest
  /-- A string constant that is not closed on its line. -/
  | openString {cs rest : List Char} (hcs : ∀ c ∈ cs, Inner c) (h : ∀ c ∈ rest.head?, c = '\n') :
    Rejected ('"' :: cs) rest
  /-- A quote at the end of its line. -/
  | lastQuote {rest : List Char} (h : ∀ c ∈ rest.head?, c = '\n') : Rejected [Lexeme.quote] rest
  /-- A character constant without a character. -/
  | emptyChar {rest : List Char} : Rejected [Lexeme.quote, Lexeme.quote] rest
  /-- A character constant that is not closed behind its character. -/
  | openChar {c : Char} {rest : List Char} (hc : c ≠ Lexeme.quote) (hline : c ≠ '\n')
      (h : rest.head? ≠ some Lexeme.quote) : Rejected [Lexeme.quote, c] rest
  /-- A character with which no lexeme begins. -/
  | stray {c : Char} {rest : List Char} (h : ∀ p cs, ¬ Pattern.Matches p (c :: cs)) : Rejected [c] rest

theorem isDigit_of_isWordStart {c : Char} (h : Lexeme.isWordStart c) : c.isDigit = false := by
  by_contra hd
  have hdigit : c.val ≤ '9'.val := by
    have hle := Bool.and_eq_true_iff.1 (eq_true_of_ne_false hd)
    exact of_decide_eq_true hle.2
  rcases Bool.or_eq_true_iff.1 h with hletter | hline
  · rcases Bool.or_eq_true_iff.1 hletter with hupper | hlower
    · have hle : 'A'.val ≤ c.val := (of_decide_eq_true hupper).1
      exact absurd (UInt32.le_trans hle hdigit) (by decide)
    · have hle : 'a'.val ≤ c.val := of_decide_eq_true (Bool.and_eq_true_iff.1 hlower).1
      exact absurd (UInt32.le_trans hle hdigit) (by decide)
  · obtain rfl : c = '_' := of_decide_eq_true hline
    exact absurd hdigit (by decide)

theorem symbol_head {k : Kind} (hk : k ∈ Kind.symbols) {c : Char} (hc : c ∈ k.label.toList.head?) :
    Lexeme.isWordStart c = false ∧ c.isDigit = false ∧ c ≠ Lexeme.quote ∧ c ≠ '"' := by
  have hall : k.label.toList.head?.all fun c =>
      !Lexeme.isWordStart c && (!c.isDigit && (c != Lexeme.quote && c != '"')) := by
    revert hk
    cases k <;> decide
  rw [Option.mem_def.1 hc] at hall
  simpa using hall

theorem symbol_shape {k : Kind} (hk : k ∈ Kind.symbols) :
    (∃ c, k.label.toList = [c] ∧ Lexeme.symbolKind c = k) ∨
      ∃ c d, k.label.toList = [c, d] ∧ Lexeme.pairKind? c d = some k := by
  cases k with
  | assign => exact .inr ⟨':', '=', rfl, rfl⟩
  | notEqual => exact .inr ⟨'<', '>', rfl, rfl⟩
  | lessEqual => exact .inr ⟨'<', '=', rfl, rfl⟩
  | greaterEqual => exact .inr ⟨'>', '=', rfl, rfl⟩
  | semicolon | comma | leftParen | rightParen | plus | minus | star | slash | equal | greater
  | less => exact .inl ⟨_, rfl, rfl⟩
  | _ => exact absurd hk (by decide)

theorem pairKind?_eq_some_iff {c d : Char} {k : Kind} :
    Lexeme.pairKind? c d = some k ↔ k ∈ Kind.symbols ∧ k.label.toList = [c, d] := by
  constructor
  · intro h
    unfold Lexeme.pairKind? at h
    split at h
    all_goals
      cases h
      try exact ⟨by decide, rfl⟩
  · rintro ⟨hk, hlabel⟩
    rcases symbol_shape hk with ⟨c', h, -⟩ | ⟨c', d', h, hpair⟩
    · simp [h] at hlabel
    · obtain ⟨rfl, rfl⟩ : c' = c ∧ d' = d := by simpa [h] using hlabel
      exact hpair

theorem symbolKind_eq_iff {c : Char} {k : Kind} (hk : k ≠ .invalid) :
    Lexeme.symbolKind c = k ↔ k ∈ Kind.symbols ∧ k.label.toList = [c] := by
  constructor
  · rintro rfl
    unfold Lexeme.symbolKind at hk ⊢
    split at hk
    all_goals first
      | exact ⟨by decide, rfl⟩
      | exact absurd rfl hk
  · rintro ⟨hk, hlabel⟩
    rcases symbol_shape hk with ⟨c', h, hkind⟩ | ⟨c', d', h, -⟩
    · obtain rfl : c' = c := by simpa [h] using hlabel
      exact hkind
    · simp [h] at hlabel

/-- A character that begins a pair is a symbol by itself, but for the colon. -/
theorem symbolKind_of_pairKind? {c d : Char} {k : Kind} (h : Lexeme.pairKind? c d = some k) :
    c = ':' ∨ Lexeme.symbolKind c ≠ .invalid := by
  unfold Lexeme.pairKind? at h
  split at h
  · exact .inl rfl
  · exact .inr (by decide)
  · exact .inr (by decide)
  · exact .inr (by decide)
  · cases h

namespace Pattern
variable {p q : Pattern} {c : Char} {cs text : List Char}

/-- The character is one that a text of the form begins with. -/
def Starts (c : Char) : Pattern → Prop
  | word => Lexeme.isWordStart c
  | integer | decimal => c.isDigit
  | char => c = Lexeme.quote
  | string => c = '"'
  | symbol k => k ∈ Kind.symbols ∧ c ∈ k.label.toList.head?

theorem Matches.ne_nil (h : p.Matches text) : text ≠ [] := by
  cases h with
  | word => simp
  | integer h => exact h.ne_nil
  | decimal => simp
  | char => simp
  | string => simp
  | symbol hk => rcases symbol_shape hk with ⟨c, h, -⟩ | ⟨c, d, h, -⟩ <;> simp [h]

theorem Matches.starts (h : p.Matches text) (hc : c ∈ text.head?) : p.Starts c := by
  cases h with
  | word hd =>
    cases hc
    exact hd
  | integer h => exact h.digit c (List.mem_of_mem_head? hc)
  | decimal hwhole =>
    obtain ⟨d, ds, rfl⟩ := List.exists_cons_of_ne_nil hwhole.ne_nil
    cases hc
    exact hwhole.digit c (by simp)
  | char =>
    cases hc
    rfl
  | string =>
    cases hc
    rfl
  | symbol hk => exact ⟨hk, hc⟩

/-- A text of the form in front of another begins with the same character. -/
theorem Matches.starts_of_prefix (h : p.Matches text) (hpre : text <+: c :: cs) : p.Starts c := by
  obtain ⟨d, ds, rfl⟩ := List.exists_cons_of_ne_nil h.ne_nil
  obtain ⟨rfl, -⟩ := List.cons_prefix_cons.1 hpre
  exact h.starts rfl

theorem Starts.of_wordStart (h : p.Starts c) (hc : Lexeme.isWordStart c) : p = .word := by
  cases p with
  | word => rfl
  | integer | decimal => simp [Starts, isDigit_of_isWordStart hc] at h
  | char | string =>
    obtain rfl : c = _ := h
    exact absurd hc (by decide)
  | symbol k => simp [(symbol_head h.1 h.2).1] at hc

theorem Starts.of_digit (h : p.Starts c) (hc : c.isDigit) : p = .integer ∨ p = .decimal := by
  cases p with
  | integer => exact .inl rfl
  | decimal => exact .inr rfl
  | word => simp [isDigit_of_isWordStart h] at hc
  | char | string =>
    obtain rfl : c = _ := h
    exact absurd hc (by decide)
  | symbol k => simp [(symbol_head h.1 h.2).2.1] at hc

theorem Starts.of_quote (h : p.Starts Lexeme.quote) : p = .char := by
  cases p with
  | char => rfl
  | symbol k => exact absurd rfl (symbol_head h.1 h.2).2.2.1
  | word | integer | decimal | string =>
    revert h
    unfold Starts
    decide

theorem Starts.of_doubleQuote (h : p.Starts '"') : p = .string := by
  cases p with
  | string => rfl
  | symbol k => exact absurd rfl (symbol_head h.1 h.2).2.2.2
  | word | integer | decimal | char =>
    revert h
    unfold Starts
    decide

theorem Starts.of_other (h : p.Starts c) (hquotes : c ≠ '"' ∧ c ≠ Lexeme.quote)
    (hdigit : c.isDigit = false) (hword : Lexeme.isWordStart c = false) :
    ∃ k ∈ Kind.symbols, p = .symbol k ∧ c ∈ k.label.toList.head? := by
  cases p with
  | symbol k => exact ⟨k, h.1, rfl, h.2⟩
  | word => simp [Starts, hword] at h
  | integer | decimal => simp [Starts, hdigit] at h
  | char => exact absurd h hquotes.2
  | string => exact absurd h hquotes.1

end Pattern

/-! ### What the reader takes -/

theorem isStringChar_iff {c : Char} : Lexeme.isStringChar c ↔ Inner c := by
  simp [Lexeme.isStringChar, Inner]

theorem isDigit_of_append {ds rest : List Char} {c : Char} {cs : List Char} (hds : Digits ds)
    (h : ds ++ rest = c :: cs) : c.isDigit := by
  obtain ⟨e, es, rfl⟩ := List.exists_cons_of_ne_nil hds.ne_nil
  obtain ⟨rfl, -⟩ := List.cons.inj h
  exact hds.digit e (by simp)

/-- The digits in front of the point of a number are all the digits in front of a text. -/
theorem prefix_of_decimal {whole frac ds rest : List Char} (hwhole : ∀ d ∈ whole, d.isDigit)
    (hds : ∀ d ∈ ds, d.isDigit) (hrest : ∀ c ∈ rest.head?, c.isDigit = false)
    (h : whole ++ '.' :: frac <+: ds ++ rest) : whole = ds ∧ '.' :: frac <+: rest := by
  obtain ⟨t, h⟩ := h
  have hleft := run_append Char.isDigit whole ('.' :: (frac ++ t)) hwhole (by simp)
  have hright := run_append Char.isDigit ds rest hds hrest
  have heq : whole ++ '.' :: (frac ++ t) = ds ++ rest := by simpa using h
  rw [heq] at hleft
  exact ⟨hleft.1.symm.trans hright.1, t, hleft.2.symm.trans hright.2⟩

/-- A lexeme in front of a text that begins with digits ends in the digits, or goes on behind a
point. -/
theorem Pattern.Matches.number_cases {q : Pattern} {text ds rest : List Char} (h : q.Matches text)
    (hds : Digits ds) (hrest : ∀ c ∈ rest.head?, c.isDigit = false) (hpre : text <+: ds ++ rest) :
    text.length ≤ ds.length ∨
      ∃ frac, Digits frac ∧ text = ds ++ '.' :: frac ∧ '.' :: frac <+: rest := by
  obtain ⟨d, es, hes⟩ := List.exists_cons_of_ne_nil hds.ne_nil
  have hstarts : q.Starts d := by
    rw [hes] at hpre
    exact h.starts_of_prefix hpre
  rcases hstarts.of_digit (hds.digit d (by simp [hes])) with rfl | rfl
  · cases h with
    | integer h =>
      have hle := length_le_run h.digit hpre
      rw [(run_append Char.isDigit ds rest hds.digit hrest).1] at hle
      exact .inl hle
  · cases h with
    | decimal hwhole hfrac =>
      obtain ⟨rfl, hpoint⟩ := prefix_of_decimal hwhole.digit hds.digit hrest hpre
      exact .inr ⟨_, hfrac, rfl, hpoint⟩

namespace Lexeme
variable {c : Char} {cs rest : List Char}

/-- The lexeme is the longest one in front of the text it makes with `rest`, and it has the kind and
the value that its form gives it. -/
def Accepted (l : Lexeme) (rest : List Char) : Prop :=
  ∃ p, Pattern.Matches p l.text ∧ p.Means l.text l.kind l.literal ∧
    ∀ q text, text <+: l.text ++ rest → Pattern.Matches q text → text.length ≤ l.text.length

/-- What has been read is a lexeme or a text that is rejected. -/
def Classified (o : Lexeme × List Char) : Prop :=
  o.1.Accepted o.2 ∨ Rejected o.1.text o.2 ∧ o.1.kind = .invalid ∧ o.1.literal = none

theorem ofWord_means (word : List Char) :
    Pattern.word.Means word (ofWord word).kind (ofWord word).literal := by
  simp only [ofWord]
  split
  · next k hk =>
    obtain ⟨hmem, hlabel⟩ := Kind.ofReserved?_eq_some_iff.1 hk
    exact .inl ⟨hmem, by rw [hlabel, String.toList_ofList], rfl⟩
  · next hnone =>
    refine .inr ⟨fun k hk hlabel => ?_, rfl, rfl⟩
    have hsome : Kind.ofReserved? (String.ofList word) = some k :=
      Kind.ofReserved?_eq_some_iff.2 ⟨hk, by rw [← hlabel, String.ofList_toList]⟩
    simp [hsome] at hnone

theorem classified_readWord (hc : isWordStart c) : Classified (readWord (c :: cs)) := by
  have happend := readWord_append (c :: cs)
  have htext : (readWord (c :: cs)).1.text = (c :: cs).takeWhile isWordChar := ofWord_text _
  refine .inl ⟨.word, ?_, ?_, fun q text hpre hq => ?_⟩
  · rw [htext, List.takeWhile_cons_of_pos (isWordChar_of_isWordStart hc)]
    exact .word hc fun d hd => List.mem_takeWhile_imp hd
  · rw [htext]
    exact ofWord_means _
  · rw [happend] at hpre
    obtain rfl := (hq.starts_of_prefix hpre).of_wordStart hc
    rw [htext]
    refine length_le_run ?_ hpre
    cases hq with
    | word hd hds =>
      intro e he
      rcases List.mem_cons.1 he with rfl | he
      · exact isWordChar_of_isWordStart hd
      · exact hds e he

theorem classified_ofDigits (hcs : Digits cs) (hrest : ∀ c ∈ rest.head?, c.isDigit = false ∧ c ≠ '.') :
    Classified (ofDigits cs, rest) := by
  have hnot : ∀ c ∈ rest.head?, c.isDigit = false := fun c hc => (hrest c hc).1
  simp only [Classified, ofDigits]
  split
  · refine .inl ⟨.integer, .integer hcs, ⟨rfl, rfl⟩, fun q text hpre hq => ?_⟩
    rcases hq.number_cases hcs hnot hpre with hle | ⟨frac, -, -, t, rfl⟩
    · exact hle
    · exact absurd rfl (hrest '.' rfl).2
  · next hgreat =>
    have hvalue : Nat.pow 2 63 - 1 < Nat.ofDigitChars 10 cs 0 := Nat.lt_of_not_le hgreat
    exact .inr ⟨.great hcs hvalue hrest, rfl, rfl⟩

theorem classified_decimal {whole frac : List Char} (hwhole : Digits whole) (hfrac : Digits frac)
    (hrest : ∀ c ∈ rest.head?, c.isDigit = false) :
    Classified (⟨whole ++ '.' :: frac, .floatConst, some (.float (Binary64.ofDecimal whole frac))⟩,
      rest) := by
  refine .inl ⟨.decimal, .decimal hwhole hfrac, ⟨rfl, whole, frac, rfl, rfl⟩, fun q text hpre hq => ?_⟩
  have hpre' : text <+: whole ++ '.' :: (frac ++ rest) := by simpa using hpre
  rcases hq.number_cases hwhole (by simp) hpre' with hle | ⟨frac', hfrac', rfl, hpoint⟩
  · rw [List.length_append]
    omega
  · have hle := length_le_run hfrac'.digit (List.cons_prefix_cons.1 hpoint).2
    rw [(run_append Char.isDigit frac rest hfrac.digit hrest).1] at hle
    simpa using hle

theorem classified_readNumber (hc : c.isDigit) : Classified (readNumber (c :: cs)) := by
  have hwhole : Digits ((c :: cs).takeWhile Char.isDigit) :=
    ⟨by simp [hc], fun d hd => List.mem_takeWhile_imp hd⟩
  have hboundary := head?_dropWhile Char.isDigit (c :: cs)
  simp only [readNumber]
  split
  · next rest hr =>
    have hrest := head?_dropWhile Char.isDigit rest
    split
    · next hfrac =>
      have hnone : rest.takeWhile Char.isDigit = [] := by simpa using hfrac
      have hall : rest.dropWhile Char.isDigit = rest := by
        have := List.takeWhile_append_dropWhile (p := Char.isDigit) (l := rest)
        rwa [hnone] at this
      rw [hall] at hrest
      exact .inr ⟨.point hwhole hrest, rfl, rfl⟩
    · next hfrac =>
      have hfrac' : Digits (rest.takeWhile Char.isDigit) :=
        ⟨by simpa using hfrac, fun d hd => List.mem_takeWhile_imp hd⟩
      exact classified_decimal hwhole hfrac' hrest
  · next hpoint =>
    refine classified_ofDigits hwhole fun d hd => ⟨hboundary d hd, ?_⟩
    rintro rfl
    obtain ⟨ds, hds⟩ := List.head?_eq_some_iff.1 hd
    exact hpoint ds hds

theorem classified_readString (cs : List Char) : Classified (readString cs) := by
  have hinner : ∀ c ∈ cs.takeWhile isStringChar, Inner c := fun c hc =>
    isStringChar_iff.1 (List.mem_takeWhile_imp hc)
  have hboundary := head?_dropWhile isStringChar cs
  simp only [readString]
  split
  · next rest hr =>
    refine .inl ⟨.string, .string hinner, ⟨rfl, _, rfl, rfl⟩, fun q text hpre hq => ?_⟩
    obtain rfl := (hq.starts_of_prefix hpre).of_doubleQuote
    cases hq with
    | @string ds hds =>
      obtain ⟨t, hpre⟩ := (List.cons_prefix_cons.1 hpre).2
      have hends : ∀ c ∈ ('"' :: t).head?, isStringChar c = false := by
        rintro c ⟨⟩
        decide
      have hrun := run_append isStringChar ds ('"' :: t) (fun c hc => isStringChar_iff.2 (hds c hc)) hends
      have heq : ds ++ '"' :: t = cs := by
        rw [← List.takeWhile_append_dropWhile (p := isStringChar) (l := cs), hr]
        simpa using hpre
      rw [heq] at hrun
      simp [hrun.1]
  · next hopen =>
    refine .inr ⟨.openString hinner fun c hc => ?_, rfl, rfl⟩
    have hnot : isStringChar c = false := hboundary c hc
    obtain ⟨ds, hds⟩ := List.head?_eq_some_iff.1 hc
    by_contra hline
    have hquote : c = '"' := by simpa [isStringChar, hline] using hnot
    exact hopen ds (hquote ▸ hds)

theorem classified_readChar (cs : List Char) : Classified (readChar cs) := by
  unfold readChar
  split
  · exact .inr ⟨.lastQuote (by simp), rfl, rfl⟩
  · next c cs =>
    split
    · next hline => exact .inr ⟨.lastQuote (by simpa using hline), rfl, rfl⟩
    · next hline =>
      split
      · next hquote =>
        subst hquote
        exact .inr ⟨.emptyChar, rfl, rfl⟩
      · next hquote =>
        split
        · next d rest =>
          split
          · next hd =>
            subst hd
            refine .inl ⟨.char, .char hquote hline, ⟨rfl, c, rfl, rfl⟩, fun q text hpre hq => ?_⟩
            obtain rfl := (hq.starts_of_prefix hpre).of_quote
            cases hq with
            | char => simp
          · next hd =>
            exact .inr ⟨.openChar hquote hline (by simpa using hd), rfl, rfl⟩
        · exact .inr ⟨.openChar hquote hline (by simp), rfl, rfl⟩

theorem readSymbol_eq (c : Char) (cs : List Char) :
    (∃ d rest k, cs = d :: rest ∧ pairKind? c d = some k ∧
      readSymbol c cs = (⟨[c, d], k, none⟩, rest)) ∨
    (∀ d ∈ cs.head?, pairKind? c d = none) ∧ readSymbol c cs = (⟨[c], symbolKind c, none⟩, cs) := by
  cases cs with
  | nil => exact .inr ⟨by simp, rfl⟩
  | cons d rest =>
    cases hpair : pairKind? c d with
    | some k => exact .inl ⟨d, rest, k, rfl, hpair, by simp [readSymbol, hpair]⟩
    | none => exact .inr ⟨by simpa using hpair, by simp [readSymbol, hpair]⟩

/-- A character that is no symbol begins none either, but for the colon. -/
theorem not_symbol_head (hkind : symbolKind c = .invalid) (hcolon : c ≠ ':') {k : Kind}
    (hk : k ∈ Kind.symbols) : c ∉ k.label.toList.head? := by
  intro hhead
  rcases symbol_shape hk with ⟨c', h, hsymbol⟩ | ⟨c', d', h, hpair⟩
  · obtain rfl : c' = c := by simpa [h] using hhead
    rw [← hsymbol, hkind] at hk
    exact absurd hk (by decide)
  · obtain rfl : c' = c := by simpa [h] using hhead
    exact (symbolKind_of_pairKind? hpair).elim hcolon (· hkind)

/-- A character that begins no other lexeme is read as a symbol, if it begins one. -/
theorem classified_readSymbol (hquotes : c ≠ '"' ∧ c ≠ quote) (hdigit : c.isDigit = false)
    (hword : isWordStart c = false) (cs : List Char) : Classified (readSymbol c cs) := by
  have hsymbol : ∀ {q text}, Pattern.Matches q text → text <+: c :: cs →
      ∃ k ∈ Kind.symbols, text = k.label.toList := by
    intro q text hq hpre
    obtain ⟨k, hk, rfl, -⟩ := (hq.starts_of_prefix hpre).of_other hquotes hdigit hword
    cases hq
    exact ⟨k, hk, rfl⟩
  rcases readSymbol_eq c cs with ⟨d, rest, k, rfl, hpair, hread⟩ | ⟨hnone, hread⟩
  · obtain ⟨hk, hlabel⟩ := pairKind?_eq_some_iff.1 hpair
    rw [hread]
    refine .inl ⟨.symbol k, hlabel ▸ .symbol hk, ⟨rfl, rfl⟩, fun q text hpre hq => ?_⟩
    obtain ⟨k', hk', rfl⟩ := hsymbol hq hpre
    rcases symbol_shape hk' with ⟨c', h, -⟩ | ⟨c', d', h, -⟩ <;> simp [h]
  · rw [hread]
    by_cases hkind : symbolKind c = .invalid
    · by_cases hcolon : c = ':'
      · subst hcolon
        refine .inr ⟨.colon fun hhead => ?_, rfl, rfl⟩
        exact absurd (hnone '=' hhead) (by decide)
      · refine .inr ⟨.stray fun q text hq => ?_, hkind, rfl⟩
        obtain ⟨k, hk, -, hhead⟩ := (hq.starts rfl).of_other hquotes hdigit hword
        exact not_symbol_head hkind hcolon hk hhead
    · obtain ⟨hk, hlabel⟩ := (symbolKind_eq_iff hkind).1 rfl
      refine .inl ⟨.symbol (symbolKind c), hlabel ▸ .symbol hk, ⟨rfl, rfl⟩, fun q text hpre hq => ?_⟩
      obtain ⟨k', hk', rfl⟩ := hsymbol hq hpre
      rcases symbol_shape hk' with ⟨c', h, -⟩ | ⟨c', d', h, hpair⟩
      · simp [h]
      · -- a longer symbol would have been read as a pair
        rw [h] at hpre
        obtain ⟨rfl, t, rfl⟩ := List.cons_prefix_cons.1 hpre
        simp [hnone d' rfl] at hpair

/-- What is read is a lexeme, the longest one, or a text that is rejected. -/
theorem classified_read (c : Char) (cs : List Char) : Classified (read c cs) := by
  unfold read
  split
  · exact classified_readString cs
  · next hstring =>
    split
    · exact classified_readChar cs
    · next hchar =>
      split
      · next hdigit => exact classified_readNumber hdigit
      · next hdigit =>
        split
        · next hword => exact classified_readWord hword
        · next hword =>
          exact classified_readSymbol ⟨hstring, hchar⟩ (by simpa using hdigit) (by simpa using hword) cs

-- a number ends before its second point, and of three quotes the last is left over
example : (read '1' ".2.3".toList).2 = ".3".toList ∧ (read quote [quote, quote]).2 = [quote] := by
  decide

theorem read_of_digit (hc : c.isDigit) (cs : List Char) : read c cs = readNumber (c :: cs) := by
  have hstring : c ≠ '"' := by
    rintro rfl
    exact absurd hc (by decide)
  have hchar : c ≠ quote := by
    rintro rfl
    exact absurd hc (by decide)
  simp [read, hstring, hchar, hc]

end Lexeme

namespace Rejected
variable {text rest : List Char} {c : Char} {cs : List Char}
open Lexeme

theorem readNumber_point {ds : List Char} (hds : Digits ds) (h : ∀ c ∈ rest.head?, c.isDigit = false) :
    readNumber (ds ++ '.' :: rest) = (⟨ds ++ ['.'], .invalid, none⟩, rest) := by
  obtain ⟨hwhole, hpoint⟩ := run_append Char.isDigit ds ('.' :: rest) hds.digit (by simp)
  obtain ⟨hfrac, -⟩ := run_append Char.isDigit [] rest (by simp) h
  simp only [readNumber, hwhole, hpoint]
  rw [show rest.takeWhile Char.isDigit = [] from hfrac]
  rfl

theorem readNumber_great {ds : List Char} (hds : Digits ds)
    (hvalue : Nat.pow 2 63 - 1 < Nat.ofDigitChars 10 ds 0)
    (h : ∀ c ∈ rest.head?, c.isDigit = false ∧ c ≠ '.') :
    readNumber (ds ++ rest) = (⟨ds, .invalid, none⟩, rest) := by
  obtain ⟨hwhole, hrest⟩ := run_append Char.isDigit ds rest hds.digit fun c hc => (h c hc).1
  have hgreat : ¬ Nat.ofDigitChars 10 ds 0 ≤ greatestInt := Nat.not_le_of_lt hvalue
  simp only [readNumber, hwhole, hrest]
  split
  · exact absurd rfl (h '.' rfl).2
  · simp [ofDigits, hgreat]

theorem readString_open (hcs : ∀ c ∈ cs, Inner c) (h : ∀ c ∈ rest.head?, c = '\n') :
    readString (cs ++ rest) = (⟨'"' :: cs, .invalid, none⟩, rest) := by
  obtain ⟨hinner, hrest⟩ := run_append isStringChar cs rest
    (fun c hc => isStringChar_iff.2 (hcs c hc)) fun c hc => by rw [h c hc]; decide
  simp only [readString, hinner, hrest]
  split
  · exact absurd (h '"' rfl) (by decide)
  · rfl

theorem read_stray (h : ∀ p ds, ¬ Pattern.Matches p (c :: ds)) (cs : List Char) :
    Lexeme.read c cs = (⟨[c], .invalid, none⟩, cs) := by
  have hstring : c ≠ '"' := by
    rintro rfl
    exact h .string ['"'] (.string (by simp : ∀ c ∈ [], Inner c))
  have hchar : c ≠ quote := by
    rintro rfl
    exact h .char ['a', quote] (.char (by decide) (by decide))
  have hdigit : ¬ c.isDigit := fun hc => h .integer [] (.integer ⟨by simp, by simpa using hc⟩)
  have hword : ¬ isWordStart c := fun hc => h .word [] (.word hc (by simp))
  have hsymbol : symbolKind c = .invalid := by
    by_contra hkind
    obtain ⟨hk, hlabel⟩ := (symbolKind_eq_iff hkind).1 rfl
    exact h (.symbol (symbolKind c)) [] (hlabel ▸ .symbol hk)
  simp only [Lexeme.read, hstring, hchar, hdigit, hword, if_false]
  rcases readSymbol_eq c cs with ⟨d, rest, k, -, hpair, -⟩ | ⟨-, hread⟩
  · obtain ⟨hk, hlabel⟩ := pairKind?_eq_some_iff.1 hpair
    exact absurd (hlabel ▸ .symbol hk) (h (.symbol k) [d])
  · simpa [hsymbol] using hread

/-- A rejected text is read as such, up to its end. -/
theorem read_eq (h : Rejected text rest) (happend : text ++ rest = c :: cs) :
    Lexeme.read c cs = (⟨text, .invalid, none⟩, rest) := by
  cases h with
  | colon h =>
    obtain ⟨rfl, rfl⟩ := List.cons.inj happend
    show readSymbol ':' rest = _
    rcases readSymbol_eq ':' rest with ⟨d, rest, k, rfl, hpair, -⟩ | ⟨-, hread⟩
    · have hd : d ≠ '=' := by simpa using h
      unfold pairKind? at hpair
      split at hpair <;> simp_all
    · exact hread
  | point hds h =>
    have hdigit : c.isDigit := isDigit_of_append hds (by simpa using happend)
    rw [read_of_digit hdigit, ← happend, List.append_assoc]
    exact readNumber_point hds h
  | great hds hvalue h =>
    rw [read_of_digit (isDigit_of_append hds happend), ← happend]
    exact readNumber_great hds hvalue h
  | openString hcs h =>
    obtain ⟨rfl, rfl⟩ := List.cons.inj happend
    exact readString_open hcs h
  | lastQuote h =>
    obtain ⟨rfl, rfl⟩ := List.cons.inj happend
    show readChar rest = _
    cases rest with
    | nil => rfl
    | cons d ds =>
      obtain rfl : d = '\n' := h d rfl
      rfl
  | emptyChar =>
    obtain ⟨rfl, rfl⟩ := List.cons.inj happend
    rfl
  | @openChar d _ hd hline h =>
    obtain ⟨rfl, rfl⟩ := List.cons.inj happend
    show readChar (d :: rest) = _
    cases rest with
    | nil => simp [readChar, hd, hline]
    | cons e es =>
      have he : e ≠ quote := by simpa using h
      simp [readChar, hd, hline, he]
  | stray h =>
    obtain ⟨rfl, rfl⟩ := List.cons.inj happend
    exact read_stray h rest

end Rejected

/-- A lexeme never means that it is rejected. -/
theorem Pattern.Means.kind_ne_invalid {p : Pattern} {text : List Char} {kind : Kind}
    {literal : Option Literal} (h : p.Means text kind literal) (hp : p.Matches text) :
    kind ≠ .invalid := by
  rintro rfl
  cases hp with
  | word =>
    rcases h with ⟨hmem, -⟩ | ⟨-, hkind, -⟩
    · exact absurd hmem (by decide)
    · cases hkind
  | symbol hk =>
    obtain ⟨rfl, -⟩ := h
    exact absurd hk (by decide)
  | integer | decimal | char | string => cases h.1

theorem Scan.next_of_splits {s : Scan} {gap cs : List Char} {c : Char}
    (h : Spacing.Splits s.rest gap (c :: cs)) :
    s.next.1.kind = (Lexeme.read c cs).1.kind ∧ s.next.1.literal = (Lexeme.read c cs).1.literal ∧
      s.next.2.rest = (Lexeme.read c cs).2 := by
  simp [Scan.next, h.split_eq]

/-- A step of a scan takes the spacing off the text, of which there is but one, and then the longest
lexeme, with the kind and the value that its form gives it. Its token is invalid exactly if a text
that is rejected stands there, and then that text is what is taken. -/
theorem Scan.next_classified (s : Scan) : ∃ gap r, Spacing.Splits s.rest gap r ∧
    (∀ gap' r', Spacing.Splits s.rest gap' r' → gap' = gap ∧ r' = r) ∧
    (r ≠ [] → ∃ text, text ≠ [] ∧ r = text ++ s.next.2.rest ∧
      (s.next.1.kind ≠ .invalid → ∃ p, Pattern.Matches p text ∧
        p.Means text s.next.1.kind s.next.1.literal ∧
        ∀ q longer, longer <+: r → Pattern.Matches q longer → longer.length ≤ text.length) ∧
      (s.next.1.kind = .invalid → Rejected text s.next.2.rest ∧ s.next.1.literal = none) ∧
      ∀ bad rest, r = bad ++ rest → Rejected bad rest →
        s.next.1.kind = .invalid ∧ text = bad ∧ s.next.2.rest = rest) := by
  have hsplits := Spacing.splits_split s.rest
  refine ⟨_, _, hsplits, fun gap' r' h => by simp [h.split_eq], fun hne => ?_⟩
  obtain ⟨c, cs, hr⟩ := List.exists_cons_of_ne_nil hne
  rw [hr] at hsplits ⊢
  obtain ⟨hkind, hliteral, hrest⟩ := next_of_splits hsplits
  have happend := Lexeme.read_append c cs
  have hclass := Lexeme.classified_read c cs
  rw [hkind, hliteral, hrest]
  refine ⟨(Lexeme.read c cs).1.text, Lexeme.read_text_ne_nil c cs, happend.symm, ?_, ?_, ?_⟩
  · intro hvalid
    rcases hclass with haccepted | ⟨-, hinvalid, -⟩
    · unfold Lexeme.Accepted at haccepted
      rwa [happend] at haccepted
    · exact absurd hinvalid hvalid
  · intro hinvalid
    rcases hclass with ⟨p, hp, hmeans, -⟩ | ⟨hrejected, -, hnone⟩
    · exact absurd hinvalid (hmeans.kind_ne_invalid hp)
    · exact ⟨hrejected, hnone⟩
  · intro bad rest hbad hrejected
    rw [hrejected.read_eq hbad.symm]
    exact ⟨rfl, rfl, rfl⟩

end Routine
