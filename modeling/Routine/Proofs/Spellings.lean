import Routine.Proofs.Lines

/-!
# Spelling tokens

What a token is apart from where it stands is its content. A content is spelled as it is shown
(`Content.spelling`), and reading takes the spelling back, as long as the lexeme does not go on with
the character behind it (`Lexeme.Taken`). So a text that spells contents in a row, with spacing
between them, has just these contents, however they are laid out.
-/

namespace Routine

/-- What a token is, apart from where it stands. -/
structure Content where
  kind : Kind
  literal : Option Literal := none
deriving DecidableEq, Repr

def Token.content (t : Token) : Content := ⟨t.kind, t.literal⟩

/-- A value is spelled as it is shown, and so is the kind of a token that has no value. -/
def Content.spelling (x : Content) : List Char :=
  match x.literal with
  | some l => l.text.toList
  | none => x.kind.label.toList

/-- The contents that a text can spell, apart from those of float constants. -/
inductive Content.Printable : Content → Prop
  | keyword {k : Kind} (hk : k ∈ Kind.keywords) : Printable ⟨k, none⟩
  | symbol {k : Kind} (hk : k ∈ Kind.symbols) : Printable ⟨k, none⟩
  | name {s : String} (hform : Pattern.word.Matches s.toList) (hfree : Kind.ofReserved? s = none) :
    Printable ⟨.identifier, some (.name s)⟩
  | int {n : Nat} (hle : n ≤ Nat.pow 2 63 - 1) : Printable ⟨.intConst, some (.int n)⟩
  | char {c : Char} (hc : c ≠ Lexeme.quote) (hline : c ≠ '\n') :
    Printable ⟨.charConst, some (.char c)⟩
  | string {s : String} (hs : ∀ c ∈ s.toList, c ≠ '"' ∧ c ≠ '\n') :
    Printable ⟨.stringConst, some (.string s)⟩

/-- A lexeme of the kind would go on with the character. -/
def Kind.goesOn (k : Kind) (c : Char) : Bool :=
  match k with
  | intConst => c.isDigit || c = '.'
  | slash => c = '/'
  | less => c = '>' || c = '='
  | greater => c = '='
  | charConst | stringConst => false
  | k => (k = identifier || keywords.contains k) && Lexeme.isWordChar c

theorem isDigit_of_mem_repr {n : Nat} {c : Char} (hc : c ∈ n.repr.toList) : c.isDigit := by
  rw [Nat.toList_repr] at hc
  exact Nat.isDigit_of_mem_toDigits (by decide) (by decide) hc

theorem ofDigitChars_repr (n : Nat) : Nat.ofDigitChars 10 n.repr.toList 0 = n := by
  rw [Nat.toList_repr, Nat.ofDigitChars_ten_toDigits]

namespace Lexeme
variable {l : Lexeme} {c : Char} {cs text rest : List Char} {k : Kind}

/-- The lexeme is what is read from the text it makes with `rest`, which begins with it. -/
def Taken (l : Lexeme) (rest : List Char) : Prop :=
  ∃ c cs, l.text = c :: cs ∧ Spacing.Clear (c :: (cs ++ rest)) ∧ read c (cs ++ rest) = (l, rest)

theorem clear_of_ne_slash (hblank : Spacing.isBlank c = false) (hc : c ≠ '/') (cs : List Char) :
    Spacing.Clear (c :: cs) := by
  refine ⟨by simpa using hblank, eq_false_of_ne_true fun hcomment => ?_⟩
  exact hc (Spacing.isComment_iff.1 hcomment).1

theorem clear_of_wordChar (hc : isWordChar c) (cs : List Char) : Spacing.Clear (c :: cs) := by
  have hne : ∀ d : Char, isWordChar d = false → c ≠ d := by
    rintro d hd rfl
    rw [hd] at hc
    cases hc
  refine clear_of_ne_slash ?_ (hne '/' (by decide)) cs
  simp [Spacing.isBlank, hne ' ' (by decide), hne '\t' (by decide), hne '\r' (by decide),
    hne '\n' (by decide)]

theorem read_of_wordStart (hc : isWordStart c) (cs : List Char) : read c cs = readWord (c :: cs) := by
  have hstring : c ≠ '"' := by
    rintro rfl
    exact absurd hc (by decide)
  have hchar : c ≠ quote := by
    rintro rfl
    exact absurd hc (by decide)
  simp [read, hstring, hchar, isDigit_of_isWordStart hc, hc]

theorem taken_word (h : Pattern.word.Matches text) (hrest : ∀ d ∈ rest.head?, isWordChar d = false) :
    (ofWord text).Taken rest := by
  cases h with
  | @word c cs hc hcs =>
    have hchars : ∀ d ∈ c :: cs, isWordChar d := by
      intro d hd
      rcases List.mem_cons.1 hd with rfl | hd
      · exact isWordChar_of_isWordStart hc
      · exact hcs d hd
    obtain ⟨htake, hdrop⟩ := run_append isWordChar (c :: cs) rest hchars hrest
    refine ⟨c, cs, ofWord_text _, clear_of_wordChar (isWordChar_of_isWordStart hc) _, ?_⟩
    rw [read_of_wordStart hc, ← List.cons_append, readWord, htake, hdrop]

theorem matches_keyword (hk : k ∈ Kind.keywords) : Pattern.word.Matches k.label.toList := by
  have hlabel : ∃ c cs, k.label.toList = c :: cs ∧ isWordStart c ∧ cs.all isWordChar := by
    revert hk
    cases k <;> intro hk <;> first
      | exact ⟨_, _, rfl, by decide, by decide⟩
      | exact absurd hk (by decide)
  obtain ⟨c, cs, heq, hc, hcs⟩ := hlabel
  rw [heq]
  exact .word hc (List.all_eq_true.1 hcs)

theorem taken_keyword (hk : k ∈ Kind.keywords) (hrest : ∀ d ∈ rest.head?, isWordChar d = false) :
    Taken ⟨k.label.toList, k, none⟩ rest := by
  have hreserved : Kind.ofReserved? k.label = some k := Kind.ofReserved?_eq_some_iff.2 ⟨hk, rfl⟩
  have hword : ofWord k.label.toList = ⟨k.label.toList, k, none⟩ := by
    simp only [ofWord, String.ofList_toList, hreserved]
  exact hword ▸ taken_word (matches_keyword hk) hrest

theorem taken_name {s : String} (h : Pattern.word.Matches s.toList) (hfree : Kind.ofReserved? s = none)
    (hrest : ∀ d ∈ rest.head?, isWordChar d = false) :
    Taken ⟨s.toList, .identifier, some (.name s)⟩ rest := by
  have hword : ofWord s.toList = ⟨s.toList, .identifier, some (.name s)⟩ := by
    simp only [ofWord, String.ofList_toList, hfree]
  exact hword ▸ taken_word h hrest

theorem taken_int {n : Nat} (hn : n ≤ greatestInt)
    (hrest : ∀ d ∈ rest.head?, d.isDigit = false ∧ d ≠ '.') :
    Taken ⟨n.repr.toList, .intConst, some (.int n)⟩ rest := by
  have hdigits : ∀ d ∈ n.repr.toList, d.isDigit := fun d hd => isDigit_of_mem_repr hd
  have hvalue := ofDigitChars_repr n
  have hne : n.repr.toList ≠ [] := by
    rw [Nat.toList_repr]
    exact Nat.toDigits_ne_nil
  obtain ⟨c, cs, heq⟩ := List.exists_cons_of_ne_nil hne
  rw [heq] at hdigits hvalue ⊢
  have hc : c.isDigit := hdigits c (by simp)
  obtain ⟨htake, hdrop⟩ := run_append Char.isDigit (c :: cs) rest hdigits fun d hd => (hrest d hd).1
  have hread : readNumber (c :: cs ++ rest) = (ofDigits (c :: cs), rest) := by
    simp only [readNumber, htake, hdrop]
    split
    · exact absurd rfl (hrest '.' rfl).2
    · rfl
  have hword : isWordChar c := by simp [isWordChar, Char.isAlphanum, hc]
  refine ⟨c, cs, rfl, clear_of_wordChar hword _, ?_⟩
  rw [read_of_digit hc, ← List.cons_append, hread, ofDigits, hvalue, if_pos hn]

theorem taken_char (hc : c ≠ quote) (hline : c ≠ '\n') (rest : List Char) :
    Taken ⟨[quote, c, quote], .charConst, some (.char c)⟩ rest := by
  refine ⟨quote, [c, quote], rfl, clear_of_ne_slash (by decide) (by decide) _, ?_⟩
  show readChar (c :: quote :: rest) = _
  simp [readChar, hc, hline]

theorem taken_string {s : String} (hs : ∀ c ∈ s.toList, Inner c) (rest : List Char) :
    Taken ⟨'"' :: (s.toList ++ ['"']), .stringConst, some (.string s)⟩ rest := by
  refine ⟨'"', s.toList ++ ['"'], rfl, clear_of_ne_slash (by decide) (by decide) _, ?_⟩
  show readString (s.toList ++ ['"'] ++ rest) = _
  obtain ⟨htake, hdrop⟩ := run_append isStringChar s.toList ('"' :: rest)
    (fun c hc => isStringChar_iff.2 (hs c hc)) (fun c hc => by
      obtain rfl : '"' = c := Option.some.inj hc
      decide)
  rw [List.append_assoc, List.singleton_append, readString, htake, hdrop]
  simp

/-- A pair that begins with a symbol is a symbol that goes on. -/
theorem goesOn_of_pairKind? {d : Char} (h : pairKind? c d = some k) :
    c = ':' ∨ (symbolKind c).goesOn d := by
  unfold pairKind? at h
  split at h
  · exact .inl rfl
  · exact .inr (by decide)
  · exact .inr (by decide)
  · exact .inr (by decide)
  · cases h

theorem read_of_symbol (hk : k ∈ Kind.symbols) (hc : c ∈ k.label.toList.head?) (cs : List Char) :
    read c cs = readSymbol c cs := by
  obtain ⟨hword, hdigit, hchar, hstring⟩ := symbol_head hk hc
  simp [read, hword, hdigit, hchar, hstring]

theorem not_isBlank_of_symbol (hk : k ∈ Kind.symbols) (hc : c ∈ k.label.toList.head?) :
    Spacing.isBlank c = false := by
  have hall : k.label.toList.head?.all fun c => !Spacing.isBlank c := by
    revert hk
    cases k <;> decide
  rw [Option.mem_def.1 hc] at hall
  simpa using hall

theorem taken_symbol (hk : k ∈ Kind.symbols) (hrest : ∀ d ∈ rest.head?, k.goesOn d = false) :
    Taken ⟨k.label.toList, k, none⟩ rest := by
  rcases symbol_shape hk with ⟨c, hlabel, hkind⟩ | ⟨c, d, hlabel, hpair⟩
  · have hhead : c ∈ k.label.toList.head? := by simp [hlabel]
    refine ⟨c, [], hlabel, ⟨?_, eq_false_of_ne_true fun hcomment => ?_⟩, ?_⟩
    · rintro d ⟨⟩
      exact not_isBlank_of_symbol hk hhead
    · obtain ⟨rfl, hslash⟩ := Spacing.isComment_iff.1 hcomment
      have hgoes := hrest '/' hslash
      rw [← hkind] at hgoes
      cases hgoes
    · rw [read_of_symbol hk hhead]
      show readSymbol c rest = _
      rcases readSymbol_eq c rest with ⟨d, ds, k', rfl, hpair, -⟩ | ⟨-, heq⟩
      · have hgoes := hrest d rfl
        rcases goesOn_of_pairKind? hpair with rfl | hpair
        · rw [← hkind] at hk
          exact absurd hk (by decide)
        · rw [hkind, hgoes] at hpair
          cases hpair
      · rw [heq, hkind, hlabel]
  · have hhead : c ∈ k.label.toList.head? := by simp [hlabel]
    have hslash : c ≠ '/' := by
      rintro rfl
      simp [pairKind?] at hpair
    refine ⟨c, [d], hlabel, clear_of_ne_slash (not_isBlank_of_symbol hk hhead) hslash _, ?_⟩
    rw [read_of_symbol hk hhead]
    simp [readSymbol, hpair, hlabel]

end Lexeme

open Lexeme in
/-- A spelling is read as what it spells, unless its lexeme goes on with the next character. -/
theorem Content.Printable.taken {x : Content} (h : x.Printable) {rest : List Char}
    (hrest : ∀ d ∈ rest.head?, x.kind.goesOn d = false) :
    Lexeme.Taken ⟨x.spelling, x.kind, x.literal⟩ rest := by
  cases h with
  | @keyword k hk =>
    refine taken_keyword hk fun d hd => ?_
    have hgoes := hrest d hd
    revert hk hgoes
    cases k <;> simp [Kind.goesOn, Kind.keywords]
  | symbol hk => exact taken_symbol hk hrest
  | name hform hfree => exact taken_name hform hfree fun d hd => by simpa [Kind.goesOn] using hrest d hd
  | int hle => exact taken_int hle fun d hd => by simpa [Kind.goesOn] using hrest d hd
  | @char c hc hline =>
    have hspelling : (charText c).toList = [quote, c, quote] := String.toList_ofList
    show Taken ⟨(charText c).toList, _, _⟩ rest
    rw [hspelling]
    exact taken_char hc hline rest
  | @string s hs =>
    have hspelling : (stringText s).toList = '"' :: (s.toList ++ ['"']) := by
      simp [stringText, String.toList_append]
    show Taken ⟨(stringText s).toList, _, _⟩ rest
    rw [hspelling]
    exact taken_string hs rest

/-- The contents of the tokens of a text, that of the end the last. -/
def contents (cs : List Char) : List Content := (Scan.mk cs .start).tokens.map Token.content

theorem Scan.map_content_tokens (rest : List Char) (p : Position) :
    (Scan.mk rest p).tokens.map Token.content = contents rest := by
  have hnext : (next ⟨rest, p⟩).1.content = (next ⟨rest, .start⟩).1.content ∧
      (next ⟨rest, p⟩).2.rest = (next ⟨rest, .start⟩).2.rest := by
    simp only [next]
    split <;> exact ⟨rfl, rfl⟩
  have hkind : (next ⟨rest, p⟩).1.kind = (next ⟨rest, .start⟩).1.kind :=
    congrArg Content.kind hnext.1
  by_cases hend : (next ⟨rest, p⟩).1.kind = .eof
  · rw [contents, tokens_of_eof hend, tokens_of_eof (hkind.symm.trans hend), List.map_singleton,
      List.map_singleton, hnext.1]
  · have hend' : (next ⟨rest, .start⟩).1.kind ≠ .eof := hkind ▸ hend
    have ih := map_content_tokens (next ⟨rest, p⟩).2.rest (next ⟨rest, p⟩).2.position
    have ih' := map_content_tokens (next ⟨rest, .start⟩).2.rest (next ⟨rest, .start⟩).2.position
    rw [contents, tokens_of_ne_eof hend, tokens_of_ne_eof hend', List.map_cons, List.map_cons, ih, ih',
      hnext.1, hnext.2]
termination_by rest.length
decreasing_by
  · exact length_next_lt hend
  · exact length_next_lt hend'

theorem contents_toList (source : String) : contents source.toList = (tokenize source).map Token.content :=
  rfl

theorem contents_nil : contents [] = [⟨.eof, none⟩] := by
  have hend : (Scan.next ⟨[], .start⟩).1.kind = .eof := rfl
  rw [contents, Scan.tokens_of_eof hend]
  rfl

theorem contents_spacing {gap rest : List Char} (h : Spacing.Fills rest gap) :
    contents (gap ++ rest) = contents rest := by
  have hnext := Scan.next_spacing h .start
  rw [contents, Scan.tokens, hnext, ← Scan.tokens, Scan.map_content_tokens]

theorem contents_taken {l : Lexeme} {rest : List Char} (h : l.Taken rest) (hkind : l.kind ≠ .eof) :
    contents (l.text ++ rest) = ⟨l.kind, l.literal⟩ :: contents rest := by
  obtain ⟨c, cs, htext, hclear, hread⟩ := h
  rw [htext, List.cons_append]
  have hnext : Scan.next ⟨c :: (cs ++ rest), .start⟩ =
      (⟨l.kind, .start, l.literal⟩, ⟨rest, Position.start.afterAll l.text⟩) := by
    simp only [Scan.next, hclear.split_eq, hread]
    rfl
  have hne : (Scan.next ⟨c :: (cs ++ rest), .start⟩).1.kind ≠ .eof := by rwa [hnext]
  rw [contents, Scan.tokens_of_ne_eof hne, hnext, List.map_cons, Scan.map_content_tokens]
  rfl

theorem Content.Printable.kind_ne {x : Content} (h : x.Printable) :
    x.kind ≠ .eof ∧ x.kind ≠ .invalid := by
  cases h with
  | keyword hk | symbol hk =>
    constructor <;>
    · rintro rfl
      exact absurd hk (by decide)
  | name | int | char | string => exact ⟨Kind.noConfusion, Kind.noConfusion⟩

theorem contents_spelling {x : Content} (h : x.Printable) {rest : List Char}
    (hrest : ∀ d ∈ rest.head?, x.kind.goesOn d = false) :
    contents (x.spelling ++ rest) = x :: contents rest :=
  contents_taken (h.taken hrest) h.kind_ne.1

/-- Blanks and comments, each comment up to the end of its line. -/
inductive Layout : List Char → Prop
  | nil : Layout []
  | blank {c : Char} {gap : List Char} (hc : Spacing.isBlank c) (h : Layout gap) : Layout (c :: gap)
  | comment {body gap : List Char} (hbody : '\n' ∉ body) (h : Layout gap) :
    Layout ('/' :: '/' :: (body ++ '\n' :: gap))

theorem Layout.fills {gap : List Char} (h : Layout gap) (rest : List Char) :
    Spacing.Fills rest gap := by
  induction h with
  | nil => exact .nil
  | blank hc _ ih => exact .blank hc ih
  | comment hbody _ ih =>
    have hline : Spacing.isBlank '\n' := by decide
    refine .comment hbody (fun c hc => ?_) (.blank hline ih)
    exact (Option.some.inj hc).symm

/-- The text spells the contents in a row, with a layout that begins with a blank between them, and
with such a layout or nothing behind the last. -/
inductive Spread : List Content → List Char → Prop
  | nil : Spread [] []
  | last (x : Content) : Spread [x] x.spelling
  | cons {x : Content} {xs : List Content} {c : Char} {gap text : List Char}
    (hc : Spacing.isBlank c) (hgap : Layout gap) (h : Spread xs text) :
    Spread (x :: xs) (x.spelling ++ c :: (gap ++ text))

theorem Spacing.eq_of_isBlank {c : Char} (hc : isBlank c) : c = ' ' ∨ c = '\t' ∨ c = '\r' ∨ c = '\n' := by
  simpa [isBlank, or_assoc] using hc

theorem Kind.goesOn_blank (k : Kind) {c : Char} (hc : Spacing.isBlank c) : k.goesOn c = false := by
  rcases Spacing.eq_of_isBlank hc with rfl | rfl | rfl | rfl <;> cases k <;> decide

theorem Spread.contents_eq {xs : List Content} {text : List Char} (h : Spread xs text)
    (hxs : ∀ x ∈ xs, x.Printable) : contents text = xs ++ [⟨.eof, none⟩] := by
  induction h with
  | nil => exact contents_nil
  | last x =>
    have hends : ∀ d ∈ ([] : List Char).head?, x.kind.goesOn d = false := by simp
    have hread := contents_spelling (hxs x (by simp)) hends
    rwa [List.append_nil, contents_nil] at hread
  | @cons x xs c gap text hc hgap _ ih =>
    have hends : ∀ d ∈ (c :: (gap ++ text)).head?, x.kind.goesOn d = false := by
      rintro d ⟨⟩
      exact x.kind.goesOn_blank hc
    have hfills : Spacing.Fills text (c :: gap) := .blank hc (hgap.fills text)
    rw [contents_spelling (hxs x (by simp)) hends, ← List.cons_append, contents_spacing hfills,
      ih fun y hy => hxs y (by simp [hy]), List.cons_append]

/-- Spellings in a row are read as what they spell, however they are laid out, and nothing is
rejected. -/
theorem tokenize_spread {xs : List Content} {front text : List Char} (hxs : ∀ x ∈ xs, x.Printable)
    (hfront : Layout front) (htext : Spread xs text) :
    (tokenize (String.ofList (front ++ text))).map Token.content = xs ++ [⟨.eof, none⟩] ∧
      ∀ t ∈ tokenize (String.ofList (front ++ text)), t.kind ≠ .invalid := by
  have hcontents : (tokenize (String.ofList (front ++ text))).map Token.content =
      xs ++ [⟨.eof, none⟩] := by
    rw [← contents_toList, String.toList_ofList, contents_spacing (hfront.fills text),
      htext.contents_eq hxs]
  refine ⟨hcontents, fun t ht => ?_⟩
  have hmem : t.content ∈ xs ++ [⟨.eof, none⟩] := hcontents ▸ List.mem_map_of_mem ht
  rcases List.mem_append.1 hmem with hx | hend
  · exact (hxs t.content hx).kind_ne.2
  · have hkind : t.kind = .eof := congrArg Content.kind (List.mem_singleton.1 hend)
    rw [hkind]
    decide

/-- Comments stand in front of the first token and behind a slash. -/
theorem tokenize_spread_slash :
    (tokenize "// \"é'//\nrest\t// -\n/ //\n'/'").map Token.content =
      [⟨.identifier, some (.name "rest")⟩, ⟨.slash, none⟩, ⟨.charConst, some (.char '/')⟩,
        ⟨.eof, none⟩] := by
  have hprintable : ∀ x ∈ ([⟨.identifier, some (.name "rest")⟩, ⟨.slash, none⟩,
      ⟨.charConst, some (.char '/')⟩] : List Content), x.Printable := by
    have hname : Pattern.word.Matches ('r' :: "est".toList) :=
      .word (by decide) (List.all_eq_true.1 (by decide))
    simp only [List.forall_mem_cons, List.not_mem_nil, false_implies, implies_true, and_true]
    exact ⟨.name hname (by decide), .symbol (by decide), .char (by decide) (by decide)⟩
  have hfront : Layout ('/' :: '/' :: (" \"é'//".toList ++ ['\n'])) := .comment (by simp) .nil
  have hgap : Layout ('/' :: '/' :: (" -".toList ++ ['\n'])) := .comment (by simp) .nil
  have hgap' : Layout ('/' :: '/' :: ([] ++ ['\n'])) := .comment (by simp) .nil
  have htext : Spread [⟨.identifier, some (.name "rest")⟩, ⟨.slash, none⟩,
      ⟨.charConst, some (.char '/')⟩] "rest\t// -\n/ //\n'/'".toList :=
    .cons (x := ⟨.identifier, some (.name "rest")⟩) (c := '\t') (by decide) hgap
      (.cons (x := ⟨.slash, none⟩) (c := ' ') (by decide) hgap' (.last ⟨.charConst, some (.char '/')⟩))
  exact (tokenize_spread hprintable hfront htext).1

end Routine
