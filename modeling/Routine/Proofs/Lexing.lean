import Mathlib.Data.String.Basic
import Mathlib.Data.List.DropRight
import Routine.Lexer
import Routine.Proofs.Patterns

/-!
# The lexer and the scan

The lexer stands where the text behind it says (`Lexer.At`): its byte, its line and the byte at which
the line begins are those of that text. It counts lines in spacing only, which is enough because no
lexeme holds a newline, the rejected ones included. So no column is counted from a line that begins
behind it, every cut runs from one character to another, and a step gives what `Scan.next` gives.
-/

namespace Routine

/-- The position stands behind the text `before`. -/
structure Position.Behind (p : Position) (before : List Char) : Prop where
  line : p.line = 1 + before.count '\n'
  column : p.column = 1 + String.utf8Len (before.rtakeWhile (· != '\n'))

theorem Position.behind_afterAll (before : List Char) : (start.afterAll before).Behind before := by
  induction before using List.reverseRecOn with
  | nil => exact ⟨rfl, rfl⟩
  | append_singleton before c ih =>
    obtain ⟨hline, hcolumn⟩ := ih
    have hafter : start.afterAll (before ++ [c]) = (start.afterAll before).after c := by
      rw [afterAll_append]
      rfl
    rw [hafter, after]
    by_cases hc : c = '\n'
    · subst hc
      refine ⟨?_, ?_⟩
      · simp [hline, Nat.add_assoc]
      · rw [List.rtakeWhile_concat_neg _ _ _ (by decide)]
        rfl
    · refine ⟨?_, ?_⟩
      · simp [hc, hline]
      · rw [List.rtakeWhile_concat_pos _ _ _ (by simpa using hc)]
        simp [hc, hcolumn, Nat.add_assoc]

theorem Pattern.Matches.newline_not_mem {p : Pattern} {text : List Char} (h : p.Matches text) :
    '\n' ∉ text := by
  have hdigits : ∀ {ds : List Char}, Digits ds → '\n' ∉ ds := fun hds hmem =>
    absurd (hds.digit _ hmem) (by decide)
  cases h with
  | word hc hcs =>
    intro hmem
    rcases List.mem_cons.1 hmem with rfl | hmem
    · exact absurd hc (by decide)
    · exact absurd (hcs _ hmem) (by decide)
  | integer h => exact hdigits h
  | decimal hwhole hfrac => simp [hdigits hwhole, hdigits hfrac]
  | char hc hline => simp [hline.symm, Lexeme.quote]
  | string hcs =>
    have hinner : ∀ {cs : List Char}, (∀ c ∈ cs, Inner c) → '\n' ∉ cs := fun h hmem =>
      (h _ hmem).2 rfl
    simp [hinner hcs]
  | @symbol k hk =>
    revert hk
    cases k <;> decide

theorem Rejected.newline_not_mem {text rest : List Char} (h : Rejected text rest)
    (hline : text ≠ ['\n']) : '\n' ∉ text := by
  cases h with
  | colon => simp
  | point hds => simp [(Pattern.Matches.integer hds).newline_not_mem]
  | great hds => exact (Pattern.Matches.integer hds).newline_not_mem
  | openString hcs =>
    intro hmem
    rcases List.mem_cons.1 hmem with hquote | hmem
    · exact absurd hquote (by decide)
    · exact (hcs _ hmem).2 rfl
  | lastQuote => simp [Lexeme.quote]
  | emptyChar => simp [Lexeme.quote]
  | openChar hc hne => simp [hne.symm, Lexeme.quote]
  | stray => simpa [eq_comm] using hline

theorem Lexeme.newline_not_mem_read {c : Char} (hc : c ≠ '\n') (cs : List Char) :
    '\n' ∉ (read c cs).1.text := by
  rcases classified_read c cs with ⟨p, hp, -⟩ | ⟨hrejected, -⟩
  · exact hp.newline_not_mem
  · refine hrejected.newline_not_mem fun htext => ?_
    have happend := read_append c cs
    rw [htext] at happend
    exact hc (List.cons.inj happend).1.symm

namespace Walk
variable (p : Char → Bool) (before rest cs : List Char) (c : Char)

/-- The walk that has passed over the text `before`. -/
def behind (before rest : List Char) : Walk :=
  ⟨rest, String.utf8Len before⟩

@[simp] theorem offset_behind : (behind before rest).offset = String.utf8Len before := rfl

@[simp] theorem peek_behind_nil : (behind before []).peek = none := rfl

@[simp] theorem peek_behind_cons :
    (behind before (c :: cs)).peek = some (String.utf8Len before, c) := rfl

theorem behind_snoc : behind (before ++ [c]) cs = ⟨cs, String.utf8Len before + c.utf8Size⟩ := by
  simp [behind]

@[simp] theorem next_behind_cons : (behind before (c :: cs)).next = behind (before ++ [c]) cs :=
  (behind_snoc before cs c).symm

@[simp] theorem nextIf_behind_nil : nextIf p (behind before []) = none := rfl

@[simp] theorem nextIf_behind_cons : nextIf p (behind before (c :: cs)) =
    if p c then some (c, behind (before ++ [c]) cs) else none := by
  rw [behind_snoc]
  rfl

@[simp] theorem skipWhile_behind : skipWhile p (behind before rest) =
    behind (before ++ rest.takeWhile p) (rest.dropWhile p) := by
  induction rest generalizing before with
  | nil => simp [skipWhile]
  | cons c cs ih =>
    have hnext := nextIf_behind_cons p before cs c
    by_cases hc : p c
    · rw [if_pos hc] at hnext
      rw [skipWhile, hnext]
      simp [ih, hc]
    · rw [if_neg hc] at hnext
      rw [skipWhile, hnext]
      simp [hc]

end Walk

namespace Lexer
variable {l : Lexer} {before after rest gap text cs : List Char} {c : Char}

/-- The lexer has read the text `before`, and `after` is left. -/
structure At (l : Lexer) (before after : List Char) : Prop where
  source : l.source = String.ofList (before ++ after)
  walk : l.walk = .behind before after
  line : l.line = 1 + before.count '\n'
  lineStart : l.lineStart = String.utf8Len (before.rdropWhile (· != '\n'))

theorem at_ofString (source : String) : (ofString source).At [] source.toList :=
  ⟨String.ofList_toList.symm, rfl, rfl, rfl⟩

/-- A text without a newline is passed over, and the line is the same. -/
theorem At.pass (text : List Char) (h : l.At before (text ++ after)) (hline : '\n' ∉ text)
    (p : Position) :
    At { l with walk := .behind (before ++ text) after, position := p } (before ++ text) after where
  source := by rw [h.source, List.append_assoc]
  walk := rfl
  line := by
    rw [h.line, List.count_append, List.count_eq_zero.2 hline, Nat.add_zero]
  lineStart := by
    have hrun : ∀ c ∈ text.reverse, (c != '\n') = true := fun c hc => by
      simpa using ne_of_mem_of_not_mem (List.mem_reverse.1 hc) hline
    rw [h.lineStart, List.rdropWhile, List.rdropWhile, List.reverse_append,
      List.dropWhile_append_of_pos hrun]

/-- Behind a newline the next line begins. -/
theorem At.newline (h : l.At before ('\n' :: after)) :
    At { l with
      walk := l.walk.next
      line := l.line + 1
      lineStart := String.utf8Len before + 1 } (before ++ ['\n']) after where
  source := by simp [h.source]
  walk := by rw [h.walk, Walk.next_behind_cons]
  line := by simp [h.line, Nat.add_assoc]
  lineStart := by
    rw [List.rdropWhile_concat_neg _ _ _ (by decide), String.utf8Len_append]
    rfl

/-- The line does not begin behind the place where the lexer stands. -/
theorem lineStart_add (before : List Char) : String.utf8Len (before.rdropWhile (· != '\n')) +
    String.utf8Len (before.rtakeWhile (· != '\n')) = String.utf8Len before := by
  rw [← String.utf8Len_append, List.rdropWhile_append_rtakeWhile]

theorem At.positionAt_eq (h : l.At before after) :
    l.positionAt (String.utf8Len before) = .ok (Position.start.afterAll before) := by
  have hadd := lineStart_add before
  have hbehind := Position.behind_afterAll before
  have hle : ¬ String.utf8Len before < l.lineStart := by
    rw [h.lineStart]
    omega
  have hcolumn : String.utf8Len before - l.lineStart + 1 = (Position.start.afterAll before).column := by
    rw [h.lineStart, hbehind.column]
    omega
  rw [positionAt, if_neg hle, hcolumn, h.line, ← hbehind.line]

theorem isValid_utf8Len (before after : List Char) :
    String.Pos.Raw.isValid (String.ofList (before ++ after)) ⟨String.utf8Len before⟩ := by
  rw [String.Pos.Raw.isValid_eq_true_iff, String.Pos.Raw.isValid_iff_exists_append]
  refine ⟨String.ofList before, String.ofList after, String.ofList_append, ?_⟩
  rw [String.rawEndPos_ofList]

/-- A cut from the end of one text to the end of a longer one is what lies between them. -/
theorem cut_eq (h : l.source = String.ofList (before ++ text ++ after)) :
    l.cut (String.utf8Len before) (String.utf8Len (before ++ text)) = .ok (String.ofList text) := by
  have hstart : String.Pos.Raw.isValid l.source ⟨String.utf8Len before⟩ := by
    rw [h, List.append_assoc]
    exact isValid_utf8Len before (text ++ after)
  have hstop : String.Pos.Raw.isValid l.source ⟨String.utf8Len (before ++ text)⟩ := by
    rw [h]
    exact isValid_utf8Len (before ++ text) after
  have hle : String.utf8Len before ≤ String.utf8Len (before ++ text) := by
    rw [String.utf8Len_append]
    omega
  rw [cut, if_pos ⟨hle, hstart, hstop⟩, h, String.utf8Len_append]
  exact congrArg _ (String.extract_of_valid before text after)

-- a cut that ends inside a character fails, and so does a column in front of the line
example : (ofString "é").cut 0 1 = .error (.cut 0 1) ∧
    positionAt { ofString "é" with lineStart := 2 } 1 = .error (.column 1 2) := by
  decide

/-- Where neither a blank nor a comment begins there is nothing to pass over. -/
theorem At.skipSpacing_clear (h : l.At before after) (hclear : Spacing.Clear after) :
    l.skipSpacing = l := by
  rw [skipSpacing, h.walk]
  cases after with
  | nil => rfl
  | cons c cs =>
    have hblank : ¬ Spacing.isBlank c := by simp [hclear.blank c rfl]
    have hline : c ≠ '\n' := by
      rintro rfl
      exact absurd hblank (by decide)
    have hcomment : ¬ (c = '/' ∧ (Walk.behind before (c :: cs)).next.peek.any (·.2 = '/')) := by
      rintro ⟨rfl, hslash⟩
      cases cs with
      | nil => simp at hslash
      | cons d ds =>
        obtain rfl : d = '/' := by simpa using hslash
        cases hclear.comment
    simp only [Walk.peek_behind_cons, if_neg hline, if_neg hblank, if_neg hcomment]

theorem At.skipSpacing_blank (h : l.At before (c :: after)) (hc : Spacing.isBlank c) :
    ∃ l' : Lexer, l'.At (before ++ [c]) after ∧ l.skipSpacing = l'.skipSpacing := by
  by_cases hline : c = '\n'
  · subst hline
    refine ⟨_, h.newline, ?_⟩
    rw [skipSpacing, h.walk]
    rfl
  · refine ⟨_, h.pass [c] (by simpa using Ne.symm hline) l.position, ?_⟩
    rw [skipSpacing, h.walk]
    simp only [Walk.peek_behind_cons, Walk.next_behind_cons, if_neg hline, if_pos hc]

theorem At.skipSpacing_comment {body : List Char} (h : l.At before ('/' :: '/' :: body ++ after))
    (hbody : '\n' ∉ body) (hend : ∀ c ∈ after.head?, c = '\n') :
    ∃ l' : Lexer, l'.At (before ++ '/' :: '/' :: body) after ∧ l.skipSpacing = l'.skipSpacing := by
  have hline : '\n' ∉ '/' :: '/' :: body := by simpa using hbody
  have hrun := run_append (· != '\n') ('/' :: '/' :: body) after
    (fun c hc => by simpa using ne_of_mem_of_not_mem hc hline) fun c hc => by simpa using hend c hc
  have hskip : l.walk.skipWhile (· != '\n') = .behind (before ++ '/' :: '/' :: body) after := by
    rw [h.walk, Walk.skipWhile_behind, hrun.1, hrun.2]
  refine ⟨_, h.pass _ hline l.position, ?_⟩
  rw [skipSpacing, hskip, h.walk]
  rfl

/-- Spacing is passed over up to the next lexeme. -/
theorem At.skipSpacing (h : l.At before rest) (hs : Spacing.Splits rest gap after) :
    l.skipSpacing.At (before ++ gap) after := by
  obtain ⟨rfl, hfills, hclear⟩ := hs
  induction hfills generalizing l before with
  | nil =>
    rw [List.nil_append] at h
    rwa [h.skipSpacing_clear hclear, List.append_nil]
  | blank hc _ ih =>
    obtain ⟨l', hl', heq⟩ := h.skipSpacing_blank hc
    rw [heq, List.append_cons]
    exact ih hl'
  | @comment body gap hbody hend _ ih =>
    have hsplit : '/' :: '/' :: (body ++ gap) ++ after = '/' :: '/' :: body ++ (gap ++ after) := by
      simp
    have hbefore : before ++ '/' :: '/' :: (body ++ gap) = before ++ '/' :: '/' :: body ++ gap := by
      simp
    rw [hsplit] at h
    obtain ⟨l', hl', heq⟩ := h.skipSpacing_comment hbody hend
    rw [heq, hbefore]
    exact ih hl'

/-- The token of a lexeme behind the text `before`, and the lexer in front of what is left. -/
def given (l : Lexer) (before : List Char) (r : Lexeme × List Char) : Token × Lexer :=
  (⟨r.1.kind, l.position, r.1.literal⟩, { l with walk := .behind (before ++ r.1.text) r.2 })

theorem At.string_eq (h : l.At (before ++ ['"']) cs) :
    l.string (String.utf8Len before) = .ok (l.given before (Lexeme.readString cs)) := by
  have hcs := List.takeWhile_append_dropWhile (p := Lexeme.isStringChar) (l := cs)
  unfold string Lexeme.readString
  simp only [h.walk, Walk.skipWhile_behind]
  generalize cs.takeWhile Lexeme.isStringChar = inner at hcs ⊢
  cases hrest : cs.dropWhile Lexeme.isStringChar with
  | nil => simp [give, given]
  | cons d rest =>
    by_cases hd : d = '"'
    · subst hd
      have hstart : String.utf8Len before + 1 = String.utf8Len (before ++ ['"']) := by
        rw [String.utf8Len_append]
        rfl
      have hsource : l.source = String.ofList (before ++ ['"'] ++ inner ++ '"' :: rest) := by
        rw [h.source, ← hcs, hrest, List.append_assoc _ inner]
      simp only [Walk.nextIf_behind_cons, beq_self_eq_true, if_true, Walk.offset_behind, hstart,
        cut_eq hsource]
      simp [give, given, bind, Except.bind]
    · simp [give, given, hd]

theorem At.character_eq (h : l.At (before ++ [Lexeme.quote]) cs) :
    l.character = .ok (l.given before (Lexeme.readChar cs)) := by
  unfold character
  rw [h.walk]
  cases cs with
  | nil => simp [Lexeme.readChar, give, given]
  | cons c cs =>
    by_cases hline : c = '\n'
    · simp [Lexeme.readChar, hline, give, given]
    · by_cases hquote : c = Lexeme.quote
      · subst hquote
        simp [Lexeme.readChar, hline, give, given]
      · cases cs with
        | nil => simp [Lexeme.readChar, hline, hquote, give, given]
        | cons d rest =>
          by_cases hd : d = Lexeme.quote
          · simp [Lexeme.readChar, hline, hquote, hd, give, given]
          · simp [Lexeme.readChar, hline, hquote, hd, give, given]

theorem offsetOf_behind (h : l.source = String.ofList (before ++ rest)) :
    l.offsetOf (.behind before rest) = String.utf8Len before := by
  cases rest with
  | nil =>
    rw [List.append_nil] at h
    rw [offsetOf, h]
    exact String.utf8ByteSize_ofList before
  | cons c cs => rfl

/-- The cut from a character up to where the walk stands is the text that has been read. -/
theorem At.cut_behind (h : l.At (before ++ [c]) (text ++ rest)) :
    l.cut (String.utf8Len before) (l.offsetOf (.behind (before ++ c :: text) rest)) =
      .ok (String.ofList (c :: text)) := by
  have hsource : l.source = String.ofList (before ++ c :: text ++ rest) := by
    rw [h.source]
    simp
  rw [offsetOf_behind hsource, cut_eq hsource]

theorem At.word_eq (h : l.At (before ++ [c]) cs) (hc : Lexeme.isWordStart c) :
    l.word (String.utf8Len before) = .ok (l.given before (Lexeme.readWord (c :: cs))) := by
  have hrun := List.takeWhile_append_dropWhile (p := Lexeme.isWordChar) (l := cs)
  unfold word Lexeme.readWord
  simp only [h.walk, Walk.skipWhile_behind, List.takeWhile_cons, List.dropWhile_cons,
    Lexeme.isWordChar_of_isWordStart hc, if_true, ← List.append_cons]
  rw [← hrun] at h
  simp only [h.cut_behind, bind, Except.bind, String.toList_ofList, give, given, Lexeme.ofWord_text]

theorem decimalOf_ofList {whole : List Char} (h : ∀ d ∈ whole, d.isDigit) (frac : List Char) :
    decimalOf (String.ofList (whole ++ '.' :: frac)) = .ofDecimal whole frac := by
  obtain ⟨hwhole, hpoint⟩ := run_append Char.isDigit whole ('.' :: frac) h (by simp)
  rw [decimalOf, String.toList_ofList, hwhole, hpoint]
  rfl

theorem At.fraction_eq {whole : List Char} (h : l.At (before ++ [c]) (whole ++ '.' :: rest))
    (hdigits : ∀ d ∈ c :: whole, d.isDigit) :
    l.fraction (String.utf8Len before) (.behind (before ++ c :: whole ++ ['.']) rest) =
      .ok (l.given before (if (rest.takeWhile Char.isDigit).isEmpty then
          (⟨c :: whole ++ ['.'], .invalid, none⟩, rest)
        else
          (⟨c :: whole ++ '.' :: rest.takeWhile Char.isDigit, .floatConst,
            some (.float (.ofDecimal (c :: whole) (rest.takeWhile Char.isDigit)))⟩,
            rest.dropWhile Char.isDigit))) := by
  unfold fraction
  cases rest with
  | nil => simp [give, given]
  | cons d ds =>
    by_cases hd : d.isDigit
    · have hfrac : whole ++ '.' :: d :: ds =
          whole ++ '.' :: d :: ds.takeWhile Char.isDigit ++ ds.dropWhile Char.isDigit := by simp
      have hbehind : before ++ c :: whole ++ ['.'] ++ [d] ++ ds.takeWhile Char.isDigit =
          before ++ c :: (whole ++ '.' :: d :: ds.takeWhile Char.isDigit) := by simp
      have hvalue := decimalOf_ofList hdigits (d :: ds.takeWhile Char.isDigit)
      rw [List.cons_append] at hvalue
      rw [hfrac] at h
      simp only [Walk.nextIf_behind_cons, if_pos hd, Walk.skipWhile_behind, hbehind, h.cut_behind,
        bind, Except.bind, hvalue]
      simp [hd, give, given]
    · simp [hd, give, given]

theorem At.number_eq (h : l.At (before ++ [c]) cs) (hc : c.isDigit) :
    l.number (String.utf8Len before) = .ok (l.given before (Lexeme.readNumber (c :: cs))) := by
  have hdigits : ∀ d ∈ c :: cs.takeWhile Char.isDigit, d.isDigit := by
    simpa [hc] using fun d => List.mem_takeWhile_imp
  have hcs := List.takeWhile_append_dropWhile (p := Char.isDigit) (l := cs)
  unfold number Lexeme.readNumber
  simp only [h.walk, Walk.skipWhile_behind, List.takeWhile_cons, List.dropWhile_cons, hc, if_true,
    ← List.append_cons]
  rw [← hcs] at h
  generalize cs.takeWhile Char.isDigit = whole at h hdigits ⊢
  cases hrest : cs.dropWhile Char.isDigit with
  | nil =>
    rw [hrest] at h
    simp only [Walk.nextIf_behind_nil, h.cut_behind, bind, Except.bind, String.toList_ofList, give,
      given, Lexeme.ofDigits_text]
  | cons d rest =>
    rw [hrest] at h
    by_cases hd : d = '.'
    · subst hd
      simp only [Walk.nextIf_behind_cons, beq_self_eq_true, if_true, h.fraction_eq hdigits]
    · simp only [Walk.nextIf_behind_cons, beq_iff_eq, if_neg hd, h.cut_behind, bind, Except.bind,
        String.toList_ofList]
      simp [hd, give, given, Lexeme.ofDigits_text]

theorem At.symbol_eq (h : l.At (before ++ [c]) cs) :
    l.symbol c = .ok (l.given before (Lexeme.readSymbol c cs)) := by
  unfold symbol
  rw [h.walk]
  cases cs with
  | nil => rfl
  | cons d rest =>
    cases hpair : Lexeme.pairKind? c d with
    | none => simp [Lexeme.readSymbol, hpair, give, given]
    | some k => simp [Lexeme.readSymbol, hpair, give, given]

theorem At.lexeme_eq (h : l.At (before ++ [c]) cs) :
    l.lexeme (String.utf8Len before) c = .ok (l.given before (Lexeme.read c cs)) := by
  unfold lexeme Lexeme.read
  by_cases hstring : c = '"'
  · subst hstring
    exact h.string_eq
  · by_cases hchar : c = Lexeme.quote
    · subst hchar
      exact h.character_eq
    · by_cases hdigit : c.isDigit
      · simp only [if_neg hstring, if_neg hchar, if_pos hdigit, h.number_eq hdigit]
      · by_cases hword : Lexeme.isWordStart c
        · simp only [if_neg hstring, if_neg hchar, if_neg hdigit, if_pos hword, h.word_eq hword]
        · simp only [if_neg hstring, if_neg hchar, if_neg hdigit, if_neg hword, h.symbol_eq]

/-- A step in front of a lexeme gives its token. The line was counted up to the lexeme, and stays. -/
theorem At.next_of_lexeme (h : l.At before rest) (hs : Spacing.Splits rest gap (c :: cs)) :
    ∃ l' : Lexer, l.next = .ok (⟨(Lexeme.read c cs).1.kind, Position.start.afterAll (before ++ gap),
        (Lexeme.read c cs).1.literal⟩, l') ∧
      l'.position = Position.start.afterAll (before ++ gap) ∧
      l'.At (before ++ gap ++ (Lexeme.read c cs).1.text) (Lexeme.read c cs).2 := by
  have hat := h.skipSpacing hs
  have hc : c ≠ '\n' := by
    rintro rfl
    exact absurd (hs.clear.blank '\n' rfl) (by decide)
  have hread := Lexeme.read_append c cs
  have htext := Lexeme.newline_not_mem_read hc cs
  refine ⟨_, ?_, rfl, At.pass (Lexeme.read c cs).1.text (hread ▸ hat) htext _⟩
  have hpass := hat.pass [c] (by simpa using Ne.symm hc)
    (Position.start.afterAll (before ++ gap))
  unfold next
  simp only [hat.walk, Walk.peek_behind_cons, hat.positionAt_eq, Walk.next_behind_cons, bind, Except.bind]
  exact hpass.lexeme_eq

/-- A step in front of nothing but spacing gives the end of the input. -/
theorem At.next_of_end (h : l.At before rest) (hs : Spacing.Splits rest gap []) :
    ∃ l' : Lexer, l.next = .ok (⟨.eof, Position.start.afterAll (before ++ gap), none⟩, l') ∧
      l'.position = Position.start.afterAll (before ++ gap) ∧ l'.At (before ++ gap) [] := by
  have hat := h.skipSpacing hs
  refine ⟨{ l.skipSpacing with position := Position.start.afterAll (before ++ gap) }, ?_, rfl,
    ⟨hat.source, hat.walk, hat.line, hat.lineStart⟩⟩
  have hend : l.skipSpacing.source.utf8ByteSize = String.utf8Len (before ++ gap) := by
    rw [hat.source, List.append_nil]
    exact String.utf8ByteSize_ofList _
  unfold next
  simp only [hat.walk, Walk.peek_behind_nil, hend, hat.positionAt_eq, bind, Except.bind]
  rfl

/-- A step of the lexer succeeds, and gives what a step of a scan at the same place gives. -/
theorem At.next_scan (h : l.At before rest) : ∃ t taken after l', rest = taken ++ after ∧
    Scan.next ⟨rest, Position.start.afterAll before⟩ =
      (t, ⟨after, Position.start.afterAll (before ++ taken)⟩) ∧
    l.next = .ok (t, l') ∧ l'.position = t.position ∧ l'.At (before ++ taken) after := by
  obtain ⟨gap, left, hsplits⟩ : ∃ gap left, Spacing.Splits rest gap left :=
    ⟨_, _, Spacing.splits_split rest⟩
  cases left with
  | nil =>
    obtain ⟨l', hnext, hposition, hat⟩ := h.next_of_end hsplits
    refine ⟨_, _, [], l', hsplits.append, ?_, hnext, hposition, hat⟩
    simp only [Scan.next, hsplits.split_eq, Position.afterAll_append]
  | cons c cs =>
    obtain ⟨l', hnext, hposition, hat⟩ := h.next_of_lexeme hsplits
    rw [List.append_assoc before] at hat
    refine ⟨_, _, _, l', ?_, ?_, hnext, hposition, hat⟩
    · rw [List.append_assoc, Lexeme.read_append, ← hsplits.append]
    · simp only [Scan.next, hsplits.split_eq, Position.afterAll_append]

/-- The lexer succeeds, and gives the tokens of a scan at the same place. -/
theorem At.tokens_eq {l : Lexer} {before rest : List Char} (h : l.At before rest) :
    l.tokens = .ok (Scan.mk rest (Position.start.afterAll before)).tokens := by
  obtain ⟨t, taken, after, l', -, hscan, hnext, -, hat⟩ := h.next_scan
  rw [Scan.tokens, hscan, tokens, hnext]
  by_cases ht : t.kind = .eof
  · simp only [dif_pos ht, if_pos ht]
  · simp only [dif_neg ht, if_neg ht, hat.tokens_eq]
    rfl
termination_by rest.length
decreasing_by
  have := Scan.length_next_lt (s := ⟨rest, Position.start.afterAll before⟩) (by rwa [hscan])
  rwa [hscan] at this

end Lexer

/-- The lexer gives all tokens of a source text. -/
theorem Lexer.tokens_ofString (source : String) :
    (Lexer.ofString source).tokens = .ok (tokenize source) :=
  (at_ofString source).tokens_eq

end Routine
