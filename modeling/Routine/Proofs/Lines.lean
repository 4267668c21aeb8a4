import Routine.Proofs.Pieces

/-!
# The lines of a text

No lexeme and no comment runs over the end of a line, and a reader that meets the end of a line does
what it does at the end of the text. So each reader, the spacing and then a step of a scan are the
same whether a newline and more text stand behind what is read or nothing does. Behind the newline
reading goes on as at the beginning of a text, only further down (`Position.down`).
-/

namespace Routine

namespace Position

/-- The same column, `n` lines further down. -/
def down (n : Nat) (p : Position) : Position := ⟨p.line + n, p.column⟩

theorem after_down (n : Nat) (p : Position) (c : Char) : (p.down n).after c = (p.after c).down n := by
  unfold after down
  by_cases hc : c = '\n'
  · simp [hc, Nat.add_right_comm]
  · simp [hc]

theorem afterAll_down (n : Nat) (p : Position) (cs : List Char) :
    (p.down n).afterAll cs = (p.afterAll cs).down n := by
  induction cs generalizing p with
  | nil => rfl
  | cons c cs ih => rw [afterAll_cons, afterAll_cons, after_down, ih]

theorem afterAll_newline (cs : List Char) :
    start.afterAll (cs ++ ['\n']) = start.down (1 + cs.count '\n') := by
  have hline := (behind_afterAll cs).line
  rw [afterAll_append, afterAll_cons, afterAll_nil]
  show Position.mk ((start.afterAll cs).line + 1) 1 = ⟨1 + (1 + cs.count '\n'), 1⟩
  rw [hline, Nat.add_comm]

end Position

/-- The token at another place. -/
def Token.relocate (f : Position → Position) (t : Token) : Token := { t with position := f t.position }

namespace Scan
variable {rest tail : List Char} {p : Position}

theorem next_down (n : Nat) (rest : List Char) (p : Position) :
    next ⟨rest, p.down n⟩ = ((next ⟨rest, p⟩).1.relocate (.down n),
      ⟨(next ⟨rest, p⟩).2.rest, (next ⟨rest, p⟩).2.position.down n⟩) := by
  simp only [next, Position.afterAll_down]
  split <;> rfl

theorem tokens_of_eof {s : Scan} (h : s.next.1.kind = .eof) : s.tokens = [s.next.1] := by
  rw [tokens, if_pos h]

theorem tokens_of_ne_eof {s : Scan} (h : s.next.1.kind ≠ .eof) :
    s.tokens = s.next.1 :: s.next.2.tokens := by
  rw [tokens, if_neg h]

theorem mem_tokens {s : Scan} {t : Token} (ht : t ∈ s.tokens) : ∃ s' : Scan, t = s'.next.1 := by
  by_cases hend : s.next.1.kind = .eof
  · rw [tokens_of_eof hend] at ht
    exact ⟨s, List.mem_singleton.1 ht⟩
  · rw [tokens_of_ne_eof hend] at ht
    rcases List.mem_cons.1 ht with rfl | ht
    · exact ⟨s, rfl⟩
    · exact mem_tokens ht
termination_by s.rest.length
decreasing_by exact length_next_lt hend

/-- A text that begins further down has its tokens further down. -/
theorem tokens_down (n : Nat) (rest : List Char) (p : Position) :
    (Scan.mk rest (p.down n)).tokens = (Scan.mk rest p).tokens.map (.relocate (.down n)) := by
  have hnext := next_down n rest p
  have hkind : (next ⟨rest, p.down n⟩).1.kind = (next ⟨rest, p⟩).1.kind := by rw [hnext]; rfl
  by_cases hend : (next ⟨rest, p⟩).1.kind = .eof
  · rw [tokens_of_eof hend, tokens_of_eof (hkind.trans hend), hnext, List.map_singleton]
  · have ih := tokens_down n (next ⟨rest, p⟩).2.rest (next ⟨rest, p⟩).2.position
    rw [tokens_of_ne_eof hend, tokens_of_ne_eof (hkind ▸ hend), hnext, List.map_cons, ih]
termination_by rest.length
decreasing_by exact length_next_lt hend

end Scan

theorem run_newline {p : Char → Bool} (hp : p '\n' = false) (cs tail : List Char) :
    (cs ++ '\n' :: tail).takeWhile p = cs.takeWhile p ∧
      (cs ++ '\n' :: tail).dropWhile p = cs.dropWhile p ++ '\n' :: tail := by
  induction cs with
  | nil => simp [hp]
  | cons c cs ih =>
    obtain ⟨htake, hdrop⟩ := ih
    by_cases hc : p c = true
    · simp [hc, htake, hdrop]
    · simp [hc]

namespace Lexeme

theorem readWord_newline (cs tail : List Char) :
    readWord (cs ++ '\n' :: tail) = ((readWord cs).1, (readWord cs).2 ++ '\n' :: tail) := by
  obtain ⟨htake, hdrop⟩ := run_newline (p := isWordChar) (by decide) cs tail
  simp only [readWord, htake, hdrop]

theorem readNumber_newline (cs tail : List Char) :
    readNumber (cs ++ '\n' :: tail) = ((readNumber cs).1, (readNumber cs).2 ++ '\n' :: tail) := by
  obtain ⟨htake, hdrop⟩ := run_newline (p := Char.isDigit) (by decide) cs tail
  simp only [readNumber, htake, hdrop]
  rcases hrest : cs.dropWhile Char.isDigit with _ | ⟨c, ds⟩
  · rfl
  · by_cases hc : c = '.'
    · subst hc
      obtain ⟨htake', hdrop'⟩ := run_newline (p := Char.isDigit) (by decide) ds tail
      simp only [List.cons_append, htake', hdrop']
      split <;> rfl
    · simp [hc]

theorem readString_newline (cs tail : List Char) :
    readString (cs ++ '\n' :: tail) = ((readString cs).1, (readString cs).2 ++ '\n' :: tail) := by
  obtain ⟨htake, hdrop⟩ := run_newline (p := isStringChar) (by decide) cs tail
  simp only [readString, htake, hdrop]
  rcases hrest : cs.dropWhile isStringChar with _ | ⟨c, ds⟩
  · rfl
  · by_cases hc : c = '"'
    · subst hc
      rfl
    · simp [hc]

theorem readChar_newline (cs tail : List Char) :
    readChar (cs ++ '\n' :: tail) = ((readChar cs).1, (readChar cs).2 ++ '\n' :: tail) := by
  rcases cs with _ | ⟨c, ds⟩
  · rfl
  · rcases ds with _ | ⟨d, es⟩
    · have hquote : ('\n' = quote) ↔ False := by decide
      simp only [List.cons_append, List.nil_append, readChar, hquote, if_false]
      split
      · rfl
      · split <;> rfl
    · simp only [List.cons_append, readChar]
      repeat' split
      all_goals rfl

theorem readSymbol_newline (c : Char) (cs tail : List Char) :
    readSymbol c (cs ++ '\n' :: tail) =
      ((readSymbol c cs).1, (readSymbol c cs).2 ++ '\n' :: tail) := by
  rcases cs with _ | ⟨d, ds⟩
  · have hpair : pairKind? c '\n' = none := by
      unfold pairKind?
      split <;> simp_all
    simp [readSymbol, hpair]
  · simp only [List.cons_append, readSymbol]
    split <;> rfl

/-- What stands behind the end of the line does not change the lexeme. -/
theorem read_newline (c : Char) (cs tail : List Char) :
    read c (cs ++ '\n' :: tail) = ((read c cs).1, (read c cs).2 ++ '\n' :: tail) := by
  unfold read
  split
  · exact readString_newline cs tail
  · split
    · exact readChar_newline cs tail
    · split
      · exact readNumber_newline (c :: cs) tail
      · split
        · exact readWord_newline (c :: cs) tail
        · exact readSymbol_newline c cs tail

end Lexeme

namespace Spacing
variable {cs gap gap' rest rest' tail : List Char} {c : Char}

theorem isComment_iff : isComment (c :: cs) = true ↔ c = '/' ∧ cs.head? = some '/' := by
  unfold isComment
  split
  · next heq => cases heq; simp
  · next hne =>
    refine ⟨fun h => (Bool.false_ne_true h).elim, ?_⟩
    rintro ⟨rfl, hhead⟩
    obtain ⟨ds, rfl⟩ := List.head?_eq_some_iff.1 hhead
    exact absurd rfl (hne ds)

/-- Spacing is spacing in front of another text, if that goes on in the same way or begins a line. -/
theorem Fills.change (h : Fills rest gap)
    (hhead : ∀ d ∈ rest'.head?, d = '\n' ∨ d ∈ rest.head?) : Fills rest' gap := by
  induction h with
  | nil => exact .nil
  | blank hc _ ih => exact .blank hc ih
  | @comment body gap hbody hend _ ih =>
    refine .comment hbody (fun d hd => ?_) ih
    rcases gap with _ | ⟨e, gap⟩
    · rcases hhead d hd with hline | hmem
      · exact hline
      · exact hend d hmem
    · exact hend d hd

theorem Fills.append (h : Fills (gap' ++ rest) gap) (h' : Fills rest gap') :
    Fills rest (gap ++ gap') := by
  induction h with
  | nil => exact h'
  | blank hc _ ih => exact .blank hc ih
  | @comment body gap hbody hend _ ih =>
    have hend' : ∀ c ∈ (gap ++ gap' ++ rest).head?, c = '\n' := by
      rwa [List.append_assoc]
    simpa using Fills.comment hbody hend' ih

theorem Splits.newline (h : Splits cs gap (c :: rest)) (tail : List Char) :
    Splits (cs ++ '\n' :: tail) gap (c :: (rest ++ '\n' :: tail)) where
  append := by rw [h.append, List.append_assoc, List.cons_append]
  fills := h.fills.change fun d hd => .inr hd
  clear := by
    refine ⟨h.clear.blank, eq_false_of_ne_true fun hcomment => ?_⟩
    obtain ⟨hc, hhead⟩ := isComment_iff.1 hcomment
    rcases rest with _ | ⟨d, ds⟩
    · cases hhead
    · have hcomment' : isComment (c :: d :: ds) = true := isComment_iff.2 ⟨hc, hhead⟩
      rw [h.clear.comment] at hcomment'
      cases hcomment'

theorem Splits.behind (h : Splits cs gap rest) (hfills : Fills cs gap') :
    Splits (gap' ++ cs) (gap' ++ gap) rest where
  append := by rw [h.append, List.append_assoc]
  fills := Fills.append (h.append ▸ hfills) h.fills
  clear := h.clear

end Spacing

namespace Scan
variable {rest : List Char} {p : Position}

theorem next_eof_iff : (next ⟨rest, p⟩).1.kind = .eof ↔ (Spacing.split rest).2 = [] := by
  cases hsplit : (Spacing.split rest).2 with
  | nil => simp [next, hsplit]
  | cons c cs => simpa [next, hsplit] using read_kind_ne_eof c cs

theorem next_newline (h : (next ⟨rest, p⟩).1.kind ≠ .eof) (tail : List Char) :
    next ⟨rest ++ '\n' :: tail, p⟩ = ((next ⟨rest, p⟩).1,
      ⟨(next ⟨rest, p⟩).2.rest ++ '\n' :: tail, (next ⟨rest, p⟩).2.position⟩) := by
  rcases hsplit : Spacing.split rest with ⟨gap, _ | ⟨c, cs⟩⟩
  · exact absurd (next_eof_iff.2 (by rw [hsplit])) h
  · have hsplits := Spacing.splits_split rest
    rw [hsplit] at hsplits
    have hsplit' := (hsplits.newline tail).split_eq
    simp only [next, hsplit', hsplit, Lexeme.read_newline]

/-- Spacing in front of a text is passed over. -/
theorem next_spacing {gap : List Char} (h : Spacing.Fills rest gap) (p : Position) :
    next ⟨gap ++ rest, p⟩ = next ⟨rest, p.afterAll gap⟩ := by
  have hsplits := (Spacing.splits_split rest).behind h
  unfold next
  rw [hsplits.split_eq]
  dsimp only
  rw [Position.afterAll_append]

theorem next_behind_newline (h : (next ⟨rest, p⟩).1.kind = .eof) (tail : List Char) :
    next ⟨rest ++ '\n' :: tail, p⟩ = next ⟨tail, p.afterAll (rest ++ ['\n'])⟩ := by
  have hsplits := Spacing.splits_split rest
  rw [next_eof_iff.1 h] at hsplits
  have hrest : rest = (Spacing.split rest).1 := by simpa using hsplits.append
  have hfills : Spacing.Fills [] rest := hrest ▸ hsplits.fills
  have hline : Spacing.Fills tail (rest ++ ['\n']) := by
    refine Spacing.Fills.append (hfills.change fun d hd => .inl ?_) (.blank (by decide) .nil)
    exact (Option.some.inj hd).symm
  have hnext := next_spacing hline p
  rwa [List.append_assoc] at hnext

/-- A step ends where what it passes over ends. -/
theorem afterAll_next (rest : List Char) (p : Position) :
    (next ⟨rest, p⟩).2.position.afterAll (next ⟨rest, p⟩).2.rest = p.afterAll rest := by
  have hsplit := Spacing.split_append rest
  rcases hrest : (Spacing.split rest).2 with _ | ⟨c, cs⟩
  · rw [hrest, List.append_nil] at hsplit
    simp [next, hrest, hsplit]
  · have happend : (Spacing.split rest).1 ++ ((Lexeme.read c cs).1.text ++ (Lexeme.read c cs).2) =
        rest := by
      rw [Lexeme.read_append, ← hrest, hsplit]
    have hafter := congrArg p.afterAll happend
    rw [Position.afterAll_append, Position.afterAll_append] at hafter
    simpa only [next, hrest] using hafter

theorem tokens_newline (rest tail : List Char) (p : Position) :
    ∃ ts e, (Scan.mk rest p).tokens = ts ++ [e] ∧ e.kind = .eof ∧
      (Scan.mk (rest ++ '\n' :: tail) p).tokens =
        ts ++ (Scan.mk tail (p.afterAll (rest ++ ['\n']))).tokens := by
  by_cases hend : (next ⟨rest, p⟩).1.kind = .eof
  · refine ⟨[], (next ⟨rest, p⟩).1, ?_, hend, ?_⟩
    · rw [tokens_of_eof hend, List.nil_append]
    · rw [tokens, next_behind_newline hend tail, ← tokens, List.nil_append]
  · obtain ⟨ts, e, htokens, he, htail⟩ :=
      tokens_newline (next ⟨rest, p⟩).2.rest tail (next ⟨rest, p⟩).2.position
    refine ⟨(next ⟨rest, p⟩).1 :: ts, e, ?_, he, ?_⟩
    · rw [tokens_of_ne_eof hend, htokens, List.cons_append]
    · have hnext := next_newline hend tail
      have hkind : (next ⟨rest ++ '\n' :: tail, p⟩).1.kind ≠ .eof := by rwa [hnext]
      rw [tokens_of_ne_eof hkind, hnext, htail, Position.afterAll_append, afterAll_next,
        ← Position.afterAll_append, List.cons_append]
termination_by rest.length
decreasing_by exact length_next_lt hend

end Scan

/-- A text is read line by line: in front of a newline its tokens are those of the text before it
without the end, and behind it those of the text behind it, further down by the lines before. -/
theorem tokenize_newline (s₁ s₂ : String) : ∃ ts e, tokenize s₁ = ts ++ [e] ∧ e.kind = .eof ∧
    tokenize (s₁ ++ "\n" ++ s₂) =
      ts ++ (tokenize s₂).map (.relocate (.down (1 + s₁.toList.count '\n'))) := by
  obtain ⟨ts, e, htokens, he, htail⟩ := Scan.tokens_newline s₁.toList s₂.toList .start
  refine ⟨ts, e, htokens, he, ?_⟩
  have hlist : (s₁ ++ "\n" ++ s₂).toList = s₁.toList ++ '\n' :: s₂.toList := by
    simp [String.toList_append]
  rw [Position.afterAll_newline, Scan.tokens_down] at htail
  rw [tokenize, Scan.ofString, hlist]
  exact htail

end Routine
