import Routine.Cli.Report
import Routine.Proofs.Faithful

/-!
# What the listing of the tokens tells

The tokens of a text are listed one a line, in columns that a wide entry overruns. A line can be
taken apart all the same: no position has a blank in it, so the first blank is where the position
ends (`Position.eq_of_padded`); and the column of kinds is as wide as the widest kind that has a value
behind it, so the value begins at its place in every line that has one (`Content.Listed.eq_of_column`).
No value runs over the end of its line. Float constants are left out: two of them may have one text.
-/

namespace Routine

theorem append_mark_inj {α : Type} {a : α} {xs ys rest rest' : List α} (hx : a ∉ xs)
    (hy : a ∉ ys) (h : xs ++ a :: rest = ys ++ a :: rest') : xs = ys ∧ rest = rest' := by
  induction xs generalizing ys with
  | nil =>
    cases ys with
    | nil => exact ⟨rfl, (List.cons.inj h).2⟩
    | cons y ys => exact absurd (List.cons.inj h).1 (List.ne_of_not_mem_cons hy)
  | cons x xs ih =>
    cases ys with
    | nil => exact absurd (List.cons.inj h).1.symm (List.ne_of_not_mem_cons hx)
    | cons y ys =>
      obtain ⟨rfl, hrest⟩ := List.cons.inj h
      obtain ⟨rfl, rfl⟩ := ih (List.not_mem_of_not_mem_cons hx) (List.not_mem_of_not_mem_cons hy) hrest
      exact ⟨rfl, rfl⟩

/-- Lines that are told apart one by one are told apart in a row. -/
theorem Cli.lines_inj {α : Type} {text : α → String} {P : α → Prop}
    (hline : ∀ x, P x → '\n' ∉ (text x).toList) (hinj : ∀ x y, P x → P y → text x = text y → x = y)
    {xs ys : List α} (hxs : ∀ x ∈ xs, P x) (hys : ∀ y ∈ ys, P y)
    (h : Cli.lines text xs = Cli.lines text ys) : xs = ys := by
  have hcons : ∀ x zs, (Cli.lines text (x :: zs)).toList =
      (text x).toList ++ '\n' :: (Cli.lines text zs).toList := by
    intro x zs
    simp [Cli.lines, Cli.line]
  induction xs generalizing ys with
  | nil =>
    cases ys with
    | nil => rfl
    | cons y ys =>
      have hnil := congrArg String.toList h
      rw [hcons] at hnil
      simp [Cli.lines] at hnil
  | cons x xs ih =>
    cases ys with
    | nil =>
      have hnil := congrArg String.toList h
      rw [hcons] at hnil
      simp [Cli.lines] at hnil
    | cons y ys =>
      obtain ⟨hx, hxs⟩ := List.forall_mem_cons.1 hxs
      obtain ⟨hy, hys⟩ := List.forall_mem_cons.1 hys
      have hlist := congrArg String.toList h
      rw [hcons, hcons] at hlist
      obtain ⟨hfirst, hrest⟩ := append_mark_inj (hline x hx) (hline y hy) hlist
      rw [hinj x y hx hy (String.toList_inj.1 hfirst), ih hxs hys (String.toList_inj.1 hrest)]

theorem Text.toList_padRight (width : Nat) (s : String) :
    (Text.padRight width s).toList = s.toList ++ List.replicate (width - s.length) ' ' := by
  rw [padRight, blanks, String.toList_append, String.toList_ofList]

theorem repr_inj {m n : Nat} (h : m.repr = n.repr) : m = n := by
  rw [← ofDigitChars_repr m, h, ofDigitChars_repr]

namespace Position
variable {p q : Position}

theorem toList_text (p : Position) :
    p.text.toList = p.line.repr.toList ++ ':' :: p.column.repr.toList := by
  simp [text]

theorem not_mem_text {c : Char} (hc : c.isDigit = false) (hcolon : c ≠ ':') : c ∉ p.text.toList := by
  have hdigits : ∀ n : Nat, c ∉ n.repr.toList := by
    intro n hmem
    rw [isDigit_of_mem_repr hmem] at hc
    cases hc
  rw [toList_text, List.mem_append, List.mem_cons]
  rintro (hmem | rfl | hmem)
  · exact hdigits _ hmem
  · exact hcolon rfl
  · exact hdigits _ hmem

theorem eq_of_text (h : p.text = q.text) : p = q := by
  have hcolon : ∀ n : Nat, ':' ∉ n.repr.toList := fun n hmem => absurd (isDigit_of_mem_repr hmem) (by decide)
  have hlist := congrArg String.toList h
  rw [toList_text, toList_text] at hlist
  obtain ⟨hline, hcolumn⟩ := append_mark_inj (hcolon _) (hcolon _) hlist
  obtain ⟨l, c⟩ := p
  obtain ⟨l', c'⟩ := q
  obtain rfl : l = l' := repr_inj (String.toList_inj.1 hline)
  obtain rfl : c = c' := repr_inj (String.toList_inj.1 hcolumn)
  rfl

/-- However wide they are, positions in a column are told apart from what is behind them. -/
theorem eq_of_padded {width : Nat} {rest rest' : List Char}
    (h : (Text.padRight width p.text).toList ++ ' ' :: rest =
      (Text.padRight width q.text).toList ++ ' ' :: rest') : p = q ∧ rest = rest' := by
  have hblank : ∀ p : Position, ' ' ∉ p.text.toList := fun p => not_mem_text (by decide) (by decide)
  -- the blank behind the column is as good in front of the padding
  have hmove : ∀ (n : Nat) (cs : List Char), List.replicate n ' ' ++ ' ' :: cs =
      ' ' :: (List.replicate n ' ' ++ cs) := by
    intro n cs
    rw [← List.singleton_append, ← List.append_assoc, ← List.replicate_succ', List.replicate_succ]
    rfl
  rw [Text.toList_padRight, Text.toList_padRight, List.append_assoc, List.append_assoc, hmove, hmove] at h
  obtain ⟨htext, hrest⟩ := append_mark_inj (hblank p) (hblank q) h
  obtain rfl := eq_of_text (String.toList_inj.1 htext)
  exact ⟨rfl, List.append_cancel_left hrest⟩

end Position

theorem Kind.eq_of_padded {j k : Kind} (h : Text.padRight 16 j.label = Text.padRight 16 k.label) :
    j = k := by
  have hall : ∀ j ∈ Kind.all, ∀ k ∈ Kind.all,
      Text.padRight 16 j.label = Text.padRight 16 k.label → j = k := by
    decide +kernel
  exact hall j j.mem_all k k.mem_all h

theorem Kind.length_label_le (k : Kind) : k.label.length ≤ 16 := by
  cases k <;> decide

/-- The kind of the token that a value belongs to. -/
def Literal.kind : Literal → Kind
  | name _ => .identifier
  | int _ => .intConst
  | float _ => .floatConst
  | char _ => .charConst
  | string _ => .stringConst

theorem decimalText_inj {m n : Int} (h : decimalText m = decimalText n) : m = n := by
  have hminus : ∀ k l : Nat, k.repr ≠ "-" ++ l.repr := by
    intro k l heq
    have hmem : '-' ∈ k.repr.toList := by simp [heq]
    exact absurd (isDigit_of_mem_repr hmem) (by decide)
  cases m with
  | ofNat k =>
    cases n with
    | ofNat l => rw [repr_inj h]
    | negSucc l => exact absurd h (hminus k (l + 1))
  | negSucc k =>
    cases n with
    | ofNat l => exact absurd h.symm (hminus l (k + 1))
    | negSucc l =>
      have hlist := congrArg String.toList h
      simp only [decimalText, String.toList_append, List.append_cancel_left_eq] at hlist
      have hrepr : (k + 1).repr = (l + 1).repr := String.toList_inj.1 hlist
      rw [Nat.succ.inj (repr_inj hrepr)]

theorem Literal.eq_of_text {l l' : Literal} (hfloat : l.kind ≠ .floatConst) (hkind : l.kind = l'.kind)
    (h : l.text = l'.text) : l = l' := by
  cases l <;> cases l' <;> cases hkind
  case name.name s s' => exact congrArg name h
  case int.int m n => exact congrArg int (decimalText_inj h)
  case float.float => exact absurd rfl hfloat
  case char.char c d =>
    have hlist : ['\x27', c, '\x27'] = ['\x27', d, '\x27'] := String.ofList_inj.1 h
    cases hlist
    rfl
  case string.string s s' =>
    have hlist := congrArg String.toList h
    simp only [text, stringText, String.toList_append, List.append_cancel_left_eq,
      List.append_cancel_right_eq] at hlist
    rw [String.toList_inj.1 hlist]

namespace Content

/-- What stands behind the position in the line of a token. -/
def column (x : Content) : String :=
  match x.literal with
  | some l => Text.padRight 16 x.kind.label ++ " " ++ l.text
  | none => x.kind.label

/-- A kind alone, or a value on one line with the kind it belongs to. -/
inductive Listed : Content → Prop
  | bare (k : Kind) : Listed ⟨k, none⟩
  | value {l : Literal} (hfloat : l.kind ≠ .floatConst) (hline : '\n' ∉ l.text.toList) :
    Listed ⟨l.kind, some l⟩

variable {x y : Content}

theorem length_padded (k : Kind) : (Text.padRight 16 k.label).length = 16 := by
  have hle := k.length_label_le
  rw [← String.length_toList, Text.toList_padRight, List.length_append, List.length_replicate,
    String.length_toList]
  omega

theorem Listed.eq_of_column (hx : x.Listed) (hy : y.Listed) (h : x.column = y.column) : x = y := by
  -- a value begins where no label reaches
  have hshort : ∀ (k : Kind) (l : Literal), k.label ≠ Text.padRight 16 l.kind.label ++ " " ++ l.text := by
    intro k l heq
    have hlength := congrArg String.length heq
    have hle := k.length_label_le
    have hblank : " ".length = 1 := rfl
    rw [String.length_append, String.length_append, length_padded] at hlength
    omega
  cases hx with
  | bare k =>
    cases hy with
    | bare k' =>
      have hlabel : k.label = k'.label := h
      rw [Kind.eq_of_padded (congrArg (Text.padRight 16) hlabel)]
    | value => exact absurd h (hshort k _)
  | @value l hfloat =>
    cases hy with
    | bare k => exact absurd h.symm (hshort k l)
    | @value l' =>
      have hlist := congrArg String.toList h
      simp only [column, String.toList_append, List.append_assoc] at hlist
      have hwidth : (Text.padRight 16 l.kind.label).toList.length =
          (Text.padRight 16 l'.kind.label).toList.length := by
        rw [String.length_toList, String.length_toList, length_padded, length_padded]
      obtain ⟨hlabel, htext⟩ := List.append_inj hlist hwidth
      have hkind : l.kind = l'.kind := Kind.eq_of_padded (String.toList_inj.1 hlabel)
      rw [List.append_cancel_left_eq] at htext
      rw [Literal.eq_of_text hfloat hkind (String.toList_inj.1 htext)]

theorem Listed.not_mem_column (hx : x.Listed) : '\n' ∉ x.column.toList := by
  have hlabel : ∀ k : Kind, '\n' ∉ k.label.toList := fun k => by cases k <;> decide
  cases hx with
  | bare k => exact hlabel k
  | @value l hfloat hline =>
    simp [column, Text.toList_padRight, hlabel, hline]

theorem Printable.listed (hx : x.Printable) : x.Listed := by
  cases hx with
  | keyword | symbol => exact .bare _
  | @name s hform =>
    refine .value (l := .name s) Kind.noConfusion fun hmem => ?_
    have hmem : '\n' ∈ s.toList := hmem
    generalize s.toList = text at hform hmem
    cases hform with
    | word hc hcs =>
      rcases List.mem_cons.1 hmem with rfl | hmem
      · exact absurd hc (by decide)
      · exact absurd (hcs _ hmem) (by decide)
  | @int n =>
    refine .value (l := .int n) Kind.noConfusion fun hmem => ?_
    exact absurd (isDigit_of_mem_repr hmem) (by decide)
  | @char c hc hline =>
    refine .value (l := .char c) Kind.noConfusion ?_
    simp [Literal.text, charText, Ne.symm hline]
  | @string s hs =>
    refine .value (l := .string s) Kind.noConfusion ?_
    have hline : '\n' ∉ s.toList := fun hmem => (hs _ hmem).2 rfl
    simp [Literal.text, stringText, hline]

end Content

theorem Lexeme.literal_of_invalid {c : Char} {cs : List Char} (h : (read c cs).1.kind = .invalid) :
    (read c cs).1.literal = none := by
  rcases classified_read c cs with ⟨p, hform, hmeans, -⟩ | ⟨-, -, hliteral⟩
  · exact absurd h (hmeans.kind_ne_invalid hform)
  · exact hliteral

theorem Scan.listed_of_mem_tokens {s : Scan} {t : Token} (ht : t ∈ s.tokens) (hfloat : t.kind ≠ .floatConst) :
    t.content.Listed := by
  obtain ⟨s, rfl⟩ := mem_tokens ht
  revert hfloat
  simp only [next]
  split
  · exact fun _ => .bare .eof
  · next c cs _ =>
    intro hfloat
    rcases Lexeme.read_cases c cs with hinvalid | ⟨hkind, -⟩ | hprintable
    · show Content.Listed ⟨_, _⟩
      rw [Lexeme.literal_of_invalid hinvalid]
      exact .bare _
    · exact absurd hkind hfloat
    · exact hprintable.listed

namespace Token
variable {t u : Token}

theorem line_eq (t : Token) : t.line = Text.padRight 8 t.position.text ++ " " ++ t.content.column := by
  obtain ⟨k, p, _ | l⟩ := t
  · rfl
  · simp only [line, Content.column, content, String.append_assoc]

theorem toList_line (t : Token) : t.line.toList =
    (Text.padRight 8 t.position.text).toList ++ ' ' :: t.content.column.toList := by
  rw [line_eq, String.toList_append, String.toList_append, List.append_assoc]
  rfl

theorem eq_of_line (ht : t.content.Listed) (hu : u.content.Listed) (h : t.line = u.line) : t = u := by
  have hlist := congrArg String.toList h
  rw [toList_line, toList_line] at hlist
  obtain ⟨hposition, hcolumn⟩ := Position.eq_of_padded hlist
  have hcontent := ht.eq_of_column hu (String.toList_inj.1 hcolumn)
  obtain ⟨k, p, l⟩ := t
  obtain ⟨k', p', l'⟩ := u
  cases hposition
  cases hcontent
  rfl

theorem not_mem_line (ht : t.content.Listed) : '\n' ∉ t.line.toList := by
  have hposition : '\n' ∉ t.position.text.toList := Position.not_mem_text (by decide) (by decide)
  rw [toList_line, Text.toList_padRight]
  simp [hposition, ht.not_mem_column]

end Token

/-- Two texts without float constants whose tokens are listed alike have the same tokens. -/
theorem tokenize_eq_of_lines {s₁ s₂ : String} (h₁ : ∀ t ∈ tokenize s₁, t.kind ≠ .floatConst)
    (h₂ : ∀ t ∈ tokenize s₂, t.kind ≠ .floatConst)
    (h : Cli.lines Token.line (tokenize s₁) = Cli.lines Token.line (tokenize s₂)) :
    tokenize s₁ = tokenize s₂ :=
  Cli.lines_inj (P := fun t => t.content.Listed) (fun _ => Token.not_mem_line)
    (fun _ _ => Token.eq_of_line) (fun t ht => Scan.listed_of_mem_tokens ht (h₁ t ht))
    (fun t ht => Scan.listed_of_mem_tokens ht (h₂ t ht)) h

/-- A comment at the end of a line does not show. -/
theorem tokenize_eq_of_lines_comment :
    Cli.lines Token.line (tokenize "int \"  int\" // '\n99") =
        Cli.lines Token.line (tokenize "int \"  int\"\n99") ∧
      tokenize "int \"  int\" // '\n99" = tokenize "int \"  int\"\n99" := by
  have hlines : Cli.lines Token.line (tokenize "int \"  int\" // '\n99") =
      Cli.lines Token.line (tokenize "int \"  int\"\n99") := by
    decide +kernel
  exact ⟨hlines, tokenize_eq_of_lines (by decide +kernel) (by decide +kernel) hlines⟩

end Routine
