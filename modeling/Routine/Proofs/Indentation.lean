import Mathlib.Data.List.Basic
import Routine.Proofs.Gaps
import Routine.Tree.Yield

/-!
# Statements at a depth

A block at a depth is shown as on its own, with four blanks for each level in front of every line
(`Block.textAt_add`). Depth is handed down, and the blanks of a line are set in two places: a block
sets those of the lines its statements begin on, and a statement those of its other lines. So the
text of a statement gets its blanks behind every newline (`Text.hang`), which goes through the text
piece by piece, and a block those in front of it besides; that takes a block with something in it.
-/

namespace Routine

open Text

theorem intercalate_map_append {α : Type} (sep p : List α) {ls : List (List α)} (h : ls ≠ []) :
    sep.intercalate (ls.map (p ++ ·)) = p ++ (sep ++ p).intercalate ls := by
  induction ls with
  | nil => exact absurd rfl h
  | cons l ls ih =>
    cases ls with
    | nil => simp
    | cons m ls =>
      rw [List.map_cons, List.map_cons, List.intercalate_cons_cons, ← List.map_cons,
        ih (List.cons_ne_nil m ls), List.intercalate_cons_cons]
      simp

theorem intercalate_splitOn_eq {α : Type} [DecidableEq α] (sep : List α) (a : α) (xs : List α) :
    sep.intercalate (xs.splitOn a) = xs.flatMap fun x => if x = a then sep else [x] := by
  induction xs with
  | nil => simp
  | cons x xs ih =>
    obtain ⟨l, ls, hsplit⟩ := List.exists_cons_of_ne_nil (List.splitOn_ne_nil a xs)
    rw [List.splitOn_cons_eq_if_modifyHead, List.flatMap_cons, ← ih, hsplit]
    by_cases hx : x = a
    · simp [hx]
    · simp [hx, List.intercalate_cons_cons_left]

namespace Text

/-- The text with `n` blanks in front of every line. -/
def shift (n : Nat) (s : String) : String :=
  String.ofList (['\n'].intercalate ((s.toList.splitOn '\n').map (List.replicate n ' ' ++ ·)))

/-- The text with `n` blanks in front of every line but the first. -/
def hang (n : Nat) (s : String) : String :=
  String.ofList (s.toList.flatMap fun c => if c = '\n' then '\n' :: List.replicate n ' ' else [c])

/-- The text has no newline. -/
def OneLine (s : String) : Prop := '\n' ∉ s.toList

instance (s : String) : Decidable (OneLine s) := inferInstanceAs (Decidable (_ ∉ _))

variable {n : Nat} {s t : String}

theorem shift_eq (n : Nat) (s : String) : shift n s = blanks n ++ hang n s := by
  have hsplit := List.splitOn_ne_nil '\n' s.toList
  rw [shift, intercalate_map_append _ _ hsplit, intercalate_splitOn_eq, String.ofList_append]
  rfl

theorem hang_append (n : Nat) (s t : String) : hang n (s ++ t) = hang n s ++ hang n t := by
  rw [hang, String.toList_append, List.flatMap_append, String.ofList_append, hang, hang]

theorem hang_of_oneLine (h : OneLine s) : hang n s = s := by
  have hsame : s.toList.flatMap (fun c => if c = '\n' then '\n' :: List.replicate n ' ' else [c]) =
      s.toList.flatMap fun c => [c] := by
    refine List.flatMap_congr fun c hc => ?_
    have hne : c ≠ '\n' := fun heq => h (heq ▸ hc)
    rw [if_neg hne]
  rw [hang, hsame, List.flatMap_singleton', String.ofList_toList]

theorem hang_newline (n : Nat) : hang n "\n" = "\n" ++ blanks n := by
  rw [hang, blanks, ← String.toList_inj, String.toList_append, String.toList_ofList, String.toList_ofList]
  simp

/-- Behind the newline at the end stand the blanks of the next line. -/
theorem hang_of_ends (h : s = String.ofList s.toList.dropLast ++ "\n") (hs : '\n' ∉ s.toList.dropLast) :
    hang n s = s ++ blanks n := by
  have hfront : OneLine (String.ofList s.toList.dropLast) := by
    rwa [OneLine, String.toList_ofList]
  rw [h, hang_append, hang_of_oneLine hfront, hang_newline, String.append_assoc]

theorem blanks_add (m n : Nat) : blanks (m + n) = blanks m ++ blanks n := by
  rw [blanks, ← List.replicate_append_replicate, String.ofList_append, blanks, blanks]

theorem oneLine_blanks (n : Nat) : OneLine (blanks n) := by
  intro hmem
  rw [blanks, String.toList_ofList] at hmem
  exact absurd (List.eq_of_mem_replicate hmem) (by decide)

theorem OneLine.append (hs : OneLine s) (ht : OneLine t) : OneLine (s ++ t) := by
  rw [OneLine, String.toList_append]
  exact fun hmem => (List.mem_append.1 hmem).elim hs ht

end Text

theorem not_mem_toDigits (n : Nat) : '\n' ∉ Nat.toDigits 10 n := fun hmem =>
  absurd (Nat.isDigit_of_mem_toDigits (by decide) (by decide) hmem) (by decide)

theorem oneLine_repr (n : Nat) : OneLine n.repr := by
  rw [OneLine, Nat.toList_repr]
  exact not_mem_toDigits n

theorem oneLine_decimalText (n : Int) : OneLine (decimalText n) := by
  cases n with
  | ofNat n => exact oneLine_repr n
  | negSucc n => exact OneLine.append (by decide) (oneLine_repr (n + 1))

namespace Binary64

theorem Decimal.not_mem_chars {d : Decimal} (h : '\n' ∉ d.digits) : '\n' ∉ d.chars := by
  have hzeros : ∀ n : Nat, '\n' ∉ List.replicate n '0' := fun n hmem =>
    absurd (List.eq_of_mem_replicate hmem) (by decide)
  have htake : ∀ n : Nat, '\n' ∉ d.digits.take n := fun n hmem => h (List.mem_of_mem_take hmem)
  have hdrop : ∀ n : Nat, '\n' ∉ d.digits.drop n := fun n hmem => h (List.mem_of_mem_drop hmem)
  have hlarge : ∀ e, '\n' ∉ positionalLarge d.digits e := by
    intro e
    simp only [positionalLarge]
    split <;> simp [htake, hdrop, hzeros]
  have hsmall : ∀ e, '\n' ∉ positionalSmall d.digits e := by
    intro e
    simp [positionalSmall, hzeros, h]
  have hscientific : ∀ e, '\n' ∉ scientific d.digits e := by
    intro e
    have hrest : '\n' ∉ d.digits.tail := fun hmem => h (List.mem_of_mem_tail hmem)
    unfold scientific pointed
    split <;> split <;> simp [htake, hrest, not_mem_toDigits]
  unfold chars
  split <;> split
  · exact hlarge _
  · exact hscientific _
  · exact hsmall _
  · exact hscientific _

/-- As `shortest`, by any search, so that a proof about the digits does not begin to evaluate one. -/
def shortestBy (search : Interval → Nat → Nat × Nat) (x : Binary64) : Decimal :=
  let i := x.interval
  let (d, k) := search i i.ceiling
  let digits := Nat.toDigits 10 d
  ⟨digits, (k : Int) - 324 + (digits.length - 1 : Nat)⟩

theorem shortest_eq : shortest = shortestBy Interval.shortestUpTo := rfl

theorem digits_shortestBy (search : Interval → Nat → Nat × Nat) (x : Binary64) :
    (shortestBy search x).digits = Nat.toDigits 10 (search x.interval x.interval.ceiling).1 := rfl

theorem not_mem_digits_shortest (x : Binary64) : '\n' ∉ x.shortest.digits := by
  rw [shortest_eq, digits_shortestBy]
  exact not_mem_toDigits _

theorem oneLine_magnitudeText (x : Binary64) : OneLine x.magnitudeText := by
  unfold magnitudeText
  split
  · decide
  · split
    · decide
    · rw [OneLine, String.toList_ofList]
      exact Decimal.not_mem_chars x.not_mem_digits_shortest

theorem oneLine_text (x : Binary64) : OneLine x.text := by
  unfold text
  split
  · decide
  · split
    · exact OneLine.append (by decide) x.oneLine_magnitudeText
    · exact x.oneLine_magnitudeText

end Binary64

/-- A name, a character or a string without a newline, or any other terminal. -/
def Terminal.OnOneLine : Terminal → Prop
  | fixed _ => True
  | name id => OneLine id.name
  | constant (.char c) => c ≠ '\n'
  | constant _ => True
  | string s => OneLine s

instance : (x : Terminal) → Decidable x.OnOneLine
  | .fixed _ | .constant (.int _) | .constant (.float _) => inferInstanceAs (Decidable True)
  | .name id => inferInstanceAs (Decidable (OneLine id.name))
  | .constant (.char c) => inferInstanceAs (Decidable (c ≠ '\n'))
  | .string s => inferInstanceAs (Decidable (OneLine s))

theorem oneLine_applied {op lhs rhs : String} (hop : OneLine op) (hlhs : OneLine lhs)
    (hrhs : OneLine rhs) : OneLine (applied op lhs rhs) := by
  have hblank : OneLine " " := by decide
  have hopen : OneLine "(" := by decide
  have hclose : OneLine ")" := by decide
  exact ((((hopen.append hop).append hblank |>.append hlhs).append hblank).append hrhs).append hclose

theorem oneLine_textOrGap {α : Type} {text : α → String} {yield : α → List Terminal} {o : Option α}
    (htext : ∀ a, (∀ x ∈ yield a, x.OnOneLine) → OneLine (text a))
    (h : ∀ x ∈ yieldOrGap yield o, x.OnOneLine) : OneLine (textOrGap text o) := by
  cases o with
  | none => exact (by decide : OneLine gapText)
  | some a => exact htext a h

theorem AddOp.oneLine_text (op : AddOp) : OneLine op.text := by
  cases op <;> decide

theorem MulOp.oneLine_text (op : MulOp) : OneLine op.text := by
  cases op <;> decide

theorem RelOp.oneLine_text (op : RelOp) : OneLine op.text := by
  cases op <;> decide

theorem Sign.oneLine_apply {s : String} (sign : Sign) (h : OneLine s) : OneLine (sign.apply s) := by
  have hclose : OneLine ")" := by decide
  cases sign with
  | plain => exact h
  | not => exact (OneLine.append (by decide) h).append hclose
  | minus => exact (OneLine.append (by decide) h).append hclose

theorem oneLine_charText {c : Char} (hc : c ≠ '\n') : OneLine (charText c) := by
  rw [OneLine, charText, String.toList_ofList]
  simp [hc.symm]

mutual

theorem Expr.oneLine_text : (e : Expr) → (∀ x ∈ e.yield, x.OnOneLine) → OneLine e.text
  | .simple e, h => e.oneLine_text h
  | .compare lhs op rhs, h => by
    obtain ⟨⟨hlhs, hop⟩, hrhs⟩ := List.forall_mem_append.1 h |>.imp_left List.forall_mem_append.1
    have hop := oneLine_textOrGap (fun o _ => RelOp.oneLine_text o) hop
    exact oneLine_applied hop (lhs.oneLine_text hlhs) (rhs.oneLine_text hrhs)

theorem SimpleExpr.oneLine_text : (e : SimpleExpr) → (∀ x ∈ e.yield, x.OnOneLine) → OneLine e.text
  | .mk first rest, h => by
    obtain ⟨hfirst, hrest⟩ := List.forall_mem_append.1 h
    exact rest.oneLine_textAfter (first.oneLine_text hfirst) hrest

theorem SimpleTail.oneLine_textAfter : (e : SimpleTail) → {before : String} → OneLine before →
    (∀ x ∈ e.yield, x.OnOneLine) → OneLine (e.textAfter before)
  | .nil, _, hbefore, _ => hbefore
  | .cons op term rest, before, hbefore, h => by
    obtain ⟨⟨hop, hterm⟩, hrest⟩ := List.forall_mem_append.1 h |>.imp_left List.forall_mem_append.1
    have hop := oneLine_textOrGap (fun o _ => AddOp.oneLine_text o) hop
    exact rest.oneLine_textAfter (oneLine_applied hop hbefore (term.oneLine_text hterm)) hrest

theorem Term.oneLine_text : (e : Term) → (∀ x ∈ e.yield, x.OnOneLine) → OneLine e.text
  | .mk first rest, h => by
    obtain ⟨hfirst, hrest⟩ := List.forall_mem_append.1 h
    exact rest.oneLine_textAfter (first.oneLine_text hfirst) hrest

theorem TermTail.oneLine_textAfter : (e : TermTail) → {before : String} → OneLine before →
    (∀ x ∈ e.yield, x.OnOneLine) → OneLine (e.textAfter before)
  | .nil, _, hbefore, _ => hbefore
  | .cons op operand rest, before, hbefore, h => by
    obtain ⟨⟨hop, hoperand⟩, hrest⟩ := List.forall_mem_append.1 h |>.imp_left List.forall_mem_append.1
    have hop := oneLine_textOrGap (fun o _ => MulOp.oneLine_text o) hop
    exact rest.oneLine_textAfter (oneLine_applied hop hbefore (operand.oneLine_text hoperand)) hrest

theorem Operand.oneLine_text : (e : Operand) → (∀ x ∈ e.yield, x.OnOneLine) → OneLine e.text
  | .of sign primary, h =>
    sign.oneLine_apply (primary.oneLine_text (List.forall_mem_append.1 h).2)
  | .gap sign, _ => sign.oneLine_apply (by decide)

theorem Primary.oneLine_text : (e : Primary) → (∀ x ∈ e.yield, x.OnOneLine) → OneLine e.text
  | .name _, h => h _ (List.mem_singleton_self _)
  | .constant (.int n), _ => oneLine_decimalText n
  | .constant (.float x), _ => x.oneLine_text
  | .constant (.char _), h => oneLine_charText (h _ (List.mem_singleton_self _))
  | .group e, h => by
    have he := (List.forall_mem_append.1 (List.forall_mem_cons.1 h).2).1
    exact (OneLine.append (by decide) (e.oneLine_text he)).append (by decide)

end

theorem Writable.oneLine_text (w : Writable) (h : ∀ x ∈ w.yield, x.OnOneLine) : OneLine w.text := by
  cases w with
  | string s =>
    have hs : OneLine s := h _ (List.mem_singleton_self _)
    exact (OneLine.append (by decide) hs).append (by decide)
  | value e => exact e.oneLine_text h

theorem oneLine_of_headYield (cond : Expr) (h : ∀ x ∈ headYield cond, x.OnOneLine) :
    OneLine cond.text :=
  cond.oneLine_text (List.forall_mem_append.1 (List.forall_mem_cons.1 h).2).1

theorem oneLine_of_exitYield (cond : Expr) (h : ∀ x ∈ exitYield cond, x.OnOneLine) :
    OneLine cond.text :=
  cond.oneLine_text (List.forall_mem_cons.1 h).2

mutual

/-- No block in the statement is empty. -/
def Stmt.isFilled : Stmt → Bool
  | .assign _ _ | .read _ | .write _ => true
  | .ifThen _ thenBlock => thenBlock.isFilled
  | .ifElse _ thenBlock elseBlock => thenBlock.isFilled && elseBlock.isFilled
  | .whileDo _ body => body.isFilled
  | .repeatUntil body _ => body.isFilled

/-- Neither the block nor one in it is empty. -/
def Block.isFilled : Block → Bool
  | .nil => false
  | .stmt s rest => s.isFilled && rest.moreFilled
  | .gap rest => rest.moreFilled

/-- No block in the statements is empty. -/
def Block.moreFilled : Block → Bool
  | .nil => true
  | .stmt s rest => s.isFilled && rest.moreFilled
  | .gap rest => rest.moreFilled

end

mutual

theorem Stmt.isFilled_of_isRegular : (s : Stmt) → s.isRegular → s.isFilled
  | .assign _ _, _ => rfl
  | .read _, _ => rfl
  | .write _, _ => rfl
  | .ifThen _ thenBlock, h => thenBlock.isFilled_of_isRegular (Bool.and_eq_true_iff.1 h).2
  | .ifElse _ thenBlock elseBlock, h => by
    obtain ⟨hthen, helse⟩ := Bool.and_eq_true_iff.1 h
    exact Bool.and_eq_true_iff.2 ⟨thenBlock.isFilled_of_isRegular (Bool.and_eq_true_iff.1 hthen).2,
      elseBlock.isFilled_of_isRegular helse⟩
  | .whileDo _ body, h => body.isFilled_of_isRegular (Bool.and_eq_true_iff.1 h).2
  | .repeatUntil body _, h => body.isFilled_of_isRegular (Bool.and_eq_true_iff.1 h).1

theorem Block.isFilled_of_isRegular : (b : Block) → b.isRegular → b.isFilled
  | .stmt s rest, h => by
    obtain ⟨hs, hrest⟩ := Bool.and_eq_true_iff.1 h
    exact Bool.and_eq_true_iff.2 ⟨s.isFilled_of_isRegular hs, rest.moreFilled_of_moreRegular hrest⟩
  | .gap rest, h => rest.moreFilled_of_moreRegular h

theorem Block.moreFilled_of_moreRegular : (b : Block) → b.moreRegular → b.moreFilled
  | .nil, _ => rfl
  | .stmt s rest, h => by
    obtain ⟨hs, hrest⟩ := Bool.and_eq_true_iff.1 h
    exact Bool.and_eq_true_iff.2 ⟨s.isFilled_of_isRegular hs, rest.moreFilled_of_moreRegular hrest⟩
  | .gap rest, h => rest.moreFilled_of_moreRegular h

end

/-! ### Depth -/

theorem indent_add (e d : Nat) : indent (e + d) = blanks (4 * d) ++ indent e := by
  rw [indent, Nat.add_comm e d, Nat.mul_add, blanks_add, indent]

section
variable (n : Nat)

theorem hang_then : hang n " then\n" = " then\n" ++ blanks n := hang_of_ends (by decide) (by decide)

theorem hang_else : hang n "else\n" = "else\n" ++ blanks n := hang_of_ends (by decide) (by decide)

theorem hang_do : hang n " do\n" = " do\n" ++ blanks n := hang_of_ends (by decide) (by decide)

theorem hang_repeat : hang n "repeat\n" = "repeat\n" ++ blanks n := hang_of_ends (by decide) (by decide)

theorem hang_semicolon : hang n ";\n" = ";\n" ++ blanks n := hang_of_ends (by decide) (by decide)

theorem hang_end : hang n "end" = "end" := hang_of_oneLine (by decide)

theorem hang_gapText : hang n gapText = gapText := hang_of_oneLine (by decide)

theorem hang_indent (e : Nat) : hang n (indent e) = indent e := hang_of_oneLine (oneLine_blanks _)

end

theorem hang_line {n : Nat} {s s' last : String} (hs : hang n s = s')
    (hlast : hang n last = last ++ blanks n) : hang n (s ++ last) = s' ++ last ++ blanks n := by
  rw [hang_append, hs, hlast, String.append_assoc]

/-- A block between two lines of its statement. -/
theorem hang_nested {e d : Nat} {b : Block} {front front' : String}
    (hfront : hang (4 * d) front = front' ++ blanks (4 * d))
    (hb : b.textAt (e + 1 + d) = shift (4 * d) (b.textAt (e + 1))) :
    hang (4 * d) (front ++ b.textAt (e + 1) ++ "\n" ++ indent e) =
      front' ++ b.textAt (e + d + 1) ++ "\n" ++ indent (e + d) := by
  rw [Nat.add_right_comm, shift_eq] at hb
  rw [hb, indent_add, hang_append, hang_append, hang_append, hfront, hang_newline, hang_indent]
  simp only [String.append_assoc]

mutual

theorem Stmt.textAt_add (e d : Nat) : (s : Stmt) → s.isFilled → (∀ x ∈ s.yield, x.OnOneLine) →
    s.textAt (e + d) = hang (4 * d) (s.textAt e)
  | .assign target value, _, h => by
    obtain ⟨htarget, -, hvalue⟩ := List.forall_mem_cons.1 h |>.imp_right List.forall_mem_cons.1
    have hname : OneLine target.name := htarget
    exact (hang_of_oneLine ((hname.append (by decide)).append (value.oneLine_text hvalue))).symm
  | .read target, _, h => by
    have hname : OneLine target.name := h (.name target) (by simp [Stmt.yield])
    exact (hang_of_oneLine ((OneLine.append (by decide) hname).append (by decide))).symm
  | .write value, _, h => by
    simp only [Stmt.yield, List.forall_mem_cons, List.forall_mem_append] at h
    have hvalue := oneLine_textOrGap Writable.oneLine_text h.2.2.1
    exact (hang_of_oneLine ((OneLine.append (by decide) hvalue).append (by decide))).symm
  | .ifThen cond thenBlock, hfilled, h => by
    simp only [Stmt.yield, List.forall_mem_cons, List.forall_mem_append] at h
    have hcond : OneLine ("if " ++ cond.text) := OneLine.append (by decide) (cond.oneLine_text h.2.1)
    have hhead := hang_line (hang_of_oneLine hcond) (hang_then (4 * d))
    have hthen := hang_nested hhead (thenBlock.textAt_add (e + 1) d hfilled h.2.2.2.1)
    rw [Stmt.textAt, Stmt.textAt, hang_append, hthen, hang_end]
  | .ifElse cond thenBlock elseBlock, hfilled, h => by
    obtain ⟨hfilled, hfilled'⟩ := Bool.and_eq_true_iff.1 hfilled
    simp only [Stmt.yield, List.forall_mem_cons, List.forall_mem_append] at h
    have hcond : OneLine ("if " ++ cond.text) := OneLine.append (by decide) (cond.oneLine_text h.2.1)
    have hhead := hang_line (hang_of_oneLine hcond) (hang_then (4 * d))
    have hthen := hang_nested hhead (thenBlock.textAt_add (e + 1) d hfilled h.2.2.2.1)
    have hmiddle := hang_line hthen (hang_else (4 * d))
    have helse := hang_nested hmiddle (elseBlock.textAt_add (e + 1) d hfilled' h.2.2.2.2.2.1)
    rw [Stmt.textAt, Stmt.textAt, hang_append, helse, hang_end]
  | .whileDo cond body, hfilled, h => by
    simp only [Stmt.yield, List.forall_mem_append] at h
    have hcond : OneLine ("while " ++ textOrGap Expr.text cond) :=
      OneLine.append (by decide) (oneLine_textOrGap oneLine_of_headYield h.1.1)
    have hhead := hang_line (hang_of_oneLine hcond) (hang_do (4 * d))
    have hbody := hang_nested hhead (body.textAt_add (e + 1) d hfilled h.1.2)
    rw [Stmt.textAt, Stmt.textAt, hang_append, hbody, hang_end]
  | .repeatUntil body cond, hfilled, h => by
    simp only [Stmt.yield, List.forall_mem_cons, List.forall_mem_append] at h
    have hbody := hang_nested (hang_repeat (4 * d)) (body.textAt_add (e + 1) d hfilled h.2.1)
    have huntil : OneLine "until " := by decide
    have hcond := oneLine_textOrGap oneLine_of_exitYield h.2.2
    rw [Stmt.textAt, Stmt.textAt, hang_append, hang_append, hbody, hang_of_oneLine huntil,
      hang_of_oneLine hcond]

theorem Block.textAt_add (e d : Nat) : (b : Block) → b.isFilled → (∀ x ∈ b.yield, x.OnOneLine) →
    b.textAt (e + d) = shift (4 * d) (b.textAt e)
  | .stmt s rest, hfilled, h => by
    obtain ⟨hs, hrest⟩ := Bool.and_eq_true_iff.1 hfilled
    obtain ⟨hline, hline'⟩ := List.forall_mem_append.1 h
    rw [shift_eq, Block.textAt, Block.textAt, hang_append, hang_append, hang_indent, indent_add,
      s.textAt_add e d hs hline, rest.moreTextAt_add e d hrest hline']
    simp only [String.append_assoc]
  | .gap rest, hfilled, h => by
    rw [shift_eq, Block.textAt, Block.textAt, hang_append, hang_append, hang_indent, indent_add,
      hang_gapText, rest.moreTextAt_add e d hfilled h]
    simp only [String.append_assoc]

theorem Block.moreTextAt_add (e d : Nat) : (b : Block) → b.moreFilled →
    (∀ x ∈ b.moreYield, x.OnOneLine) → b.moreTextAt (e + d) = hang (4 * d) (b.moreTextAt e)
  | .nil, _, _ => rfl
  | .stmt s rest, hfilled, h => by
    obtain ⟨hs, hrest⟩ := Bool.and_eq_true_iff.1 hfilled
    obtain ⟨hline, hline'⟩ := List.forall_mem_append.1 (List.forall_mem_cons.1 h).2
    rw [Block.moreTextAt, Block.moreTextAt, hang_append, hang_append, hang_append, hang_indent,
      hang_semicolon, indent_add, s.textAt_add e d hs hline, rest.moreTextAt_add e d hrest hline']
    simp only [String.append_assoc]
  | .gap rest, hfilled, h => by
    rw [Block.moreTextAt, Block.moreTextAt, hang_append, hang_append, hang_append, hang_indent,
      hang_semicolon, indent_add, hang_gapText, rest.moreTextAt_add e d hfilled (List.forall_mem_cons.1 h).2]
    simp only [String.append_assoc]

end

theorem Nonterminal.isRegular_parse (n : Nonterminal) (s : Cursor) : n.isRegular (n.parse s).1 := by
  obtain ⟨k, ⟨-, hregular⟩, -⟩ :=
    n.post_parse (fun p s _ => paying_phrase p s) (pays_procedure n s)
  exact hregular

/-- No block that is parsed is empty, or has an empty one in it. Such a block, if the names, the
characters and the strings in it have no newline, is shown at a depth as on its own, with four blanks
for each level in front of every line. So are the statements of a program, one level deep. -/
theorem textAt_eq_shift :
    (∀ s, Block.isFilled (Nonterminal.statements.parse s).1) ∧
      (∀ s p b, (Nonterminal.program.parse s).1 = some p → p.body = some b → b.statements.isFilled) ∧
      ∀ b : Block, b.isFilled → (∀ x ∈ b.yield, x.OnOneLine) →
        (∀ d, b.textAt d = shift (4 * d) b.text) ∧
          ∀ ds, Program.text ⟨some ⟨ds, b⟩⟩ =
            "routine\n" ++ (ds.text ++ "begin\n" ++ shift 4 b.text ++ "\nend") := by
  refine ⟨fun s => ?_, fun s p b hp hb => ?_, fun b hfilled hline => ?_⟩
  · exact Block.isFilled_of_isRegular _ (Nonterminal.statements.isRegular_parse s)
  · have hregular := Nonterminal.program.isRegular_parse s
    rw [hp] at hregular
    obtain ⟨body⟩ := p
    obtain rfl : body = some b := hb
    exact b.statements.isFilled_of_isRegular (Bool.and_eq_true_iff.1 hregular).2
  · have htext : ∀ d, b.textAt d = shift (4 * d) b.text := by
      intro d
      have hadd := b.textAt_add 0 d hfilled hline
      rwa [Nat.zero_add] at hadd
    refine ⟨htext, fun ds => ?_⟩
    rw [← htext 1]
    rfl

theorem textAt_eq_shift_nested :
    (Block.stmt (.whileDo none (.gap (.stmt (.write (some (.string "a"))) .nil))) (.gap .nil)).textAt 2 =
      shift 8 "while <error> do\n    <error>;\n    write(\"a\")\nend;\n<error>" := by
  have htext : (Block.stmt (.whileDo none (.gap (.stmt (.write (some (.string "a"))) .nil)))
      (.gap .nil)).text = "while <error> do\n    <error>;\n    write(\"a\")\nend;\n<error>" := by
    decide +kernel
  rw [← htext]
  exact (textAt_eq_shift.2.2 _ rfl (by decide)).1 2

end Routine
