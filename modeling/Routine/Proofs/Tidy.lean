import Routine.Proofs.Kept

/-!
# No rejection without its recovery

A token is rejected in many places, and in each of them recovery follows before anything else is
done; nowhere else does a procedure recover. `Procedure.Tidy` says so of one procedure, and is shown
for the procedure of every phrase. A property that a rejection breaks and the recovery behind it
restores can therefore be kept by a whole run (`Upheld.run`), though not by every single step of it.
-/

namespace Routine

open Cursor Procedure Production

/-- Each rejection is followed at once by a recovery, and there is no other recovery. The only event
that is noted apart from them is that something is left over. -/
inductive Procedure.Tidy {α : Type} : Procedure α → Prop
  | done (a : α) : Tidy (.done a)
  | call {p : Phrase} {k : p.Result → Procedure α} (hk : ∀ x, Tidy (k x)) : Tidy (.call p k)
  | next {k : Token → Procedure α} (hk : ∀ t, Tidy (k t)) : Tidy (.act .next k)
  | pushBack {k : Unit → Procedure α} (hk : Tidy (k ())) : Tidy (.act .pushBack k)
  | leftover {k : Unit → Procedure α} (hk : Tidy (k ())) : Tidy (.act (.note .leftover) k)
  | recovery {stop : KindSet} {k : Unit → Procedure α} (hk : Tidy (k ())) :
    Tidy (.act .reject fun _ => .act (.synchronize stop) k)

/-- Every step keeps the property, a rejection together with the recovery behind it. -/
structure Upheld (J : Cursor → Prop) : Prop where
  next : ∀ {s}, J s → J s.next.2
  pushBack : ∀ {s}, J s → J s.pushBack
  leftover : ∀ {s}, J s → J (s.note .leftover)
  recovery : ∀ {s} (stop : KindSet), J s → J (s.reject.synchronize stop)

namespace Procedure.Tidy
variable {α β : Type} {n : Nonterminal}

theorem bind {p : Procedure β} {k : β → Procedure α} (hp : p.Tidy) (hk : ∀ b, (k b).Tidy) :
    (p >>= k).Tidy := by
  induction hp with
  | done b => exact hk b
  | call _ ih => exact .call ih
  | next _ ih => exact .next ih
  | pushBack _ ih => exact .pushBack ih
  | leftover _ ih => exact .leftover ih
  | recovery _ ih => exact .recovery ih

theorem read_bind {p : Phrase} {k : p.Result → Procedure α} (hk : ∀ x, (k x).Tidy) :
    (read p >>= k).Tidy := .call hk

theorem next_bind {k : Token → Procedure α} (hk : ∀ t, (k t).Tidy) :
    (Procedure.next >>= k).Tidy := .next hk

theorem pushBack_bind {k : Unit → Procedure α} (hk : (k ()).Tidy) :
    (Procedure.pushBack >>= k).Tidy := .pushBack hk

theorem recover_bind {k : Unit → Procedure α} (hk : (k ()).Tidy) : (recover n >>= k).Tidy :=
  .recovery hk

theorem fail : (Procedure.fail n : Procedure (Option α)).Tidy := .recovery (.done none)

theorem expect_bind {k : Kind} {p q : Procedure α} (hp : p.Tidy) (hq : q.Tidy) :
    (expect k >>= fun c => if c then p else q).Tidy := by
  refine .next fun t => ?_
  show Tidy (if decide (t.kind = k) then p else q)
  split
  · exact hp
  · exact hq

theorem name_bind {p : Token → Procedure α} {q : Procedure α} (hp : ∀ t, (p t).Tidy)
    (hq : q.Tidy) : (Procedure.next >>= fun t => if t.kind = .identifier then p t else q).Tidy := by
  refine next_bind fun t => ?_
  split
  · exact hp t
  · exact hq

theorem peek_bind {k : Kind → Procedure α} (hk : ∀ kind, (k kind).Tidy) :
    (peek >>= k).Tidy := .next fun t => .pushBack (hk t.kind)

end Procedure.Tidy

theorem tidy_oneOf {α : Type} {n : Nonterminal} {f : Kind → Option α} : (oneOf n f).Tidy := by
  refine .next_bind fun t => ?_
  split
  · exact .done _
  · exact .fail

theorem tidy_constant : constant.Tidy := by
  refine .next_bind fun t => ?_
  split
  · exact .done _
  · exact .fail

theorem tidy_primary : primary.Tidy := by
  refine .next_bind fun t => ?_
  split
  · exact .done _
  iterate 3 exact .pushBack_bind (tidy_constant.bind fun c => .done _)
  · exact .read_bind fun e => .expect_bind (.done _) (.recover_bind (.done _))
  · exact .fail

theorem tidy_sign : sign.Tidy := by
  refine .next_bind fun t => ?_
  split
  · exact .done _
  · exact .pushBack_bind (.done _)

theorem tidy_operand : operand.Tidy :=
  tidy_sign.bind fun _ => tidy_primary.bind fun _ => .done _

theorem tidy_termTail : termTail.Tidy := by
  refine .next_bind fun t => .pushBack_bind ?_
  split
  · exact tidy_oneOf.bind fun op => tidy_operand.bind fun x => .read_bind fun rest => .done _
  · exact .done _

theorem tidy_term : term.Tidy :=
  tidy_operand.bind fun _ => .read_bind fun _ => .done _

theorem tidy_simpleTail : simpleTail.Tidy := by
  refine .next_bind fun t => .pushBack_bind ?_
  split
  · exact tidy_oneOf.bind fun op => tidy_term.bind fun x => .read_bind fun rest => .done _
  · exact .done _

theorem tidy_simpleExpr : simpleExpr.Tidy :=
  tidy_term.bind fun _ => .read_bind fun _ => .done _

theorem tidy_expression : expression.Tidy := by
  refine tidy_simpleExpr.bind fun lhs => .next_bind fun t => .pushBack_bind ?_
  split
  · exact tidy_oneOf.bind fun op => tidy_simpleExpr.bind fun rhs => .done _
  · exact .done _

theorem tidy_assignment : assignment.Tidy :=
  .name_bind (fun _ => .expect_bind (tidy_simpleExpr.bind fun _ => .done _) .fail) .fail

theorem tidy_condition : condition.Tidy := .call fun e => .done e

theorem tidy_conditional : conditional.Tidy := by
  refine .expect_bind (tidy_condition.bind fun cond => .expect_bind ?_ .fail) .fail
  refine .read_bind fun thenBlock => .next_bind fun t => ?_
  split
  · exact .done _
  · exact .read_bind fun elseBlock => .expect_bind (.done _) .fail
  · exact .fail

theorem tidy_loopHead : loopHead.Tidy :=
  .expect_bind (tidy_condition.bind fun _ => .expect_bind (.done _) .fail) .fail

theorem tidy_whileLoop : whileLoop.Tidy :=
  tidy_loopHead.bind fun _ => .read_bind fun _ => .expect_bind (.done _) .fail

theorem tidy_loopExit : loopExit.Tidy :=
  .expect_bind (tidy_condition.bind fun _ => .done _) .fail

theorem tidy_repeatLoop : repeatLoop.Tidy :=
  .expect_bind (.read_bind fun _ => tidy_loopExit.bind fun _ => .done _) .fail

theorem tidy_opening (word : Kind) : (opening word).Tidy :=
  .expect_bind (.next_bind fun _ => .done _) (.done _)

theorem tidy_reading : reading.Tidy := by
  refine (tidy_opening _).bind fun opened => ?_
  split
  · exact .name_bind (fun t => .expect_bind (.done _) .fail) .fail
  · exact .fail

theorem tidy_writable : writable.Tidy := by
  refine .next_bind fun t => ?_
  split
  · exact .done _
  iterate 7 exact .pushBack_bind (tidy_simpleExpr.bind fun e => .done _)
  · exact .fail

theorem tidy_writing : writing.Tidy := by
  refine (tidy_opening _).bind fun opened => ?_
  split
  · refine tidy_writable.bind fun value => ?_
    exact .expect_bind (.done _) (.recover_bind (.done _))
  · exact .fail

theorem tidy_statement : statement.Tidy := by
  refine .peek_bind fun kind => ?_
  split
  · exact tidy_assignment
  · exact tidy_reading
  · exact tidy_writing
  · exact tidy_conditional
  · exact tidy_whileLoop
  · exact tidy_repeatLoop
  · exact .fail

theorem tidy_moreStatements : moreStatements.Tidy :=
  .expect_bind (tidy_statement.bind fun _ => .read_bind fun _ => .done _) (.pushBack_bind (.done _))

theorem tidy_statements : statements.Tidy :=
  tidy_statement.bind fun _ => .read_bind fun _ => .done _

theorem tidy_moreNames : moreNames.Tidy :=
  .expect_bind (.name_bind (fun _ => .read_bind fun _ => .done _) .fail) (.pushBack_bind (.done _))

theorem tidy_names : names.Tidy :=
  .name_bind (fun _ => .read_bind fun _ => .done _) .fail

theorem tidy_declarationAndMore : declarationAndMore.Tidy := by
  have hdeclaration : declaration.Tidy :=
    tidy_oneOf.bind fun type => tidy_names.bind fun ids => .done _
  exact hdeclaration.bind fun d => .expect_bind (.read_bind fun rest => .done _) .fail

theorem tidy_moreDeclarations : moreDeclarations.Tidy := by
  refine .peek_bind fun kind => ?_
  split
  · exact tidy_declarationAndMore
  · exact .done _

theorem tidy_declSection : declSection.Tidy := by
  have hlisted : declarations.Tidy := .expect_bind tidy_declarationAndMore .fail
  refine .peek_bind fun kind => ?_
  split
  · exact .done _
  · refine hlisted.bind fun ds => ?_
    split
    · exact .done _
    · exact .done _

theorem tidy_body : body.Tidy :=
  tidy_declSection.bind fun _ =>
    .expect_bind (.read_bind fun _ => .expect_bind (.done _) .fail) .fail

theorem tidy_program : program.Tidy := by
  refine .expect_bind (tidy_body.bind fun b => .peek_bind fun kind => ?_) .fail
  split
  · exact .done _
  · exact .leftover (.recovery (.done _))

theorem tidy_phrase (p : Phrase) : p.procedure.Tidy := by
  cases p with
  | expression => exact tidy_expression
  | simpleTail => exact tidy_simpleTail
  | termTail => exact tidy_termTail
  | statements => exact tidy_statements
  | moreStatements => exact tidy_moreStatements
  | moreNames => exact tidy_moreNames
  | moreDeclarations => exact tidy_moreDeclarations

namespace Upheld
variable {α : Type} {J : Cursor → Prop} {q : Procedure α} {s : Cursor}

theorem wp_contract (hJ : Upheld J) (hq : q.Tidy) (h : J s) :
    q.wp (Kept.contract J) (fun _ s' => J s') s := by
  induction hq generalizing s with
  | done a => exact h
  | call _ ih => exact ⟨h, fun x s' h' => ih x h'⟩
  | next _ ih => exact ih _ (hJ.next h)
  | pushBack _ ih => exact ih (hJ.pushBack h)
  | leftover _ ih => exact ih (hJ.leftover h)
  | recovery _ ih => exact ih (hJ.recovery _ h)

/-- A tidy procedure keeps the property, whatever phrases it calls. -/
theorem run (hJ : Upheld J) (hq : q.Tidy) (h : J s) : J (q.run Phrase.read s).2 :=
  run_of_wp (Phrase.read_post fun p _ h => hJ.wp_contract (tidy_phrase p) h) q
    (hJ.wp_contract hq h)

/-- Parsing draws a token before anything else. What holds then and is upheld holds in the end. -/
theorem parse (hJ : Upheld J) (f : Feed) (h : J (ofFeed f).next.2) :
    J (Routine.parse f).cursor := by
  obtain ⟨k, hk⟩ : ∃ k, program = .act .next k := ⟨_, rfl⟩
  have hprogram : (Procedure.act .next k).Tidy := hk ▸ tidy_program
  have hparse : (Routine.parse f).cursor =
      ((k (ofFeed f).next.1).run Phrase.read (ofFeed f).next.2).2 := by
    rw [Routine.parse, Nonterminal.parse, Nonterminal.procedure, hk]
    rfl
  rw [hparse]
  cases hprogram with
  | next htidy => exact hJ.run (htidy _) h

end Upheld

/-- A property that every single step keeps is kept by a rejection with its recovery. -/
theorem Kept.upheld {I : Cursor → Prop} (hI : Kept I) : Upheld I where
  next := hI.next
  pushBack := hI.pushBack
  leftover := hI.note _
  recovery stop h := hI.synchronize stop (hI.reject h)

end Routine
