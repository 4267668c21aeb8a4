import Routine.Proofs.Derivation

/-!
# What comes right behind a part

`behind v` are the kinds that may come right behind a variable; for a part they are its follow set.
Both directions of that are checked on the alternatives of the grammar and carried along derivations.
`Fits` bounds what stands behind the variables of a row: every alternative fits, so replacing a
variable keeps a row fitting (`Fits.step`). Conversely every kind of `behind v` has its source in an
alternative in which `v` occurs: it leads what stands behind `v` there, or it comes behind the whole
of a variable that is nearer to the program (`behind_subset_sources`).
-/

namespace Routine.Grammar

variable {row row' alt : List Symbol} {ks ls : List Kind} {k : Kind} {v : Variable}

/-- The kinds that may come right behind a variable, and the end of the input. -/
def behind : Variable → List Kind
  | .part n => n.followKinds
  | .moreDeclarations => Nonterminal.declarations.followKinds
  | .moreNames => Nonterminal.names.followKinds
  | .moreStatements => Nonterminal.statements.followKinds

/-- In front of words that lead with `ks`, no variable of the row has anything else behind it than
what may come behind it. -/
def Fits (ks : List Kind) : List Symbol → Prop
  | [] => True
  | .token _ :: row => Fits ks row
  | .of v :: row => firstOfRow ks row ⊆ behind v ∧ Fits ks row

instance decidableFits (ks : List Kind) : (row : List Symbol) → Decidable (Fits ks row)
  | [] => .isTrue trivial
  | .token _ :: row => decidableFits ks row
  | .of v :: row =>
    have := decidableFits ks row
    inferInstanceAs (Decidable (firstOfRow ks row ⊆ behind v ∧ Fits ks row))

theorem firstOfRow_append :
    firstOfRow ks (row ++ row') = firstOfRow (firstOfRow ks row') row := by
  induction row with
  | nil => rfl
  | cons x row ih =>
    cases x with
    | token j => rfl
    | of v => rw [List.cons_append, firstOfRow, firstOfRow, ih]

theorem firstOfRow_mono (h : ks ⊆ ls) : firstOfRow ks row ⊆ firstOfRow ls row := by
  rw [firstOfRow_eq ks, firstOfRow_eq ls]
  split
  · exact List.append_subset.2 ⟨List.subset_append_left .., List.subset_append_of_subset_right _ h⟩
  · exact List.Subset.refl _

/-- An alternative leads with no more than its variable. -/
theorem firstOfRow_alternative (halt : alt ∈ alternatives v) :
    firstOfRow ks alt ⊆ firstOfRow ks [.of v] := by
  obtain ⟨hnull, hfirst⟩ := first_alternative v alt halt
  have hv : firstOfRow ks [.of v] = first v ++ if nullable v then ks else [] := rfl
  rw [hv, firstOfRow_eq ks]
  refine List.append_subset.2 ⟨List.subset_append_of_subset_left _ hfirst, ?_⟩
  split
  · next hn =>
    rw [if_pos (hnull hn)]
    exact List.subset_append_right ..
  · exact List.nil_subset _

namespace Fits

theorem append_iff : Fits ks (row ++ row') ↔ Fits (firstOfRow ks row') row ∧ Fits ks row' := by
  induction row with
  | nil => simp [Fits]
  | cons x row ih =>
    cases x with
    | token j => exact ih
    | of v => rw [List.cons_append, Fits, Fits, ih, firstOfRow_append, and_assoc]

theorem mono (h : Fits ls row) (hsub : ks ⊆ ls) : Fits ks row := by
  induction row with
  | nil => trivial
  | cons x row ih =>
    cases x with
    | token j => exact ih h
    | of v => exact ⟨List.Subset.trans (firstOfRow_mono hsub) h.1, ih h.2⟩

theorem alternative (v : Variable) : ∀ alt ∈ alternatives v, Fits (behind v) alt := by
  rcases v with n | _ | _ | _
  · cases n <;> decide
  all_goals decide

theorem step (h : Fits ks row) (hstep : Step row row') : Fits ks row' := by
  obtain ⟨before, after, halt⟩ := hstep
  rw [List.append_cons, List.append_assoc, append_iff, List.singleton_append] at h
  obtain ⟨hbefore, hbehind, hafter⟩ := h
  rw [List.append_assoc, append_iff, append_iff]
  refine ⟨hbefore.mono ?_, (alternative _ _ halt).mono hbehind, hafter⟩
  rw [← List.singleton_append, firstOfRow_append, firstOfRow_append]
  exact firstOfRow_alternative halt

theorem sentential (h : Sentential row) : Fits [.eof] row := by
  induction h with
  | refl => decide
  | tail _ hstep ih => exact ih.step hstep

end Fits

/-- How far a symbol lies below the program. -/
def level : Symbol → Nat
  | .of .moreDeclarations | .of .moreStatements => 3
  | .of .moreNames => 6
  | .of (.part n) =>
    match n with
    | .program => 0
    | .body => 1
    | .declarations | .statements => 2
    | .statement => 3
    | .declaration | .assignment | .conditional | .whileLoop | .repeatLoop | .reading | .writing => 4
    | .scalarType | .names | .writable | .loopHead | .loopExit => 5
    | .condition => 6
    | .expression => 7
    | .simpleExpr => 8
    | .term | .simpleTail | .relOp => 9
    | .operand | .termTail | .addOp => 10
    | .primary | .mulOp => 11
    | .constant => 12
  | .token _ => 13

theorem level_le (x : Symbol) : level x ≤ 13 := by
  rcases x with j | (n | _ | _ | _)
  · exact Nat.le_refl _
  · cases n <;> decide
  all_goals decide

/-- The variables that have others in their alternatives, the repetitions left out. -/
def composite : List Variable :=
  [.part .program, .part .body, .part .declarations, .part .declaration, .part .names,
    .part .statements, .part .statement, .part .conditional, .part .whileLoop, .part .repeatLoop,
    .part .writing, .part .loopHead, .part .loopExit, .part .condition, .part .expression,
    .part .simpleExpr, .part .simpleTail, .part .term, .part .termTail, .part .operand,
    .part .primary]

/-- A kind with which a variable may begin comes first in an alternative, or in a variable that comes
first there and lies farther from the program. -/
theorem first_leads (v : Variable) : ∀ k ∈ first v, ∃ alt ∈ alternatives v, ∃ x ∈ alt.take 1,
    k ∈ firstOfRow [] [x] ∧ level (.of v) < level x := by
  rcases v with n | _ | _ | _
  · cases n <;> decide
  all_goals decide

theorem nil_mem_alternatives (v : Variable) (h : nullable v = true) : [] ∈ alternatives v := by
  rcases v with n | _ | _ | _
  · revert h
    cases n <;> decide
  all_goals decide

/-- Every variable but the program occurs in an alternative of one that is nearer to the program. -/
theorem occurs_alternative (v : Variable) : v = .part .program ∨
    ∃ u ∈ composite, level (.of u) < level (.of v) ∧ ∃ alt ∈ alternatives u, Symbol.of v ∈ alt := by
  rcases v with n | _ | _ | _
  · cases n <;> decide
  all_goals decide

/-- The kinds that come right behind the variable in a row, in front of words that lead with `ks`. -/
def behindIn (v : Variable) (ks : List Kind) : List Symbol → List Kind
  | [] => []
  | x :: row => (if x = .of v then firstOfRow ks row else []) ++ behindIn v ks row

/-- The kinds that come right behind the variable in all alternatives. At the end of an alternative
that is what comes behind a variable nearer to the program. -/
def sources (v : Variable) : List Kind :=
  composite.flatMap fun u => (alternatives u).flatMap
    (behindIn v (if level (.of u) < level (.of v) then behind u else []))

theorem behind_subset_sources (v : Variable) : behind v ⊆ .eof :: sources v := by
  rcases v with n | _ | _ | _
  · cases n <;> decide
  all_goals decide

theorem of_mem_behindIn (h : k ∈ behindIn v ks row) :
    ∃ before after, row = before ++ .of v :: after ∧ k ∈ firstOfRow ks after := by
  induction row with
  | nil => exact absurd h List.not_mem_nil
  | cons x row ih =>
    rcases List.mem_append.1 h with hx | hrow
    · split at hx
      · next heq => exact ⟨[], row, by rw [heq, List.nil_append], hx⟩
      · exact absurd hx List.not_mem_nil
    · obtain ⟨before, after, rfl, hk⟩ := ih hrow
      exact ⟨x :: before, after, rfl, hk⟩

theorem derives_alternative (halt : alt ∈ alternatives v) : Derives [.of v] alt := by
  have hstep := Step.replace [] [] halt
  rw [List.nil_append, List.append_nil] at hstep
  exact .tail (.refl _) hstep

theorem derives_nil (h : nullableRow row = true) : Derives row [] := by
  induction row with
  | nil => exact .refl _
  | cons x row ih =>
    cases x with
    | token j => exact absurd h Bool.false_ne_true
    | of v =>
      obtain ⟨hv, hrow⟩ := Bool.and_eq_true_iff.1 h
      have hhead := (derives_alternative (nil_mem_alternatives v hv)).context [] row
      exact hhead.trans (ih hrow)

/-- A symbol can be brought to begin with any of its first kinds. -/
theorem derives_symbol {x : Symbol} (h : k ∈ firstOfRow [] [x]) :
    ∃ row, Derives [x] (.token k :: row) := by
  cases x with
  | token j =>
    obtain rfl := List.mem_singleton.1 h
    exact ⟨[], .refl _⟩
  | of v =>
    have hk : k ∈ first v := by
      simpa [firstOfRow] using h
    obtain ⟨alt, halt, y, hy, hky, hlevel⟩ := first_leads v k hk
    obtain ⟨row, rfl⟩ : ∃ row, alt = y :: row := by
      cases alt with
      | nil => exact absurd hy List.not_mem_nil
      | cons z row => exact ⟨row, by rw [List.mem_singleton.1 hy]⟩
    obtain ⟨row', hrow'⟩ := derives_symbol hky
    have hcontext := hrow'.context [] row
    exact ⟨row' ++ row, (derives_alternative halt).trans hcontext⟩
termination_by 13 - level x
decreasing_by
  have := level_le y
  subst_vars
  omega

theorem derives_row (h : k ∈ firstOfRow [] row) : ∃ row', Derives row (.token k :: row') := by
  induction row with
  | nil => exact absurd h List.not_mem_nil
  | cons x row ih =>
    have hsplit : firstOfRow [] (x :: row) = firstOfRow (firstOfRow [] row) [x] := by
      rw [← List.singleton_append, firstOfRow_append]
    rw [hsplit, firstOfRow_eq, List.mem_append] at h
    rcases h with hx | hrow
    · obtain ⟨row', hrow'⟩ := derives_symbol hx
      exact ⟨row' ++ row, hrow'.context [] row⟩
    · split at hrow
      · next hnull =>
        obtain ⟨row', hrow'⟩ := ih hrow
        have hnil := (derives_nil hnull).context [] row
        exact ⟨row', hnil.trans hrow'⟩
      · exact absurd hrow List.not_mem_nil

/-- In some row that can be got from a program, the row `after` stands behind the variable. -/
def Precedes (v : Variable) (after : List Symbol) : Prop :=
  ∃ before, Sentential (before ++ .of v :: after)

namespace Precedes
variable {u : Variable} {after after' : List Symbol}

theorem program : Precedes (.part .program) [] := ⟨[], .refl _⟩

theorem derives (h : Precedes v after) (h' : Derives after after') : Precedes v after' := by
  obtain ⟨before, hbefore⟩ := h
  have hcontext := h'.context (before ++ [.of v]) []
  simp only [List.append_assoc, List.append_nil, List.singleton_append] at hcontext
  exact ⟨before, Derives.trans hbefore hcontext⟩

/-- What stands behind a variable in an alternative, and then what stands behind the alternative. -/
theorem alternative (h : Precedes u after) (halt : row ++ .of v :: row' ∈ alternatives u) :
    Precedes v (row' ++ after) := by
  obtain ⟨before, hbefore⟩ := h
  have hstep := Step.replace before after halt
  simp only [List.append_assoc, List.cons_append] at hstep
  refine ⟨before ++ row, ?_⟩
  rw [List.append_assoc]
  exact .tail hbefore hstep

/-- No variable is out of reach. -/
theorem exists_after (v : Variable) : ∃ after, Precedes v after := by
  rcases occurs_alternative v with rfl | ⟨u, -, hlevel, alt, halt, hv⟩
  · exact ⟨[], program⟩
  · obtain ⟨after, hafter⟩ := exists_after u
    obtain ⟨row, row', rfl⟩ := List.append_of_mem hv
    exact ⟨row' ++ after, hafter.alternative halt⟩
termination_by level (.of v)

theorem of_mem_behind {v : Variable} (h : k ∈ behind v) (hk : k ≠ .eof) :
    ∃ after, Precedes v (.token k :: after) := by
  have hsource := (List.mem_cons.1 (behind_subset_sources v h)).resolve_left hk
  obtain ⟨u, -, hu⟩ := List.mem_flatMap.1 hsource
  obtain ⟨alt, halt, hin⟩ := List.mem_flatMap.1 hu
  obtain ⟨row, row', rfl, hrow'⟩ := of_mem_behindIn hin
  rw [firstOfRow_eq, List.mem_append] at hrow'
  rcases hrow' with hlead | hend
  · obtain ⟨after, hafter⟩ := exists_after u
    obtain ⟨row'', hrow''⟩ := derives_row hlead
    have hcontext := hrow''.context [] after
    exact ⟨row'' ++ after, (hafter.alternative halt).derives hcontext⟩
  · -- the rest of the alternative is taken away, and the kind stands behind `u`
    split at hend
    · next hnull =>
      split at hend
      · next hlevel =>
        obtain ⟨after, hafter⟩ := of_mem_behind hend hk
        have hcontext := (derives_nil hnull).context [] (.token k :: after)
        exact ⟨after, (hafter.alternative halt).derives hcontext⟩
      · exact absurd hend List.not_mem_nil
    · exact absurd hend List.not_mem_nil
termination_by level (.of v)

end Precedes

end Routine.Grammar

namespace Routine

open Grammar

/-- A kind belongs to the follow set of a part exactly if it is the end of the input or stands right
behind the part in a row that can be got from a program. -/
theorem Nonterminal.contains_follow_iff (n : Nonterminal) (k : Kind) : n.follow.contains k = true ↔
    k = .eof ∨ ∃ before after, Sentential (before ++ .part n :: .token k :: after) := by
  rw [follow, KindSet.contains_ofList]
  constructor
  · intro h
    by_cases hk : k = .eof
    · exact .inl hk
    · obtain ⟨after, before, hbefore⟩ := Precedes.of_mem_behind (v := .part n) h hk
      exact .inr ⟨before, after, hbefore⟩
  · rintro (rfl | ⟨before, after, h⟩)
    · cases n <;> decide
    · obtain ⟨-, hbehind, -⟩ := Fits.append_iff.1 (Fits.sentential h)
      exact hbehind (List.mem_singleton_self k)

end Routine
