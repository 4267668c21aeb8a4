import Routine.Grammar

/-!
# Words of the grammar

`Yields row w` says that the row `row` can become the word `w` of kinds, each variable being replaced
in its place; it is the same as a derivation (`derives_iff_yields`) and easier to take apart.
`InFront row L` are the words of a row with a word of `L` behind them: what may still come when `row`
is to be read and then `L`. The words are told apart by their leading kinds: `first` bounds those of
a variable, and `leads_of_yields` says that it does.
-/

namespace Routine.Grammar

/-- The word that a row can become. -/
inductive Yields : List Symbol → List Kind → Prop
  | nil : Yields [] []
  | token (k : Kind) {row : List Symbol} {w : List Kind} (h : Yields row w) :
      Yields (.token k :: row) (k :: w)
  | of {v : Variable} {alt row : List Symbol} {w w' : List Kind} (halt : alt ∈ alternatives v)
      (h : Yields alt w) (h' : Yields row w') : Yields (.of v :: row) (w ++ w')

variable {row row' row'' alt : List Symbol} {w w' : List Kind} {k : Kind} {v : Variable}

namespace Yields

theorem nil_iff : Yields [] w ↔ w = [] := by
  constructor
  · rintro ⟨⟩; rfl
  · rintro rfl; exact .nil

theorem token_iff : Yields (.token k :: row) w ↔ ∃ w', w = k :: w' ∧ Yields row w' := by
  constructor
  · intro h
    cases h with
    | token _ h => exact ⟨_, rfl, h⟩
  · rintro ⟨w', rfl, h⟩
    exact .token k h

theorem append (h : Yields row w) (h' : Yields row' w') : Yields (row ++ row') (w ++ w') := by
  induction h with
  | nil => exact h'
  | token k _ ih => exact .token k ih
  | of halt h _ _ ih => rw [List.append_assoc]; exact .of halt h ih

theorem append_iff :
    Yields (row ++ row') w ↔ ∃ u u', w = u ++ u' ∧ Yields row u ∧ Yields row' u' := by
  constructor
  · intro h
    induction row generalizing w with
    | nil => exact ⟨[], w, rfl, .nil, h⟩
    | cons x row ih =>
      cases h with
      | token k h =>
        obtain ⟨u, u', rfl, hu, hu'⟩ := ih h
        exact ⟨k :: u, u', rfl, .token k hu, hu'⟩
      | @of v alt _ w₁ w₂ halt h h' =>
        obtain ⟨u, u', rfl, hu, hu'⟩ := ih h'
        exact ⟨w₁ ++ u, u', (List.append_assoc ..).symm, .of halt h hu, hu'⟩
  · rintro ⟨u, u', rfl, hu, hu'⟩
    exact hu.append hu'

theorem of_iff : Yields [.of v] w ↔ ∃ alt ∈ alternatives v, Yields alt w := by
  constructor
  · intro h
    cases h with
    | of halt h h' =>
      obtain rfl := nil_iff.1 h'
      exact ⟨_, halt, by rwa [List.append_nil]⟩
  · rintro ⟨alt, halt, h⟩
    rw [← List.append_nil w]
    exact .of halt h .nil

theorem tokens (w : List Kind) : Yields (w.map .token) w := by
  induction w with
  | nil => exact .nil
  | cons k w ih => exact .token k ih

end Yields

namespace Derives

theorem trans (h : Derives row row') (h' : Derives row' row'') : Derives row row'' := by
  induction h' with
  | refl => exact h
  | tail _ hstep ih => exact .tail ih hstep

theorem context (before after : List Symbol) (h : Derives row row') :
    Derives (before ++ row ++ after) (before ++ row' ++ after) := by
  induction h with
  | refl => exact .refl _
  | tail _ hstep ih =>
    obtain ⟨b, a, halt⟩ := hstep
    refine .tail ih ?_
    have := Step.replace (before ++ b) (a ++ after) halt
    simpa only [List.append_assoc, List.cons_append] using this

end Derives

theorem Yields.of_step (h : Yields row' w) (hstep : Step row row') : Yields row w := by
  obtain ⟨before, after, halt⟩ := hstep
  obtain ⟨u, w₂, rfl, hu, hw₂⟩ := append_iff.1 h
  obtain ⟨u₁, w₁, rfl, hu₁, hw₁⟩ := append_iff.1 hu
  rw [List.append_assoc]
  exact hu₁.append (.of halt hw₁ hw₂)

theorem Yields.derives (h : Yields row w) : Derives row (w.map .token) := by
  induction h with
  | nil => exact .refl _
  | token k _ ih =>
    have := ih.context [.token k] []
    simpa using this
  | @of v alt row w w' halt _ _ ih ih' =>
    have hhead : Derives (.of v :: row) (alt ++ row) := .tail (.refl _) (.replace [] row halt)
    have hfirst := ih.context [] row
    have hrest := ih'.context (w.map .token) []
    simp only [List.nil_append, List.append_nil] at hfirst hrest
    rw [List.map_append]
    exact (hhead.trans hfirst).trans hrest

theorem derives_iff_yields : Derives row (w.map .token) ↔ Yields row w := by
  constructor
  · intro h
    -- back along the derivation, from the word itself
    generalize hrow : w.map Symbol.token = row' at h
    have hw : Yields row' w := hrow ▸ .tokens w
    clear hrow
    induction h with
    | refl => exact hw
    | tail _ hstep ih => exact ih (hw.of_step hstep)
  · exact Yields.derives

theorem isProgram_iff : IsProgram w ↔ Yields [.part .program] w := derives_iff_yields

/-- The kind that comes first if the word is all that is left of the input. -/
def lead : List Kind → Kind
  | [] => .eof
  | k :: _ => k

/-- The variable can become the empty word. -/
def nullable : Variable → Bool
  | .part .simpleTail | .part .termTail | .moreDeclarations | .moreNames | .moreStatements => true
  | .part _ => false

/-- The row can become the empty word. -/
def nullableRow : List Symbol → Bool
  | [] => true
  | .token _ :: _ => false
  | .of v :: row => nullable v && nullableRow row

/-- The kinds with which the nonempty words of a part begin. -/
def firstOfPart : Nonterminal → List Kind
  | .program => [.routineKw]
  | .body => [.beginKw, .declareKw]
  | .declarations => [.declareKw]
  | .declaration | .scalarType => [.intKw, .floatKw, .charKw]
  | .names => [.identifier]
  | .statements | .statement => [.identifier, .ifKw, .whileKw, .repeatKw, .readKw, .writeKw]
  | .assignment => [.identifier]
  | .conditional => [.ifKw]
  | .whileLoop | .loopHead => [.whileKw]
  | .repeatLoop => [.repeatKw]
  | .reading => [.readKw]
  | .writing => [.writeKw]
  | .loopExit => [.untilKw]
  | .writable =>
    [.stringConst, .identifier, .intConst, .floatConst, .charConst, .leftParen, .notKw, .minus]
  | .condition | .expression | .simpleExpr | .term | .operand =>
    [.identifier, .intConst, .floatConst, .charConst, .leftParen, .notKw, .minus]
  | .primary => [.identifier, .intConst, .floatConst, .charConst, .leftParen]
  | .constant => [.intConst, .floatConst, .charConst]
  | .simpleTail | .addOp => [.plus, .minus, .orKw]
  | .termTail | .mulOp => [.star, .slash, .andKw]
  | .relOp => Nonterminal.comparisons

/-- The kinds with which the nonempty words of a variable begin. -/
def first : Variable → List Kind
  | .part n => firstOfPart n
  | .moreDeclarations => [.intKw, .floatKw, .charKw]
  | .moreNames => [.comma]
  | .moreStatements => [.semicolon]

/-- The leading kinds of the words of a row in front of words with leading kinds `ks`. -/
def firstOfRow (ks : List Kind) : List Symbol → List Kind
  | [] => ks
  | .token k :: _ => [k]
  | .of v :: row => first v ++ if nullable v then firstOfRow ks row else []

theorem first_alternative (v : Variable) : ∀ alt ∈ alternatives v,
    (nullableRow alt = true → nullable v = true) ∧ firstOfRow [] alt ⊆ first v := by
  rcases v with n | _ | _ | _
  · cases n <;> decide
  all_goals decide

theorem firstOfRow_eq (ks : List Kind) (row : List Symbol) :
    firstOfRow ks row = firstOfRow [] row ++ if nullableRow row then ks else [] := by
  induction row with
  | nil => rfl
  | cons x row ih =>
    cases x with
    | token k => rfl
    | of v =>
      by_cases hv : nullable v = true
      · simp [firstOfRow, nullableRow, hv, ih]
      · simp [firstOfRow, nullableRow, hv]

/-- A word of a row is empty, or leads with one of the first kinds of the row. -/
theorem leads_of_yields (h : Yields row w) :
    w = [] ∧ nullableRow row = true ∨ ∃ k w', w = k :: w' ∧ k ∈ firstOfRow [] row := by
  induction h with
  | nil => exact .inl ⟨rfl, rfl⟩
  | token k _ _ => exact .inr ⟨k, _, rfl, List.mem_singleton_self k⟩
  | @of v alt row w w' halt _ _ ih ih' =>
    obtain ⟨hnull, hfirst⟩ := first_alternative v alt halt
    rcases ih with ⟨rfl, hn⟩ | ⟨k, u, rfl, hk⟩
    · rcases ih' with ⟨rfl, hn'⟩ | ⟨k, u, rfl, hk⟩
      · exact .inl ⟨rfl, by simp [nullableRow, hnull hn, hn']⟩
      · exact .inr ⟨k, u, rfl, by simp [firstOfRow, hnull hn, hk]⟩
    · exact .inr ⟨k, u ++ w', rfl, List.mem_append_left _ (hfirst hk)⟩

/-- How deep the simplest word of a symbol lies. -/
def depth : Symbol → Nat
  | .token _ | .of .moreDeclarations | .of .moreNames | .of .moreStatements => 0
  | .of (.part n) =>
    match n with
    | .simpleTail | .termTail => 0
    | .constant | .addOp | .mulOp | .relOp | .scalarType | .names | .reading | .primary | .writable => 1
    | .operand | .declaration | .statement | .writing => 2
    | .term | .declarations | .statements => 3
    | .simpleExpr | .body => 4
    | .expression | .assignment | .program => 5
    | .condition => 6
    | .loopHead | .loopExit | .conditional => 7
    | .whileLoop | .repeatLoop => 8

theorem depth_alternative (v : Variable) :
    ∃ alt ∈ alternatives v, ∀ x ∈ alt, depth x < depth (.of v) := by
  rcases v with n | _ | _ | _
  · cases n <;> decide
  all_goals decide

theorem depth_lt (x : Symbol) : depth x < 9 := by
  rcases x with k | (n | _ | _ | _)
  · exact Nat.succ_pos _
  · cases n <;> decide
  all_goals decide

theorem exists_yields_of_depth_lt (n : Nat) (row : List Symbol) (h : ∀ x ∈ row, depth x < n) :
    ∃ w, Yields row w := by
  -- an alternative lies less deep than its variable; at one depth, symbol by symbol
  induction n generalizing row with
  | zero =>
    cases row with
    | nil => exact ⟨[], .nil⟩
    | cons x row => exact absurd (h x (List.mem_cons_self ..)) (Nat.not_lt_zero _)
  | succ n ih =>
    induction row with
    | nil => exact ⟨[], .nil⟩
    | cons x row ih' =>
      obtain ⟨hx, hrow⟩ := List.forall_mem_cons.1 h
      obtain ⟨w', hw'⟩ := ih' hrow
      cases x with
      | token k => exact ⟨k :: w', .token k hw'⟩
      | of v =>
        obtain ⟨alt, halt, hdepth⟩ := depth_alternative v
        obtain ⟨w, hw⟩ := ih alt fun y hy => by have := hdepth y hy; omega
        exact ⟨w ++ w', .of halt hw hw'⟩

/-- No variable is barren: there is a word of every row. -/
theorem exists_yields (row : List Symbol) : ∃ w, Yields row w :=
  exists_yields_of_depth_lt 9 row fun x _ => depth_lt x

/-- All words of the language lead with one of the kinds. -/
def Leads (L : List Kind → Prop) (ks : List Kind) : Prop := ∀ w, L w → lead w ∈ ks

/-- The words of a row with a word of `L` behind them. -/
def InFront (row : List Symbol) (L : List Kind → Prop) (w : List Kind) : Prop :=
  ∃ u u', w = u ++ u' ∧ Yields row u ∧ L u'

section
variable {L L' : List Kind → Prop} {ks ls : List Kind}

theorem Leads.mono (h : Leads L ks) (hsub : ks ⊆ ls) : Leads L ls := fun w hw => hsub (h w hw)

theorem Leads.inFront (h : Leads L ks) (hrow : firstOfRow ks row ⊆ ls) : Leads (InFront row L) ls := by
  rintro _ ⟨u, u', rfl, hu, hu'⟩
  rw [firstOfRow_eq] at hrow
  rcases leads_of_yields hu with ⟨rfl, hn⟩ | ⟨k, w, rfl, hk⟩
  · exact hrow (by simp [hn, h u' hu'])
  · exact hrow (List.mem_append_left _ hk)

theorem inFront_nil : InFront [] L = L := by
  funext w
  refine propext ⟨?_, fun h => ⟨[], w, rfl, .nil, h⟩⟩
  rintro ⟨u, u', rfl, hu, hu'⟩
  obtain rfl := Yields.nil_iff.1 hu
  exact hu'

theorem inFront_append : InFront (row ++ row') L = InFront row (InFront row' L) := by
  funext w
  refine propext ⟨?_, ?_⟩
  · rintro ⟨_, u', rfl, hu, hu'⟩
    obtain ⟨u₁, u₂, rfl, hu₁, hu₂⟩ := Yields.append_iff.1 hu
    exact ⟨u₁, u₂ ++ u', List.append_assoc .., hu₁, u₂, u', rfl, hu₂, hu'⟩
  · rintro ⟨u₁, _, rfl, hu₁, u₂, u', rfl, hu₂, hu'⟩
    exact ⟨u₁ ++ u₂, u', (List.append_assoc ..).symm, hu₁.append hu₂, hu'⟩

theorem inFront_token : InFront (.token k :: row) L w ↔ ∃ w', w = k :: w' ∧ InFront row L w' := by
  constructor
  · rintro ⟨_, u', rfl, hku, hu'⟩
    obtain ⟨u, rfl, hu⟩ := Yields.token_iff.1 hku
    exact ⟨u ++ u', rfl, u, u', rfl, hu, hu'⟩
  · rintro ⟨_, rfl, u, u', rfl, hu, hu'⟩
    exact ⟨k :: u, u', rfl, .token k hu, hu'⟩

theorem leads_token : Leads (InFront (.token k :: row) L) [k] := by
  rintro w hw
  obtain ⟨w', rfl, -⟩ := inFront_token.1 hw
  exact List.mem_singleton_self k

theorem exists_inFront : (∃ w, InFront row L w) ↔ ∃ w, L w := by
  constructor
  · rintro ⟨_, u, u', rfl, -, hu'⟩
    exact ⟨u', hu'⟩
  · rintro ⟨u', hu'⟩
    obtain ⟨u, hu⟩ := exists_yields row
    exact ⟨u ++ u', u, u', rfl, hu, hu'⟩

/-- The words of one of the rows with a word of `L` behind them. -/
def Choice (alts : List (List Symbol)) (L : List Kind → Prop) (w : List Kind) : Prop :=
  ∃ alt ∈ alts, InFront alt L w

theorem inFront_of (v : Variable) : InFront [.of v] L = Choice (alternatives v) L := by
  funext w
  refine propext ⟨?_, ?_⟩
  · rintro ⟨u, u', rfl, hu, hu'⟩
    obtain ⟨alt, halt, hu⟩ := Yields.of_iff.1 hu
    exact ⟨alt, halt, u, u', rfl, hu, hu'⟩
  · rintro ⟨alt, halt, u, u', rfl, hu, hu'⟩
    exact ⟨u, u', rfl, Yields.of_iff.2 ⟨alt, halt, hu⟩, hu'⟩

theorem choice_single : Choice [alt] L = InFront alt L := by
  funext w
  simp [Choice]

/-- Rows that begin alike are chosen between behind what they have in common. -/
theorem choice_append (alts : List (List Symbol)) :
    Choice (alts.map (row ++ ·)) L = InFront row (Choice alts L) := by
  funext w
  refine propext ⟨?_, ?_⟩
  · rintro ⟨_, hmem, h⟩
    obtain ⟨alt, halt, rfl⟩ := List.mem_map.1 hmem
    rw [inFront_append] at h
    obtain ⟨u, u', rfl, hu, hu'⟩ := h
    exact ⟨u, u', rfl, hu, alt, halt, hu'⟩
  · rintro ⟨u, u', rfl, hu, alt, halt, hu'⟩
    refine ⟨_, List.mem_map_of_mem halt, ?_⟩
    rw [inFront_append]
    exact ⟨u, u', rfl, hu, hu'⟩

theorem Leads.choice {alts : List (List Symbol)} (h : Leads L ks)
    (halts : ∀ alt ∈ alts, firstOfRow ks alt ⊆ ls) : Leads (Choice alts L) ls := by
  rintro w ⟨alt, halt, hw⟩
  exact h.inFront (halts alt halt) w hw

/-- With `k` next, the words of `M` that may still come are among those of `N`. -/
structure Narrows (k : Kind) (M N : List Kind → Prop) : Prop where
  sub : ∀ w, N w → M w
  of_lead : ∀ w, M w → lead w = k → N w
  inhabited : (∃ w, M w) → ∃ w, N w

/-- One row is left if no other can begin with what is next. -/
theorem narrows_choice {alts : List (List Symbol)} (h : Leads L ks) (halt : alt ∈ alts)
    (hother : ∀ alt' ∈ alts, alt' = alt ∨ k ∉ firstOfRow ks alt') :
    Narrows k (Choice alts L) (InFront alt L) where
  sub w hw := ⟨alt, halt, hw⟩
  of_lead := by
    rintro w ⟨alt', halt', hw⟩ rfl
    rcases hother alt' halt' with rfl | hk
    · exact hw
    · exact absurd (h.inFront (List.Subset.refl _) w hw) hk
  inhabited := by
    rintro ⟨w, alt', -, hw⟩
    exact exists_inFront.2 (exists_inFront.1 ⟨w, hw⟩)

end

end Routine.Grammar
