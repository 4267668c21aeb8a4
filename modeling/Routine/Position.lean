/-! # Positions

A position is a line and a column, both counted from one. Columns count the bytes a character takes
in UTF-8, so a position moves over a character by the character's width, and over a newline to the
first column of the next line. Positions are ordered by line first. -/

namespace Routine

/-- A place in a source text. -/
structure Position where
  line : Nat
  column : Nat
deriving DecidableEq, Repr, Inhabited

namespace Position

/-- Where every source text begins. -/
def start : Position := ⟨1, 1⟩

/-- A place before every place of a text, for a stream of tokens that has not begun. -/
def origin : Position := ⟨0, 0⟩

/-- The position behind the character `c` that stands at `p`. -/
def after (p : Position) (c : Char) : Position :=
  if c = '\n' then ⟨p.line + 1, 1⟩ else ⟨p.line, p.column + c.utf8Size⟩

/-- The position behind a text that begins at `p`. -/
def afterAll (p : Position) (cs : List Char) : Position :=
  cs.foldl after p

@[simp] theorem afterAll_nil (p : Position) : p.afterAll [] = p := rfl

@[simp] theorem afterAll_cons (p : Position) (c : Char) (cs : List Char) :
    p.afterAll (c :: cs) = (p.after c).afterAll cs := rfl

theorem afterAll_append (p : Position) (xs ys : List Char) :
    p.afterAll (xs ++ ys) = (p.afterAll xs).afterAll ys :=
  List.foldl_append

/-- `p` stands before `q`, or at the same place. -/
def le (p q : Position) : Bool :=
  p.line < q.line || (p.line = q.line && p.column ≤ q.column)

instance : LE Position := ⟨fun p q => p.le q = true⟩

instance : LT Position := ⟨fun p q => p.line < q.line ∨ p.line = q.line ∧ p.column < q.column⟩

theorem le_iff {p q : Position} :
    p ≤ q ↔ p.line < q.line ∨ p.line = q.line ∧ p.column ≤ q.column := by
  show p.le q = true ↔ _
  simp [le]

theorem lt_iff {p q : Position} :
    p < q ↔ p.line < q.line ∨ p.line = q.line ∧ p.column < q.column :=
  Iff.rfl

instance (p q : Position) : Decidable (p ≤ q) := inferInstanceAs (Decidable (p.le q = true))

instance (p q : Position) : Decidable (p < q) := inferInstanceAs (Decidable (_ ∨ _))

theorem le_refl (p : Position) : p ≤ p := by
  rw [le_iff]; omega

theorem le_trans {p q r : Position} (h : p ≤ q) (h' : q ≤ r) : p ≤ r := by
  rw [le_iff] at *; omega

theorem le_of_lt {p q : Position} (h : p < q) : p ≤ q := by
  rw [lt_iff] at h; rw [le_iff]; omega

/-- A character always moves the position on. -/
theorem lt_after (p : Position) (c : Char) : p < p.after c := by
  have := c.utf8Size_pos
  rw [lt_iff, after]
  split
  · exact .inl (Nat.lt_succ_self p.line)
  · exact .inr ⟨rfl, by simp only; omega⟩

theorem le_afterAll (p : Position) (cs : List Char) : p ≤ p.afterAll cs := by
  induction cs generalizing p with
  | nil => exact le_refl p
  | cons c cs ih => exact le_trans (le_of_lt (lt_after p c)) (ih _)

/-- The positions in ascending order. -/
def sorted (ps : List Position) : List Position :=
  ps.mergeSort le

/-- The last of the positions in the order, if there is any. -/
def last? (ps : List Position) : Option Position :=
  (sorted ps).getLast?

/-- A position is written as its line, a colon and its column. -/
def text (p : Position) : String :=
  p.line.repr ++ ":" ++ p.column.repr

end Position

end Routine
