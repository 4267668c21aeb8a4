import Routine.Proofs.Kept

/-!
# How deep reading goes

`readUpTo d` reads a phrase as its procedure says and gives up where phrases are nested more than `d`
deep; no measure occurs in it. `runUpTo_eq` says that it never gives up once `d` is beyond twice what
the cursor has to hand out: reading any part of a program from any cursor ends, and with the result
that `Phrase.read` has.
-/

namespace Routine

open Cursor

/-- Carries out a procedure whose calls may come to nothing. -/
def Procedure.runUpTo {α : Type} (answer : (p : Phrase) → Cursor → Option (p.Result × Cursor)) :
    Procedure α → Cursor → Option (α × Cursor)
  | .done a, s => some (a, s)
  | .act a k, s => (k (a.perform s).1).runUpTo answer (a.perform s).2
  | .call p k, s => (answer p s).bind fun o => (k o.1).runUpTo answer o.2

/-- Reads a phrase in which phrases are nested less than `d` deep. -/
def Phrase.readUpTo : Nat → (p : Phrase) → Cursor → Option (p.Result × Cursor)
  | 0, _, _ => none
  | d + 1, p, s => p.procedure.runUpTo (readUpTo d) s

namespace Procedure
variable {α : Type} {m bound d : Nat}

theorem runUpTo_of_within
    (hread : ∀ (p : Phrase) s, p.measure s < m → p.readUpTo d s = some (p.read s))
    (q : Procedure α) (s : Cursor)
    (hq : q.wp (Phrase.within m) (fun _ s' => s'.held ≤ bound) s) :
    q.runUpTo (Phrase.readUpTo d) s = some (q.run Phrase.read s) := by
  induction q generalizing s with
  | done a => rfl
  | act a k ih => exact ih _ _ hq
  | call p k ih =>
    rw [runUpTo, hread p s hq.1]
    exact ih _ _ (hq.2 _ _ (p.held_read_le s))

end Procedure

/-- A phrase is read within the depth of its measure. -/
theorem Phrase.readUpTo_eq {d : Nat} {p : Phrase} {s : Cursor} (h : p.measure s < d) :
    p.readUpTo d s = some (p.read s) := by
  induction d generalizing p s with
  | zero => omega
  | succ d ih =>
    rw [readUpTo, read_eq]
    exact Procedure.runUpTo_of_within (fun p' s' h' => ih (by omega)) _ s (p.procedure_within s)

/-- No step makes a cursor have more to hand out than a bound on what it holds. -/
theorem kept_held (bound : Nat) : Kept fun s => s.held ≤ bound where
  next := fun {s} h => Nat.le_trans s.held_next_le (Nat.le_trans s.size_le_held h)
  pushBack := fun {s} h => by rwa [held_pushBack]
  reject h := h
  note _ h := h

/-- Every procedure comes to its end within twice what the cursor holds. -/
theorem Procedure.runUpTo_eq {α : Type} {d : Nat} (q : Procedure α) {s : Cursor}
    (hd : 2 * s.held + 2 ≤ d) :
    q.runUpTo (Phrase.readUpTo d) s = some (q.run Phrase.read s) := by
  have hq : q.wp (Phrase.within (2 * s.held + 2)) (fun _ s' => s'.held ≤ s.held) s := by
    refine (kept_held s.held).wp (fun p s' h => ⟨?_, fun _ s'' h' => ?_⟩) q (Nat.le_refl _)
    · have hsize := s'.size_le_held
      have hrank : p.rank ≤ 1 := by cases p <;> decide
      show 2 * s'.size + p.rank < _
      omega
    · exact Nat.le_trans h' (Nat.le_trans s'.size_le_held h)
  exact runUpTo_of_within (fun p s' h => Phrase.readUpTo_eq (by omega)) q s hq

end Routine
