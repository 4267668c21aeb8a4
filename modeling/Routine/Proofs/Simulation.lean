import Routine.Proofs.Kept

/-!
# Two runs side by side

A simulation relates the cursors of two runs. Every primitive step takes related cursors to related
ones and answers the same, unless it spoils the first run: `B` is a property that is kept once it
holds, and where the first run ends with it nothing is said. `Simulation.run` carries this through
recovery and through every procedure, that of any part of a program among them.
-/

namespace Routine

open Cursor Procedure

/-- Steps from cursors that are related by `R` answer the same and keep them related, unless the
first cursor comes to have the property `B`. -/
structure Simulation (B : Cursor → Prop) (R : Cursor → Cursor → Prop) : Prop where
  kept : Kept B
  slot : ∀ {s s'}, R s s' → s.slot = s'.slot
  next : ∀ {s s'}, R s s' → B s.next.2 ∨ s.next.1 = s'.next.1 ∧ R s.next.2 s'.next.2
  pushBack : ∀ {s s'}, R s s' → R s.pushBack s'.pushBack
  reject : ∀ {s s'}, R s s' → R s.reject s'.reject
  note : ∀ {s s'} (e e' : Event), R s s' → R (s.note e) (s'.note e')

namespace Simulation
variable {α : Type} {B : Cursor → Prop} {R : Cursor → Cursor → Prop} {s s' : Cursor} {t : Token}

theorem skip_of_not_stop {stop : KindSet} {count : Nat}
    (h : ¬ (stop.contains t.kind || decide (t.kind = .eof)) = true) :
    Cursor.skip stop count t s =
      Cursor.skip stop (count + 1) (s.note (.skipped t.kind t.position)).fetch.1
        (s.note (.skipped t.kind t.position)).fetch.2 := by
  rw [Cursor.skip, if_neg h]

theorem skip (hR : Simulation B R) (stop : KindSet) (count count' : Nat) (hs : s.slot = .taken t)
    (h : R s s') : B (Cursor.skip stop count t s).cursor ∨
      R (Cursor.skip stop count t s).cursor (Cursor.skip stop count' t s').cursor := by
  fun_induction Cursor.skip stop count t s generalizing s' count' with
  | case1 count t s hstop =>
    rw [Cursor.skip, if_pos hstop]
    exact .inr h
  | case2 count t s hstop o =>
    rename_i ih
    have hnote : R (s.note (.skipped t.kind t.position)) (s'.note (.skipped t.kind t.position)) :=
      hR.note _ _ h
    have hnp : ∀ u, (s.note (.skipped t.kind t.position)).slot ≠ .pending u := by
      simp [Cursor.note, hs]
    have hnp' : ∀ u, (s'.note (.skipped t.kind t.position)).slot ≠ .pending u := by
      rwa [← hR.slot hnote]
    have hstep := hR.next hnote
    rw [next_of_not_pending hnp, next_of_not_pending hnp'] at hstep
    rw [skip_of_not_stop hstop]
    rcases hstep with hB | ⟨heq, hrel⟩
    · exact .inl (hR.kept.skip stop _ _ _ (slot_fetch _) hB)
    · rw [← heq]
      exact ih _ (slot_fetch _) hrel

theorem synchronize (hR : Simulation B R) (stop : KindSet) (h : R s s') :
    B (s.synchronize stop) ∨ R (s.synchronize stop) (s'.synchronize stop) := by
  rcases hR.next (hR.pushBack h) with hB | ⟨heq, hrel⟩
  · exact .inl (hR.kept.note _ (hR.kept.pushBack (hR.kept.skip stop 0 _ _ (slot_next _) hB)))
  · rcases hR.skip stop 0 0 (slot_next _) hrel with hB | hskip
    · exact .inl (hR.kept.note _ (hR.kept.pushBack hB))
    · rw [heq] at hskip
      refine .inr (hR.note _ _ (hR.pushBack ?_))
      rwa [heq]

theorem perform (hR : Simulation B R) (a : Action) (h : R s s') :
    B (a.perform s).2 ∨ (a.perform s).1 = (a.perform s').1 ∧ R (a.perform s).2 (a.perform s').2 := by
  cases a with
  | next => exact hR.next h
  | pushBack => exact .inr ⟨rfl, hR.pushBack h⟩
  | reject => exact .inr ⟨rfl, hR.reject h⟩
  | synchronize stop => exact (hR.synchronize stop h).imp_right fun h' => ⟨rfl, h'⟩
  | note e => exact .inr ⟨rfl, hR.note e e h⟩

/-- A phrase keeps the first run spoiled, and reads the same from related cursors. -/
def contract (B : Cursor → Prop) (R : Cursor → Cursor → Prop) : Contract where
  pre _ _ := True
  post p s x s₁ := (B s → B s₁) ∧ ∀ s', R s s' → B s₁ ∨ x = (p.read s').1 ∧ R s₁ (p.read s').2

theorem wp_spoiled (hR : Simulation B R) (q : Procedure α) (h : B s) :
    q.wp (contract B R) (fun _ s₁ => B s₁) s :=
  hR.kept.wp (c := contract B R) (fun _ _ hB => ⟨trivial, fun _ _ hpost => hpost.1 hB⟩) q h

theorem wp_related (hR : Simulation B R) (q : Procedure α) (h : R s s') :
    q.wp (contract B R)
      (fun a s₁ => B s₁ ∨ a = (q.run Phrase.read s').1 ∧ R s₁ (q.run Phrase.read s').2) s := by
  induction q generalizing s s' with
  | done a => exact .inr ⟨rfl, h⟩
  | act a k ih =>
    rcases hR.perform a h with hB | ⟨heq, hrel⟩
    · exact wp_mono (fun _ _ => .inl) _ (hR.wp_spoiled (k _) hB)
    · have hk := ih (a.perform s).1 hrel
      rw [heq] at hk
      show (k (a.perform s).1).wp _ _ _
      rwa [heq]
  | call p k ih =>
    refine ⟨trivial, fun x s₁ hpost => ?_⟩
    rcases hpost.2 s' h with hB | ⟨rfl, hrel⟩
    · exact wp_mono (fun _ _ => .inl) _ (hR.wp_spoiled _ hB)
    · exact ih _ hrel

theorem phrase (hR : Simulation B R) (p : Phrase) (s : Cursor) :
    p.procedure.wp (contract B R) ((contract B R).post p s) s := by
  refine wp_and _ ?_ (wp_forall (fun _ _ => trivial) _ fun s' => ?_)
  · exact wp_forall (fun _ _ => trivial) _ fun hB => hR.wp_spoiled _ hB
  · refine wp_forall (fun _ _ => trivial) _ fun h => ?_
    rw [p.read_eq s']
    exact hR.wp_related _ h

/-- A procedure gives the same result from related cursors and leaves them related. -/
theorem run (hR : Simulation B R) (q : Procedure α) (h : R s s') :
    B (q.run Phrase.read s).2 ∨
      (q.run Phrase.read s).1 = (q.run Phrase.read s').1 ∧
        R (q.run Phrase.read s).2 (q.run Phrase.read s').2 :=
  run_of_wp (Phrase.read_post fun p s _ => hR.phrase p s) q (hR.wp_related q h)

end Simulation

end Routine
