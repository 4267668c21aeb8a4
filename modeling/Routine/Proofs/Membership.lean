import Mathlib.Algebra.Group.Nat.Defs
import Routine.KindSet

/-!
# What a set of kinds holds

A construction says how a set is built: without members, from a list, or as a union. Its number is
what the word of the set would be if the same shifts and unions were done on numbers without a bound.
The word is that number (`toNat_word_set`), so nothing is lost at the upper end of a word. The number
has no more bits than there are kinds (`number_lt`), so no bit is set that stands for no kind; sets
without such a bit are the same if they hold the same kinds (`Bounded.eq_of_contains`).
-/

namespace Routine.KindSet

variable {s t : KindSet}

/-- How a set is built. -/
inductive Construction where
  | empty
  | ofList (ks : List Kind)
  | union (c d : Construction)
deriving DecidableEq, Repr

namespace Construction

/-- The set that is built. -/
def set : Construction → KindSet
  | empty => .empty
  | ofList ks => .ofList ks
  | union c d => c.set ∪ d.set

/-- The word of the set that is built, on numbers without a bound. -/
def number : Construction → Nat
  | empty => 0
  | ofList ks => ks.foldl (fun n k => n ||| 1 <<< k.index) 0
  | union c d => c.number ||| d.number

end Construction

theorem toNat_foldl_bit (ks : List Kind) (w : UInt64) :
    (ks.foldl (fun w k => w ||| k.bit) w).toNat =
      ks.foldl (fun n k => n ||| 1 <<< k.index) w.toNat := by
  induction ks generalizing w with
  | nil => rfl
  | cons k ks ih => rw [List.foldl_cons, List.foldl_cons, ih, UInt64.toNat_or, toNat_bit]

theorem foldl_index_lt (ks : List Kind) {n : Nat} (hn : n < 2 ^ Kind.all.length) :
    ks.foldl (fun n k => n ||| 1 <<< k.index) n < 2 ^ Kind.all.length := by
  induction ks generalizing n with
  | nil => exact hn
  | cons k ks ih =>
    have hbit : 1 <<< k.index < 2 ^ Kind.all.length := by
      rw [Nat.one_shiftLeft]
      exact Nat.pow_lt_pow_right (by decide) k.index_lt
    exact ih (Nat.or_lt_two_pow hn hbit)

namespace Construction

theorem toNat_word_set (c : Construction) : c.set.word.toNat = c.number := by
  induction c with
  | empty => rfl
  | ofList ks => exact toNat_foldl_bit ks 0
  | union c d ihc ihd => rw [set, number, word_union, UInt64.toNat_or, ihc, ihd]

theorem number_lt (c : Construction) : c.number < 2 ^ Kind.all.length := by
  induction c with
  | empty => decide
  | ofList ks => exact foldl_index_lt ks (by decide)
  | union c d ihc ihd => exact Nat.or_lt_two_pow ihc ihd

end Construction

/-- No bit is set that stands for no kind. -/
def Bounded (s : KindSet) : Prop := s.word.toNat < 2 ^ Kind.all.length

theorem Construction.bounded_set (c : Construction) : c.set.Bounded := by
  rw [Bounded, c.toNat_word_set]
  exact c.number_lt

theorem Bounded.testBit_eq_false (h : s.Bounded) {i : Nat} (hi : Kind.all.length ≤ i) :
    s.word.toNat.testBit i = false :=
  Nat.testBit_lt_two_pow (Nat.lt_of_lt_of_le h (Nat.pow_le_pow_right (by decide) hi))

theorem Bounded.eq_of_contains (hs : s.Bounded) (ht : t.Bounded)
    (h : ∀ k, s.contains k = t.contains k) : s = t := by
  have hbits : ∀ i, s.word.toNat.testBit i = t.word.toNat.testBit i := by
    intro i
    rcases Nat.lt_or_ge i Kind.all.length with hi | hi
    · obtain ⟨k, rfl⟩ := Kind.exists_index hi
      rw [← contains_eq_testBit, ← contains_eq_testBit, h]
    · rw [hs.testBit_eq_false hi, ht.testBit_eq_false hi]
  have hword : s.word = t.word := UInt64.toNat_inj.1 (Nat.eq_of_testBit_eq hbits)
  exact congrArg mk hword

/-- A set of kinds holds exactly what it is built from: the set of a list holds the kinds of the
list and a union those of either set, and two sets that are built are equal exactly if they hold the
same kinds. The index of a kind is within a word and its bit is not lost, and the word of a set is
the number that the same construction gives without a bound. -/
theorem contains_exactly :
    (∀ k, empty.contains k = false) ∧
    (∀ (ks : List Kind) (k : Kind), (ofList ks).contains k = true ↔ k ∈ ks) ∧
    (∀ c d : Construction,
      (∀ k, (c.set ∪ d.set).contains k = true ↔ c.set.contains k = true ∨ d.set.contains k = true) ∧
      (c.set = d.set ↔ ∀ k, c.set.contains k = true ↔ d.set.contains k = true)) ∧
    (∀ k : Kind, k.index < 64 ∧ k.bit.toNat = 1 <<< k.index) ∧
    ∀ c : Construction, c.number < 2 ^ 64 ∧ c.set.word.toNat = c.number := by
  refine ⟨contains_empty, fun ks k => contains_ofList, fun c d => ⟨?_, ?_⟩,
    fun k => ⟨?_, toNat_bit k⟩, fun c => ⟨?_, c.toNat_word_set⟩⟩
  · intro k
    rw [contains_union, Bool.or_eq_true]
  · constructor
    · intro h k
      rw [h]
    · intro h
      exact c.bounded_set.eq_of_contains d.bounded_set fun k => Bool.eq_iff_iff.2 (h k)
  · exact Nat.lt_of_lt_of_le k.index_lt (by decide)
  · -- every prefix of a list is a list, so this holds of the words inside the fold too
    exact Nat.lt_of_lt_of_le c.number_lt (by decide)

end Routine.KindSet
