import Routine.Kind

/-! # Sets of kinds

A set of kinds is a word of 64 bits in which the bit at a kind's index tells whether the kind
belongs to it. -/

namespace Routine

/-- The bit that stands for a kind. -/
def Kind.bit (k : Kind) : UInt64 :=
  1 <<< UInt64.ofNat k.index

/-- A set of kinds, one bit for each kind. -/
structure KindSet where
  word : UInt64
deriving DecidableEq, Repr, Inhabited

namespace KindSet

/-- The set without members. -/
def empty : KindSet := ⟨0⟩

/-- The kind `k` belongs to the set. -/
def contains (s : KindSet) (k : Kind) : Bool :=
  s.word &&& k.bit != 0

/-- The kinds of the list. -/
def ofList (ks : List Kind) : KindSet :=
  ⟨ks.foldl (fun w k => w ||| k.bit) 0⟩

/-- The kinds of either set. -/
def union (s t : KindSet) : KindSet :=
  ⟨s.word ||| t.word⟩

instance : Union KindSet := ⟨union⟩

/-- The members in the order of `Kind.all`. -/
def toList (s : KindSet) : List Kind :=
  Kind.all.filter s.contains

theorem toNat_bit (k : Kind) : k.bit.toNat = 1 <<< k.index := by
  have hk := k.index_lt
  have hlt : 2 ^ k.index < 2 ^ 64 := Nat.pow_lt_pow_right (by decide) (by omega)
  have hindex : (UInt64.ofNat k.index).toNat % 64 = k.index := by
    rw [UInt64.toNat_ofNat', Nat.mod_eq_of_lt (by omega), Nat.mod_eq_of_lt (by omega)]
  rw [Kind.bit, UInt64.toNat_shiftLeft, hindex]
  simpa [Nat.shiftLeft_eq] using Nat.mod_eq_of_lt hlt

theorem testBit_bit (k : Kind) (i : Nat) : k.bit.toNat.testBit i = decide (k.index = i) := by
  rw [toNat_bit, Nat.one_shiftLeft, Nat.testBit_two_pow]

theorem contains_eq_testBit (s : KindSet) (k : Kind) : s.contains k = s.word.toNat.testBit k.index := by
  have hbit : ∀ i, (s.word &&& k.bit).toNat.testBit i =
      (s.word.toNat.testBit i && decide (k.index = i)) := by
    intro i
    rw [UInt64.toNat_and, Nat.testBit_and, testBit_bit]
  by_cases h : s.word &&& k.bit = 0
  · have := hbit k.index
    simp_all [contains]
  · have hne : (s.word &&& k.bit).toNat ≠ 0 := fun h0 => h (UInt64.toNat_inj.1 h0)
    obtain ⟨i, hi⟩ := Nat.exists_testBit_of_ne_zero hne
    rw [hbit, Bool.and_eq_true, decide_eq_true_eq] at hi
    obtain ⟨hi, rfl⟩ := hi
    simpa [contains, hi] using h

@[simp] theorem contains_or_bit (w : UInt64) (j k : Kind) :
    contains ⟨w ||| j.bit⟩ k = (contains ⟨w⟩ k || j = k) := by
  rw [contains_eq_testBit, contains_eq_testBit]
  simp only [UInt64.toNat_or, Nat.testBit_or, testBit_bit, Kind.index_inj]

/-- The members of the set of a list are those of the list. -/
@[simp] theorem contains_ofList {ks : List Kind} {k : Kind} : (ofList ks).contains k = true ↔ k ∈ ks := by
  have h : ∀ w : UInt64, contains ⟨ks.foldl (fun w k => w ||| k.bit) w⟩ k = true ↔
      contains ⟨w⟩ k = true ∨ k ∈ ks := by
    induction ks with
    | nil => simp
    | cons j ks ih =>
      intro w
      rw [List.foldl_cons, ih, contains_or_bit, Bool.or_eq_true, decide_eq_true_eq, List.mem_cons,
        or_assoc, @eq_comm _ j]
  rw [ofList, h]
  simp [contains]

@[simp] theorem contains_empty (k : Kind) : empty.contains k = false := by
  simp [empty, contains]

@[simp] theorem word_union (s t : KindSet) : (s ∪ t).word = s.word ||| t.word := rfl

@[simp] theorem contains_union (s t : KindSet) (k : Kind) :
    (s ∪ t).contains k = (s.contains k || t.contains k) := by
  rw [contains_eq_testBit, contains_eq_testBit, contains_eq_testBit, word_union, UInt64.toNat_or,
    Nat.testBit_or]

end KindSet

end Routine
