import Mathlib.Data.Finset.Basic
import Mathlib.Data.Finset.Range
import Mathlib.Data.Finset.Filter
import Mathlib.Data.Finset.Lattice.Lemmas
/-!
# A machine word as a finite set

Bit `i` of a word stands for the element `i`. Setting, clearing and
testing a bit are insertion, erasure and membership, and a word is
determined by its set.
-/

namespace BitSet

variable {w i j : ℕ} {x y : BitVec w}

/-- The set bits of a word. -/
def bits (x : BitVec w) : Finset ℕ := (Finset.range w).filter fun i => x.getLsbD i = true

@[simp] theorem mem_bits : i ∈ bits x ↔ x.getLsbD i = true := by
  simp only [bits, Finset.mem_filter, Finset.mem_range, and_iff_right_iff_imp]
  exact fun h => BitVec.lt_of_getLsbD h

/-- **A word is its set.** -/
theorem bits_injective : Function.Injective (bits : BitVec w → Finset ℕ) := by
  intro x y h
  refine BitVec.eq_of_getLsbD_eq fun i _ => ?_
  have hi : i ∈ bits x ↔ i ∈ bits y := by rw [h]
  rw [mem_bits, mem_bits] at hi
  exact Bool.eq_iff_iff.mpr hi

@[simp] theorem bits_zero : bits (0 : BitVec w) = ∅ := by
  ext i
  simp

@[simp] theorem bits_eq_empty : bits x = ∅ ↔ x = 0 := by
  rw [← bits_zero (w := w)]
  exact bits_injective.eq_iff

theorem bits_or : bits (x ||| y) = bits x ∪ bits y := by
  ext i
  simp

theorem bits_and_not : bits (x &&& ~~~y) = bits x \ bits y := by
  ext i
  simp only [mem_bits, BitVec.getLsbD_and, BitVec.getLsbD_not, Finset.mem_sdiff]
  have : x.getLsbD i = true → i < w := BitVec.lt_of_getLsbD
  grind

theorem bits_twoPow (hi : i < w) : bits (BitVec.twoPow w i) = {i} := by
  ext j
  simp only [mem_bits, BitVec.getLsbD_twoPow, Finset.mem_singleton]
  grind

/-- Setting a bit. -/
theorem bits_or_twoPow (hi : i < w) : bits (x ||| BitVec.twoPow w i) = insert i (bits x) := by
  rw [bits_or, bits_twoPow hi, Finset.union_comm, Finset.insert_eq]

/-- Clearing a bit. -/
theorem bits_and_not_twoPow (hi : i < w) :
    bits (x &&& ~~~BitVec.twoPow w i) = (bits x).erase i := by
  rw [bits_and_not, bits_twoPow hi, Finset.sdiff_singleton_eq_erase]

/-- Testing a bit. -/
theorem and_twoPow_ne_zero (hi : i < w) : x &&& BitVec.twoPow w i ≠ 0 ↔ i ∈ bits x := by
  rw [Ne, ← bits_eq_empty, ← Ne, ← Finset.nonempty_iff_ne_empty]
  constructor
  · rintro ⟨j, hj⟩
    simp only [mem_bits, BitVec.getLsbD_and, BitVec.getLsbD_twoPow, Bool.and_eq_true,
      decide_eq_true_eq] at hj
    rw [mem_bits, hj.2.2]
    exact hj.1
  · intro h
    refine ⟨i, ?_⟩
    simp only [mem_bits, BitVec.getLsbD_and, BitVec.getLsbD_twoPow] at h ⊢
    simp [h, hi]

end BitSet
