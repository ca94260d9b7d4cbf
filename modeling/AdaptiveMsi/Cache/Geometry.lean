import AdaptiveMsi.Model.Run
import Mathlib.Data.Nat.Log
/-!
# The geometry of a machine

`get_num_bits` is the binary logarithm, and with two bytes or more in all
the lines of a way the tag mask has a zero bit, so that no address has
the tag of a line that was never filled. The masks are the constructor's
along every run.
-/

namespace AdaptiveMsi

/-- The halving loop counts the binary digits. -/
theorem numBitsLoop_eq {k num b : ℕ} (h : num < 2 ^ k) :
    numBitsLoop k num b = b + if num = 0 then 0 else Nat.log2 num + 1 := by
  induction k generalizing num b with
  | zero =>
    obtain rfl : num = 0 := by omega
    rfl
  | succ k ih =>
    rw [numBitsLoop]
    by_cases h0 : num = 0
    · simp [h0]
    · have hhalf : num / 2 < 2 ^ k := by
        rw [pow_succ] at h
        omega
      rw [if_pos (by omega), ih hhalf, if_neg h0, Nat.log2_def num]
      split_ifs <;> omega

/-- **`get_num_bits` is the binary logarithm.** -/
theorem getNumBits_eq {num : ℕ} (h0 : 0 < num) (h : num < 2 ^ 64) :
    getNumBits num = Nat.log2 num := by
  have hlog : Nat.log2 num < 64 := (Nat.log2_lt (by omega)).mpr h
  rw [getNumBits, numBitsLoop_eq h, if_neg (by omega)]
  omega

/-! ## The words an address splits into -/

namespace Controller

variable {c : Controller} {a b : Addr} {o s j : ℕ}

/-- The constructor's masks for `o` bits of offset and `s` bits of index. -/
structure Splits (c : Controller) (o s : ℕ) : Prop where
  offsetNumBits : c.offsetNumBits = o
  tagMask : c.tagMask = allOnes <<< (o + s)

theorem Splits.getLsbD_tagMask (h : c.Splits o s) (hj : j < 64) :
    c.tagMask.getLsbD j = decide (o + s ≤ j) := by
  have hall : allOnes = BitVec.allOnes 64 := rfl
  rw [h.tagMask, hall, BitVec.getLsbD_shiftLeft, BitVec.getLsbD_allOnes]
  by_cases hle : o + s ≤ j
  · simp [hj, hle, show j - (o + s) < 64 by omega]
  · simp [hj, hle]

theorem Splits.getLsbD_getTag (h : c.Splits o s) (hj : j < 64) :
    (c.getTag a).getLsbD j = (a.getLsbD j && decide (o + s ≤ j)) := by
  rw [getTag, BitVec.getLsbD_and, h.getLsbD_tagMask hj]

/-- Bit `i` of the index is bit `i` past the offset. -/
theorem Splits.testBit_getSetIndex (h : c.Splits o s) {i : ℕ} : (c.getSetIndex a).testBit i =
    (a.getLsbD (o + i) && decide (o + i < 64 ∧ i < s)) := by
  change ((a &&& ~~~c.tagMask) >>> c.offsetNumBits).getLsbD i = _
  rw [h.offsetNumBits, BitVec.getLsbD_ushiftRight, BitVec.getLsbD_and, BitVec.getLsbD_not]
  by_cases hj : o + i < 64
  · rw [h.getLsbD_tagMask hj]
    by_cases hlt : i < s
    · simp [hj, hlt]
    · simp [hlt, show s ≤ i by omega]
  · simp [hj]

/-- The bits of an address between its offset and its tag. -/
theorem Splits.getSetIndex_eq_iff (h : c.Splits o s) : c.getSetIndex a = c.getSetIndex b ↔
    ∀ j < 64, o ≤ j → j < o + s → a.getLsbD j = b.getLsbD j := by
  constructor
  · intro heq j hj hle hlt
    have hat := congrArg (Nat.testBit · (j - o)) heq
    simp only [h.testBit_getSetIndex, Nat.add_sub_cancel' hle] at hat
    simpa [hj, show j - o < s by omega] using hat
  · intro heq
    refine Nat.eq_of_testBit_eq fun i => ?_
    rw [h.testBit_getSetIndex, h.testBit_getSetIndex]
    by_cases hlt : o + i < 64 ∧ i < s
    · rw [heq _ hlt.1 (by omega) (by omega)]
    · rw [decide_eq_false hlt, Bool.and_false, Bool.and_false]

/-- The index has as many bits as the masks leave it. -/
theorem Splits.getSetIndex_lt (h : c.Splits o s) : c.getSetIndex a < 2 ^ s := by
  refine Nat.lt_pow_two_of_testBit _ fun i hi => ?_
  rw [h.testBit_getSetIndex, decide_eq_false (by omega), Bool.and_false]

/-- **A line is what the offset leaves of an address.** -/
theorem Splits.getTag_eq_and_getSetIndex_eq_iff (h : c.Splits o s) :
    c.getTag a = c.getTag b ∧ c.getSetIndex a = c.getSetIndex b ↔
      ∀ j < 64, o ≤ j → a.getLsbD j = b.getLsbD j := by
  rw [h.getSetIndex_eq_iff]
  constructor
  · rintro ⟨htag, hindex⟩ j hj hle
    by_cases hlt : j < o + s
    · exact hindex j hj hle hlt
    · have heq := congrArg (BitVec.getLsbD · j) htag
      simp only [h.getLsbD_getTag hj] at heq
      simpa [show o + s ≤ j by omega] using heq
  · intro heq
    refine ⟨BitVec.eq_of_getLsbD_eq fun j hj => ?_, fun j hj hle _ => heq j hj hle⟩
    rw [h.getLsbD_getTag hj, h.getLsbD_getTag hj]
    by_cases hle : o + s ≤ j
    · rw [heq j hj ((Nat.le_add_right _ _).trans hle)]
    · simp [hle]

theorem splits_new {numProcessors numSets lineSize associativity : ℕ} :
    (Controller.new numProcessors numSets lineSize associativity).Splits (getNumBits lineSize)
      (getNumBits numSets) :=
  ⟨rfl, rfl⟩

end Controller

namespace Config

variable {cfg : Config} {a b : Addr}

/-- The number of address bits below the tag. -/
def shift (cfg : Config) : ℕ := Nat.log2 cfg.lineSize + Nat.log2 cfg.numSets

def tag (cfg : Config) (a : Addr) : BitVec 64 := (cfg.start false).getTag a

def index (cfg : Config) (a : Addr) : ℕ := (cfg.start false).getSetIndex a

/-- The masks of the machine. -/
theorem splits_start {detector : Bool} :
    (cfg.start detector).Splits (Nat.log2 cfg.lineSize) (Nat.log2 cfg.numSets) := by
  have hline := getNumBits_eq cfg.lineSize_pos (cfg.lineSize_lt.trans (by decide))
  have hsets := getNumBits_eq cfg.numSets_pos (cfg.numSets_lt.trans (by decide))
  rw [← hline, ← hsets]
  exact ⟨rfl, rfl⟩

/-- **No address has the tag of an empty way**, once the lines of a way
hold two bytes. -/
theorem tag_ne_allOnes (h : 2 ≤ cfg.numSets * cfg.lineSize) : cfg.tag a ≠ allOnes := by
  have hshift : 0 < cfg.shift := by
    by_contra h0
    have hline : cfg.lineSize < 2 ^ 1 :=
      (Nat.log2_lt (by have := cfg.lineSize_pos; omega)).mp (by unfold shift at h0; omega)
    have hsets : cfg.numSets < 2 ^ 1 :=
      (Nat.log2_lt (by have := cfg.numSets_pos; omega)).mp (by unfold shift at h0; omega)
    have hle : cfg.numSets * cfg.lineSize ≤ 1 * 1 := Nat.mul_le_mul (by omega) (by omega)
    omega
  intro he
  have hbit : (cfg.tag a).getLsbD 0 = true := by
    rw [he]
    rfl
  rw [tag, splits_start.getLsbD_getTag (by decide)] at hbit
  unfold shift at hshift
  simp only [Bool.and_eq_true, decide_eq_true_eq] at hbit
  omega

/-- **A line is what the offset leaves of an address.** -/
theorem tag_eq_and_index_eq_iff : cfg.tag a = cfg.tag b ∧ cfg.index a = cfg.index b ↔
    ∀ j < 64, Nat.log2 cfg.lineSize ≤ j → a.getLsbD j = b.getLsbD j :=
  splits_start.getTag_eq_and_getSetIndex_eq_iff

end Config

/-- The controller splits addresses as the constructor set it up to. -/
structure Controller.Shaped (cfg : Config) (c : Controller) : Prop where
  offsetNumBits : c.offsetNumBits = (cfg.start false).offsetNumBits
  tagMask : c.tagMask = (cfg.start false).tagMask

namespace Controller

variable {cfg : Config} {c : Controller} {a : Addr}

theorem Shaped.getTag (h : c.Shaped cfg) : c.getTag a = cfg.tag a := by
  rw [Controller.getTag, h.tagMask]
  rfl

theorem Shaped.getSetIndex (h : c.Shaped cfg) : c.getSetIndex a = cfg.index a := by
  rw [Controller.getSetIndex, h.tagMask, h.offsetNumBits]
  rfl

theorem Shaped.congr {c' : Controller} (h : c.Shaped cfg)
    (hoffset : c'.offsetNumBits = c.offsetNumBits) (hmask : c'.tagMask = c.tagMask) :
    c'.Shaped cfg :=
  ⟨hoffset.trans h.offsetNumBits, hmask.trans h.tagMask⟩

theorem shaped_start {detector : Bool} : (cfg.start detector).Shaped cfg := ⟨rfl, rfl⟩

end Controller

end AdaptiveMsi
