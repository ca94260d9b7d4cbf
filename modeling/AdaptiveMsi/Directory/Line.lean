import AdaptiveMsi.Common.BitSet
import AdaptiveMsi.Common.Digits
import AdaptiveMsi.Common.Machine
import AdaptiveMsi.Protocol.Events
/-!
# The directory line as an entry

The sharer vector is a finite set of processors, the packed counters are
base-four digits, and a line is an `Entry` of the abstract protocol. The
bit operations are the set's, the `owner` loop finds the least sharer,
and below processor `16` a counter is the digit of its processor.
-/

namespace AdaptiveMsi

open BitSet Machine

theorem intShl_one {pid : ℕ} (h : pid < 32) : intShl 1 pid = BitVec.twoPow 32 pid := by
  rw [intShl, Nat.mod_eq_of_lt h, BitVec.twoPow_eq]
  rfl

@[simp] theorem check_true {e : AssertFailure} : check true e = .ok () := rfl

namespace DirectoryLine

variable {d : DirectoryLine} {pid i n : ℕ}

/-! ## The sharers -/

/-- The processors whose bit is set. -/
def sharers (d : DirectoryLine) : Finset ℕ := bits d.sharerVector

theorem isSet_iff (h : pid < 32) : d.isSet pid = true ↔ pid ∈ d.sharers := by
  rw [isSet, intShl_one h, bne_iff_ne]
  exact and_twoPow_ne_zero h

theorem isSet_eq_decide (h : pid < 32) : d.isSet pid = decide (pid ∈ d.sharers) := by
  rw [Bool.eq_iff_iff, isSet_iff h, decide_eq_true_iff]

@[simp] theorem sharers_setSharer (h : pid < 32) :
    (d.setSharer pid).sharers = insert pid d.sharers := by
  rw [sharers, setSharer, intShl_one h]
  exact bits_or_twoPow h

@[simp] theorem sharers_clearSharer (h : pid < 32) :
    (d.clearSharer pid).sharers = d.sharers.erase pid := by
  rw [sharers, clearSharer, intShl_one h]
  exact bits_and_not_twoPow h

theorem sharers_eq_empty : d.sharers = ∅ ↔ d.sharerVector = 0 := bits_eq_empty

/-! ## The owner loop -/

/-- The loop stops at the first set bit at or after where it starts. -/
theorem ownerLoop_eq {k o : ℕ} (hk : pid + k = n) (ho : pid ≤ o) (hon : o < n)
    (hset : d.isSet o = true) (hmin : ∀ i, pid ≤ i → i < o → d.isSet i = false) :
    d.ownerLoop n k pid = o := by
  induction k generalizing pid with
  | zero => omega
  | succ k ih =>
    rw [ownerLoop]
    rcases eq_or_lt_of_le ho with rfl | hlt
    · simp [hset]
    · rw [if_pos (by simp [hmin pid le_rfl hlt]; omega)]
      exact ih (by omega) hlt fun i hi => hmin i (by omega)

/-- **`owner` finds the least sharer**, and its assertions hold. -/
theorem owner_eq_ok {o : ℕ} (hn : n ≤ 32) (hmod : d.state = .modified) (hon : o < n)
    (ho : o ∈ d.sharers) (hmin : ∀ i ∈ d.sharers, o ≤ i) : d.owner n = .ok o := by
  have hloop : d.ownerLoop n n 0 = o := by
    refine ownerLoop_eq (by omega) (by omega) hon ((isSet_iff (by omega)).mpr ho) ?_
    intro i _ hi
    rw [isSet_eq_decide (by omega), decide_eq_false_iff_not]
    exact fun hmem => absurd (hmin i hmem) (by omega)
  have hne : (o != n) = true := by simp; omega
  simp only [owner, hloop, hmod, hne]
  rfl

/-- A modified line with sharers has an owner. -/
theorem exists_owner (hn : n ≤ 32) (hmod : d.state = .modified) (hne : d.sharers ≠ ∅)
    (hsub : d.sharers ⊆ Finset.range n) :
    ∃ o ∈ d.sharers, (∀ i ∈ d.sharers, o ≤ i) ∧ d.owner n = .ok o := by
  have hex : ∃ o, o ∈ d.sharers := (Finset.nonempty_iff_ne_empty.mpr hne).exists_mem
  have hmin : ∀ i ∈ d.sharers, Nat.find hex ≤ i := fun i hi => Nat.find_min' hex hi
  have ho := Nat.find_spec hex
  exact ⟨Nat.find hex, ho, hmin,
    owner_eq_ok hn hmod (Finset.mem_range.mp (hsub ho)) ho hmin⟩

/-! ## The entry -/

/-- `last_writer`, `~0` being nobody. -/
def writer (d : DirectoryLine) : Option ℕ :=
  if d.lastWriter = noWriter then none else some d.lastWriter

/-- The line as an entry of the protocol. -/
def entry (d : DirectoryLine) : Protocol.Entry ℕ (BitVec 64) where
  state := d.state
  sharers := d.sharers
  writer := d.writer
  reads := d.readCountVector

@[simp] theorem entry_state : d.entry.state = d.state := rfl

@[simp] theorem entry_sharers : d.entry.sharers = d.sharers := rfl

@[simp] theorem entry_writer : d.entry.writer = d.writer := rfl

theorem writer_eq_some (h : pid < 32) : d.writer = some pid ↔ d.isLastWriter pid = true := by
  have : pid ≠ noWriter := by simp [noWriter]; omega
  simp only [writer, isLastWriter, beq_iff_eq]
  grind

theorem lastWriter_eq_getD : d.lastWriter = d.writer.getD noWriter := by
  unfold writer
  split
  · assumption
  · rfl

theorem writer_of_lastWriter (h : pid < 32) (hd : d.lastWriter = pid) : d.writer = some pid :=
  (writer_eq_some h).mpr (by simp [isLastWriter, hd])

/-- The sharer vector is the entry's sharers. -/
theorem sharerVector_eq_iff {d' : DirectoryLine} :
    d.sharerVector = d'.sharerVector ↔ d.sharers = d'.sharers :=
  bits_injective.eq_iff.symm

/-! ## The read counters -/

/-- What `increase_read_count` makes of the packed counters. -/
def missVector (pid : ℕ) (v : BitVec 64) : BitVec 64 :=
  if v >>> (pid * 2 % 64) &&& 3 < 3 then v + intShl64 1 (pid * 2) else v

theorem increaseReadCount_eq (h : pid < 64) : d.increaseReadCount pid =
    .ok { d with readCountVector := missVector pid d.readCountVector } := by
  simp only [increaseReadCount, h, decide_true, check_true, missVector, readCount]
  by_cases hlt : d.readCountVector >>> (pid * 2 % 64) &&& 3 < 3
  · rw [if_pos hlt]
    exact if_pos hlt
  · rw [if_neg hlt]
    exact if_neg hlt

/-- The counters of the processors below `16` leave the upper half of the
word alone. -/
def Packed (v : BitVec 64) : Prop := v.toNat < 4 ^ 16

/-- The counter of `pid`. -/
def count (v : BitVec 64) (pid : ℕ) : ℕ := Digits.digit 4 v.toNat pid

theorem toNat_readCount (h : pid < 32) :
    (d.readCount pid).toNat = count d.readCountVector pid := by
  have h3 : ∀ x : ℕ, x &&& 3 = x % 4 := fun x => Nat.and_two_pow_sub_one_eq_mod x 2
  rw [readCount, Nat.mod_eq_of_lt (by omega), BitVec.toNat_and, BitVec.toNat_ushiftRight,
    Nat.shiftRight_eq_div_pow, show (3 : BitVec 64).toNat = 3 from rfl, h3, count, Digits.digit,
    Nat.mul_comm, Nat.pow_mul]

/-- The test of `increase_read_count`, -/
theorem field_lt_three {v : BitVec 64} (h : pid < 32) :
    v >>> (pid * 2 % 64) &&& 3 < 3 ↔ count v pid < 3 := by
  have hcount := toNat_readCount (d := { empty with readCountVector := v }) h
  rw [BitVec.lt_def, ← hcount]
  rfl

/-- and that of `decrease_read_count`. -/
theorem field_pos {v : BitVec 64} (h : pid < 32) :
    0 < v >>> (pid * 2 % 64) &&& 3 ↔ 0 < count v pid := by
  have hcount := toNat_readCount (d := { empty with readCountVector := v }) h
  rw [BitVec.lt_def, ← hcount]
  rfl

theorem toNat_intShl64 (h : pid < 16) : (intShl64 1 (pid * 2)).toNat = 4 ^ pid := by
  have : ∀ pid < 16, (intShl64 1 (pid * 2)).toNat = 4 ^ pid := by decide
  exact this pid h

theorem missVector_toNat {v : BitVec 64} (h : pid < 16) (hv : Packed v) :
    (missVector pid v).toNat =
      if count v pid < 3 then v.toNat + 4 ^ pid else v.toNat := by
  have hcount := field_lt_three (v := v) (show pid < 32 by omega)
  have hpow : 4 ^ pid ≤ 4 ^ 16 := Nat.pow_le_pow_right (by omega) (by omega)
  rw [missVector]
  split
  · rename_i hlt
    rw [if_pos (hcount.mp hlt), BitVec.toNat_add, toNat_intShl64 h]
    refine Nat.mod_eq_of_lt ?_
    have := hv
    unfold Packed at this
    omega
  · rename_i hge
    rw [if_neg fun hlt => hge (hcount.mpr hlt)]

theorem Packed.zero : Packed 0 := Nat.pow_pos (by omega)

theorem Packed.missVector {v : BitVec 64} (h : pid < 16) (hv : Packed v) :
    Packed (missVector pid v) := by
  rw [Packed, missVector_toNat h hv]
  split
  · rename_i hlt
    exact Digits.add_pow_lt (by unfold count at hlt; omega) h hv
  · exact hv

/-- **A miss raises the reader's counter**, up to three, and no other. -/
theorem count_missVector {v : BitVec 64} (h : pid < 16) (hv : Packed v) :
    count (missVector pid v) i = if i = pid then min 3 (count v pid + 1) else count v i := by
  have hle : count v pid < 4 := Digits.digit_lt (by omega)
  rw [count, missVector_toNat h hv]
  split
  · rename_i hlt
    have hlt' : Digits.digit 4 v.toNat pid + 1 < 4 := by unfold count at hlt; omega
    split
    · rename_i hi
      rw [hi, Digits.digit_add_self hlt', Nat.min_eq_right (by unfold count; omega)]
      rfl
    · rename_i hi
      exact Digits.digit_add_of_ne hlt' hi
  · split
    · rename_i hi
      rw [hi, Nat.min_eq_left (by omega)]
      change count v pid = 3
      omega
    · rfl

theorem count_zero : count 0 pid = 0 := Digits.digit_zero

/-- The counters from processor `16` on are zero. -/
theorem Packed.count_eq_zero {v : BitVec 64} (hv : Packed v) (h : 16 ≤ pid) : count v pid = 0 :=
  Digits.digit_of_lt (by omega) hv h

/-- What `decrease_read_count` makes of the packed counters. -/
def dropVector (pid : ℕ) (v : BitVec 64) : BitVec 64 :=
  if 0 < v >>> (pid * 2 % 64) &&& 3 then v - intShl64 1 (pid * 2) else v

theorem decreaseReadCount_eq (h : pid < 64) : d.decreaseReadCount pid =
    .ok { d with readCountVector := dropVector pid d.readCountVector } := by
  simp only [decreaseReadCount, h, decide_true, check_true, dropVector, readCount]
  by_cases hlt : 0 < d.readCountVector >>> (pid * 2 % 64) &&& 3
  · rw [if_pos hlt]
    exact if_pos hlt
  · rw [if_neg hlt]
    exact if_neg hlt

theorem dropVector_of_count_eq_zero {v : BitVec 64} (h : pid < 32) (hzero : count v pid = 0) :
    dropVector pid v = v := by
  refine if_neg fun hpos => ?_
  have hcount := (field_pos h).mp hpos
  omega

theorem dropVector_toNat {v : BitVec 64} (h : pid < 16) (hpos : 0 < count v pid) :
    (dropVector pid v).toNat = v.toNat - 4 ^ pid := by
  have hcount : 0 < v >>> (pid * 2 % 64) &&& 3 := (field_pos (by omega)).mpr hpos
  have hle : 4 ^ pid ≤ v.toNat := Digits.pow_le_of_digit_pos hpos
  rw [dropVector, if_pos hcount, BitVec.toNat_sub_of_le, toNat_intShl64 h]
  rw [BitVec.le_def, toNat_intShl64 h]
  exact hle

theorem Packed.dropVector {v : BitVec 64} (h : pid < 32) (hv : Packed v) :
    Packed (dropVector pid v) := by
  rcases Nat.eq_zero_or_pos (count v pid) with hzero | hpos
  · rwa [dropVector_of_count_eq_zero h hzero]
  · have hlow : pid < 16 := by
      by_contra hhigh
      rw [hv.count_eq_zero (by omega)] at hpos
      omega
    rw [Packed, dropVector_toNat hlow hpos]
    exact lt_of_le_of_lt (Nat.sub_le _ _) hv

/-- **A decrease lowers the processor's counter**, down to zero, and no
other. -/
theorem count_dropVector {v : BitVec 64} (h : pid < 32) (hv : Packed v) :
    count (dropVector pid v) i = if i = pid then count v pid - 1 else count v i := by
  rcases Nat.eq_zero_or_pos (count v pid) with hzero | hpos
  · rw [dropVector_of_count_eq_zero h hzero]
    split
    · rename_i hi
      rw [hi, hzero]
    · rfl
  · have hlow : pid < 16 := by
      by_contra hhigh
      rw [hv.count_eq_zero (by omega)] at hpos
      omega
    rw [count, dropVector_toNat hlow hpos]
    split
    · rename_i hi
      rw [hi]
      exact Digits.digit_sub_self (by omega) hpos
    · rename_i hi
      exact Digits.digit_sub_of_ne (by omega) hpos hi

/-- The mask of `qualified_reader`, met with packed counters, is the upper
bit of one counter; for processor `15` sign extension sets every bit
above it too. -/
theorem and_mask_ne_zero {v : BitVec 64} (h : pid < 16) (hv : Packed v) :
    v &&& intShl64 1 (2 * pid + 1) ≠ 0 ↔ v.getLsbD (2 * pid + 1) = true := by
  rcases Nat.lt_or_ge pid 15 with hlt | hge
  · have : ∀ pid < 15, intShl64 1 (2 * pid + 1) = BitVec.twoPow 64 (2 * pid + 1) := by decide
    rw [this pid hlt, and_twoPow_ne_zero (by omega), mem_bits]
  · obtain rfl : pid = 15 := by omega
    have hmask : ∀ k < 64, (intShl64 1 (2 * 15 + 1)).getLsbD k = decide (31 ≤ k) := by decide
    rw [Ne, ← bits_eq_empty, ← Ne, ← Finset.nonempty_iff_ne_empty]
    constructor
    · rintro ⟨k, hk⟩
      rw [mem_bits, BitVec.getLsbD_and, Bool.and_eq_true] at hk
      have hk64 : k < 64 := BitVec.lt_of_getLsbD hk.1
      have hk31 : 31 ≤ k := of_decide_eq_true (hmask k hk64 ▸ hk.2)
      have hk32 : k < 32 := by
        by_contra hge'
        have hpow : v.toNat < 2 ^ k :=
          lt_of_lt_of_le hv (Nat.pow_le_pow_right (n := 2) (by omega) (show 32 ≤ k by omega))
        rw [BitVec.getLsbD, Nat.testBit_lt_two_pow hpow] at hk
        exact absurd hk.1 (by simp)
      obtain rfl : k = 31 := by omega
      exact hk.1
    · intro hbit
      refine ⟨31, ?_⟩
      rw [mem_bits, BitVec.getLsbD_and, hmask 31 (by omega)]
      simpa using hbit

/-- The mask tests whether the counter is at least two. -/
theorem and_mask_ne_zero_iff_count {v : BitVec 64} (h : pid < 16) (hv : Packed v) :
    v &&& intShl64 1 (2 * pid + 1) ≠ 0 ↔ 2 ≤ count v pid := by
  rw [and_mask_ne_zero h hv, BitVec.getLsbD, Nat.testBit_eq_decide_div_mod_eq,
    decide_eq_true_iff, count, Digits.digit]
  have hpow : 2 ^ (2 * pid + 1) = 4 ^ pid * 2 := by rw [pow_succ, pow_mul]; rfl
  rw [hpow, ← Nat.div_div_eq_div_mul]
  omega

/-- **A reader qualifies when its counter is at least two.** -/
theorem qualifiedReader_iff (h : pid < 16) (hd : Packed d.readCountVector) :
    d.qualifiedReader pid = true ↔ 2 ≤ count d.readCountVector pid := by
  rw [qualifiedReader, bne_iff_ne]
  exact and_mask_ne_zero_iff_count h hd

end DirectoryLine

/-! ## The rules of the code -/

/-- The parameters the code runs the protocol with: the counters start at
zero, a load miss raises one, and a mask tests it. -/
def rules (n : ℕ) (detector : Bool) : Protocol.Rules ℕ (BitVec 64) where
  adaptive := detector
  procs := Finset.range n
  start := 0
  miss := DirectoryLine.missVector
  qualified := fun v pid => v &&& intShl64 1 (2 * pid + 1) != 0

@[simp] theorem rules_adaptive {n : ℕ} {b : Bool} : (rules n b).adaptive = b := rfl

@[simp] theorem mem_procs {n i : ℕ} {b : Bool} : i ∈ (rules n b).procs ↔ i < n := Finset.mem_range

end AdaptiveMsi
