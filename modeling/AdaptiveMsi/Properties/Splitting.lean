import AdaptiveMsi.Cache.Geometry
/-!
# Addresses, lines and sets

The offset, the index and the tag of an address are its digits: what the
offset leaves is the number of the line, the index its lower part. Sizes
that are not powers of two are rounded down by `get_num_bits`, so the
index stays in range there too.
-/

namespace AdaptiveMsi

/-- The halving loop runs once for a positive number, and at most `k`
times. -/
theorem numBitsLoop_bounds {k num b : ℕ} (hk : 0 < k) (h0 : 0 < num) :
    b + 1 ≤ numBitsLoop k num b ∧ numBitsLoop k num b ≤ b + k := by
  induction k generalizing num b with
  | zero => omega
  | succ k ih =>
    rw [numBitsLoop, if_pos h0]
    rcases Nat.eq_zero_or_pos k with rfl | hk
    · rw [numBitsLoop]
      omega
    · rcases Nat.eq_zero_or_pos (num / 2) with hhalf | hhalf
      · obtain ⟨k, rfl⟩ := Nat.exists_eq_add_of_lt hk
        rw [hhalf, Nat.zero_add, numBitsLoop, if_neg (lt_irrefl 0)]
        omega
      · have := ih hk (b := b + 1) hhalf
        omega

/-- **`get_num_bits` rounds down.** -/
theorem two_pow_getNumBits_le {num : ℕ} (h0 : 0 < num) : 2 ^ getNumBits num ≤ num := by
  rcases Nat.lt_or_ge num (2 ^ 64) with hlt | hge
  · rw [getNumBits_eq h0 hlt]
    exact Nat.log2_self_le (by omega)
  · -- past `2 ^ 64` the loop has no more than its `64` rounds
    have hloop := numBitsLoop_bounds (k := 64) (b := 0) (by omega) h0
    have hbits : getNumBits num ≤ 63 := by
      rw [getNumBits]
      omega
    exact (Nat.pow_le_pow_right (by omega) hbits).trans (by omega)

/-- A power of two is not rounded. -/
theorem getNumBits_two_pow {k : ℕ} (h : k < 64) : getNumBits (2 ^ k) = k := by
  rw [getNumBits_eq (Nat.pow_pos (by omega)) (Nat.pow_lt_pow_right (by omega) h), Nat.log2_two_pow]

variable {c : Controller} {a b : Addr} {o s : ℕ}

/-- **The tag and the index are the number of the line.** -/
theorem Controller.Splits.line_iff (h : c.Splits o s) :
    c.getTag a = c.getTag b ∧ c.getSetIndex a = c.getSetIndex b ↔
      a.toNat / 2 ^ o = b.toNat / 2 ^ o := by
  rw [h.getTag_eq_and_getSetIndex_eq_iff]
  constructor
  · intro hbits
    refine Nat.eq_of_testBit_eq fun i => ?_
    rw [Nat.testBit_div_two_pow, Nat.testBit_div_two_pow]
    by_cases hi : i + o < 64
    · exact hbits (i + o) hi (Nat.le_add_left o i)
    · have hpast : ∀ x : Addr, x.toNat.testBit (i + o) = false := fun x =>
        BitVec.getLsbD_of_ge x _ (by omega)
      rw [hpast, hpast]
  · intro hline j _ hle
    have hbit := congrArg (Nat.testBit · (j - o)) hline
    simp only [Nat.testBit_div_two_pow, Nat.sub_add_cancel hle] at hbit
    exact hbit

/-- The tag and the set index of an address. -/
def Controller.split (c : Controller) (addr : Addr) : BitVec 64 × ℕ :=
  (c.getTag addr, c.getSetIndex addr)

/-- **Address splitting identifies the line.** For powers of two
`get_num_bits` is the exponent, the index is in range, and two addresses
have one tag and one index exactly if they are on one line. The index is
in range for all other sizes as well. -/
theorem split_identifies_line (numProcessors associativity : ℕ) :
    (∀ o s, o + s < 64 → getNumBits (2 ^ o) = o ∧ getNumBits (2 ^ s) = s ∧
      ∀ c, c = Controller.new numProcessors (2 ^ s) (2 ^ o) associativity → ∀ a b : Addr,
        c.getSetIndex a < 2 ^ s ∧
          (c.split a = c.split b ↔ a.toNat / 2 ^ o = b.toNat / 2 ^ o)) ∧
    ∀ numSets lineSize, 0 < numSets → 0 < lineSize →
      getNumBits lineSize + getNumBits numSets < 64 →
      ∀ c, c = Controller.new numProcessors numSets lineSize associativity → ∀ a : Addr,
        c.getSetIndex a < numSets := by
  refine ⟨fun o s hos => ?_, fun numSets lineSize hsets _ _ c hc a => ?_⟩
  · have ho := getNumBits_two_pow (show o < 64 by omega)
    have hs := getNumBits_two_pow (show s < 64 by omega)
    refine ⟨ho, hs, fun c hc a b => ?_⟩
    have hsplits : c.Splits (getNumBits (2 ^ o)) (getNumBits (2 ^ s)) := hc ▸ Controller.splits_new
    rw [ho, hs] at hsplits
    refine ⟨hsplits.getSetIndex_lt, ?_⟩
    rw [Controller.split, Controller.split, Prod.mk.injEq]
    exact hsplits.line_iff
  · subst hc
    exact lt_of_lt_of_le Controller.splits_new.getSetIndex_lt (two_pow_getNumBits_le hsets)

/-- The configuration file's sizes, and some that are not powers of two. -/
theorem split_identifies_line_sixtyFour :
    (∀ a b : Addr, (Controller.new 4 64 64 8).split a = (Controller.new 4 64 64 8).split b ↔
      a.toNat / 64 = b.toNat / 64) ∧ ∀ a : Addr, (Controller.new 4 6 10 8).getSetIndex a < 6 := by
  obtain ⟨hpow, hall⟩ := split_identifies_line 4 8
  exact ⟨fun a b => ((hpow 6 6 (by decide)).2.2 _ rfl a b).2,
    hall 6 10 (by decide) (by decide) (by decide) _ rfl⟩

end AdaptiveMsi
