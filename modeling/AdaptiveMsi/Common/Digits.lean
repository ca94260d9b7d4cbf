import Mathlib.Algebra.Order.Ring.Nat
import Mathlib.Tactic.Ring
/-!
# The digits of a number as independent counters

A number in base `B` packs one counter below `B` in each digit. Adding
`B ^ p` raises the counter at `p` by one and leaves the others alone, as
long as that counter is not at its top: there is no carry. Taking it away
lowers the counter, as long as it is not zero: there is no borrow.
-/

namespace Digits

variable {B v p q n : ℕ}

/-- The digit of `v` at place `p`. -/
def digit (B v p : ℕ) : ℕ := v / B ^ p % B

@[simp] theorem digit_zero : digit B 0 p = 0 := by simp [digit]

theorem digit_lt (hB : 0 < B) : digit B v p < B := Nat.mod_lt _ hB

/-- Without a carry the digits above `p` do not move. -/
theorem add_pow_div_succ (h : digit B v p + 1 < B) :
    (v + B ^ p) / B ^ (p + 1) = v / B ^ (p + 1) := by
  have hB : 0 < B := by omega
  rw [pow_succ, ← Nat.div_div_eq_div_mul, ← Nat.div_div_eq_div_mul,
    Nat.add_div_right _ (Nat.pow_pos hB)]
  rw [digit] at h
  generalize v / B ^ p = a at h ⊢
  have ha := Nat.div_add_mod a B
  have : a + 1 = (a % B + 1) + B * (a / B) := by omega
  rw [this, Nat.add_mul_div_left _ _ hB, Nat.div_eq_of_lt h, Nat.zero_add]

theorem digit_add_self (h : digit B v p + 1 < B) : digit B (v + B ^ p) p = digit B v p + 1 := by
  have hB : 0 < B := by omega
  rw [digit, Nat.add_div_right _ (Nat.pow_pos hB), Nat.add_mod,
    Nat.mod_eq_of_lt (show 1 < B by omega)]
  exact Nat.mod_eq_of_lt h

theorem digit_add_of_ne (h : digit B v p + 1 < B) (hq : q ≠ p) :
    digit B (v + B ^ p) q = digit B v q := by
  have hB : 0 < B := by omega
  rcases Nat.lt_or_gt_of_ne hq with hlt | hgt
  · -- below `p` a multiple of the base is added
    obtain ⟨k, rfl⟩ := Nat.exists_eq_add_of_lt hlt
    have hpow : B ^ (q + k + 1) = B ^ q * (B ^ k * B) := by ring
    rw [digit, digit, hpow, Nat.add_mul_div_left _ _ (Nat.pow_pos hB), Nat.add_mul_mod_self_right]
  · -- above `p` nothing is carried
    obtain ⟨k, rfl⟩ := Nat.exists_eq_add_of_lt hgt
    have hpow : B ^ (p + k + 1) = B ^ (p + 1) * B ^ k := by ring
    rw [digit, digit, hpow, ← Nat.div_div_eq_div_mul, ← Nat.div_div_eq_div_mul, add_pow_div_succ h]

/-- A number without digits from `n` on. -/
theorem digit_of_lt (hB : 0 < B) (hv : v < B ^ n) (hp : n ≤ p) : digit B v p = 0 := by
  rw [digit, Nat.div_eq_of_lt (lt_of_lt_of_le hv (Nat.pow_le_pow_right hB hp)), Nat.zero_mod]

theorem pow_le_of_digit_pos (h : 0 < digit B v p) : B ^ p ≤ v := by
  by_contra hlt
  rw [digit, Nat.div_eq_of_lt (by omega), Nat.zero_mod] at h
  omega

theorem digit_sub_self (hB : 0 < B) (h : 0 < digit B v p) :
    digit B (v - B ^ p) p = digit B v p - 1 := by
  have hle := pow_le_of_digit_pos h
  have hdiv : (v - B ^ p) / B ^ p = v / B ^ p - 1 := by
    simpa using Nat.sub_mul_div v (B ^ p) 1
  rw [digit] at h
  rw [digit, digit, hdiv]
  generalize v / B ^ p = a at h ⊢
  have ha := Nat.div_add_mod a B
  have hlt := Nat.mod_lt a hB
  have heq : a - 1 = (a % B - 1) + B * (a / B) := by omega
  rw [heq, Nat.add_mul_mod_self_left, Nat.mod_eq_of_lt (by omega)]

theorem digit_sub_of_ne (hB : 0 < B) (h : 0 < digit B v p) (hq : q ≠ p) :
    digit B (v - B ^ p) q = digit B v q := by
  -- the difference is a number to which the power is added without a carry
  have hle := pow_le_of_digit_pos h
  have hlt : digit B (v - B ^ p) p + 1 < B := by
    rw [digit_sub_self hB h]
    have := digit_lt (v := v) (p := p) hB
    omega
  have hadd := digit_add_of_ne hlt hq
  rw [Nat.sub_add_cancel hle] at hadd
  exact hadd.symm

/-- The sum has no more digits than `v` has. -/
theorem add_pow_lt (h : digit B v p + 1 < B) (hp : p < n) (hv : v < B ^ n) :
    v + B ^ p < B ^ n := by
  have hB : 0 < B := by omega
  obtain ⟨k, rfl⟩ := Nat.exists_eq_add_of_lt hp
  have hpow : B ^ (p + k + 1) = B ^ k * B ^ (p + 1) := by ring
  rw [hpow] at hv ⊢
  rw [← Nat.div_lt_iff_lt_mul (Nat.pow_pos hB)] at hv ⊢
  rwa [add_pow_div_succ h]

end Digits
