import Mathlib.Algebra.BigOperators.Group.Finset.Piecewise
import Mathlib.Algebra.Order.BigOperators.Group.List
import Mathlib.Algebra.Order.Group.Nat
/-!
# Ledgers

A ledger is a list of bills; each has a key, the account it is charged
to, and an amount. `account` is what one account was charged, and
`foldl_account` says that a table posted bill by bill holds the accounts.
Two tables posted from one ledger under different keys have one total.
-/

namespace Ledger

variable {β κ σ M : Type*} [DecidableEq κ]

section Total

variable [AddCommMonoid M] {key : β → κ} {amount : β → M} {B : List β} {b : β} {k : κ}

/-- What the bills charge to the account `k`. -/
def account (key : β → κ) (amount : β → M) (B : List β) (k : κ) : M :=
  (B.map fun b => if key b = k then amount b else 0).sum

@[simp] theorem account_nil : account key amount [] k = 0 := rfl

@[simp] theorem account_cons : account key amount (b :: B) k =
    (if key b = k then amount b else 0) + account key amount B k := by
  simp [account]

/-- A key may be replaced by another name for it. -/
theorem account_key {κ' : Type*} [DecidableEq κ'] {key' : β → κ'} {k' : κ'}
    (h : ∀ b, key b = k ↔ key' b = k') :
    account key amount B k = account key' amount B k' := by
  simp only [account, h]

/-- **A table posted bill by bill holds the accounts.** -/
theorem foldl_account {post : σ → β → σ} (read : σ → M) {s : σ}
    (hpost : ∀ s b, read (post s b) = read s + if key b = k then amount b else 0) :
    read (B.foldl post s) = read s + account key amount B k := by
  induction B generalizing s with
  | nil => simp
  | cons b B ih => rw [List.foldl_cons, ih, hpost, account_cons, add_assoc]

/-- **The accounts add up to the amounts**, whatever the key. -/
theorem sum_account {K : Finset κ} (h : ∀ b ∈ B, key b ∈ K) :
    ∑ k ∈ K, account key amount B k = (B.map amount).sum := by
  induction B with
  | nil => simp
  | cons b B ih =>
    have hb : key b ∈ K := h b List.mem_cons_self
    have hB := ih fun b' hb' => h b' (List.mem_cons_of_mem b hb')
    simp only [account_cons, Finset.sum_add_distrib, hB, List.map_cons, List.sum_cons,
      Finset.sum_ite_eq, if_pos hb]

/-- An account is no more than everything charged. -/
theorem account_le_sum [PartialOrder M] [IsOrderedAddMonoid M] [CanonicallyOrderedAdd M] :
    account key amount B k ≤ (B.map amount).sum := by
  refine List.sum_le_sum fun b _ => ?_
  split
  · exact le_rfl
  · exact zero_le

end Total

section Nat

variable {key : β → κ} {amount amount' : β → ℕ} {B : List β} {k : κ} {c : ℕ}

/-- An account of ones counts the bills. -/
theorem account_eq_countP {q : β → Prop} [DecidablePred q] :
    account key (fun b => if q b then 1 else 0) B k = B.countP fun b => q b ∧ key b = k := by
  induction B with
  | nil => rfl
  | cons b B ih =>
    rw [account_cons, ih, List.countP_cons]
    by_cases hk : key b = k <;> by_cases hq : q b <;> simp [hk, hq, Nat.add_comm]

theorem account_mul :
    account key (fun b => c * amount b) B k = c * account key amount B k := by
  induction B with
  | nil => rfl
  | cons b B ih =>
    rw [account_cons, account_cons, ih, Nat.mul_add]
    split
    · rfl
    · rfl

/-- **A bound on every bill** bounds the accounts. -/
theorem account_mono (h : ∀ b ∈ B, amount b ≤ amount' b) :
    account key amount B k ≤ account key amount' B k := by
  refine List.sum_le_sum fun b hb => ?_
  split
  · exact h b hb
  · exact le_rfl

theorem account_le_mul (h : ∀ b ∈ B, amount b ≤ c * amount' b) :
    account key amount B k ≤ c * account key amount' B k :=
  (account_mono h).trans_eq account_mul

theorem mul_account_le (h : ∀ b ∈ B, c * amount' b ≤ amount b) :
    c * account key amount' B k ≤ account key amount B k :=
  account_mul.symm.trans_le (account_mono h)

end Nat

end Ledger
