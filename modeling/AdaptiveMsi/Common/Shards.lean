import AdaptiveMsi.Common.Machine
import Mathlib.Algebra.BigOperators.Group.Finset.Piecewise
/-!
# Machines that fall apart into shards

Every input has a key, and a step reads and changes only the part of the
state that belongs to its key. Then the inputs of one key, fed to a
machine of their own, do what they do among the others; the whole run
returns as soon as every shard's does; and a quantity that steps add to
is, in the end, the sum of the shards'.
-/

namespace Machine

universe u

variable {ε κ : Type*} {σ α β : Type u} [DecidableEq κ]

/-- **Steps are local to their keys.** `Same k s t` says that `t` is `s` at
the part of `k`; states in `I` and inputs in `Q` are asked. -/
structure Shards (step : σ → α → Except ε (σ × β)) (key : α → κ) (key' : β → κ) (I : σ → Prop)
    (Q : α → Prop) (Same : κ → σ → σ → Prop) : Prop where
  keep : ∀ s a r, I s → Q a → step s a = .ok r → I r.1
  key_eq : ∀ s a r, step s a = .ok r → key' r.2 = key a
  near : ∀ s t a, I s → Q a → Same (key a) s t →
    Agree (fun r r' => Same (key a) r.1 r'.1 ∧ r'.2 = r.2) (step s a) (step t a)
  far : ∀ s t a r k, I s → Q a → step s a = .ok r → k ≠ key a → Same k s t → Same k r.1 t

/-- A count over a list, key by key. -/
theorem countP_eq_sum_filter {key : α → κ} {as : List α} {K : Finset κ} (p : α → Bool)
    (h : ∀ a ∈ as, key a ∈ K) :
    as.countP p = ∑ k ∈ K, (as.filter (key · = k)).countP p := by
  induction as with
  | nil => simp
  | cons a as ih =>
    have hmem : key a ∈ K := h a (by simp)
    have hrest := ih fun b hb => h b (by simp [hb])
    have hcons : ∀ k, ((a :: as).filter (key · = k)).countP p =
        (as.filter (key · = k)).countP p + if key a = k then (if p a then 1 else 0) else 0 := by
      intro k
      by_cases hk : key a = k
      · rw [List.filter_cons_of_pos (by simpa using hk), List.countP_cons, if_pos hk]
      · rw [List.filter_cons_of_neg (by simpa using hk), if_neg hk, Nat.add_zero]
    simp only [hcons, Finset.sum_add_distrib, Finset.sum_ite_eq, if_pos hmem, ← hrest,
      List.countP_cons]

/-- One step with less to say. -/
theorem map_eq_ok {γ : Type u} {e : Except ε (σ × β)} {f : β → γ} {s : σ} {b' : γ} :
    (e >>= fun r => pure (r.1, f r.2)) = .ok (s, b') ↔ ∃ b, e = .ok (s, b) ∧ b' = f b := by
  rw [bind_eq_ok]
  constructor
  · rintro ⟨⟨s₁, b⟩, he, h⟩
    cases h
    exact ⟨b, he, rfl⟩
  · rintro ⟨b, he, rfl⟩
    exact ⟨(s, b), he, rfl⟩

/-- The same machine with less to say: its outputs are `f`'s of the outputs. -/
theorem run_map_eq_ok {step : σ → α → Except ε (σ × β)} {γ : Type u}
    {step' : σ → α → Except ε (σ × γ)} {f : β → γ}
    (h : ∀ s a s' b', step' s a = .ok (s', b') ↔ ∃ b, step s a = .ok (s', b) ∧ b' = f b) {s s' : σ}
    {as : List α} {bs' : List γ} : run step' s as = .ok (s', bs') ↔
      ∃ bs, run step s as = .ok (s', bs) ∧ bs' = bs.map f := by
  induction as generalizing s bs' with
  | nil =>
    constructor
    · intro hrun
      cases hrun
      exact ⟨[], rfl, rfl⟩
    · rintro ⟨bs, hrun, rfl⟩
      cases hrun
      rfl
  | cons a as ih =>
    simp only [run_cons_eq_ok, h, ih]
    constructor
    · rintro ⟨s₁, _, _, ⟨b, hstep, rfl⟩, ⟨bs, hrun, rfl⟩, rfl⟩
      exact ⟨b :: bs, ⟨s₁, b, bs, hstep, hrun, rfl⟩, rfl⟩
    · rintro ⟨_, ⟨s₁, b, bs, hstep, hrun, rfl⟩, rfl⟩
      exact ⟨s₁, f b, bs.map f, ⟨b, hstep, rfl⟩, ⟨bs, hrun, rfl⟩, rfl⟩

namespace Shards

variable {step : σ → α → Except ε (σ × β)} {key : α → κ} {key' : β → κ} {I : σ → Prop}
variable {Q : α → Prop} {Same : κ → σ → σ → Prop} {s s' : σ} {as : List α} {bs : List β}
variable {t : κ → σ}

/-- What a step adds to `w` it adds in the shard. -/
def Adds (step : σ → α → Except ε (σ × β)) (key : α → κ) (I : σ → Prop) (Q : α → Prop)
    (Same : κ → σ → σ → Prop) (w : σ → ℕ) : Prop :=
  ∀ s t a r r', I s → Q a → Same (key a) s t → step s a = .ok r → step t a = .ok r' →
    w r.1 + w t = w s + w r'.1

/-- **One step**, in the whole and in its shard. -/
theorem step_shard (h : Shards step key key' I Q Same) {a : α} {r : σ × β} (hI : I s) (ha : Q a)
    (hsame : ∀ k, Same k s (t k)) (hstep : step s a = .ok r) :
    ∃ r', step (t (key a)) a = .ok r' ∧ r'.2 = r.2 ∧
      ∀ k, Same k r.1 (Function.update t (key a) r'.1 k) := by
  obtain ⟨r', hstep', hnear, hout⟩ := (h.near s _ a hI ha (hsame (key a))).of_ok hstep
  refine ⟨r', hstep', hout, fun k => ?_⟩
  rcases eq_or_ne k (key a) with rfl | hne
  · rw [Function.update_self]
    exact hnear
  · rw [Function.update_of_ne hne]
    exact h.far s _ a r k hI ha hstep hne (hsame k)

/-- **A run is the runs of its shards**: they give the outputs of their keys,
end at the state's parts, and add up to what the whole run adds. -/
theorem exists_shards (h : Shards step key key' I Q Same) (hI : I s) (hQ : ∀ a ∈ as, Q a)
    (hsame : ∀ k, Same k s (t k)) (hrun : run step s as = .ok (s', bs)) :
    ∃ t' : κ → σ, (∀ k, run step (t k) (as.filter (key · = k)) =
        .ok (t' k, bs.filter (key' · = k)) ∧ Same k s' (t' k)) ∧
      ∀ w, Adds step key I Q Same w → ∀ K : Finset κ, (∀ a ∈ as, key a ∈ K) →
        w s' + ∑ k ∈ K, w (t k) = w s + ∑ k ∈ K, w (t' k) := by
  induction as generalizing s bs t with
  | nil =>
    cases hrun
    exact ⟨t, fun k => ⟨rfl, hsame k⟩, fun _ _ _ _ => rfl⟩
  | cons a as ih =>
    obtain ⟨s₁, b, bs', hstep, hrun', rfl⟩ := run_cons_eq_ok.mp hrun
    obtain ⟨r', hstep', hout, hsame'⟩ := h.step_shard hI (hQ a (by simp)) hsame hstep
    have hI' : I s₁ := h.keep s a _ hI (hQ a (by simp)) hstep
    obtain ⟨t', hshards, hsums⟩ := ih hI' (fun b hb => hQ b (by simp [hb])) hsame' hrun'
    have hkey : key' b = key a := h.key_eq s a _ hstep
    refine ⟨t', fun k => ⟨?_, (hshards k).2⟩, fun w hw K hK => ?_⟩
    · -- the first input belongs to one shard
      have hk := (hshards k).1
      rcases eq_or_ne k (key a) with rfl | hne
      · rw [Function.update_self] at hk
        rw [List.filter_cons_of_pos (by simp), List.filter_cons_of_pos (by simp [hkey])]
        have hfirst : step (t (key a)) a = .ok (r'.1, b) := by
          rw [hstep', ← show r'.2 = b from hout]
        exact run_cons_eq_ok.mpr ⟨r'.1, b, _, hfirst, hk, rfl⟩
      · rw [Function.update_of_ne hne] at hk
        rw [List.filter_cons_of_neg (by simpa using hne.symm),
          List.filter_cons_of_neg (by simpa [hkey] using hne.symm)]
        exact hk
    · have hrest := hsums w hw K fun b hb => hK b (by simp [hb])
      have hone : w s₁ + w (t (key a)) = w s + w r'.1 :=
        hw s _ a _ r' hI (hQ a (by simp)) (hsame (key a)) hstep hstep'
      have hmem : key a ∈ K := hK a (by simp)
      have hupdate : ∑ k ∈ K, w (Function.update t (key a) r'.1 k) + w (t (key a)) =
          ∑ k ∈ K, w (t k) + w r'.1 := by
        rw [← Finset.add_sum_erase K _ hmem, ← Finset.add_sum_erase K (fun k => w (t k)) hmem,
          Function.update_self]
        have heq : ∑ k ∈ K.erase (key a), w (Function.update t (key a) r'.1 k) =
            ∑ k ∈ K.erase (key a), w (t k) := by
          refine Finset.sum_congr rfl fun k hk => ?_
          rw [Function.update_of_ne (Finset.ne_of_mem_erase hk)]
        omega
      omega

/-- **A run returns if every shard's does.** -/
theorem exists_run (h : Shards step key key' I Q Same) (hI : I s) (hQ : ∀ a ∈ as, Q a)
    (hsame : ∀ k, Same k s (t k))
    (hruns : ∀ k, ∃ r, run step (t k) (as.filter (key · = k)) = .ok r) :
    ∃ r, run step s as = .ok r := by
  induction as generalizing s t with
  | nil => exact ⟨_, rfl⟩
  | cons a as ih =>
    obtain ⟨⟨t₁, bs⟩, hshard⟩ := hruns (key a)
    rw [List.filter_cons_of_pos (by simp)] at hshard
    obtain ⟨t₂, b, bs', hstep', hrest, -⟩ := run_cons_eq_ok.mp hshard
    -- the step returns here as it does in the shard
    have hnear := h.near s _ a hI (hQ a (by simp)) (hsame (key a))
    cases hstep : step s a with
    | error e =>
      rw [hstep, hstep'] at hnear
      exact hnear.elim
    | ok r =>
      obtain ⟨r', hr', -, hsame'⟩ := h.step_shard hI (hQ a (by simp)) hsame hstep
      cases hstep'.symm.trans hr'
      obtain ⟨⟨s', bs''⟩, hrun⟩ := ih (h.keep s a _ hI (hQ a (by simp)) hstep)
        (fun b hb => hQ b (by simp [hb])) hsame' fun k => by
          rcases eq_or_ne k (key a) with rfl | hne
          · rw [Function.update_self]
            exact ⟨_, hrest⟩
          · have hk := hruns k
            rw [List.filter_cons_of_neg (by simpa using hne.symm)] at hk
            rwa [Function.update_of_ne hne]
      exact ⟨_, run_cons_eq_ok.mpr ⟨r.1, r.2, _, hstep, hrun, rfl⟩⟩

end Shards

end Machine
