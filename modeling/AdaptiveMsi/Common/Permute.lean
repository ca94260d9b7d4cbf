import AdaptiveMsi.Common.Machine
import Mathlib.Algebra.BigOperators.Group.List.Basic
/-!
# Inputs in any order

A machine is fed a list and the same list in another order. Where two
neighbours may be exchanged, all may: the two runs end in related states,
and what their outputs weigh has one sum. The states are compared by a
relation, as an exchange need not lead to one state.
-/

namespace Machine

universe u

variable {ε M : Type*} {σ α β γ : Type u} [AddCommMonoid M]

/-- Two runs end in related states, and their outputs weigh the same. -/
def Meets (R : σ → σ → Prop) (w : β → M) (r r' : σ × List β) : Prop :=
  R r.1 r'.1 ∧ (r.2.map w).sum = (r'.2.map w).sum

/-- **Neighbours may be exchanged**, of the inputs in `Q`. Only states that
`R` relates to themselves are asked. -/
structure Exchanges (step : σ → α → Except ε (σ × β)) (R : σ → σ → Prop) (w : β → M)
    (Q : α → Prop) : Prop where
  symm : ∀ s t, R s t → R t s
  trans : ∀ s t u, R s t → R t u → R s u
  congr : ∀ s t a, Q a → R s t →
    Agree (fun r r' => R r.1 r'.1 ∧ w r.2 = w r'.2) (step s a) (step t a)
  swap : ∀ s a b, Q a → Q b → R s s →
    Agree (Meets R w) (run step s [a, b]) (run step s [b, a])

theorem Agree.trans {R : γ → γ → Prop} {x y z : Except ε γ} (hR : ∀ a b c, R a b → R b c → R a c)
    (h : Agree R x y) (h' : Agree R y z) : Agree R x z := by
  cases x <;> cases y <;> cases z
  case error.error.error => exact Eq.trans h h'
  case ok.ok.ok a b c => exact hR a b c h h'
  all_goals first | exact h.elim | exact h'.elim

/-- A run over two lists, as one computation. -/
theorem run_append {step : σ → α → Except ε (σ × β)} {s : σ} {as as' : List α} :
    run step s (as ++ as') = run step s as >>= fun r => run step r.1 as' >>= fun r' =>
      pure (r'.1, r.2 ++ r'.2) := by
  induction as generalizing s with
  | nil =>
    rw [List.nil_append, run_nil, ok_bind]
    cases run step s as' <;> rfl
  | cons a as ih =>
    simp only [List.cons_append, run, ih, bind_assoc, pure_bind]

namespace Exchanges

variable {step : σ → α → Except ε (σ × β)} {R : σ → σ → Prop} {w : β → M} {Q : α → Prop}
variable {s t : σ} {as as' : List α}

theorem refl_left (h : Exchanges step R w Q) (hR : R s t) : R s s :=
  h.trans s t s hR (h.symm s t hR)

theorem meets_trans (h : Exchanges step R w Q) {r₁ r₂ r₃ : σ × List β} (h₁ : Meets R w r₁ r₂)
    (h₂ : Meets R w r₂ r₃) : Meets R w r₁ r₃ :=
  ⟨h.trans _ _ _ h₁.1 h₂.1, h₁.2.trans h₂.2⟩

/-- One list from two related states. -/
theorem agree_run (h : Exchanges step R w Q) (hQ : ∀ a ∈ as, Q a) (hR : R s t) :
    Agree (Meets R w) (run step s as) (run step t as) := by
  refine (Machine.agree_run (R := fun _ => R) (O := fun b b' => w b = w b') hR ?_).mono ?_
  · intro u a v s t hl hst
    exact h.congr s t a (hQ a (by simp [hl])) hst
  · rintro r r' - - ⟨hr, ho⟩
    refine ⟨hr, congrArg List.sum ?_⟩
    rwa [← List.forall₂_eq_eq_eq, List.forall₂_map_left_iff, List.forall₂_map_right_iff]

/-- Runs that meet go on to meet. -/
theorem agree_append {bs bs' cs : List α} (h : Exchanges step R w Q) (hQ : ∀ a ∈ cs, Q a)
    (hbs : Agree (Meets R w) (run step s bs) (run step t bs')) :
    Agree (Meets R w) (run step s (bs ++ cs)) (run step t (bs' ++ cs)) := by
  rw [run_append, run_append]
  refine hbs.bind fun r r' _ _ hr => (h.agree_run hQ hr.1).bind fun q q' _ _ hq => ?_
  refine ⟨hq.1, ?_⟩
  rw [List.map_append, List.map_append, List.sum_append, List.sum_append, hr.2, hq.2]

/-- **Inputs may come in any order.** -/
theorem agree_run_perm (h : Exchanges step R w Q) (hperm : as.Perm as') (hQ : ∀ a ∈ as, Q a)
    (hR : R s t) : Agree (Meets R w) (run step s as) (run step t as') := by
  induction hperm generalizing s t with
  | nil => exact ⟨hR, rfl⟩
  | cons a _ ih =>
    have ha : Q a := hQ a List.mem_cons_self
    refine (h.congr s t a ha hR).bind fun r r' _ _ hr =>
      (ih (fun b hb => hQ b (List.mem_cons_of_mem a hb)) hr.1).bind fun q q' _ _ hq => ?_
    refine ⟨hq.1, ?_⟩
    rw [List.map_cons, List.map_cons, List.sum_cons, List.sum_cons, hr.2, hq.2]
  | swap a b l =>
    have ha : Q a := hQ a (by simp)
    have hb : Q b := hQ b (by simp)
    have hl : ∀ c ∈ l, Q c := fun c hc => hQ c (by simp [hc])
    -- exchange where the first run is, then follow it to the second
    have hswap := h.agree_append hl (h.swap s b a hb ha (h.refl_left hR))
    have hab : ∀ c ∈ a :: b :: l, Q c := fun c hc => hQ c (by
      simp only [List.mem_cons] at hc ⊢
      tauto)
    exact hswap.trans (fun _ _ _ => h.meets_trans) (h.agree_run hab hR)
  | trans hp _ ih₁ ih₂ =>
    have hmid := ih₂ (fun a ha => hQ a (hp.mem_iff.mpr ha)) hR
    exact (ih₁ hQ (h.refl_left hR)).trans (fun _ _ _ => h.meets_trans) hmid

end Exchanges

end Machine
