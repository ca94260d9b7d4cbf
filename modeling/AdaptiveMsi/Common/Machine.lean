import Mathlib.Data.List.Basic
import Mathlib.Data.List.Forall2
import Mathlib.Data.List.Infix
/-!
# Fallible computations and the machines they run

A computation in `Except` either stops with an error or returns. `Ensures`
is its Hoare triple, one condition on the errors and one on the results;
`Agree` relates two computations that stop with one error or return
related results. A machine is a fallible step with an output; `run` feeds
it a list of inputs. The rules are the induction on a run, with the
inputs consumed so far at hand, and the lockstep of two machines.
-/

namespace Machine

universe u

variable {ε : Type*} {σ τ ι α β γ δ : Type u}

@[simp] theorem ok_bind {a : α} {f : α → Except ε β} : (.ok a : Except ε α) >>= f = f a := rfl

theorem pure_eq_ok {a : α} : (pure a : Except ε α) = .ok a := rfl

/-! ## Triples -/

/-- `x` stops with an error `E` allows or returns a result in `P`. -/
def Ensures (E : ε → Prop) (P : α → Prop) : Except ε α → Prop
  | .ok a => P a
  | .error e => E e

variable {E : ε → Prop} {P Q : α → Prop} {x : Except ε α}

@[simp] theorem ensures_ok {a : α} : Ensures E P (.ok a) ↔ P a := Iff.rfl

@[simp] theorem ensures_error {e : ε} : Ensures E P (.error e : Except ε α) ↔ E e := Iff.rfl

@[simp] theorem ensures_pure {a : α} : Ensures E P (pure a : Except ε α) ↔ P a := Iff.rfl

/-- **The rule of sequence.** -/
@[simp] theorem ensures_bind {R : β → Prop} {f : α → Except ε β} :
    Ensures E R (x >>= f) ↔ Ensures E (fun a => Ensures E R (f a)) x := by
  cases x <;> rfl

/-- **The rule of consequence.** -/
theorem Ensures.mono (h : Ensures E P x) (hPQ : ∀ a, x = .ok a → P a → Q a) : Ensures E Q x := by
  cases x with
  | error e => exact h
  | ok a => exact hPQ a rfl h

theorem Ensures.and (h : Ensures E P x) (h' : Ensures E Q x) :
    Ensures E (fun a => P a ∧ Q a) x := by
  cases x with
  | error e => exact h
  | ok a => exact ⟨h, h'⟩

/-- Sequence, from a triple of the first half. -/
theorem Ensures.bind {R : β → Prop} {f : α → Except ε β} (h : Ensures E P x)
    (hf : ∀ a, x = .ok a → P a → Ensures E R (f a)) : Ensures E R (x >>= f) :=
  ensures_bind.mpr (h.mono hf)

theorem Ensures.of_ok {a : α} (h : Ensures E P x) (hx : x = .ok a) : P a := by
  subst hx
  exact h

theorem Ensures.of_error {e : ε} (h : Ensures E P x) (hx : x = .error e) : E e := by
  subst hx
  exact h

/-- A computation no error is allowed of returns. -/
theorem Ensures.exists_ok (h : Ensures (fun _ : ε => False) P x) : ∃ a, x = .ok a ∧ P a := by
  cases x with
  | error e => exact h.elim
  | ok a => exact ⟨a, rfl, h⟩

instance [DecidablePred E] [DecidablePred P] : Decidable (Ensures E P x) :=
  match x with
  | .ok a => inferInstanceAs (Decidable (P a))
  | .error e => inferInstanceAs (Decidable (E e))

theorem bind_eq_ok {f : α → Except ε β} {b : β} :
    x >>= f = .ok b ↔ ∃ a, x = .ok a ∧ f a = .ok b := by
  cases x with
  | error e => exact ⟨fun h => (nomatch h), fun ⟨_, h, _⟩ => (nomatch h)⟩
  | ok a => exact ⟨fun h => ⟨a, rfl, h⟩, fun ⟨_, h, hf⟩ => Except.ok.inj h ▸ hf⟩

/-- **The rule of the loop**: an invariant indexed by the part of the list
the loop has consumed. -/
theorem ensures_foldlM {I : List ι → σ → Prop} {f : σ → ι → Except ε σ} {l : List ι} {s : σ}
    (h0 : I [] s)
    (hstep : ∀ u i v s, l = u ++ i :: v → I u s → Ensures E (I (u ++ [i])) (f s i)) :
    Ensures E (I l) (l.foldlM f s) := by
  suffices h : ∀ v u s, l = u ++ v → I u s → Ensures E (I l) (v.foldlM f s) from
    h l [] s rfl h0
  intro v
  induction v with
  | nil =>
    intro u s hl hI
    rw [hl, List.append_nil]
    exact hI
  | cons i v ih =>
    intro u s hl hI
    rw [List.foldlM_cons]
    exact (hstep u i v s hl hI).bind fun s' _ hI' => ih (u ++ [i]) s' (by simp [hl]) hI'

/-- A loop over a range is at an index of it, -/
theorem lt_of_range_eq {n i : ℕ} {u v : List ℕ} (h : List.range n = u ++ i :: v) : i < n := by
  rw [← List.mem_range, h]
  simp

/-- and has not been there before. -/
theorem notMem_of_range_eq {n i : ℕ} {u v : List ℕ} (h : List.range n = u ++ i :: v) : i ∉ u := by
  have hnodup : (u ++ i :: v).Nodup := h ▸ List.nodup_range
  intro hu
  exact (List.nodup_append.mp hnodup).2.2 i hu i (by simp) rfl

/-- The positions of a list with one more element. -/
theorem forall_prefix_snoc {Q : List ι → ι → Prop} {l : List ι} {i : ι} :
    (∀ u j v, l ++ [i] = u ++ j :: v → Q u j) ↔ (∀ u j v, l = u ++ j :: v → Q u j) ∧ Q l i := by
  constructor
  · exact fun h => ⟨fun u j v hl => h u j (v ++ [i]) (by simp [hl]), h l i [] rfl⟩
  · rintro ⟨h, hi⟩ u j v hl
    rcases List.eq_nil_or_concat v with rfl | ⟨v, k, rfl⟩
    · obtain ⟨rfl, hj⟩ := List.append_inj' hl rfl
      cases hj
      exact hi
    · have hl' : l ++ [i] = (u ++ j :: v) ++ [k] := by simpa using hl
      exact h u j v (List.append_inj' hl' rfl).1

/-! ## Agreement of two computations -/

/-- Both stop with one error, or both return and `R` relates the results. -/
def Agree (R : α → β → Prop) : Except ε α → Except ε β → Prop
  | .ok a, .ok b => R a b
  | .error e, .error e' => e = e'
  | _, _ => False

section Agree

variable {R : α → β → Prop} {S : γ → δ → Prop} {y : Except ε β}

theorem agree_error {e : ε} : Agree R (.error e : Except ε α) (.error e) := rfl

theorem Agree.mono {R' : α → β → Prop} (h : Agree R x y)
    (hR : ∀ a b, x = .ok a → y = .ok b → R a b → R' a b) : Agree R' x y := by
  cases x <;> cases y
  case error.error => exact h
  case ok.ok a b => exact hR a b rfl rfl h
  all_goals exact h.elim

/-- Agreement of a sequence. -/
theorem Agree.bind {f : α → Except ε γ} {g : β → Except ε δ} (h : Agree R x y)
    (hfg : ∀ a b, x = .ok a → y = .ok b → R a b → Agree S (f a) (g b)) :
    Agree S (x >>= f) (y >>= g) := by
  cases x <;> cases y
  case error.error => exact h
  case ok.ok a b => exact hfg a b rfl rfl h
  all_goals exact h.elim

/-- Where the left computation returns, so does the right one. -/
theorem Agree.of_ok {a : α} (h : Agree R x y) (hx : x = .ok a) : ∃ b, y = .ok b ∧ R a b := by
  subst hx
  cases y with
  | error e => exact h.elim
  | ok b => exact ⟨b, rfl, h⟩

/-- Where the left computation stops, so does the right one. -/
theorem Agree.error_left {e : ε} (h : Agree R (.error e : Except ε α) y) : y = .error e := by
  cases y with
  | error e' => exact congrArg _ (Eq.symm h)
  | ok b => exact h.elim

/-- Two loops over one list, whose rounds agree. -/
theorem Agree.foldlM {R : σ → τ → Prop} {f : σ → ι → Except ε σ} {g : τ → ι → Except ε τ}
    {l : List ι} {s : σ} {t : τ} (h : R s t)
    (hstep : ∀ i ∈ l, ∀ s t, R s t → Agree R (f s i) (g t i)) :
    Agree R (l.foldlM f s) (l.foldlM g t) := by
  induction l generalizing s t with
  | nil => exact h
  | cons i l ih =>
    rw [List.foldlM_cons, List.foldlM_cons]
    exact (hstep i List.mem_cons_self s t h).bind fun s' t' _ _ h' =>
      ih h' fun j hj => hstep j (List.mem_cons_of_mem i hj)

end Agree

/-! ## Machines -/

/-- The outputs and the last state of a machine fed a list of inputs. -/
def run (step : σ → α → Except ε (σ × β)) : σ → List α → Except ε (σ × List β)
  | s, [] => .ok (s, [])
  | s, a :: as => do
      let (s, b) ← step s a
      let (s, bs) ← run step s as
      return (s, b :: bs)

section Run

variable {step : σ → α → Except ε (σ × β)} {s s' : σ} {a : α} {as as' : List α} {bs : List β}

@[simp] theorem run_nil : run step s [] = .ok (s, []) := rfl

theorem run_cons_eq_ok :
    run step s (a :: as) = .ok (s', bs) ↔
      ∃ s₁ b bs', step s a = .ok (s₁, b) ∧ run step s₁ as = .ok (s', bs') ∧ bs = b :: bs' := by
  simp only [run, bind_eq_ok, Prod.exists]
  constructor
  · rintro ⟨s₁, b, h, s₂, bs', h', he⟩
    cases he
    exact ⟨s₁, b, bs', h, h', rfl⟩
  · rintro ⟨s₁, b, bs', h, h', rfl⟩
    exact ⟨s₁, b, h, s', bs', h', rfl⟩

/-- A run over two lists is a run over each in turn. -/
theorem run_append_eq_ok :
    run step s (as ++ as') = .ok (s', bs) ↔
      ∃ s₁ bs₁ bs₂, run step s as = .ok (s₁, bs₁) ∧ run step s₁ as' = .ok (s', bs₂) ∧
        bs = bs₁ ++ bs₂ := by
  induction as generalizing s bs with
  | nil =>
    simp only [List.nil_append, run_nil, Except.ok.injEq, Prod.mk.injEq]
    constructor
    · exact fun h => ⟨s, [], bs, ⟨rfl, rfl⟩, h, rfl⟩
    · rintro ⟨s₁, bs₁, bs₂, ⟨rfl, rfl⟩, h, rfl⟩
      exact h
  | cons a as ih =>
    simp only [List.cons_append, run_cons_eq_ok, ih]
    constructor
    · rintro ⟨s₁, b, bs', h, ⟨s₂, bs₁, bs₂, h₁, h₂, rfl⟩, rfl⟩
      exact ⟨s₂, b :: bs₁, bs₂, ⟨s₁, b, bs₁, h, h₁, rfl⟩, h₂, rfl⟩
    · rintro ⟨s₂, _, bs₂, ⟨s₁, b, bs₁, h, h₁, rfl⟩, h₂, rfl⟩
      exact ⟨s₁, b, bs₁ ++ bs₂, h, ⟨s₂, bs₁, bs₂, h₁, h₂, rfl⟩, rfl⟩

theorem run_snoc_eq_ok :
    run step s (as ++ [a]) = .ok (s', bs) ↔
      ∃ s₁ bs₁ b, run step s as = .ok (s₁, bs₁) ∧ step s₁ a = .ok (s', b) ∧ bs = bs₁ ++ [b] := by
  rw [run_append_eq_ok]
  constructor
  · rintro ⟨s₁, bs₁, bs₂, h, h', rfl⟩
    obtain ⟨s₂, b, bs', hs, hn, rfl⟩ := run_cons_eq_ok.mp h'
    cases hn
    exact ⟨s₁, bs₁, b, h, hs, rfl⟩
  · rintro ⟨s₁, bs₁, b, h, hs, rfl⟩
    exact ⟨s₁, bs₁, [b], h, run_cons_eq_ok.mpr ⟨s', b, [], hs, rfl, rfl⟩, rfl⟩

/-- A run can be cut at any of its outputs. -/
theorem run_cut {bs₁ bs₂ : List β} {b : β} (h : run step s as = .ok (s', bs₁ ++ b :: bs₂)) :
    ∃ as₁ a as₂ s₁ s₂, as = as₁ ++ a :: as₂ ∧ run step s as₁ = .ok (s₁, bs₁) ∧
      step s₁ a = .ok (s₂, b) ∧ run step s₂ as₂ = .ok (s', bs₂) := by
  induction as generalizing s bs₁ with
  | nil => simp at h
  | cons a as ih =>
    obtain ⟨s₁, b₁, bs', hs, hr, hbs⟩ := run_cons_eq_ok.mp h
    cases bs₁ with
    | nil =>
      obtain ⟨rfl, rfl⟩ := List.cons.inj hbs
      exact ⟨[], a, as, s, s₁, rfl, rfl, hs, hr⟩
    | cons b₀ bs₁ =>
      obtain ⟨rfl, rfl⟩ := List.cons.inj hbs
      obtain ⟨as₁, a', as₂, s₂, s₃, rfl, h₁, h₂, h₃⟩ := ih hr
      exact ⟨a :: as₁, a', as₂, s₂, s₃, rfl, run_cons_eq_ok.mpr ⟨s₁, b₀, bs₁, hs, h₁, rfl⟩, h₂, h₃⟩

/-- A machine outputs once an input. -/
theorem length_of_run (h : run step s as = .ok (s', bs)) : bs.length = as.length := by
  induction as generalizing s bs with
  | nil => cases h; rfl
  | cons a as ih =>
    obtain ⟨s₁, b, bs', _, h', rfl⟩ := run_cons_eq_ok.mp h
    simp [ih h']

/-- **Induction on a run**, with the inputs consumed so far, the outputs
they gave and the inputs to come at hand. -/
theorem ensures_run {I : List α → List β → σ → Prop} {as : List α} (h0 : I [] [] s)
    (hstep : ∀ u a v bs s, as = u ++ a :: v → I u bs s →
      Ensures E (fun r => I (u ++ [a]) (bs ++ [r.2]) r.1) (step s a)) :
    Ensures E (fun r => I as r.2 r.1) (run step s as) := by
  suffices h : ∀ v u bs s, as = u ++ v → I u bs s →
      Ensures E (fun r => I as (bs ++ r.2) r.1) (run step s v) from h as [] [] s rfl h0
  intro v
  induction v with
  | nil =>
    intro u bs s hl hI
    rw [List.append_nil] at hl
    simpa [hl] using hI
  | cons a v ih =>
    intro u bs s hl hI
    refine (hstep u a v bs s hl hI).bind fun r _ hr => ?_
    refine (ih (u ++ [a]) (bs ++ [r.2]) r.1 (by simp [hl]) hr).bind fun r' _ hr' => ?_
    simpa using hr'

/-- **Lockstep.** Two machines fed lists whose inputs are related one by
one, and whose steps agree with related outputs, have agreeing runs with
outputs related one by one. -/
theorem agree_runs {α' : Type u} {step' : τ → α' → Except ε (τ × δ)} {A : α → α' → Prop}
    {R : List α → List α' → σ → τ → Prop} {O : β → δ → Prop} {t : τ} {as : List α} {as' : List α'}
    (h0 : R [] [] s t) (has : List.Forall₂ A as as')
    (hstep : ∀ u a v u' a' v' s t, as = u ++ a :: v → as' = u' ++ a' :: v' → A a a' → R u u' s t →
      Agree (fun r r' => R (u ++ [a]) (u' ++ [a']) r.1 r'.1 ∧ O r.2 r'.2) (step s a) (step' t a')) :
    Agree (fun r r' => R as as' r.1 r'.1 ∧ List.Forall₂ O r.2 r'.2) (run step s as)
      (run step' t as') := by
  suffices h : ∀ v v', List.Forall₂ A v v' → ∀ u u' s t, as = u ++ v → as' = u' ++ v' →
      R u u' s t → Agree (fun r r' => R as as' r.1 r'.1 ∧ List.Forall₂ O r.2 r'.2)
        (run step s v) (run step' t v') from h as as' has [] [] s t rfl rfl h0
  intro v v' hv
  induction hv with
  | nil =>
    intro u u' s t hl hl' hR
    rw [hl, hl', List.append_nil, List.append_nil]
    exact ⟨hR, .nil⟩
  | @cons a a' v v' ha _ ih =>
    intro u u' s t hl hl' hR
    exact (hstep u a v u' a' v' s t hl hl' ha hR).bind fun r r' _ _ hr =>
      (ih (u ++ [a]) (u' ++ [a']) r.1 r'.1 (by simp [hl]) (by simp [hl']) hr.1).bind
        fun _ _ _ _ hrs => ⟨hrs.1, .cons hr.2 hrs.2⟩

/-- Lockstep on one list. -/
theorem agree_run {step' : τ → α → Except ε (τ × δ)} {R : List α → σ → τ → Prop}
    {O : β → δ → Prop} {t : τ} {as : List α} (h0 : R [] s t)
    (hstep : ∀ u a v s t, as = u ++ a :: v → R u s t →
      Agree (fun r r' => R (u ++ [a]) r.1 r'.1 ∧ O r.2 r'.2) (step s a) (step' t a)) :
    Agree (fun r r' => R as r.1 r'.1 ∧ List.Forall₂ O r.2 r'.2) (run step s as)
      (run step' t as) := by
  refine (agree_runs (A := Eq) (R := fun u u' s t => u = u' ∧ R u s t) ⟨rfl, h0⟩
    (List.forall₂_same.mpr fun _ _ => rfl) ?_).mono fun _ _ _ _ h => ⟨h.1.2, h.2⟩
  rintro u a v _ _ v' s t hl - rfl ⟨rfl, hR⟩
  exact (hstep u a v s t hl hR).mono fun _ _ _ _ h => ⟨⟨rfl, h.1⟩, h.2⟩

/-- **Inputs of parts of their own commute.** What `a` does to a state is
`x` laid over it by `f`, and what `b` does is `y` laid over it by `g`; so
the two orders lay both, and give either input one output. -/
theorem agree_run_swap {b : α} {ρ : Type u} {x y : Except ε (ρ × β)} {f g : ρ → σ → σ}
    (hx : Agree (fun p r => r.1 = f p.1 s ∧ r.2 = p.2) x (step s a))
    (hy : Agree (fun q r => r.1 = g q.1 s ∧ r.2 = q.2) y (step s b))
    (hxy : ∀ p, x = .ok p → Agree (fun q r => r.1 = g q.1 (f p.1 s) ∧ r.2 = q.2) y
      (step (f p.1 s) b))
    (hyx : ∀ q, y = .ok q → Agree (fun p r => r.1 = f p.1 (g q.1 s) ∧ r.2 = p.2) x
      (step (g q.1 s) a))
    (hE : ∀ e e', x = .error e → y = .error e' → e = e') :
    Agree (fun r r' => ∃ p q, x = .ok p ∧ y = .ok q ∧ r = (g q.1 (f p.1 s), [p.2, q.2]) ∧
      r' = (f p.1 (g q.1 s), [q.2, p.2])) (run step s [a, b]) (run step s [b, a]) := by
  -- an error of either input is met in both orders
  cases x with
  | error e =>
    have ha := hx.error_left
    cases y with
    | error e' =>
      have hb := hy.error_left
      simp only [run, ha, hb]
      exact hE e e' rfl rfl
    | ok q =>
      obtain ⟨⟨s₁, r₁⟩, hb, hs₁ : s₁ = g q.1 s, -⟩ := hy.of_ok rfl
      have hba := (hyx q rfl).error_left
      subst hs₁
      simp only [run, ha, hb, ok_bind, hba]
      exact agree_error
  | ok p =>
    obtain ⟨⟨s₁, r₁⟩, ha, hs₁ : s₁ = f p.1 s, hr₁ : r₁ = p.2⟩ := hx.of_ok rfl
    subst hs₁ hr₁
    cases y with
    | error e' =>
      have hb := hy.error_left
      have hab := (hxy p rfl).error_left
      simp only [run, ha, hb, ok_bind, hab]
      exact agree_error
    | ok q =>
      obtain ⟨⟨s₂, r₂⟩, hb, hs₂ : s₂ = g q.1 s, hr₂ : r₂ = q.2⟩ := hy.of_ok rfl
      subst hs₂ hr₂
      obtain ⟨⟨s₃, r₃⟩, hab, hs₃ : s₃ = g q.1 (f p.1 s), hr₃ : r₃ = q.2⟩ := (hxy p rfl).of_ok rfl
      obtain ⟨⟨s₄, r₄⟩, hba, hs₄ : s₄ = f p.1 (g q.1 s), hr₄ : r₄ = p.2⟩ := (hyx q rfl).of_ok rfl
      subst hs₃ hr₃ hs₄ hr₄
      simp only [run, ha, hb, ok_bind, hab, hba]
      exact ⟨p, q, rfl, rfl, rfl, rfl⟩

end Run

end Machine
