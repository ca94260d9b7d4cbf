import AdaptiveMsi.Protocol.Events
import Mathlib.Logic.Equiv.Defs
/-!
# Processors under other names

What a directory keeps of a processor does not depend on its name: if the
processors are renamed, and the two protocols remember reads and qualify
readers up to the names, then renamed events leave renamed entries. And
copies may be given up in any order.
-/

namespace AdaptiveMsi

namespace Protocol

variable {P P' A ρ ρ' : Type*} [DecidableEq P] [DecidableEq P'] [DecidableEq A]

/-- One protocol under other names; `S` compares what the two remember of
the reads. -/
structure Rules.Renames (σ : P ≃ P') (S : ρ → ρ' → Prop) (R : Rules P ρ) (R' : Rules P' ρ') :
    Prop where
  adaptive : R'.adaptive = R.adaptive
  procs : ∀ p, σ p ∈ R'.procs ↔ p ∈ R.procs
  start : S R.start R'.start
  miss : ∀ p ∈ R.procs, ∀ v v', S v v' → S (R.miss p v) (R'.miss (σ p) v')
  qualified : R.adaptive = true → ∀ p ∈ R.procs, ∀ v v', S v v' →
    R'.qualified v' (σ p) = R.qualified v p

/-- One entry under other names. -/
structure Entry.Renames (σ : P ≃ P') (S : ρ → ρ' → Prop) (e : Entry P ρ) (e' : Entry P' ρ') :
    Prop where
  state : e'.state = e.state
  sharers : ∀ p, σ p ∈ e'.sharers ↔ p ∈ e.sharers
  writer : e'.writer = e.writer.map σ
  reads : S e.reads e'.reads

omit [DecidableEq P] in
/-- The names as they are. -/
theorem Rules.renames_refl (R : Rules P ρ) : R.Renames (Equiv.refl P) Eq R where
  adaptive := rfl
  procs _ := Iff.rfl
  start := rfl
  miss _ _ _ _ hv := by rw [hv, Equiv.refl_apply]
  qualified _ _ _ _ _ hv := by rw [hv, Equiv.refl_apply]

omit [DecidableEq P] in
theorem Entry.renames_refl_iff {e e' : Entry P ρ} :
    e.Renames (Equiv.refl P) Eq e' ↔ e' = e := by
  constructor
  · intro h
    ext1
    · exact h.state
    · exact Finset.ext h.sharers
    · simpa using h.writer
    · exact h.reads.symm
  · rintro rfl
    exact ⟨rfl, fun _ => Iff.rfl, by simp, rfl⟩

namespace Entry

variable {σ : P ≃ P'} {S : ρ → ρ' → Prop} {R : Rules P ρ} {R' : Rules P' ρ'}
variable {e : Entry P ρ} {e' : Entry P' ρ'} {p q : P}

omit [DecidableEq P] [DecidableEq P'] in
theorem Renames.writer_eq_some (h : e.Renames σ S e') :
    e'.writer = some (σ p) ↔ e.writer = some p := by
  rw [h.writer]
  cases e.writer <;> simp

omit [DecidableEq P] [DecidableEq P'] in
theorem Renames.owns (h : e.Renames σ S e') (hR : R.Renames σ S R') :
    e'.Owns R' (σ p) ↔ e.Owns R p := by
  rw [Owns, Owns, h.sharers, h.state, hR.adaptive, h.writer_eq_some]

omit [DecidableEq P] [DecidableEq P'] in
theorem Renames.startsOver (h : e.Renames σ S e') (hR : R.Renames σ S R') :
    e'.StartsOver R' (σ p) ↔ e.StartsOver R p := by
  rw [StartsOver, StartsOver, h.state, hR.adaptive, ne_eq, ne_eq, h.writer_eq_some]

omit [DecidableEq P] [DecidableEq P'] in
theorem Renames.pushes (h : e.Renames σ S e') (hR : R.Renames σ S R') :
    e'.Pushes R' (σ q) (σ p) ↔ e.Pushes R q p := by
  simp only [Pushes, hR.adaptive, h.state, h.writer_eq_some, hR.procs, ne_eq,
    EmbeddingLike.apply_eq_iff_eq]
  constructor
  · rintro ⟨had, hs, hw, hp, hne, hq⟩
    exact ⟨had, hs, hw, hp, hne, hR.qualified had p hp _ _ h.reads ▸ hq⟩
  · rintro ⟨had, hs, hw, hp, hne, hq⟩
    exact ⟨had, hs, hw, hp, hne, (hR.qualified had p hp _ _ h.reads).trans hq⟩

/-- **An eviction** under other names. -/
theorem Renames.evict (h : e.Renames σ S e') (hR : R.Renames σ S R') :
    (e.evict R p).Renames σ S (e'.evict R' (σ p)) := by
  have hsharers : ∀ q, σ q ∈ e'.sharers.erase (σ p) ↔ q ∈ e.sharers.erase p := fun q => by
    simp only [Finset.mem_erase, h.sharers, ne_eq, EmbeddingLike.apply_eq_iff_eq]
  have hempty : e'.sharers.erase (σ p) = ∅ ↔ e.sharers.erase p = ∅ := by
    rw [Finset.eq_empty_iff_forall_notMem, Finset.eq_empty_iff_forall_notMem]
    exact ⟨fun hno q hq => hno (σ q) ((hsharers q).mpr hq), fun hno q' hq' => by
      obtain ⟨q, rfl⟩ := σ.surjective q'
      exact hno q ((hsharers q).mp hq')⟩
  refine ⟨?_, hsharers, h.writer, h.reads⟩
  simp only [Entry.evict, hempty, h.owns hR, hR.adaptive, h.state]

/-- **A read.** -/
theorem Renames.read (h : e.Renames σ S e') (hR : R.Renames σ S R') (hp : p ∈ R.procs) :
    (e.read R p).Renames σ S (e'.read R' (σ p)) := by
  unfold Entry.read
  by_cases hmem : p ∈ e.sharers
  · rw [if_pos hmem, if_pos ((h.sharers p).mpr hmem)]
    exact h
  · rw [if_neg hmem, if_neg fun hmem' => hmem ((h.sharers p).mp hmem')]
    refine ⟨rfl, fun q => ?_, h.writer, hR.miss p hp _ _ h.reads⟩
    simp only [Finset.mem_insert, h.sharers, EmbeddingLike.apply_eq_iff_eq]

/-- **A store.** -/
theorem Renames.store (h : e.Renames σ S e') (hR : R.Renames σ S R') :
    (e.store R p).Renames σ S (e'.store R' (σ p)) where
  state := by rw [store_state, store_state]
  sharers q := by
    rw [mem_sharers_store, mem_sharers_store, h.pushes hR, EmbeddingLike.apply_eq_iff_eq]
  writer := by
    rw [store_writer, store_writer]
    by_cases hover : e.StartsOver R p
    · rw [if_pos hover, if_pos ((h.startsOver hR).mpr hover)]
      rfl
    · rw [if_neg hover, if_neg fun hover' => hover ((h.startsOver hR).mp hover')]
      exact h.writer
  reads := by
    rw [store_reads, store_reads]
    by_cases hover : e.StartsOver R p
    · rw [if_pos hover, if_pos ((h.startsOver hR).mpr hover)]
      exact hR.start
    · rw [if_neg hover, if_neg fun hover' => hover ((h.startsOver hR).mp hover')]
      exact h.reads

/-- A line that keeps copies is given up twice: its owner leaves, or not. -/
theorem evict_evict_state (hne : p ≠ q) (hleft : (e.sharers.erase p).erase q ≠ ∅) :
    ((e.evict R p).evict R q).state =
      if e.Owns R p ∨ e.Owns R q then if R.adaptive then .shared else .invalid else e.state := by
  have hfirst : e.sharers.erase p ≠ ∅ := fun hp => hleft (by rw [hp, Finset.erase_empty])
  have hstate : (e.evict R p).state =
      if e.Owns R p then if R.adaptive then .shared else .invalid else e.state := if_neg hfirst
  have howns : (e.evict R p).Owns R q ↔ ¬ e.Owns R p ∧ e.Owns R q := by
    have hmem : q ∈ (e.evict R p).sharers ↔ q ∈ e.sharers := by
      rw [evict_sharers, Finset.mem_erase]
      exact and_iff_right hne.symm
    have hmod : (e.evict R p).state = .modified ↔ ¬ e.Owns R p ∧ e.state = .modified := by
      rw [hstate]
      split_ifs <;> simp_all
    unfold Owns at hmod ⊢
    rw [hmem, hmod]
    tauto
  have hsecond : ((e.evict R p).evict R q).state = if (e.evict R p).Owns R q then
      if R.adaptive then .shared else .invalid else (e.evict R p).state := if_neg hleft
  rw [hsecond, hstate]
  by_cases hp : e.Owns R p
  · simp [howns, hp]
  · simp [howns, hp]

/-- **Two copies may be given up in either order.** -/
theorem evict_comm : (e.evict R p).evict R q = (e.evict R q).evict R p := by
  rcases eq_or_ne p q with rfl | hne
  · rfl
  have herase : (e.sharers.erase p).erase q = (e.sharers.erase q).erase p :=
    Finset.erase_right_comm
  ext1
  · by_cases hleft : (e.sharers.erase p).erase q = ∅
    · exact (if_pos hleft).trans (if_pos (herase ▸ hleft)).symm
    · rw [evict_evict_state hne hleft, evict_evict_state hne.symm (herase ▸ hleft)]
      simp only [or_comm]
  · exact herase
  · rfl
  · rfl

end Entry

/-! ## Directories -/

/-- The event of the renamed processor. -/
def Event.rename (σ : P ≃ P') : Event P A → Event P' A
  | .evict p a => .evict (σ p) a
  | .read p a => .read (σ p) a
  | .store p a => .store (σ p) a

variable {σ : P ≃ P'} {S : ρ → ρ' → Prop} {R : Rules P ρ} {R' : Rules P' ρ'}
variable {D : A → Entry P ρ} {D' : A → Entry P' ρ'} {x : Event P A} {xs ys : List (Event P A)}

omit [DecidableEq P] [DecidableEq P'] [DecidableEq A] in
@[simp] theorem Event.addr_rename : (x.rename σ).addr = x.addr := by
  cases x <;> rfl

omit [DecidableEq A] in
theorem Entry.Renames.onEntry {e : Entry P ρ} {e' : Entry P' ρ'} (h : e.Renames σ S e')
    (hR : R.Renames σ S R') (hx : x.proc ∈ R.procs) :
    (x.onEntry R e).Renames σ S ((x.rename σ).onEntry R' e') := by
  cases x with
  | evict p a => exact h.evict hR
  | read p a => exact h.read hR hx
  | store p a => exact h.store hR

/-- **An event** under other names, at one address. -/
theorem renames_apply {a : A} (hR : R.Renames σ S R') (hx : x.proc ∈ R.procs)
    (h : (D a).Renames σ S (D' a)) :
    (x.apply R D a).Renames σ S ((x.rename σ).apply R' D' a) := by
  rw [Event.apply, Event.apply, Event.addr_rename]
  rcases eq_or_ne a x.addr with rfl | hne
  · rw [Function.update_self, Function.update_self]
    exact h.onEntry hR hx
  · rw [Function.update_of_ne hne, Function.update_of_ne hne]
    exact h

/-- **A list of them.** -/
theorem renames_foldl {a : A} (hR : R.Renames σ S R') (hxs : ∀ x ∈ xs, x.proc ∈ R.procs)
    (h : (D a).Renames σ S (D' a)) :
    (xs.foldl (Event.apply R) D a).Renames σ S
      ((xs.map (Event.rename σ)).foldl (Event.apply R') D' a) := by
  induction xs generalizing D D' with
  | nil => exact h
  | cons x xs ih =>
    exact ih (fun y hy => hxs y (List.mem_cons_of_mem x hy))
      (renames_apply hR (hxs x List.mem_cons_self) h)

/-- **Copies may be given up in any order.** -/
theorem foldl_apply_perm (hperm : xs.Perm ys) (hxs : ∀ x ∈ xs, ∃ p b, x = .evict p b) :
    xs.foldl (Event.apply R) D = ys.foldl (Event.apply R) D := by
  refine hperm.foldl_eq' (fun x hx y hy E => ?_) D
  obtain ⟨p, a, rfl⟩ := hxs x hx
  obtain ⟨q, b, rfl⟩ := hxs y hy
  funext c
  simp only [Event.apply, Event.addr, Event.onEntry]
  rcases eq_or_ne a b with rfl | hne
  · rcases eq_or_ne c a with rfl | hc
    · simp [Entry.evict_comm]
    · simp [hc]
  · rw [Function.update_of_ne hne, Function.update_of_ne hne.symm, Function.update_comm hne]

/-- Processors without a copy give up nothing. -/
theorem foldl_evict_of_forall_notMem {a : A} (hinv : (D a).state = .invalid ↔ (D a).sharers = ∅)
    (hxs : ∀ x ∈ xs, ∃ p b, x = .evict p b ∧ p ∉ (D a).sharers) :
    xs.foldl (Event.apply R) D a = D a := by
  rw [foldl_apply_at]
  refine List.foldlRecOn (motive := fun e => e = D a) _ _ rfl ?_
  rintro e rfl x hx
  obtain ⟨p, b, rfl, hp⟩ := hxs x (List.mem_filter.mp hx).1
  exact Entry.evict_eq_self _ hinv hp

end Protocol

end AdaptiveMsi
