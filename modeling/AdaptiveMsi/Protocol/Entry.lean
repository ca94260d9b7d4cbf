import AdaptiveMsi.Model.Lines
import Mathlib.Data.Finset.Basic
import Mathlib.Data.Finset.Filter
import Mathlib.Data.Finset.Lattice.Lemmas
/-!
# The protocol, abstractly

What a directory is for: it knows, for each address, which processors
hold a copy and whether one of them has changed it. Three things happen
to an address — a copy is evicted, a processor reads, a processor stores
— and an adaptive directory also remembers who reads, so that the last
writer's next store can push the data to those who qualify. Processors,
addresses and the memory of reads are arbitrary types; no bit vectors,
costs, caches or assertions.
-/

namespace AdaptiveMsi

namespace Protocol

variable {P ρ : Type*} [DecidableEq P]

/-- The parameters of a protocol: whether it adapts, its processors, and
how it remembers reads since the writer last changed. -/
structure Rules (P ρ : Type*) where
  adaptive : Bool
  procs : Finset P
  start : ρ
  miss : P → ρ → ρ
  qualified : ρ → P → Bool

/-- What is known of one address. -/
@[ext]
structure Entry (P ρ : Type*) where
  state : CacheState
  sharers : Finset P
  writer : Option P
  reads : ρ

namespace Entry

variable (R : Rules P ρ) {e : Entry P ρ} {p q i : P}

/-- `p` answers for the changed data: a sharer of a modified line, and in
the adaptive protocol its last writer. -/
def Owns (e : Entry P ρ) (p : P) : Prop :=
  p ∈ e.sharers ∧ e.state = .modified ∧ (R.adaptive = true → e.writer = some p)

instance (e : Entry P ρ) (p : P) : Decidable (e.Owns R p) := by
  unfold Owns
  infer_instance

/-- A store by `q` sends `p` a copy. -/
def Pushes (e : Entry P ρ) (q p : P) : Prop :=
  R.adaptive = true ∧ e.state ≠ .invalid ∧ e.writer = some q ∧
    p ∈ R.procs ∧ p ≠ q ∧ R.qualified e.reads p = true

instance (e : Entry P ρ) (q p : P) : Decidable (e.Pushes R q p) := by
  unfold Pushes
  infer_instance

/-- A store by `p` makes it the last writer, with no reads remembered. -/
def StartsOver (e : Entry P ρ) (p : P) : Prop :=
  e.state = .invalid ∨ R.adaptive = true ∧ e.writer ≠ some p

instance (e : Entry P ρ) (p : P) : Decidable (e.StartsOver R p) := by
  unfold StartsOver
  infer_instance

/-- The copy of `p` leaves its cache. -/
def evict (p : P) (e : Entry P ρ) : Entry P ρ :=
  { e with
    sharers := e.sharers.erase p
    state :=
      if e.sharers.erase p = ∅ then .invalid
      else if e.Owns R p then if R.adaptive then .shared else .invalid
      else e.state }

/-- `p` reads. -/
def read (p : P) (e : Entry P ρ) : Entry P ρ :=
  if p ∈ e.sharers then e
  else { e with state := .shared, sharers := insert p e.sharers, reads := R.miss p e.reads }

/-- `p` stores: the last writer keeps the qualified readers, another
writer starts over. -/
def store (p : P) (e : Entry P ρ) : Entry P ρ :=
  if R.adaptive = true ∧ e.state ≠ .invalid ∧ e.writer = some p then
    { e with state := .modified, sharers := insert p (R.procs.filter (e.Pushes R p)) }
  else if R.adaptive = true ∨ e.state = .invalid then
    { state := .modified, sharers := {p}, writer := some p, reads := R.start }
  else
    { e with state := .modified, sharers := {p} }

/-! ## What a transition does to the sharers -/

@[simp] theorem evict_sharers : (e.evict R p).sharers = e.sharers.erase p := rfl

/-- A processor without a copy gives up nothing. -/
theorem evict_eq_self (h : e.state = .invalid ↔ e.sharers = ∅) (hp : p ∉ e.sharers) :
    e.evict R p = e := by
  have herase : e.sharers.erase p = e.sharers := Finset.erase_eq_of_notMem hp
  ext1
  · simp only [evict, herase]
    split
    · rename_i he
      exact (h.mpr he).symm
    · exact if_neg fun ho => hp ho.1
  · exact herase
  · rfl
  · rfl

/-- A sharer that is not the owner leaves the state to those who stay. -/
theorem evict_state_of_mem (hq : q ∈ e.sharers) (hne : q ≠ p) (ho : ¬ e.Owns R p) :
    (e.evict R p).state = e.state := by
  have hmem : e.sharers.erase p ≠ ∅ :=
    Finset.ne_empty_of_mem (Finset.mem_erase.mpr ⟨hne, hq⟩)
  simp only [evict]
  rw [if_neg hmem, if_neg ho]

theorem mem_sharers_read : i ∈ (e.read R p).sharers ↔ i = p ∨ i ∈ e.sharers := by
  unfold read
  split
  · constructor
    · exact Or.inr
    · rintro (rfl | h) <;> assumption
  · exact Finset.mem_insert

@[simp] theorem read_writer : (e.read R p).writer = e.writer := by
  unfold read
  split <;> rfl

theorem read_reads :
    (e.read R p).reads = if p ∈ e.sharers then e.reads else R.miss p e.reads := by
  unfold read
  split <;> rfl

@[simp] theorem store_state : (e.store R p).state = .modified := by
  unfold store
  split
  · rfl
  · split <;> rfl

theorem store_of_startsOver (h : e.StartsOver R p) :
    e.store R p = ⟨.modified, {p}, some p, R.start⟩ := by
  unfold StartsOver at h
  unfold store
  rw [if_neg (by grind), if_pos (by grind)]

/-- Another store leaves the writer and the memory of reads alone. -/
theorem store_of_not_startsOver (h : ¬ e.StartsOver R p) :
    (e.store R p).writer = e.writer ∧ (e.store R p).reads = e.reads := by
  unfold StartsOver at h
  unfold store
  split_ifs
  · exact ⟨rfl, rfl⟩
  · grind
  · exact ⟨rfl, rfl⟩

theorem store_writer :
    (e.store R p).writer = if e.StartsOver R p then some p else e.writer := by
  by_cases h : e.StartsOver R p
  · rw [store_of_startsOver R h, if_pos h]
  · rw [if_neg h, (store_of_not_startsOver R h).1]

theorem store_reads : (e.store R p).reads = if e.StartsOver R p then R.start else e.reads := by
  by_cases h : e.StartsOver R p
  · rw [store_of_startsOver R h, if_pos h]
  · rw [if_neg h, (store_of_not_startsOver R h).2]

/-- **After a store only the writer and the processors it pushes to hold
the data.** -/
theorem mem_sharers_store : i ∈ (e.store R p).sharers ↔ i = p ∨ e.Pushes R p i := by
  unfold store
  split
  · rename_i h
    rw [Finset.mem_insert, Finset.mem_filter]
    exact or_congr_right (and_iff_right_of_imp fun hi => hi.2.2.2.1)
  · rename_i h
    have hno : ¬ e.Pushes R p i := fun hi => h ⟨hi.1, hi.2.1, hi.2.2.1⟩
    split <;> simp [hno]

omit [DecidableEq P] in
/-- A processor that is pushed to is one of the protocol's. -/
theorem Pushes.mem_procs (h : e.Pushes R p i) : i ∈ R.procs := h.2.2.2.1

/-! ## The invariant -/

/-- **The invariant of an entry**, relative to the processor that stored
last. The clauses hold each other up: eviction of the owner may forget
the state only because the baseline's modified line has one sharer, and
the adaptive one keeps its last writer. -/
structure Inv (last : Option P) (e : Entry P ρ) : Prop where
  invalid_iff : e.state = .invalid ↔ e.sharers = ∅
  sharers_subset : e.sharers ⊆ R.procs
  writer_eq : R.adaptive = true → e.writer = last
  modified : e.state = .modified → ∃ w, last = some w ∧ w ∈ e.sharers ∧
    ∀ i ∈ e.sharers, i ≠ w → R.adaptive = true ∧ R.qualified e.reads i = true

variable {R} {last : Option P}

/-- The owner of a line is the processor that stored last. -/
theorem Inv.eq_of_owns (h : e.Inv R last) (hp : e.Owns R p) : last = some p := by
  obtain ⟨hmem, hmod, hw⟩ := hp
  obtain ⟨w, hlast, -, hothers⟩ := h.modified hmod
  by_cases hpw : p = w
  · rw [hpw, hlast]
  · obtain ⟨had, -⟩ := hothers p hmem hpw
    rw [← h.writer_eq had, hw had]

omit [DecidableEq P] in
/-- The processor that stored last owns the modified line. -/
theorem Inv.owns (h : e.Inv R last) (hmod : e.state = .modified) :
    ∃ w, last = some w ∧ e.Owns R w := by
  obtain ⟨w, hlast, hmem, -⟩ := h.modified hmod
  exact ⟨w, hlast, hmem, hmod, fun had => by rw [h.writer_eq had, hlast]⟩

/-- In the baseline a modified line has one sharer. -/
theorem Inv.sharers_eq_singleton (h : e.Inv R last) (had : R.adaptive = false)
    (hmod : e.state = .modified) : ∃ w, last = some w ∧ e.sharers = {w} := by
  obtain ⟨w, hlast, hmem, hothers⟩ := h.modified hmod
  refine ⟨w, hlast, Finset.eq_singleton_iff_unique_mem.mpr ⟨hmem, fun i hi => ?_⟩⟩
  by_contra hne
  rw [(hothers i hi hne).1] at had
  cases had

omit [DecidableEq P] in
/-- Where nobody holds a copy yet. -/
theorem Inv.init {reads : ρ} : Inv R none (⟨.invalid, ∅, none, reads⟩ : Entry P ρ) where
  invalid_iff := by simp
  sharers_subset := Finset.empty_subset _
  writer_eq _ := rfl
  modified h := by cases h

/-- The state an eviction leaves: a line stays modified only if its owner
keeps its copy. -/
theorem Inv.evict_state (h : e.Inv R last) :
    (e.evict R p).state = .modified ↔ e.state = .modified ∧ ¬ e.Owns R p := by
  simp only [evict]
  constructor
  · intro hs
    split_ifs at hs with h1 h2 h3
    exact ⟨hs, h2⟩
  · rintro ⟨hmod, howns⟩
    obtain ⟨w, -, hw⟩ := h.owns hmod
    have hne : e.sharers.erase p ≠ ∅ := by
      have hpw : w ≠ p := fun he => howns (he ▸ hw)
      exact Finset.ne_empty_of_mem (Finset.mem_erase.mpr ⟨hpw, hw.1⟩)
    rw [if_neg hne, if_neg howns, hmod]

theorem Inv.evict (h : e.Inv R last) : (e.evict R p).Inv R last where
  invalid_iff := by
    simp only [Entry.evict]
    constructor
    · intro hs
      split_ifs at hs with h1 h2 h3
      · exact h1
      · -- the baseline's owner was the only sharer
        obtain ⟨w, -, hw⟩ := h.sharers_eq_singleton (Bool.eq_false_iff.mpr h3) h2.2.1
        have : p = w := Finset.mem_singleton.mp (hw ▸ h2.1)
        rw [hw, this, Finset.erase_singleton]
      · rw [h.invalid_iff.mp hs, Finset.erase_empty]
    · intro he
      rw [if_pos he]
  sharers_subset := (Finset.erase_subset _ _).trans h.sharers_subset
  writer_eq := h.writer_eq
  modified hs := by
    obtain ⟨hmod, howns⟩ := h.evict_state.mp hs
    obtain ⟨w, hlast, hmem, hothers⟩ := h.modified hmod
    refine ⟨w, hlast, Finset.mem_erase.mpr ⟨?_, hmem⟩, fun i hi hne =>
      hothers i (Finset.mem_of_mem_erase hi) hne⟩
    rintro rfl
    exact howns ⟨hmem, hmod, fun had => by rw [h.writer_eq had, hlast]⟩

/-- A line stays in use unless its last copy goes. -/
theorem Inv.evict_ne_invalid (h : e.Inv R last) : (e.evict R p).state ≠ .invalid ↔
    e.state ≠ .invalid ∧ (p ∈ e.sharers → e.sharers.erase p ≠ ∅) := by
  rw [Ne, h.evict.invalid_iff, evict_sharers, Ne, h.invalid_iff]
  constructor
  · intro hleft
    exact ⟨fun hnone => hleft (by rw [hnone, Finset.erase_empty]), fun _ => hleft⟩
  · rintro ⟨hsome, hmem⟩ hnone
    by_cases hp : p ∈ e.sharers
    · exact hmem hp hnone
    · rw [Finset.erase_eq_of_notMem hp] at hnone
      exact hsome hnone

theorem Inv.read (h : e.Inv R last) (hp : p ∈ R.procs) : (e.read R p).Inv R last := by
  unfold Entry.read
  split
  · exact h
  · exact {
      invalid_iff := by simp
      sharers_subset := Finset.insert_subset hp h.sharers_subset
      writer_eq := h.writer_eq
      modified := fun hs => by cases hs }

/-- A store establishes the invariant whatever it finds. -/
theorem inv_store (hp : p ∈ R.procs) : (e.store R p).Inv R (some p) where
  invalid_iff := by
    have hmem : p ∈ (e.store R p).sharers := (mem_sharers_store R).mpr (Or.inl rfl)
    simp only [store_state, reduceCtorEq, false_iff]
    exact Finset.ne_empty_of_mem hmem
  sharers_subset i hi := by
    rcases (mem_sharers_store R).mp hi with rfl | hpush
    · exact hp
    · exact hpush.mem_procs
  writer_eq had := by
    unfold Entry.store
    split
    · rename_i hw
      exact hw.2.2
    · rw [if_pos (Or.inl had)]
  modified _ := by
    refine ⟨p, rfl, (mem_sharers_store R).mpr (Or.inl rfl), fun i hi hne => ?_⟩
    have hpush : e.Pushes R p i := ((mem_sharers_store R).mp hi).resolve_left hne
    refine ⟨hpush.1, ?_⟩
    unfold Entry.store
    rw [if_pos ⟨hpush.1, hpush.2.1, hpush.2.2.1⟩]
    exact hpush.2.2.2.2.2

/-! ## Evictions -/

/-- **What evictions leave of an entry**: only processors in `gone` lose
their copy, and nobody starts to answer for changed data. -/
structure Fewer (gone : P → Prop) (e e' : Entry P ρ) : Prop where
  sharers : e'.sharers ⊆ e.sharers
  kept : ∀ i ∈ e.sharers, ¬ gone i → i ∈ e'.sharers
  writer : e'.writer = e.writer
  reads : e'.reads = e.reads
  state : e'.state = .modified → e.state = .modified

variable {gone : P → Prop} {e' e'' : Entry P ρ}

omit [DecidableEq P] in
theorem Fewer.refl : e.Fewer gone e :=
  ⟨subset_rfl, fun _ hi _ => hi, rfl, rfl, id⟩

omit [DecidableEq P] in
theorem Fewer.trans (h : e.Fewer gone e') (h' : e'.Fewer gone e'') : e.Fewer gone e'' where
  sharers := h'.sharers.trans h.sharers
  kept i hi hg := h'.kept i (h.kept i hi hg) hg
  writer := h'.writer.trans h.writer
  reads := h'.reads.trans h.reads
  state hs := h.state (h'.state hs)

theorem fewer_evict (hp : gone p) : e.Fewer gone (e.evict R p) where
  sharers := Finset.erase_subset _ _
  kept i hi hg := Finset.mem_erase.mpr ⟨fun he => hg (he ▸ hp), hi⟩
  writer := rfl
  reads := rfl
  state hs := by
    simp only [evict] at hs
    split_ifs at hs with h1 h2 h3
    exact hs

end Entry

end Protocol

end AdaptiveMsi
