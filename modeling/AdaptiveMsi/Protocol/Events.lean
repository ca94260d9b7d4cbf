import Mathlib.Logic.Relator
import AdaptiveMsi.Protocol.Entry
/-!
# Directories and their runs

A directory maps addresses to entries, and an event changes the entry of
its address and no other. What a list of events leaves at an address is
therefore a matter of the events there, and the invariant of a directory
is that of its entries.
-/

namespace AdaptiveMsi

namespace Protocol

variable {P A ρ : Type*} [DecidableEq P] [DecidableEq A]

/-- What happens to a directory. -/
inductive Event (P A : Type*)
  | evict (p : P) (a : A)
  | read (p : P) (a : A)
  | store (p : P) (a : A)

namespace Event

def proc : Event P A → P
  | evict p _ | read p _ | store p _ => p

def addr : Event P A → A
  | evict _ a | read _ a | store _ a => a

/-- The entry the event leaves at its address. -/
def onEntry (R : Rules P ρ) : Event P A → Entry P ρ → Entry P ρ
  | evict p _, e => e.evict R p
  | read p _, e => e.read R p
  | store p _, e => e.store R p

/-- An event changes the entry of its address and no other. -/
def apply (R : Rules P ρ) (D : A → Entry P ρ) (x : Event P A) : A → Entry P ρ :=
  Function.update D x.addr (x.onEntry R (D x.addr))

/-- The processor that stored last, by address, after the event. -/
def note (last : A → Option P) : Event P A → A → Option P
  | store p a => Function.update last a (some p)
  | evict _ _ | read _ _ => last

end Event

/-- **The invariant of a directory**: its entries' invariants. -/
def Inv (R : Rules P ρ) (last : A → Option P) (D : A → Entry P ρ) : Prop :=
  ∀ a, (D a).Inv R (last a)

variable {R : Rules P ρ} {D : A → Entry P ρ} {last : A → Option P} {x : Event P A}
variable {xs ys : List (Event P A)} {a b : A}

/-- **Locality.** What a run leaves at an address is what its events at
that address leave there. -/
theorem foldl_apply_at :
    xs.foldl (Event.apply R) D a =
      (xs.filter (·.addr = a)).foldl (fun e x => x.onEntry R e) (D a) := by
  induction xs generalizing D with
  | nil => rfl
  | cons x xs ih =>
    rw [List.foldl_cons, ih]
    rcases eq_or_ne x.addr a with rfl | hne
    · simp [Event.apply]
    · simp [Event.apply, hne, hne.symm]

/-- Events elsewhere leave an address alone. -/
theorem foldl_apply_of_ne (h : ∀ x ∈ xs, x.addr ≠ a) : xs.foldl (Event.apply R) D a = D a := by
  have hnil : xs.filter (·.addr = a) = [] := by simpa using h
  rw [foldl_apply_at, hnil, List.foldl_nil]

/-- Two directories that agree at an address agree there after a run. -/
theorem foldl_apply_congr {D' : A → Entry P ρ} (h : D a = D' a) :
    xs.foldl (Event.apply R) D a = xs.foldl (Event.apply R) D' a := by
  rw [foldl_apply_at, foldl_apply_at, h]

/-- Dropping the events at one address does not change the others. -/
theorem foldl_apply_filter_ne (hb : b ≠ a) :
    (xs.filter (·.addr ≠ a)).foldl (Event.apply R) D b = xs.foldl (Event.apply R) D b := by
  rw [foldl_apply_at, foldl_apply_at, List.filter_filter]
  congr 2
  funext x
  grind

omit [DecidableEq A] in
/-- **Copies given up by a reader of a line its last writer keeps**: only
the reader's own bit can change. -/
theorem foldl_evict_of_writer {p q : P} {e : Entry P ρ} (xs : List (Event P A))
    (had : R.adaptive = true) (hpq : p ≠ q) (hw : e.writer = some q) (hq : q ∈ e.sharers)
    (hxs : ∀ x ∈ xs, ∃ b, x = .evict p b) :
    let e' := xs.foldl (fun e x => x.onEntry R e) e
    e'.state = e.state ∧ e'.writer = some q ∧ e'.reads = e.reads ∧
      ∀ i ≠ p, (i ∈ e'.sharers ↔ i ∈ e.sharers) := by
  induction xs generalizing e with
  | nil => exact ⟨rfl, hw, rfl, fun _ _ => Iff.rfl⟩
  | cons x xs ih =>
    obtain ⟨b, rfl⟩ := hxs x List.mem_cons_self
    have hown : ¬ e.Owns R p := by
      rintro ⟨-, -, h⟩
      rw [hw, Option.some.injEq] at h
      exact hpq (h had).symm
    have hq' : q ∈ (e.evict R p).sharers := Finset.mem_erase.mpr ⟨hpq.symm, hq⟩
    obtain ⟨h1, h2, h3, h4⟩ := ih (e := e.evict R p) hw hq'
      fun y hy => hxs y (List.mem_cons_of_mem _ hy)
    refine ⟨h1.trans (Entry.evict_state_of_mem R hq hpq.symm hown), h2, h3, fun i hi => ?_⟩
    rw [List.foldl_cons]
    exact (h4 i hi).trans (by simp [hi])

/-- Evictions of a processor that has no copy leave an entry alone. -/
theorem foldl_evict_of_not_mem {p : P} (hinv : (D a).state = .invalid ↔ (D a).sharers = ∅)
    (hp : p ∉ (D a).sharers) (hxs : ∀ x ∈ xs, ∃ b, x = .evict p b) :
    xs.foldl (Event.apply R) D a = D a := by
  rw [foldl_apply_at]
  refine List.foldlRecOn (motive := fun e => e = D a) _ _ rfl ?_
  rintro e rfl x hx
  obtain ⟨b, rfl⟩ := hxs x (List.mem_filter.mp hx).1
  exact Entry.evict_eq_self _ hinv hp

/-- Evictions, at any addresses. -/
theorem fewer_foldl {gone : P → Prop} (hxs : ∀ x ∈ xs, ∃ p b, x = .evict p b ∧ (b = a → gone p)) :
    (D a).Fewer gone (xs.foldl (Event.apply R) D a) := by
  induction xs generalizing D with
  | nil => exact .refl
  | cons x xs ih =>
    obtain ⟨p, b, rfl, hp⟩ := hxs x List.mem_cons_self
    have hfirst : (D a).Fewer gone ((Event.evict p b).apply R D a) := by
      rcases eq_or_ne b a with rfl | hne
      · rw [Event.apply, Event.addr, Function.update_self]
        exact Entry.fewer_evict (hp rfl)
      · rw [Event.apply, Event.addr, Function.update_of_ne hne.symm]
        exact .refl
    exact hfirst.trans (ih fun y hy => hxs y (List.mem_cons_of_mem _ hy))

omit [DecidableEq P] in
/-- Evictions are not stores. -/
theorem foldl_note_of_evict (hxs : ∀ x ∈ xs, ∃ p b, x = .evict p b) :
    xs.foldl Event.note last = last := by
  induction xs with
  | nil => rfl
  | cons x xs ih =>
    obtain ⟨p, b, rfl⟩ := hxs x List.mem_cons_self
    exact ih fun y hy => hxs y (List.mem_cons_of_mem _ hy)

/-- **One event preserves the invariant.** -/
theorem Inv.apply (h : Inv R last D) (hx : x.proc ∈ R.procs) :
    Inv R (x.note last) (x.apply R D) := by
  intro b
  have hb := h b
  cases x with
  | evict p a =>
    rcases eq_or_ne b a with rfl | hne
    · simpa [Event.apply, Event.note, Event.addr, Event.onEntry] using hb.evict
    · simpa [Event.apply, Event.note, Event.addr, hne] using hb
  | read p a =>
    replace hx : p ∈ R.procs := hx
    rcases eq_or_ne b a with rfl | hne
    · simpa [Event.apply, Event.note, Event.addr, Event.onEntry] using hb.read hx
    · simpa [Event.apply, Event.note, Event.addr, hne] using hb
  | store p a =>
    replace hx : p ∈ R.procs := hx
    rcases eq_or_ne b a with rfl | hne
    · simpa [Event.apply, Event.note, Event.addr, Event.onEntry] using Entry.inv_store hx
    · simpa [Event.apply, Event.note, Event.addr, hne] using hb

/-- **And so does a run of them.** -/
theorem Inv.foldl (h : Inv R last D)
    (hxs : ∀ x ∈ xs, x.proc ∈ R.procs) :
    Inv R (xs.foldl Event.note last) (xs.foldl (Event.apply R) D) := by
  induction xs generalizing last D with
  | nil => exact h
  | cons x xs ih =>
    exact ih (h.apply (hxs x List.mem_cons_self))
      fun y hy => hxs y (List.mem_cons_of_mem x hy)

/-- What holds of the fresh memory of reads and is kept by every miss holds
of all memories of a run. -/
theorem reads_foldl {Q : ρ → Prop} (hstart : Q R.start)
    (hmiss : ∀ p ∈ R.procs, ∀ v, Q v → Q (R.miss p v)) (hD : ∀ a, Q (D a).reads)
    (hxs : ∀ x ∈ xs, x.proc ∈ R.procs) (a : A) : Q (xs.foldl (Event.apply R) D a).reads := by
  induction xs generalizing D with
  | nil => exact hD a
  | cons x xs ih =>
    refine ih (fun b => ?_) fun y hy => hxs y (List.mem_cons_of_mem x hy)
    have hx : x.proc ∈ R.procs := hxs x List.mem_cons_self
    rcases eq_or_ne b x.addr with rfl | hne
    · rw [Event.apply, Function.update_self]
      cases x with
      | evict p c => exact hD c
      | read p c =>
        rw [Event.onEntry, Entry.read_reads]
        split
        · exact hD c
        · exact hmiss p hx _ (hD c)
      | store p c =>
        rw [Event.onEntry, Entry.store_reads]
        split
        · exact hstart
        · exact hD c
    · rw [Event.apply, Function.update_of_ne hne]
      exact hD b

/-! ## Paired addresses

What a directory keeps of an address does not depend on which address it
is: events at paired addresses leave paired entries the same, as long as
no address has two partners. -/

section Paired

variable {B : Type*} [DecidableEq B] {σ : A → B → Prop} {y : Event P B} {D' : B → Entry P ρ}

/-- The same event at a paired address. -/
inductive Event.Paired (σ : A → B → Prop) : Event P A → Event P B → Prop
  | evict (p : P) {a : A} {b : B} (h : σ a b) : Paired σ (.evict p a) (.evict p b)
  | read (p : P) {a : A} {b : B} (h : σ a b) : Paired σ (.read p a) (.read p b)
  | store (p : P) {a : A} {b : B} (h : σ a b) : Paired σ (.store p a) (.store p b)

omit [DecidableEq P] [DecidableEq A] [DecidableEq B] in
theorem Event.Paired.addr (h : Event.Paired σ x y) : σ x.addr y.addr := by
  cases h <;> assumption

omit [DecidableEq A] [DecidableEq B] in
theorem Event.Paired.onEntry {e : Entry P ρ} (h : Event.Paired σ x y) :
    y.onEntry R e = x.onEntry R e := by
  cases h <;> rfl

/-- **Paired events keep paired entries the same.** -/
theorem Event.Paired.apply {b : B} (h : Event.Paired σ x y) (hσ : Relator.BiUnique σ)
    (hD : ∀ a b, σ a b → D' b = D a) (hab : σ a b) : y.apply R D' b = x.apply R D a := by
  rcases eq_or_ne a x.addr with rfl | hne
  · obtain rfl : b = y.addr := hσ.2 hab h.addr
    rw [Event.apply, Event.apply, Function.update_self, Function.update_self, h.onEntry,
      hD _ _ h.addr]
  · have hne' : b ≠ y.addr := fun hb => hne (hσ.1 hab (hb ▸ h.addr))
    rw [Event.apply, Event.apply, Function.update_of_ne hne, Function.update_of_ne hne', hD a b hab]

end Paired

end Protocol

end AdaptiveMsi
