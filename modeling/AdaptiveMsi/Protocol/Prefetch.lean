import AdaptiveMsi.Protocol.WriteBacks
/-!
# Pushes as prefetches

Who holds a copy after a push is who would hold one if the processors the
data went to had read the address right after the store. Event by event
an adaptive directory therefore has the sharers of one that does not
adapt, in which such reads follow the stores; the two need not remember
reads alike, nor agree on the states.
-/

namespace AdaptiveMsi

namespace Protocol

variable {P A ρ ρ' : Type*} [DecidableEq P] [DecidableEq A] {R : Rules P ρ} {R' : Rules P ρ'}
variable {D : A → Entry P ρ} {D' : A → Entry P ρ'} {x : Event P A} {ps : List P} {i : P} {a : A}

/-- Whom a store pushes to can be told from its sharers. -/
theorem Entry.pushes_iff_mem_store {e : Entry P ρ} {w : P} :
    e.Pushes R w i ↔ i ≠ w ∧ i ∈ (e.store R w).sharers := by
  rw [Entry.mem_sharers_store]
  constructor
  · exact fun h => ⟨h.2.2.2.2.1, Or.inr h⟩
  · rintro ⟨hne, h⟩
    exact h.resolve_left hne

/-- The event sends `p` a copy it did not ask for. -/
def Event.Feeds (R : Rules P ρ) (D : A → Entry P ρ) : Event P A → P → Prop
  | store w a, p => (D a).Pushes R w p
  | evict _ _, _ | read _ _, _ => False

/-- The event, with reads of its address by `ps` behind it. -/
def Event.withReads (x : Event P A) (ps : List P) : List (Event P A) :=
  x :: ps.map (Event.read · x.addr)

/-- The same processors hold a copy, at every address. -/
def SameSharers (D : A → Entry P ρ) (D' : A → Entry P ρ') : Prop :=
  ∀ a, (D a).sharers = (D' a).sharers

/-- Reads of one address bring a copy to the readers. -/
theorem mem_sharers_reads : i ∈ ((ps.map (Event.read · a)).foldl (Event.apply R) D a).sharers ↔
    i ∈ ps ∨ i ∈ (D a).sharers := by
  induction ps generalizing D with
  | nil => simp
  | cons p ps ih =>
    have hself : (Event.read p a).apply R D a = (D a).read R p :=
      Event.apply_self (x := .read p a)
    rw [List.map_cons, List.foldl_cons, ih, hself, Entry.mem_sharers_read, List.mem_cons]
    tauto

/-- **One event.** Where a directory that does not adapt has the same
sharers, it still has them once those the event feeds have read. -/
theorem SameSharers.apply (h : SameSharers D D') (hR : R'.adaptive = false)
    (hps : ∀ p, p ∈ ps ↔ x.Feeds R D p) :
    SameSharers (x.apply R D) ((x.withReads ps).foldl (Event.apply R') D') := by
  intro a
  rw [Event.withReads, List.foldl_cons]
  rcases eq_or_ne a x.addr with rfl | hne
  · ext i
    rw [mem_sharers_reads, hps, Event.apply_self, Event.apply_self]
    cases x with
    | evict p a => simp [Event.Feeds, Event.onEntry, Event.addr, h a]
    | read p a =>
      simp only [Event.Feeds, Event.onEntry, Event.addr, false_or]
      rw [Entry.mem_sharers_read, Entry.mem_sharers_read, h a]
    | store w a =>
      have hnever : ¬ (D' a).Pushes R' w i := fun hp => by
        rw [hp.1] at hR
        cases hR
      simp only [Event.Feeds, Event.onEntry, Event.addr]
      rw [Entry.mem_sharers_store, Entry.mem_sharers_store, or_iff_left hnever, or_comm]
  · have hreads : ∀ y ∈ ps.map (Event.read · x.addr), y.addr ≠ a := by
      intro y hy
      obtain ⟨p, -, rfl⟩ := List.mem_map.mp hy
      exact hne.symm
    rw [foldl_apply_of_ne hreads, Event.apply_of_ne hne, Event.apply_of_ne hne, h a]

end Protocol

end AdaptiveMsi
