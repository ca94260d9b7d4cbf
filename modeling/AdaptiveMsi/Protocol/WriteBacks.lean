import AdaptiveMsi.Protocol.Events
/-!
# Write-backs

An owner that gives up its copy writes the data back. `writeBacks` lists
these evictions of a run of events in order; each is of the processor that
stored last, and answers for a store of its own.
-/

namespace AdaptiveMsi

namespace Protocol

variable {P A ρ : Type*} [DecidableEq P] [DecidableEq A]

/-- The write-back of an event. -/
def Event.writeBack? (R : Rules P ρ) (D : A → Entry P ρ) : Event P A → Option (P × A)
  | evict p a => if (D a).Owns R p then some (p, a) else none
  | read _ _ | store _ _ => none

/-- The write-backs of a run. -/
def writeBacks (R : Rules P ρ) : (A → Entry P ρ) → List (Event P A) → List (P × A)
  | _, [] => []
  | D, x :: xs => (x.writeBack? R D).toList ++ writeBacks R (x.apply R D) xs

/-- The event is a store of `p` at `a`. -/
def Event.StoresAt (p : P) (a : A) : Event P A → Prop
  | store q b => q = p ∧ b = a
  | evict _ _ | read _ _ => False

instance {p : P} {a : A} : DecidablePred (Event.StoresAt p a) := fun x => by
  cases x <;> unfold Event.StoresAt <;> infer_instance

variable {R : Rules P ρ} {D D' : A → Entry P ρ} {last : A → Option P} {x : Event P A}
variable {xs ys : List (Event P A)} {a : A} {p : P}

omit [DecidableEq P] [DecidableEq A] in
@[simp] theorem Event.not_storesAt_evict {q : P} {b : A} : ¬ (evict q b).StoresAt p a := id

@[simp] theorem writeBacks_nil : writeBacks R D ([] : List (Event P A)) = [] := rfl

theorem writeBacks_cons : writeBacks R D (x :: xs) =
    (x.writeBack? R D).toList ++ writeBacks R (x.apply R D) xs := rfl

theorem writeBacks_append : writeBacks R D (xs ++ ys) =
    writeBacks R D xs ++ writeBacks R (xs.foldl (Event.apply R) D) ys := by
  induction xs generalizing D with
  | nil => rfl
  | cons x xs ih => rw [List.cons_append, writeBacks_cons, ih, writeBacks_cons, List.append_assoc,
      List.foldl_cons]

theorem Event.apply_of_ne {b : A} (hb : b ≠ x.addr) : x.apply R D b = D b :=
  Function.update_of_ne hb _ _

theorem Event.apply_self : x.apply R D x.addr = x.onEntry R (D x.addr) := Function.update_self ..

/-- Directories that agree off `a` agree there after an event. -/
theorem Event.apply_congr_off (h : ∀ b ≠ a, D' b = D b) :
    ∀ b ≠ a, x.apply R D' b = x.apply R D b := by
  intro b hb
  rcases eq_or_ne b x.addr with rfl | hne
  · rw [Event.apply_self, Event.apply_self, h _ hb]
  · rw [Event.apply_of_ne hne, Event.apply_of_ne hne, h b hb]

omit [DecidableEq A] in
theorem Event.writeBack?_congr (h : D' x.addr = D x.addr) :
    x.writeBack? R D' = x.writeBack? R D := by
  cases x with
  | evict p b =>
    have hb : D' b = D b := h
    rw [writeBack?, writeBack?, hb]
  | read p b => rfl
  | store p b => rfl

/-- **Evictions of `p` at `a` that write nothing back may be left out**, where
`N` holds of the entry at `a` and says so. -/
theorem writeBacks_filter_ne {N : Entry P ρ → Prop} (hN : ∀ e, N e → ¬ e.Owns R p ∧ N (e.evict R p))
    (hD : ∀ b ≠ a, D' b = D b) (ha : N (D a)) (hxs : ∀ x ∈ xs, ∃ b, x = .evict p b) :
    writeBacks R D' (xs.filter (·.addr ≠ a)) = writeBacks R D xs := by
  induction xs generalizing D D' with
  | nil => rfl
  | cons x xs ih =>
    obtain ⟨b, rfl⟩ := hxs x List.mem_cons_self
    have hxs' : ∀ y ∈ xs, ∃ b, y = .evict p b := fun y hy => hxs y (List.mem_cons_of_mem _ hy)
    rcases eq_or_ne b a with rfl | hne
    · have hnone : Event.writeBack? R D (.evict p b) = none := if_neg (hN _ ha).1
      rw [List.filter_cons_of_neg (by simp [Event.addr]), writeBacks_cons, hnone]
      refine ih (fun c hc => ?_) ?_ hxs'
      · rw [Event.apply_of_ne hc, hD c hc]
      · have hself : (Event.evict p b).apply R D b = (D b).evict R p := Event.apply_self
        rw [hself]
        exact (hN _ ha).2
    · rw [List.filter_cons_of_pos (by simp [Event.addr, hne]), writeBacks_cons,
        writeBacks_cons, Event.writeBack?_congr (hD b hne)]
      refine congrArg _ (ih (Event.apply_congr_off hD) ?_ hxs')
      rw [Event.apply_of_ne (show a ≠ b from hne.symm)]
      exact ha

/-- Where nothing happens at `a`, what is there does not matter. -/
theorem writeBacks_congr_off (hD : ∀ b ≠ a, D' b = D b) (hxs : ∀ x ∈ xs, x.addr ≠ a) :
    writeBacks R D' xs = writeBacks R D xs := by
  induction xs generalizing D D' with
  | nil => rfl
  | cons x xs ih =>
    have hx : x.addr ≠ a := hxs x List.mem_cons_self
    rw [writeBacks_cons, writeBacks_cons, Event.writeBack?_congr (hD _ hx),
      ih (Event.apply_congr_off hD) fun y hy => hxs y (List.mem_cons_of_mem _ hy)]

/-! ## What write-backs answer for -/

/-- `p` has changed `a` and not written it back. -/
def Dirty (D : A → Entry P ρ) (last : A → Option P) (p : P) (a : A) : Prop :=
  (D a).state = .modified ∧ last a = some p

instance : Decidable (Dirty D last p a) := by
  unfold Dirty
  infer_instance

/-- **One event**: a write-back takes the debt away, and only a store of the
processor's own makes one. -/
theorem writeBack_add_dirty_le (h : Inv R last D) :
    (x.writeBack? R D).toList.count (p, a) +
        (if Dirty (x.apply R D) (x.note last) p a then 1 else 0) ≤
      (if Dirty D last p a then 1 else 0) + if x.StoresAt p a then 1 else 0 := by
  cases x with
  | evict q b =>
    rcases eq_or_ne b a with rfl | hne
    · have hstate : ((Event.evict q b).apply R D b).state = .modified ↔
          (D b).state = .modified ∧ ¬ (D b).Owns R q := by
        have hself : (Event.evict q b).apply R D b = (D b).evict R q := Event.apply_self
        rw [hself]
        exact (h b).evict_state
      by_cases ho : (D b).Owns R q
      · -- the owner is the processor that stored last
        have hlast : last b = some q := (h b).eq_of_owns ho
        have hdirty : Dirty D last p b ↔ q = p := by
          simp [Dirty, ho.2.1, hlast]
        have hclean : ¬ Dirty ((Event.evict q b).apply R D) ((Event.evict q b).note last) p b :=
          fun hd => (hstate.mp hd.1).2 ho
        simp only [Event.writeBack?, if_pos ho, Option.toList_some, if_neg hclean, hdirty]
        by_cases hqp : q = p <;> simp [hqp, Event.StoresAt]
      · have hdirty : Dirty ((Event.evict q b).apply R D) ((Event.evict q b).note last) p b ↔
            Dirty D last p b := by
          unfold Dirty
          rw [hstate]
          simp [ho, Event.note]
        simp only [Event.writeBack?, if_neg ho, hdirty]
        simp
    · have hdirty : Dirty ((Event.evict q b).apply R D) ((Event.evict q b).note last) p a ↔
          Dirty D last p a := by
        simp [Dirty, Event.apply, Event.note, Event.addr, hne.symm]
      have hcount : ((Event.evict q b).writeBack? R D).toList.count (p, a) = 0 := by
        by_cases ho : (D b).Owns R q
        · simp [Event.writeBack?, ho, hne]
        · simp [Event.writeBack?, ho]
      rw [hcount]
      simp only [hdirty]
      omega
  | read q b =>
    have hdirty : Dirty ((Event.read q b).apply R D) ((Event.read q b).note last) p a →
        Dirty D last p a := by
      rintro ⟨hmod, hlast⟩
      refine ⟨?_, hlast⟩
      rcases eq_or_ne a b with rfl | hne
      · have hself : (Event.read q a).apply R D a = (D a).read R q := Event.apply_self
        rw [hself, Entry.read] at hmod
        split at hmod
        · exact hmod
        · cases hmod
      · rwa [Event.apply_of_ne (show a ≠ (Event.read q b).addr from hne)] at hmod
    simp only [Event.writeBack?, Event.StoresAt]
    by_cases hd : Dirty ((Event.read q b).apply R D) ((Event.read q b).note last) p a
    · simp [hd, hdirty hd]
    · simp [hd]
  | store q b =>
    have hdirty : Dirty ((Event.store q b).apply R D) ((Event.store q b).note last) p a →
        Dirty D last p a ∨ q = p ∧ b = a := by
      rintro ⟨hmod, hlast⟩
      rcases eq_or_ne a b with rfl | hne
      · right
        simpa [Event.note] using hlast
      · left
        exact ⟨by simpa [Event.apply, Event.addr, hne] using hmod,
          by simpa [Event.note, hne] using hlast⟩
    have hcount : ((Event.store q b).writeBack? R D).toList.count (p, a) = 0 := rfl
    by_cases hd : Dirty ((Event.store q b).apply R D) ((Event.store q b).note last) p a
    · rw [if_pos hd, hcount]
      rcases hdirty hd with hold | hstore
      · rw [if_pos hold]
        omega
      · rw [if_pos (show (Event.store q b).StoresAt p a from hstore)]
        omega
    · rw [if_neg hd, hcount]
      omega

/-- **Every write-back answers for a store**: along a run a processor writes
an address back at most as often as it stores there, one time less while
its last store is not written back. -/
theorem count_writeBacks_le (h : Inv R last D) (hxs : ∀ x ∈ xs, x.proc ∈ R.procs) :
    (writeBacks R D xs).count (p, a) + (if Dirty (xs.foldl (Event.apply R) D)
        (xs.foldl Event.note last) p a then 1 else 0) ≤
      (if Dirty D last p a then 1 else 0) + xs.countP (·.StoresAt p a) := by
  induction xs generalizing D last with
  | nil => exact (Nat.zero_add _).le
  | cons x xs ih =>
    have hx : x.proc ∈ R.procs := hxs x List.mem_cons_self
    have hone := writeBack_add_dirty_le (x := x) (p := p) (a := a) h
    have hrest := ih (h.apply hx) fun y hy => hxs y (List.mem_cons_of_mem _ hy)
    have hcount : (x :: xs).countP (·.StoresAt p a) =
        xs.countP (·.StoresAt p a) + if x.StoresAt p a then 1 else 0 := by
      simp [List.countP_cons]
    rw [writeBacks_cons, List.count_append, hcount, List.foldl_cons, List.foldl_cons]
    omega

end Protocol

end AdaptiveMsi
