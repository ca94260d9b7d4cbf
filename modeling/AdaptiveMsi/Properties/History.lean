import AdaptiveMsi.Controller.Books
import AdaptiveMsi.Properties.Directory
/-!
# Hits from the history

Whether a load hits can be read off the reports before it. A copy is given
by its processor's own access and by a push, and taken by a call of
`invalidate` for it and by another processor's store that does not push to
it; a processor holds a copy exactly if one was given and none was taken
since. It is the directory's copies that count: a line displaced from the
first way of its set is told of under address `0`, and its copy stands.
-/

namespace AdaptiveMsi

open Machine Protocol

section Standing

variable {β : Type*} {G T : β → Prop} {l : List β} {b : β}

/-- Something was given, and nothing taken since. -/
def Standing (G T : β → Prop) (l : List β) : Prop :=
  ∃ u b v, l = u ++ b :: v ∧ G b ∧ ∀ b' ∈ v, ¬ T b'

theorem not_standing_nil : ¬ Standing G T [] := by
  rintro ⟨u, b, v, h, -⟩
  simp at h

/-- **One more event**: giving counts after taking. -/
theorem standing_snoc : Standing G T (l ++ [b]) ↔ G b ∨ Standing G T l ∧ ¬ T b := by
  constructor
  · rintro ⟨u, b', v, h, hG, hT⟩
    rcases List.eq_nil_or_concat v with rfl | ⟨v, b'', rfl⟩
    · obtain ⟨-, hb⟩ := List.append_inj' h rfl
      cases hb
      exact Or.inl hG
    · have h' : l ++ [b] = (u ++ b' :: v) ++ [b''] := by simpa using h
      obtain ⟨rfl, hb⟩ := List.append_inj' h' rfl
      cases hb
      exact Or.inr ⟨⟨u, b', v, rfl, hG, fun x hx => hT x (by simp [hx])⟩, hT b (by simp)⟩
  · rintro (hG | ⟨⟨u, b', v, rfl, hG, hT⟩, hb⟩)
    · exact ⟨l, b, [], rfl, hG, by simp⟩
    · refine ⟨u, b', v ++ [b], by simp, hG, fun x hx => ?_⟩
      rcases List.mem_append.mp hx with hx | hx
      · exact hT x hx
      · rw [List.mem_singleton.mp hx]
        exact hb

end Standing

namespace Report

/-- The access gives `i` a copy of `a`. -/
def Gives (i : ℕ) (a : Addr) (r : Report) : Prop :=
  r.access.pid = i ∧ r.access.addr = a ∨ .push i a ∈ r.calls

/-- The access takes the copy of `i`: `invalidate` is called for it, or
another processor stores and does not push. -/
def Takes (i : ℕ) (a : Addr) (r : Report) : Prop :=
  .invalidate i a ∈ r.calls ∨
    r.access.kind = .store ∧ r.access.addr = a ∧ r.access.pid ≠ i ∧ .push i a ∉ r.calls

instance (i : ℕ) (a : Addr) : DecidablePred (Report.Gives i a) := fun r => by
  unfold Gives
  infer_instance

instance (i : ℕ) (a : Addr) : DecidablePred (Report.Takes i a) := fun r => by
  unfold Takes
  infer_instance

end Report

variable {cfg : Config} {detector : Bool} {t : List Access} {x : Access} {r : Report}
variable {rs : List Report} {c : Controller} {m m' : DirMsi} {pre post : List (Event ℕ Addr)}
variable {R : Rules ℕ (BitVec 64)} {D : Addr → Entry ℕ (BitVec 64)} {xs : List (Event ℕ Addr)}
variable {i : ℕ} {a : Addr}

/-- Evictions give nothing. -/
theorem sharers_foldl_subset (hxs : ∀ y ∈ xs, ∃ p b, y = .evict p b) :
    (xs.foldl (Event.apply R) D a).sharers ⊆ (D a).sharers := by
  have hfewer : (D a).Fewer (fun _ => True) (xs.foldl (Event.apply R) D a) :=
    fewer_foldl fun y hy => by
      obtain ⟨p, b, rfl⟩ := hxs y hy
      exact ⟨p, b, rfl, fun _ => trivial⟩
  exact hfewer.sharers

/-- An eviction among evictions takes the copy. -/
theorem notMem_of_evict (hxs : ∀ y ∈ xs, ∃ p b, y = .evict p b) (h : .evict i a ∈ xs) :
    i ∉ (xs.foldl (Event.apply R) D a).sharers := by
  induction xs generalizing D with
  | nil => cases h
  | cons y xs ih =>
    have hxs' : ∀ z ∈ xs, ∃ p b, z = .evict p b := fun z hz => hxs z (List.mem_cons_of_mem y hz)
    rw [List.foldl_cons]
    rcases List.mem_cons.mp h with rfl | h
    · intro hi
      have hgone := sharers_foldl_subset hxs' hi
      have hself : (Event.evict i a).apply R D a = (D a).evict R i := Event.apply_self
      rw [hself] at hgone
      exact Finset.notMem_erase i _ hgone
    · exact ih hxs' h

namespace Booked

/-- The evictions of the line fetch. -/
theorem pre_evicts (h : Booked m x pre post m' r) : ∀ y ∈ pre, ∃ p b, y = .evict p b :=
  fun y hy => by
    obtain ⟨b, rfl, -⟩ := h.stepped.before y hy
    exact ⟨x.pid, b, rfl⟩

theorem post_evicts (h : Booked m x pre post m' r) : ∀ y ∈ post, ∃ p b, y = .evict p b :=
  fun y hy => by
    obtain ⟨-, -, p, b, rfl, -⟩ := h.stepped.after y hy
    exact ⟨p, b, rfl⟩

/-- A copy that an access gives is there after it. -/
theorem mem_of_gives (h : Booked m x pre post m' r) (hg : r.Gives i a) :
    i ∈ (m'.entries a).sharers := by
  rcases hg with ⟨hi, ha⟩ | hpush
  · rw [h.stepped.access] at hi ha
    subst hi ha
    rw [h.stepped.entries_self]
    cases hk : x.kind with
    | load =>
      simp only [Access.event, hk, Event.onEntry]
      exact (Entry.mem_sharers_read m.rules).mpr (Or.inl rfl)
    | store =>
      simp only [Access.event, hk, Event.onEntry]
      exact (Entry.mem_sharers_store m.rules).mpr (Or.inl rfl)
  · obtain ⟨rfl, hk, hp⟩ := h.pushed i a hpush
    rw [h.stepped.entries_self]
    simp only [Access.event, hk, Event.onEntry]
    exact (Entry.mem_sharers_store m.rules).mpr (Or.inr hp)

/-- A copy whose cache gives it up is gone, if the access does not give it
back. -/
theorem notMem_of_invalidate (h : Booked m x pre post m' r) (hg : ¬ r.Gives i a)
    (hi : .invalidate i a ∈ r.calls) : i ∉ (m'.entries a).sharers := by
  have hne : i = x.pid → a ≠ x.addr := fun he ha =>
    hg (Or.inl ⟨by rw [h.stepped.access, he], by rw [h.stepped.access, ha]⟩)
  intro hmem
  rcases h.evicts i a hi with hpre | hpost | ⟨-, ha, hwho⟩
  · obtain ⟨b, heq, -⟩ := h.stepped.before _ hpre
    cases heq
    have ha : a ≠ x.event.addr := by
      rw [Access.addr_event]
      exact hne rfl
    rw [h.stepped.entries, List.foldl_append, List.foldl_cons] at hmem
    -- what comes after the line fetch gives nothing back here
    have hgone := sharers_foldl_subset h.post_evicts hmem
    rw [Event.apply_of_ne ha] at hgone
    exact notMem_of_evict h.pre_evicts hpre hgone
  · rw [h.stepped.entries, List.foldl_append, List.foldl_cons] at hmem
    exact notMem_of_evict h.post_evicts hpost hmem
  · rcases hwho with hi | hpush
    · exact hne hi ha
    · exact hg (Or.inr (ha ▸ hpush))

/-- **One access**: the copy is there afterwards if it is given, or was there
and is not taken. -/
theorem mem_sharers_iff (h : Booked m x pre post m' r) : i ∈ (m'.entries a).sharers ↔
    r.Gives i a ∨ i ∈ (m.entries a).sharers ∧ ¬ r.Takes i a := by
  constructor
  · intro hmem
    by_cases hg : r.Gives i a
    · exact Or.inl hg
    right
    have hold : i ∈ (m.entries a).sharers := by
      rcases h.stepped.mem_sharers hmem with hold | ⟨ha, hi | ⟨-, hpush⟩⟩
      · exact hold
      · exact absurd (Or.inl ⟨by rw [h.stepped.access, hi], by rw [h.stepped.access, ha]⟩) hg
      · exact absurd (Or.inr hpush) hg
    refine ⟨hold, ?_⟩
    rintro (hi | ⟨hk, ha, hne, hpush⟩)
    · exact h.notMem_of_invalidate hg hi hmem
    · rw [h.stepped.access] at hk ha hne
      subst ha
      rw [h.stepped.entries_self] at hmem
      simp only [Access.event, hk, Event.onEntry] at hmem
      rcases (Entry.mem_sharers_store m.rules).mp hmem with he | hp
      · exact hne he.symm
      · exact hpush (h.stepped.pushes hk i hp)
  · rintro (hg | ⟨hold, htakes⟩)
    · exact h.mem_of_gives hg
    have hkept : .invalidate i a ∉ r.calls := fun hi => htakes (Or.inl hi)
    rcases eq_or_ne a x.addr with rfl | hne
    · cases hk : x.kind with
      | load =>
        have hfound : i ∈ (found m pre x).sharers := h.stepped.fewer_found.kept i hold hkept
        rw [h.stepped.entries_self]
        simp only [Access.event, hk, Event.onEntry]
        exact (Entry.mem_sharers_read m.rules).mpr (Or.inr hfound)
      | store =>
        refine h.mem_of_gives ?_
        rw [Report.Gives, h.stepped.access]
        by_contra hno
        refine htakes (Or.inr ?_)
        rw [h.stepped.access]
        exact ⟨hk, rfl, fun hi => hno (Or.inl ⟨hi, rfl⟩), fun hpush => hno (Or.inr hpush)⟩
    · exact (h.stepped.fewer_of_ne hne).kept i hold hkept

/-- A load hits what was there and its line fetch does not give up. -/
theorem hit_iff (h : Booked m ⟨.load, i, a⟩ pre post m' r) : r.response = .cacheHit ↔
    i ∈ (m.entries a).sharers ∧ .invalidate i a ∉ r.calls := by
  have hhit : r.response = .cacheHit ↔ i ∈ (found m pre ⟨.load, i, a⟩).sharers := by
    rw [h.stepped.hit]
    simp [Access.Hits]
  rw [hhit]
  constructor
  · intro hmem
    refine ⟨h.stepped.fewer_found.sharers hmem, fun hi => ?_⟩
    rcases h.evicts i a hi with hpre | hpost | ⟨hk, -⟩
    · exact notMem_of_evict h.pre_evicts hpre hmem
    · exact (h.stepped.after _ hpost).1 rfl
    · cases hk
  · rintro ⟨hold, hkept⟩
    exact h.stepped.fewer_found.kept i hold hkept

end Booked

/-- **A processor holds a copy exactly if one was given and none was taken
since.** -/
theorem mem_sharers_iff_standing (hv : cfg.Valid t) (hrun : cfg.run detector t = .ok (c, rs)) :
    i ∈ (c.coherence.entries a).sharers ↔
      Standing (Report.Gives i a) (Report.Takes i a) rs := by
  refine (booked_induction (I := fun _ rs m => i ∈ (m.entries a).sharers ↔
    Standing (Report.Gives i a) (Report.Takes i a) rs) hv hrun ?_ ?_).2
  · rw [entries_start]
    exact iff_of_false (Finset.notMem_empty i) not_standing_nil
  · intro w x w' rs m pre post m' r _ _ hbooked hI
    rw [hbooked.mem_sharers_iff, standing_snoc, hI]

/-- **A load hits exactly if the reports say so.** In both protocols a load
hits if and only if its processor accessed the address before or was
pushed it, and since then no other processor stored there without pushing
and `invalidate` was not called for the processor's copy, not even in the
load's own line fetch. So a load may hit whose line was displaced, if the
directory was told of another address. -/
theorem load_hits_iff (hv : cfg.Valid (t ++ [⟨.load, i, a⟩]))
    (hrun : cfg.run detector (t ++ [⟨.load, i, a⟩]) = .ok (c, rs ++ [r])) :
    r.response = .cacheHit ↔
      Standing (Report.Gives i a) (Report.Takes i a) rs ∧ .invalidate i a ∉ r.calls := by
  obtain ⟨c₀, rs₀, r₀, hrun₀, hstep, hrs⟩ := run_snoc_eq_ok.mp hrun
  obtain ⟨rfl, hr⟩ := List.append_inj' hrs rfl
  cases hr
  have hv₀ : cfg.Valid t := fun x hx => hv x (List.mem_append_left _ hx)
  have htracks : Tracks cfg.numProcessors detector t c₀.coherence :=
    (ensures_tracks hv₀).of_ok hrun₀
  obtain ⟨pre, post, hbooked⟩ :=
    (ensures_booked cfg.numProcessors_le htracks (hv _ (by simp))).of_ok hstep
  rw [hbooked.hit_iff, mem_sharers_iff_standing hv₀ hrun₀]

/-- A copy that a store takes, and one that it pushes. -/
theorem load_hits_iff_pair :
    ∃ c rs r, Config.pair.run true [⟨.store, 0, 4⟩, ⟨.load, 1, 4⟩, ⟨.store, 0, 4⟩, ⟨.load, 1, 4⟩,
        ⟨.store, 0, 4⟩, ⟨.load, 1, 4⟩] = .ok (c, rs ++ [r]) ∧
      Standing (Report.Gives 1 4) (Report.Takes 1 4) rs ∧ .invalidate 1 4 ∉ r.calls := by
  obtain ⟨c, rs, r, hrun, hhit⟩ := exists_of_responses
    (show Config.pair.responses true [⟨.store, 0, 4⟩, ⟨.load, 1, 4⟩, ⟨.store, 0, 4⟩, ⟨.load, 1, 4⟩,
        ⟨.store, 0, 4⟩, ⟨.load, 1, 4⟩] =
      .ok ([.cacheMiss, .cacheMiss, .cacheHit, .cacheMiss, .cacheHit] ++ [.cacheHit]) from rfl)
  have hv : Config.pair.Valid ([⟨.store, 0, 4⟩, ⟨.load, 1, 4⟩, ⟨.store, 0, 4⟩, ⟨.load, 1, 4⟩,
    ⟨.store, 0, 4⟩] ++ [⟨.load, 1, 4⟩]) := by decide
  exact ⟨c, rs, r, hrun, (load_hits_iff hv hrun).mp hhit⟩

end AdaptiveMsi
