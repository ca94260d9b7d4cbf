import AdaptiveMsi.Properties.Directory
/-!
# One writer for each line, as far as it goes

The directory is keyed by address and the caches by line. In the baseline
an address has one writer, but a line has one only along the runs in
which no access meets another address of its line in a foreign cache: a
load none that is modified there, a store none at all. Every other run
reaches a state with two.
-/

namespace AdaptiveMsi

open Machine Protocol

/-- The addresses are on one cache line. -/
def Config.SameLine (cfg : Config) (a b : Addr) : Prop :=
  (cfg.start false).getTag a = (cfg.start false).getTag b ∧
    (cfg.start false).getSetIndex a = (cfg.start false).getSetIndex b

/-- Where an address is modified, no other processor holds an address of
its line. -/
def SingleWriter (cfg : Config) (c : Controller) : Prop :=
  ∀ a b p q, cfg.SameLine a b → p < cfg.numProcessors → q < cfg.numProcessors →
    (c.line a).isOwner p = true → q ≠ p → (c.line b).isSet q = false

/-- No other processor holds another address of the access's line, for a
load none that it has modified. -/
def LineFree (cfg : Config) (c : Controller) (x : Access) : Prop :=
  ∀ a q, a ≠ x.addr → cfg.SameLine a x.addr → q < cfg.numProcessors → q ≠ x.pid →
    match x.kind with
    | .load => (c.line a).isOwner q = false
    | .store => (c.line a).isSet q = false

/-! ## The entries -/

section Entries

variable {S : Addr → Addr → Prop} {m m' : DirMsi} {x : Access} {r : Report}
variable {pre post : List (Event ℕ Addr)} {n : ℕ} {t : List Access} {a b : Addr} {p q : ℕ}

/-- One writer, of the entries related by `S`. -/
def Exclusive (S : Addr → Addr → Prop) (m : DirMsi) : Prop :=
  ∀ a b p q, S a b → (m.entries a).state = .modified → p ∈ (m.entries a).sharers →
    q ∈ (m.entries b).sharers → q = p

/-- What an access may not meet. -/
def Free (S : Addr → Addr → Prop) (m : DirMsi) (x : Access) : Prop :=
  ∀ a q, a ≠ x.addr → S a x.addr → q ∈ (m.entries a).sharers → q ≠ x.pid →
    x.kind = .load ∧ (m.entries a).state ≠ .modified

/-- A copy of the access's address is its processor's or was there. -/
theorem Stepped.mem_self (h : Stepped m x pre post m' r) (hd : m.detector = false)
    (hq : q ∈ (m'.entries x.addr).sharers) :
    q = x.pid ∨ x.kind = .load ∧ q ∈ (m.entries x.addr).sharers := by
  rw [h.entries_self] at hq
  cases hk : x.kind with
  | load =>
    simp only [Access.event, hk, Event.onEntry] at hq
    exact ((Entry.mem_sharers_read m.rules).mp hq).imp_right fun hq =>
      ⟨rfl, h.fewer_found.sharers hq⟩
  | store =>
    simp only [Access.event, hk, Event.onEntry] at hq
    refine ((Entry.mem_sharers_store m.rules).mp hq).imp_right fun hpush => ?_
    have hadapt : m.detector = true := hpush.1
    rw [hd] at hadapt
    cases hadapt

/-- The access's address is modified after it only by a store of its own
or because it was. -/
theorem Stepped.modified_self (h : Stepped m x pre post m' r)
    (hs : (m'.entries x.addr).state = .modified) :
    x.kind = .store ∨ (m.entries x.addr).state = .modified ∧
      (m'.entries x.addr).sharers ⊆ (m.entries x.addr).sharers := by
  rw [h.entries_self] at hs ⊢
  cases hk : x.kind with
  | store => exact Or.inl rfl
  | load =>
    simp only [Access.event, hk, Event.onEntry, Entry.read] at hs ⊢
    split at hs
    · rename_i hmem
      rw [if_pos hmem]
      exact Or.inr ⟨h.fewer_found.state hs, h.fewer_found.sharers⟩
    · cases hs

/-- **A free access keeps one writer.** -/
theorem Stepped.exclusive (h : Stepped m x pre post m' r) (ht : Tracks n false t m)
    (hx : x.pid < n) (hS : ∀ a b, S a b → S b a) (hex : Exclusive S m) (hfree : Free S m x) :
    Exclusive S m' := by
  intro a b p q hab hmod hp hq
  have hd : m.detector = false := ht.detector
  rcases eq_or_ne a b with rfl | hne
  · -- at one address the baseline has one sharer
    have ht' := h.tracks ht hx
    have hd' : m'.rules.adaptive = false := ht'.detector
    obtain ⟨w, -, hw⟩ := (ht'.inv a).sharers_eq_singleton hd' hmod
    rw [hw, Finset.mem_singleton] at hp hq
    rw [hp, hq]
  rcases eq_or_ne a x.addr with rfl | ha
  · have hq' : q ∈ (m.entries b).sharers := (h.fewer_of_ne hne.symm).sharers hq
    rcases h.modified_self hmod with hk | ⟨hmod', hsub⟩
    · have hpx : p = x.pid := (h.mem_self hd hp).resolve_right fun hl => by
        rw [hk] at hl
        cases hl.1
      by_contra hqp
      have hload := (hfree b q hne.symm (hS _ _ hab) hq' (hpx ▸ hqp)).1
      rw [hk] at hload
      cases hload
    · exact hex _ b p q hab hmod' (hsub hp) hq'
  · have hfewer := h.fewer_of_ne ha
    have hmod' := hfewer.state hmod
    have hp' := hfewer.sharers hp
    rcases eq_or_ne b x.addr with rfl | hb
    · rcases h.mem_self hd hq with rfl | ⟨-, hq'⟩
      · by_contra hqp
        exact (hfree a p ha hab hp' (Ne.symm hqp)).2 hmod'
      · exact hex a _ p q hab hmod' hp' hq'
    · exact hex a b p q hab hmod' hp' ((h.fewer_of_ne hb).sharers hq)

/-- **An access that is not free breaks it.** -/
theorem Stepped.free (h : Stepped m x pre post m' r) (ht : Tracks n false t m)
    (hS : ∀ a b, S a b → S b a) (hex : Exclusive S m') : Free S m x := by
  intro a q ha hax hq hne
  have hd : m.detector = false := ht.detector
  have hfewer := h.fewer_of_baseline hd ha
  have hq' : q ∈ (m'.entries a).sharers := hfewer.kept q hq hne
  have hself : x.pid ∈ (m'.entries x.addr).sharers := by
    rw [h.entries_self]
    cases hk : x.kind with
    | load =>
      simp only [Access.event, hk, Event.onEntry]
      exact (Entry.mem_sharers_read _).mpr (Or.inl rfl)
    | store =>
      simp only [Access.event, hk, Event.onEntry]
      exact (Entry.mem_sharers_store _).mpr (Or.inl rfl)
  cases hk : x.kind with
  | store =>
    have hmod : (m'.entries x.addr).state = .modified := by
      rw [h.entries_self]
      simp [Access.event, hk, Event.onEntry]
    exact absurd (hex x.addr a x.pid q (hS _ _ hax) hmod hself hq') hne
  | load =>
    refine ⟨rfl, fun hmod => ?_⟩
    -- its only sharer is another processor, which keeps its copy
    have hpid : x.pid ∉ (m.entries a).sharers := fun hmem => by
      have hd' : m.rules.adaptive = false := hd
      obtain ⟨w, -, hw⟩ := (ht.inv a).sharers_eq_singleton hd' hmod
      rw [hw, Finset.mem_singleton] at hmem hq
      exact hne (hq.trans hmem.symm)
    have hent : m'.entries a = m.entries a := h.entries_of_not_mem hd ha (ht.inv a).invalid_iff hpid
    exact hne (hex a x.addr q x.pid hax (hent ▸ hmod) hq' hself).symm

end Entries

/-! ## The lines -/

variable {cfg : Config} {c : Controller} {x : Access} {t : List Access} {rs : List Report}
variable {a : Addr} {p : ℕ}

theorem isSet_eq_false (h : p < 32) :
    (c.line a).isSet p = false ↔ p ∉ (c.coherence.entries a).sharers := by
  rw [← Bool.not_eq_true]
  exact not_congr (DirectoryLine.isSet_iff h)

theorem isOwner_iff (h : p < 32) : (c.line a).isOwner p = true ↔
    p ∈ (c.coherence.entries a).sharers ∧ (c.coherence.entries a).state = .modified := by
  rw [DirectoryLine.isOwner, Bool.and_eq_true, beq_iff_eq]
  exact and_congr_left' (DirectoryLine.isSet_iff h)

theorem isOwner_eq_false (h : p < 32) : (c.line a).isOwner p = false ↔
    (p ∈ (c.coherence.entries a).sharers → (c.coherence.entries a).state ≠ .modified) := by
  rw [← Bool.not_eq_true, isOwner_iff h, not_and]

theorem Config.SameLine.symm {a b : Addr} (h : cfg.SameLine a b) : cfg.SameLine b a :=
  ⟨h.1.symm, h.2.symm⟩

/-- A processor with a copy is one of the machine's. -/
theorem Tracks.lt {n : ℕ} {detector : Bool} {m : DirMsi} {a : Addr} (ht : Tracks n detector t m)
    (hp : p ∈ (m.entries a).sharers) : p < n :=
  ht.mem_procs.mp ((ht.inv a).sharers_subset hp)

theorem singleWriter_iff_exclusive (ht : Tracks cfg.numProcessors false t c.coherence) :
    SingleWriter cfg c ↔ Exclusive cfg.SameLine c.coherence := by
  have hle := cfg.numProcessors_le
  constructor
  · intro h a b p q hab hmod hp hq
    have hpn := ht.lt hp
    have hqn := ht.lt hq
    by_contra hne
    have howner := (isOwner_iff (by omega)).mpr ⟨hp, hmod⟩
    exact (isSet_eq_false (by omega)).mp (h a b p q hab hpn hqn howner hne) hq
  · intro h a b p q hab hp hq howner hne
    obtain ⟨hmem, hmod⟩ := (isOwner_iff (by omega)).mp howner
    exact (isSet_eq_false (by omega)).mpr fun hq =>
      hne (h a b p q hab hmod hmem hq)

theorem lineFree_iff_free (ht : Tracks cfg.numProcessors false t c.coherence) :
    LineFree cfg c x ↔ Free cfg.SameLine c.coherence x := by
  have hle := cfg.numProcessors_le
  unfold LineFree Free
  cases x.kind with
  | load =>
    refine forall₂_congr fun a q => ⟨?_, ?_⟩
    · intro h ha hs hq hne
      have hqn := ht.lt hq
      exact ⟨rfl, (isOwner_eq_false (by omega)).mp (h ha hs hqn hne) hq⟩
    · intro h ha hs hq hne
      exact (isOwner_eq_false (by omega)).mpr fun hmem => (h ha hs hmem hne).2
  | store =>
    refine forall₂_congr fun a q => ⟨?_, ?_⟩
    · intro h ha hs hq hne
      have hqn := ht.lt hq
      exact absurd hq ((isSet_eq_false (by omega)).mp (h ha hs hqn hne))
    · intro h ha hs hq hne
      refine (isSet_eq_false (by omega)).mpr fun hmem => ?_
      cases (h ha hs hmem hne).1

/-- **One writer for each line, exactly along the free runs.** In the
baseline a line has one writer in every state of a run if and only if no
access of the run meets another address of its line in a foreign cache. -/
theorem singleWriter_iff (hv : cfg.Valid t) (hrun : cfg.run false t = .ok (c, rs)) :
    cfg.Throughout false t (SingleWriter cfg) ↔ cfg.Respects false t (LineFree cfg) := by
  constructor
  · refine respects_of_throughout hv hrun fun u x c c' r hx ht _ hafter hs => ?_
    obtain ⟨pre, post, hstepped⟩ := (ensures_step cfg.numProcessors_le ht hx).of_ok hs
    rw [singleWriter_iff_exclusive (hstepped.tracks ht hx)] at hafter
    exact (lineFree_iff_free ht).mpr (hstepped.free ht (fun _ _ h => h.symm) hafter)
  · refine throughout_of_respects hv ?_ fun u x c c' r hx ht hbefore hfree hs => ?_
    · rw [singleWriter_iff_exclusive tracks_start]
      intro a b p q _ _ hp
      rw [entries_start] at hp
      exact absurd hp (Finset.notMem_empty p)
    · obtain ⟨pre, post, hstepped⟩ := (ensures_step cfg.numProcessors_le ht hx).of_ok hs
      rw [singleWriter_iff_exclusive (hstepped.tracks ht hx)]
      rw [singleWriter_iff_exclusive ht] at hbefore
      exact hstepped.exclusive ht hx (fun _ _ h => h.symm) hbefore ((lineFree_iff_free ht).mp hfree)

/-- A run on one address. -/
theorem singleWriter_iff_pair :
    ∃ c rs, Config.pair.run false [⟨.store, 0, 4⟩, ⟨.load, 1, 4⟩] = .ok (c, rs) ∧
      (Config.pair.Throughout false [⟨.store, 0, 4⟩, ⟨.load, 1, 4⟩] (SingleWriter .pair) ↔
        Config.pair.Respects false [⟨.store, 0, 4⟩, ⟨.load, 1, 4⟩] (LineFree .pair)) := by
  have hrun : Ensures (fun _ => False) (fun _ => True)
      (Config.pair.run false [⟨.store, 0, 4⟩, ⟨.load, 1, 4⟩]) := by decide
  obtain ⟨⟨c, rs⟩, hok, -⟩ := hrun.exists_ok
  exact ⟨c, rs, hok, singleWriter_iff (by decide) hok⟩

/-- **False sharing.** Two processors store to the two addresses of a line:
both own it. -/
theorem two_writers :
    ∃ c rs, Config.pair.run false [⟨.store, 0, 4⟩, ⟨.store, 1, 5⟩] = .ok (c, rs) ∧
      Config.pair.SameLine 4 5 ∧ (c.line 4).isOwner 0 = true ∧ (c.line 5).isOwner 1 = true ∧
      ¬ SingleWriter .pair c := by
  have hrun : Ensures (fun _ => False)
      (fun s => (s.1.line 4).isOwner 0 = true ∧ (s.1.line 5).isOwner 1 = true ∧
        (s.1.line 5).isSet 1 = true)
      (Config.pair.run false [⟨.store, 0, 4⟩, ⟨.store, 1, 5⟩]) := by decide
  obtain ⟨⟨c, rs⟩, hok, howner, howner', hset⟩ := hrun.exists_ok
  have hline : Config.pair.SameLine 4 5 := ⟨by decide, by decide⟩
  refine ⟨c, rs, hok, hline, howner, howner', fun h => ?_⟩
  have hclear := h 4 5 0 1 hline (by decide) (by decide) howner (by decide)
  rw [hset] at hclear
  cases hclear

end AdaptiveMsi
