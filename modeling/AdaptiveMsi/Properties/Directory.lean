import AdaptiveMsi.Controller.Step
/-!
# What every directory entry satisfies

In the baseline the directory's own interface keeps its entries
consistent whatever the caches do: evictions may come for any processor
and any address. In the adaptive protocol the caches are part of the
argument, since a push evicts in the middle of a store, and the entries
are those a run of accesses reaches.
-/

namespace AdaptiveMsi

open Machine Protocol

variable {d : DirectoryLine} {R : Rules ℕ (BitVec 64)} {last : Option ℕ} {n i : ℕ}

/-! ## From the entry to the line -/

theorem getLsbD_sharerVector : d.sharerVector.getLsbD i = true ↔ i ∈ d.sharers :=
  BitSet.mem_bits.symm

theorem invalid_iff_sharerVector (h : d.entry.Inv R last) :
    d.state = .invalid ↔ d.sharerVector = 0 :=
  h.invalid_iff.trans DirectoryLine.sharers_eq_empty

theorem lt_of_getLsbD {detector : Bool} (h : d.entry.Inv (rules n detector) last)
    (hi : d.sharerVector.getLsbD i = true) : i < n :=
  mem_procs.mp (h.sharers_subset (getLsbD_sharerVector.mp hi))

/-- The baseline's modified line: its one sharer is what `owner` returns. -/
theorem exists_owner_of_modified (hn : n ≤ 32) (h : d.entry.Inv (rules n false) last)
    (hd : d.state = .modified) :
    ∃ p, d.owner n = .ok p ∧ ∀ i, d.sharerVector.getLsbD i = true ↔ i = p := by
  obtain ⟨w, -, hw⟩ := h.sharers_eq_singleton rfl hd
  have hsharers : d.sharers = {w} := hw
  have hmem : w ∈ d.sharers := by simp [hsharers]
  refine ⟨w, DirectoryLine.owner_eq_ok hn hd (mem_procs.mp (h.sharers_subset hmem)) hmem ?_, ?_⟩
  · intro i hi
    rw [hsharers, Finset.mem_singleton] at hi
    exact hi.ge
  · intro i
    rw [getLsbD_sharerVector, hsharers, Finset.mem_singleton]

/-! ## The baseline's interface -/

/-- The controller a sequence of the directory's calls leaves. -/
structure Called (n : ℕ) (c : Controller) : Prop where
  numProcessors : c.coherence.numProcessors = n
  detector : c.coherence.detector = false
  inv : ∃ last, Protocol.Inv (rules n false) last c.coherence.entries

variable {c : Controller} {x : DirCall}

/-- A call that is an event of the protocol. -/
theorem Called.simulates {m : DirMsi} {xs : List (Event ℕ Addr)} {calls : List Call}
    (h : Called n c) (hsim : DirMsi.Simulates xs calls c.coherence m)
    (hxs : ∀ x ∈ xs, x.proc < n) : Called n { c with coherence := m } where
  numProcessors := hsim.numProcessors.trans h.numProcessors
  detector := hsim.detector.trans h.detector
  inv := by
    obtain ⟨last, hinv⟩ := h.inv
    have hrules : c.coherence.rules = rules n false := by
      rw [DirMsi.rules, h.numProcessors, h.detector]
    refine ⟨xs.foldl Event.note last, ?_⟩
    rw [hsim.entries, hrules]
    exact hinv.foldl fun x hx => mem_procs.mpr (hxs x hx)

/-- **One call**: no assertion fails in it. -/
theorem Called.step (h : Called n c) (hn : n ≤ 32) (hp : x.pid < n) :
    Ensures (fun _ => False) (Called n) (c.call x) := by
  have hrules : c.coherence.rules = rules n false := by
    rw [DirMsi.rules, h.numProcessors, h.detector]
  obtain ⟨last, hinv⟩ := h.inv
  have hn' : c.coherence.numProcessors ≤ 32 := h.numProcessors ▸ hn
  cases x with
  | processRead pid a =>
    obtain ⟨m', charge, hok, hread, -⟩ := DirMsi.simulates_processRead hn'
      (show pid < c.coherence.numProcessors from h.numProcessors ▸ hp) (hrules ▸ hinv a)
    rw [Controller.call, hok]
    exact h.simulates hread (by simpa [Event.proc] using show pid < n from hp)
  | processWrite pid a =>
    have hcalls : ¬ Controller.CallsBack c.coherence pid a := Controller.not_callsBack h.detector
    obtain ⟨m', charge, log, hok, hstores⟩ := Controller.exists_processWrite hcalls hn'
      (show pid < c.coherence.numProcessors from h.numProcessors ▸ hp) (hrules ▸ hinv a)
    rw [Controller.call, hok]
    exact h.simulates hstores.simulates (by simpa [Event.proc] using show pid < n from hp)
  | invalidate pid a =>
    replace hp : pid < n := hp
    exact h.simulates (DirMsi.simulates_invalidate (by omega))
      (by simpa [Event.proc] using show pid < n from hp)

/-- **Baseline: every sequence of calls of the directory's interface.** No
assertion fails, an entry is `INVALID` exactly when its vector is zero,
a `MODIFIED` one has one sharer, which `owner` returns, and only
processors have bits. -/
theorem baseline_entries (cfg : Config) (calls : List DirCall)
    (hpid : ∀ x ∈ calls, x.pid < cfg.numProcessors) :
    ∃ c, calls.foldlM Controller.call (cfg.start false) = .ok c ∧ ∀ a,
      ((c.line a).state = .invalid ↔ (c.line a).sharerVector = 0) ∧
      ((c.line a).state = .modified → ∃ p, (c.line a).owner cfg.numProcessors = .ok p ∧
        ∀ i, (c.line a).sharerVector.getLsbD i = true ↔ i = p) ∧
      ∀ i, (c.line a).sharerVector.getLsbD i = true → i < cfg.numProcessors := by
  have htracks : Tracks cfg.numProcessors false [] (cfg.start false).coherence := tracks_start
  have hstart : Called cfg.numProcessors (cfg.start false) := ⟨rfl, rfl, _, htracks.inv⟩
  have hrun := ensures_foldlM (I := fun _ => Called cfg.numProcessors) (l := calls)
    (f := Controller.call) hstart fun u x v c hl hc =>
      hc.step cfg.numProcessors_le (hpid x (by simp [hl]))
  obtain ⟨c, hok, hcalled⟩ := hrun.exists_ok
  obtain ⟨last, hinv⟩ := hcalled.inv
  refine ⟨c, hok, fun a => ⟨invalid_iff_sharerVector (hinv a), ?_, fun i => lt_of_getLsbD (hinv a)⟩⟩
  exact exists_owner_of_modified cfg.numProcessors_le (hinv a)

/-- Two processors with one way of two bytes each. -/
def Config.pair : Config where
  numProcessors := 2
  numSets := 1
  lineSize := 2
  associativity := 1
  numProcessors_pos := by decide
  numProcessors_le := by decide
  numSets_pos := by decide
  numSets_lt := by decide
  lineSize_pos := by decide
  lineSize_lt := by decide
  associativity_pos := by decide

/-- Four processors with one way of two bytes each. -/
def Config.quad : Config where
  numProcessors := 4
  numSets := 1
  lineSize := 2
  associativity := 1
  numProcessors_pos := by decide
  numProcessors_le := by decide
  numSets_pos := by decide
  numSets_lt := by decide
  lineSize_pos := by decide
  lineSize_lt := by decide
  associativity_pos := by decide

/-- Two processors with two ways each. -/
def Config.wide : Config where
  numProcessors := 2
  numSets := 1
  lineSize := 2
  associativity := 2
  numProcessors_pos := by decide
  numProcessors_le := by decide
  numSets_pos := by decide
  numSets_lt := by decide
  lineSize_pos := by decide
  lineSize_lt := by decide
  associativity_pos := by decide

/-- Two processors with two sets of one way each. -/
def Config.halves : Config where
  numProcessors := 2
  numSets := 2
  lineSize := 2
  associativity := 1
  numProcessors_pos := by decide
  numProcessors_le := by decide
  numSets_pos := by decide
  numSets_lt := by decide
  lineSize_pos := by decide
  lineSize_lt := by decide
  associativity_pos := by decide

/-- A store, a foreign load and the eviction of the store's copy. -/
theorem baseline_entries_pair :
    ∃ c, [DirCall.processWrite 0 4, .processRead 1 4, .invalidate 0 4].foldlM Controller.call
        (Config.pair.start false) = .ok c ∧ ∀ a,
      ((c.line a).state = .invalid ↔ (c.line a).sharerVector = 0) ∧
      ((c.line a).state = .modified → ∃ p, (c.line a).owner 2 = .ok p ∧
        ∀ i, (c.line a).sharerVector.getLsbD i = true ↔ i = p) ∧
      ∀ i, (c.line a).sharerVector.getLsbD i = true → i < 2 :=
  baseline_entries .pair [.processWrite 0 4, .processRead 1 4, .invalidate 0 4] (by decide)

/-! ## The adaptive protocol -/

/-- **Adaptive: every run.** Only the replacement counter's assertion can
fail; an entry is `INVALID` exactly when its vector is zero, its last
writer is the processor of the last store, and every other sharer of a
`MODIFIED` line is a qualified reader. -/
theorem adaptive_entries (cfg : Config) (hn : cfg.numProcessors ≤ 16) (t : List Access)
    (hv : cfg.Valid t) :
    (∀ e, cfg.run true t = .error e → e = .lru) ∧
    ∀ c reports, cfg.run true t = .ok (c, reports) → ∀ a,
      ((c.line a).state = .invalid ↔ (c.line a).sharerVector = 0) ∧
      (c.line a).lastWriter = (lastStore t a).getD DirectoryLine.noWriter ∧
      ((c.line a).state = .modified →
        (c.line a).sharerVector.getLsbD (c.line a).lastWriter = true ∧
        ∀ i, (c.line a).sharerVector.getLsbD i = true → i ≠ (c.line a).lastWriter →
          (c.line a).qualifiedReader i = true ∧ 2 ≤ ((c.line a).readCount i).toNat) := by
  have hrun : Ensures (· = .lru) _ (cfg.run true t) := ensures_tracks hv
  refine ⟨fun e he => hrun.of_error he, fun c reports hok a => ?_⟩
  have htracks : Tracks cfg.numProcessors true t c.coherence := hrun.of_ok hok
  have hinv : (c.line a).entry.Inv (rules cfg.numProcessors true) (lastStore t a) := by
    rw [← htracks.rules]
    exact htracks.inv a
  have hwriter : (c.line a).lastWriter = (lastStore t a).getD DirectoryLine.noWriter := by
    rw [DirectoryLine.lastWriter_eq_getD, ← hinv.writer_eq rfl]
    rfl
  refine ⟨invalid_iff_sharerVector hinv, hwriter, fun hmod => ?_⟩
  obtain ⟨w, hlast, hmem, hothers⟩ := hinv.modified hmod
  have hw : (c.line a).lastWriter = w := by rw [hwriter, hlast, Option.getD_some]
  rw [hw]
  refine ⟨getLsbD_sharerVector.mpr hmem, fun i hi hne => ?_⟩
  obtain ⟨-, hq⟩ := hothers i (getLsbD_sharerVector.mp hi) hne
  have hi' := lt_of_getLsbD hinv hi
  have hi16 : i < 16 := by omega
  refine ⟨hq, ?_⟩
  rw [DirectoryLine.toNat_readCount (by omega)]
  exact (DirectoryLine.qualifiedReader_iff hi16 (htracks.packed hn a)).mp hq

/-- A consumer that missed twice is pushed to. -/
theorem adaptive_entries_pair :
    let t : List Access := [⟨.store, 0, 4⟩, ⟨.load, 1, 4⟩, ⟨.load, 1, 6⟩, ⟨.load, 1, 4⟩,
      ⟨.store, 0, 4⟩]
    (∀ e, Config.pair.run true t = .error e → e = .lru) ∧
    ∀ c reports, Config.pair.run true t = .ok (c, reports) → ∀ a,
      ((c.line a).state = .invalid ↔ (c.line a).sharerVector = 0) ∧
      (c.line a).lastWriter = (lastStore t a).getD DirectoryLine.noWriter ∧
      ((c.line a).state = .modified →
        (c.line a).sharerVector.getLsbD (c.line a).lastWriter = true ∧
        ∀ i, (c.line a).sharerVector.getLsbD i = true → i ≠ (c.line a).lastWriter →
          (c.line a).qualifiedReader i = true ∧ 2 ≤ ((c.line a).readCount i).toNat) :=
  adaptive_entries .pair (by decide) _ (by decide)

end AdaptiveMsi
