import AdaptiveMsi.Controller.Reached
import AdaptiveMsi.Properties.Directory
/-!
# What lowers a read count

A read count is lowered by a store that starts the memory of reads over,
and by nothing else. A change of writer is meant to take one read from
each qualified reader; the loop does, and `update_last_writer` clears what
it leaves. So the change of writer forgets as much as there is.
-/

namespace AdaptiveMsi

open Machine Protocol DirMsi

/-- No read count of the `n` processors is lowered, at any address. -/
def KeepsReads (n : ℕ) (c c' : Controller) : Prop :=
  ∀ a, ∀ i < n, ((c.line a).readCount i).toNat ≤ ((c'.line a).readCount i).toNat

namespace Controller

/-- A store by `pid` changes the last writer of a line in use. -/
def HandsOff (c : Controller) (pid : ℕ) (a : Addr) : Prop :=
  (c.line a).state ≠ .invalid ∧ (c.line a).isLastWriter pid = false

/-- **A call weakens the detector by at most one step**: a change of writer
takes at most one read from each of the others, and a read, an eviction
or a store by the last writer takes none. -/
def WeakensByOne (n : ℕ) (c c' : Controller) : DirCall → Prop
  | .processRead _ _ => KeepsReads n c c'
  | .invalidate _ _ => KeepsReads n c c'
  | .processWrite pid a =>
      (c.HandsOff pid a → ∀ i < n, i ≠ pid →
        ((c.line a).readCount i).toNat ≤ ((c'.line a).readCount i).toNat + 1) ∧
      ((c.line a).state ≠ .invalid → (c.line a).isLastWriter pid = true → KeepsReads n c c')

/-- The call changes the writer of a line for which another of the `n`
processors qualifies. -/
def FindsReader (n : ℕ) (c : Controller) : DirCall → Prop
  | .processRead _ _ => False
  | .invalidate _ _ => False
  | .processWrite pid a =>
      c.HandsOff pid a ∧ ∃ i < n, i ≠ pid ∧ (c.line a).qualifiedReader i = true

end Controller

variable {cfg : Config} {c c' c'' : Controller} {m m' : DirMsi} {n pid i : ℕ} {a b : Addr}
variable {detector : Bool} {xs : List (Event ℕ Addr)} {log : List Call} {x : DirCall}

theorem KeepsReads.trans (h : KeepsReads n c c') (h' : KeepsReads n c' c'') :
    KeepsReads n c c'' :=
  fun a i hi => (h a i hi).trans (h' a i hi)

/-- The counts are those of the entries. -/
theorem toNat_readCount_line (h : i < 32) : ((c.line a).readCount i).toNat =
    DirectoryLine.count (c.coherence.entries a).reads i :=
  DirectoryLine.toNat_readCount h

/-- A directory that remembers as many reads, processor by processor. -/
theorem keepsReads_of_entries (hn : n ≤ 32)
    (h : ∀ a, ∀ i < n, DirectoryLine.count (c.coherence.entries a).reads i ≤
      DirectoryLine.count (c'.coherence.entries a).reads i) : KeepsReads n c c' := by
  intro a i hi
  rw [toNat_readCount_line (by omega), toNat_readCount_line (by omega)]
  exact h a i hi

/-! ## Events -/

/-- Evictions remember every read. -/
theorem reads_of_evicts (hsim : Simulates xs log m m') (hxs : ∀ y ∈ xs, ∃ p b, y = .evict p b) :
    (m'.entries a).reads = (m.entries a).reads := by
  have hfewer : (m.entries a).Fewer (fun _ => True)
      (xs.foldl (Event.apply m.rules) m.entries a) := fewer_foldl fun y hy => by
    obtain ⟨p, b, rfl⟩ := hxs y hy
    exact ⟨p, b, rfl, fun _ => trivial⟩
  rw [hsim.entries, hfewer.reads]

/-- A read counts, or changes nothing. -/
theorem count_le_of_read (h16 : pid < 16) (hpacked : DirectoryLine.Packed (m.entries b).reads)
    (hsim : Simulates [.read pid a] log m m') :
    DirectoryLine.count (m.entries b).reads i ≤ DirectoryLine.count (m'.entries b).reads i := by
  rw [hsim.entries, List.foldl_cons, List.foldl_nil, Event.apply, Event.addr]
  rcases eq_or_ne b a with rfl | hne
  · rw [Function.update_self, Event.onEntry, Entry.read_reads]
    split
    · exact le_rfl
    · change _ ≤ DirectoryLine.count (DirectoryLine.missVector pid (m.entries b).reads) i
      have hle : DirectoryLine.count (m.entries b).reads pid < 4 := Digits.digit_lt (by omega)
      rw [DirectoryLine.count_missVector h16 hpacked]
      split
      · rename_i hi
        rw [hi]
        omega
      · exact le_rfl
  · rw [Function.update_of_ne hne]

/-- **A store remembers every read, or none**: the reads of its own address
are forgotten if it starts over. -/
theorem reads_of_store {response : AccessType} (h : Controller.Stores pid a xs log m m' response) :
    (m'.entries b).reads =
      if b = a ∧ (m.entries a).StartsOver m.rules pid then 0 else (m.entries b).reads := by
  have hstore : ((Event.store pid a).apply m.rules m.entries b).reads =
      if b = a ∧ (m.entries a).StartsOver m.rules pid then 0 else (m.entries b).reads := by
    rw [Event.apply, Event.addr]
    rcases eq_or_ne b a with rfl | hne
    · rw [Function.update_self, Event.onEntry, Entry.store_reads]
      simp only [true_and]
      rfl
    · rw [Function.update_of_ne hne, if_neg fun hno => hne hno.1]
  -- what its pushes evict is remembered
  have hfewer : ((Event.store pid a).apply m.rules m.entries b).Fewer (fun _ => True)
      (xs.foldl (Event.apply m.rules) ((Event.store pid a).apply m.rules m.entries) b) :=
    fewer_foldl fun y hy => by
      obtain ⟨-, -, j, d, rfl, -⟩ := h.evicts y hy
      exact ⟨j, d, rfl, fun _ => trivial⟩
  rw [h.simulates.entries, List.foldl_cons, hfewer.reads, hstore]

/-! ## Calls -/

/-- **A line fetch lowers no count**, whatever it evicts. -/
theorem ensures_keepsReads_fetch {replace : Bool} (hn : n ≤ 32) (h : pid < 32) :
    Ensures (· = .lru) (KeepsReads n c) (c.fetchCacheLine pid a replace) := by
  refine (Controller.ensures_fetchCacheLine h).mono ?_
  rintro c' - ⟨xs, log, hsim, hspill⟩
  refine keepsReads_of_entries hn fun b i _ => le_of_eq ?_
  rw [reads_of_evicts hsim fun y hy => ?_]
  obtain ⟨b, rfl, -⟩ := hspill.evicts y hy
  exact ⟨pid, b, rfl⟩

/-- A store starts over on a line that is not in use, or takes over. -/
theorem startsOver_iff (h : pid < 32) (hd : c.coherence.detector = true) :
    (c.coherence.entries a).StartsOver c.coherence.rules pid ↔
      (c.line a).state = .invalid ∨ (c.line a).isLastWriter pid = false := by
  have hwriter := DirectoryLine.writer_eq_some (d := c.line a) h
  rw [Entry.StartsOver, DirMsi.rules, rules_adaptive, hd, eq_self_iff_true, true_and]
  refine or_congr Iff.rfl ?_
  rw [Bool.eq_false_iff, Ne, Ne, ← hwriter]
  rfl

/-- **A store's reads**: it keeps them if the writer does not change, and
otherwise takes more than one where a reader qualifies. -/
theorem weakensByOne_store {response : AccessType} (hn : n ≤ 16) (h16 : pid < 16)
    (hd : c.coherence.detector = true)
    (hpacked : DirectoryLine.Packed (c.line a).readCountVector)
    (h : Controller.Stores pid a xs log c.coherence c'.coherence response) :
    c.WeakensByOne n c' (.processWrite pid a) ↔ ¬ c.FindsReader n (.processWrite pid a) := by
  have hstarts := startsOver_iff (c := c) (a := a) (show pid < 32 by omega) hd
  rw [Controller.WeakensByOne, Controller.FindsReader]
  by_cases hoff : c.HandsOff pid a
  · have hzero : (c'.coherence.entries a).reads = 0 := by
      rw [reads_of_store h, if_pos ⟨rfl, hstarts.mpr (Or.inr hoff.2)⟩]
    have hcount : ∀ i < n, ((c'.line a).readCount i).toNat = 0 := fun i hi => by
      rw [toNat_readCount_line (by omega), hzero, DirectoryLine.count_zero]
    simp only [hoff, hoff.2, true_and, true_implies, Bool.false_eq_true, false_implies,
      implies_true, and_true, not_exists, not_and]
    refine forall_congr' fun i => forall_congr' fun hi => forall_congr' fun _ => ?_
    rw [hcount i hi, toNat_readCount_line (by omega),
      DirectoryLine.qualifiedReader_iff (by omega) hpacked]
    change DirectoryLine.count (c.line a).readCountVector i ≤ _ ↔ _
    omega
  · refine iff_of_true ⟨fun hyes => absurd hyes hoff, fun hs hw => ?_⟩ fun hyes => hoff hyes.1
    refine keepsReads_of_entries (by omega) fun b i _ => le_of_eq ?_
    rw [reads_of_store h, if_neg fun hyes => ?_]
    rcases hstarts.mp hyes.2 with hno | hno
    · exact hs hno
    · rw [hw] at hno
      cases hno

/-- A read, of a reached directory. -/
theorem ensures_keepsReads_read (hn : cfg.numProcessors ≤ 16) (hc : Reached cfg detector c)
    (hpid : pid < cfg.numProcessors) :
    ∃ m' charge, c.coherence.processRead pid a = .ok (m', charge) ∧
      KeepsReads cfg.numProcessors c { c with coherence := m' } := by
  have hkeeps := hc.keeps
  obtain ⟨last, hinv⟩ := hkeeps.inv
  have hn' : c.coherence.numProcessors ≤ 32 := by rw [hkeeps.numProcessors]; omega
  obtain ⟨m', charge, hok, hsim, -⟩ :=
    simulates_processRead hn' (hkeeps.numProcessors.symm ▸ hpid) (hinv a)
  exact ⟨m', charge, hok, keepsReads_of_entries (by omega) fun b i _ =>
    count_le_of_read (by omega) (hc.packed hn b) hsim⟩

/-- **A load lowers no count**, its line fetch included. -/
theorem ensures_keepsReads_load (hn : cfg.numProcessors ≤ 16) (hc : Reached cfg detector c)
    (hpid : pid < cfg.numProcessors) :
    Ensures (· = .lru) (fun r => KeepsReads cfg.numProcessors c r.1) (c.loadSingleLine a pid) := by
  refine (ensures_keepsReads_fetch (n := cfg.numProcessors) (by omega) (by omega)).bind ?_
  intro c₁ hfetch hkept
  obtain ⟨m', charge, hok, hread⟩ := ensures_keepsReads_read (a := a) hn (hc.fetch hpid hfetch) hpid
  rw [hok]
  exact hkept.trans hread

/-- **A change of writer weakens the detector by at most one step** exactly
if none of the other processors qualifies as a reader: otherwise its
reads are all forgotten. Everything else lowers no count. -/
theorem weakensByOne_iff (cfg : Config) (hn : cfg.numProcessors ≤ 16) (c : Controller)
    (hc : Reached cfg true c) (x : DirCall) (hx : x.pid < cfg.numProcessors) :
    Ensures (· = .lru) (fun c' => c.WeakensByOne cfg.numProcessors c' x ↔
      ¬ c.FindsReader cfg.numProcessors x) (c.call x) := by
  cases x with
  | processRead pid a =>
    have hpid : pid < cfg.numProcessors := hx
    obtain ⟨m', charge, hok, hread⟩ := ensures_keepsReads_read (a := a) hn hc hpid
    rw [Controller.call, hok]
    exact iff_of_true hread id
  | invalidate pid a =>
    have h16 : pid < 16 := lt_of_lt_of_le hx hn
    refine iff_of_true ?_ id
    refine keepsReads_of_entries (by omega) fun b i _ => le_of_eq ?_
    rw [reads_of_evicts (simulates_invalidate (by omega)) fun y hy => ?_]
    exact ⟨pid, a, List.mem_singleton.mp hy⟩
  | processWrite pid a =>
    have hkeeps := hc.keeps
    obtain ⟨last, hinv⟩ := hkeeps.inv
    have hn' : c.coherence.numProcessors ≤ 32 := by rw [hkeeps.numProcessors]; omega
    have hx' : pid < c.coherence.numProcessors := hkeeps.numProcessors.symm ▸ hx
    refine (Controller.ensures_processWrite hn' hx' (hinv a)).bind fun r _ hr => ?_
    obtain ⟨xs, log, hstores⟩ := hr
    exact weakensByOne_store hn (lt_of_lt_of_le hx hn) hkeeps.detector (hc.packed hn a) hstores

/-- A reader that read once, and a new writer. -/
theorem weakensByOne_iff_quad :
    ∃ c rs, Config.quad.run true [⟨.store, 0, 4⟩, ⟨.load, 1, 4⟩] = .ok (c, rs) ∧
      Ensures (· = .lru) (fun c' => c.WeakensByOne 4 c' (.processWrite 2 4) ↔
        ¬ c.FindsReader 4 (.processWrite 2 4)) (c.call (.processWrite 2 4)) := by
  have hrun : Ensures (fun _ => False) (fun _ => True)
      (Config.quad.run true [⟨.store, 0, 4⟩, ⟨.load, 1, 4⟩]) := by decide
  obtain ⟨⟨c, rs⟩, hok, -⟩ := hrun.exists_ok
  have hreached : Reached .quad true c := reached_of_run (by decide) hok
  exact ⟨c, rs, hok, weakensByOne_iff .quad (by decide) c hreached (.processWrite 2 4) (by decide)⟩

/-- **Two reads are forgotten at once** when processor `2` takes the line
over. -/
theorem handoff_forgets :
    ∃ c rs c', Config.quad.run true [⟨.store, 0, 4⟩, ⟨.load, 1, 4⟩, ⟨.store, 0, 4⟩, ⟨.load, 1, 4⟩] =
        .ok (c, rs) ∧ c.call (.processWrite 2 4) = .ok c' ∧
      (c.line 4).state ≠ .invalid ∧ (c.line 4).isLastWriter 2 = false ∧
      ((c.line 4).readCount 1).toNat = 2 ∧ ((c'.line 4).readCount 1).toNat = 0 ∧
      ¬ c.WeakensByOne 4 c' (.processWrite 2 4) := by
  have hrun : Ensures (fun _ => False) (fun s => (s.1.line 4).state ≠ .invalid ∧
      (s.1.line 4).isLastWriter 2 = false ∧ ((s.1.line 4).readCount 1).toNat = 2 ∧
      Ensures (fun _ => False) (fun c' => ((c'.line 4).readCount 1).toNat = 0)
        (s.1.call (.processWrite 2 4)))
      (Config.quad.run true
        [⟨.store, 0, 4⟩, ⟨.load, 1, 4⟩, ⟨.store, 0, 4⟩, ⟨.load, 1, 4⟩]) := by decide
  obtain ⟨⟨c, rs⟩, hok, hstate, hlast, hbefore : ((c.line 4).readCount 1).toNat = 2, hcall⟩ :=
    hrun.exists_ok
  obtain ⟨c', hok', hafter : ((c'.line 4).readCount 1).toNat = 0⟩ := hcall.exists_ok
  refine ⟨c, rs, c', hok, hok', hstate, hlast, hbefore, hafter, fun hweak => ?_⟩
  have hone := hweak.1 ⟨hstate, hlast⟩ 1 (by omega) (by omega)
  omega

end AdaptiveMsi
