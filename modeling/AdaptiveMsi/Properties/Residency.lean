import AdaptiveMsi.Cache.Contents
import AdaptiveMsi.Properties.Directory
/-!
# Residency

A sharer bit stands for a line in a cache, and the only thing that keeps
the two together is the address a set hands to `invalidate` when it
displaces a line. The selection loop hands over `0` for the first way,
and one address for a line of several. `EvictOk` says of a state that the
fetches of the next access displace lines of which the address handed
over is the only one with a bit; along such accesses every bit stands for
a line.
-/

namespace AdaptiveMsi

open Machine Protocol DirMsi

/-- Every sharer bit stands for a line in the processor's cache. -/
def Resident (cfg : Config) (c : Controller) : Prop :=
  ∀ a p, p < cfg.numProcessors → (c.line a).isSet p = true →
    (c.cache p (c.getSetIndex a)).Holds (c.getTag a)

/-- A line fetch for `pid` displaces no line of which an address other
than the one handed to `invalidate` has the processor's bit. -/
def Controller.FetchOk (c : Controller) (pid : ℕ) (addr : Addr) : Prop :=
  ∀ l x, (c.cache pid (c.getSetIndex addr)).displaced (c.getTag addr) = some (l, x) →
    ∀ b, c.getTag b = l.tag → c.getSetIndex b = c.getSetIndex addr →
      (c.line b).isSet pid = true → b = x

/-- Neither the access's own line fetch nor its pushes do. -/
def EvictOk (cfg : Config) (c : Controller) (x : Access) : Prop :=
  c.FetchOk x.pid x.addr ∧
    (x.kind = .store → c.coherence.detector = true → (c.line x.addr).state ≠ .invalid →
      (c.line x.addr).isLastWriter x.pid = true →
      ∀ i < cfg.numProcessors, i ≠ x.pid → (c.line x.addr).qualifiedReader i = true →
        c.FetchOk i x.addr)

namespace Controller

variable {cfg : Config} {c c' c₁ : Controller} {pid p q i : ℕ} {a b : Addr} {replace : Bool}

/-! ## The invariant -/

/-- The geometry is the machine's, the sets are tidy and the sharers'
lines are there. -/
structure Residents (cfg : Config) (c : Controller) : Prop where
  shaped : c.Shaped cfg
  tidy : ∀ p i, (c.cache p i).Tidy
  resident : ∀ p a, p ∈ (c.coherence.entries a).sharers →
    (c.cache p (cfg.index a)).Holds (cfg.tag a)

/-- Bits may be set for lines that are there, and cleared. -/
theorem Residents.mono (h : Residents cfg c) (hshape : c'.Shaped cfg) (hcache : c'.cache = c.cache)
    (hsharers : ∀ p a, p ∈ (c'.coherence.entries a).sharers →
      p ∈ (c.coherence.entries a).sharers ∨ (c.cache p (cfg.index a)).Holds (cfg.tag a)) :
    Residents cfg c' where
  shaped := hshape
  tidy p i := by
    rw [hcache]
    exact h.tidy p i
  resident p a hp := by
    rw [hcache]
    rcases hsharers p a hp with hp | hp
    · exact h.resident p a hp
    · exact hp

theorem fetchOk_iff (h32 : pid < 32) (hs : c.Shaped cfg) : c.FetchOk pid a ↔
    ∀ l x, (c.cache pid (cfg.index a)).displaced (cfg.tag a) = some (l, x) →
      ∀ b, cfg.tag b = l.tag → cfg.index b = cfg.index a →
        pid ∈ (c.coherence.entries b).sharers → b = x := by
  have hset : ∀ b, (c.line b).isSet pid = true ↔ pid ∈ (c.coherence.entries b).sharers :=
    fun b => DirectoryLine.isSet_iff h32
  simp only [FetchOk, hs.getTag, hs.getSetIndex, hset]

theorem FetchOk.mono (h : c.FetchOk pid a) (h32 : pid < 32) (hs : c.Shaped cfg)
    (hs' : c'.Shaped cfg) (hcache : c'.cache pid = c.cache pid)
    (hsharers : ∀ b, pid ∈ (c'.coherence.entries b).sharers →
      pid ∈ (c.coherence.entries b).sharers) : c'.FetchOk pid a := by
  rw [fetchOk_iff h32 hs] at h
  rw [fetchOk_iff h32 hs', hcache]
  intro l x hl b htag hindex hmem
  exact h l x hl b htag hindex (hsharers b hmem)

/-- A fetch of a line that is there displaces nothing. -/
theorem fetchOk_of_holds (h32 : pid < 32) (hs : c.Shaped cfg)
    (h : (c.cache pid (cfg.index a)).Holds (cfg.tag a)) : c.FetchOk pid a := by
  rw [fetchOk_iff h32 hs]
  intro l x hl
  obtain ⟨l', hl', htag, -⟩ := h
  rw [CacheSet.displaced_eq, if_pos (List.any_eq_true.mpr ⟨l', hl', by simpa using htag⟩)] at hl
  cases hl

/-! ## One line fetch -/

/-- What a line fetch of `pid` at `a` leaves. -/
structure Fills (cfg : Config) (pid : ℕ) (a : Addr) (c c' : Controller) : Prop where
  residents : Residents cfg c'
  holds : (c'.cache pid (cfg.index a)).Holds (cfg.tag a)
  cache : ∀ q ≠ pid, c'.cache q = c.cache q
  sharers : ∀ q b, q ∈ (c'.coherence.entries b).sharers → q ∈ (c.coherence.entries b).sharers

/-- **A fetch that displaces no shared address keeps every bit's line.** -/
theorem ensures_fills (hgeo : 2 ≤ cfg.numSets * cfg.lineSize) (h32 : pid < 32)
    (h : Residents cfg c) (hok : c.FetchOk pid a) :
    Ensures (· = .lru) (Fills cfg pid a c) (c.fetchCacheLine pid a replace) := by
  have hs := h.shaped
  rw [fetchOk_iff h32 hs] at hok
  refine (hs.ensures_fetched hgeo (h.tidy pid (cfg.index a))).mono ?_
  rintro c' - ⟨r, hr, rfl⟩
  obtain ⟨htidy', hholds, hkeeps⟩ := hr.holds (h.tidy pid (cfg.index a))
  obtain ⟨calls, hsim⟩ := hr.simulates h32
  have hfewer : ∀ b, (c.coherence.entries b).Fewer (· = pid) (r.2.entries b) := by
    intro b
    rw [hsim.entries]
    refine fewer_foldl fun y hy => ?_
    obtain ⟨d, -, rfl⟩ := Option.map_eq_some_iff.mp (Option.mem_toList.mp hy)
    exact ⟨pid, d.2, rfl, fun _ => rfl⟩
  have hsharers : ∀ q b, q ∈ (r.2.entries b).sharers → q ∈ (c.coherence.entries b).sharers :=
    fun q b hq => (hfewer b).sharers hq
  refine ⟨⟨hs.congr rfl rfl, ?_, ?_⟩, ?_, ?_, hsharers⟩
  · intro p i
    rw [cache_putSet]
    split
    · exact htidy'
    · exact h.tidy p i
  · intro p b hp
    have hold := h.resident p b (hsharers p b hp)
    rw [cache_putSet]
    split
    · rename_i heq
      obtain ⟨rfl, hindex⟩ := heq
      refine hkeeps _ (hindex ▸ hold) fun l x hl htagl => ?_
      -- the displaced line was of this address: it is the one handed over
      have hbx : b = x := hok l x hl b htagl.symm hindex (hsharers p b hp)
      have hp' : p ∈ (r.2.entries b).sharers := hp
      rw [hsim.entries_at, hl] at hp'
      simp [hbx, Event.addr, Event.onEntry] at hp'
    · exact hold
  · rw [cache_putSet, if_pos ⟨rfl, rfl⟩]
    exact hholds
  · intro q hq
    funext j
    rw [cache_putSet, if_neg fun h => hq h.1]

/-! ## The push loop -/

variable {done : List ℕ} {home cost hops : ℕ} {x : Access} {t : List Access} {detector : Bool}

/-- The residents along the push loop of `pid`: the caches of the
processors ahead of it are those of the start, and their bits are not
more. -/
structure Filling (cfg : Config) (c₁ : Controller) (pid : ℕ) (done : List ℕ) (c : Controller) :
    Prop where
  residents : Residents cfg c
  cache : ∀ i ∉ done, i ≠ pid → c.cache i = c₁.cache i
  sharers : ∀ i ∉ done, i ≠ pid → ∀ b, i ∈ (c.coherence.entries b).sharers →
    i ∈ (c₁.coherence.entries b).sharers

theorem mem_sharers_setSharer (h32 : i < 32) :
    p ∈ ((c.setLine a ((c.line a).setSharer i)).coherence.entries b).sharers ↔
      p = i ∧ b = a ∨ p ∈ (c.coherence.entries b).sharers := by
  rw [setLine_coherence]
  rcases eq_or_ne b a with rfl | hne
  · rw [entries_setLine_self, DirectoryLine.entry_sharers, DirectoryLine.sharers_setSharer h32,
      Finset.mem_insert]
    exact or_congr_left (and_iff_left rfl).symm
  · rw [entries_setLine_of_ne hne]
    exact (or_iff_right fun h => hne h.2).symm

theorem mem_sharers_clearSharer (h32 : i < 32)
    (hp : p ∈ ((c.setLine a ((c.line a).clearSharer i)).coherence.entries b).sharers) :
    p ∈ (c.coherence.entries b).sharers := by
  rw [setLine_coherence] at hp
  rcases eq_or_ne b a with rfl | hne
  · rw [entries_setLine_self, DirectoryLine.entry_sharers,
      DirectoryLine.sharers_clearSharer h32] at hp
    exact Finset.mem_of_mem_erase hp
  · rwa [entries_setLine_of_ne hne] at hp

/-- A set bit for a line that is there. -/
theorem Fills.setSharer (h : Fills cfg i a c c') (h32 : i < 32) :
    Residents cfg (c'.setLine a ((c'.line a).setSharer i)) := by
  refine h.residents.mono (h.residents.shaped.congr rfl rfl) rfl ?_
  intro p b hp
  rcases (mem_sharers_setSharer h32).mp hp with ⟨rfl, rfl⟩ | hp
  · exact Or.inr h.holds
  · exact Or.inl hp

/-- **One round.** -/
theorem ensures_filling_pushBody (hgeo : 2 ≤ cfg.numSets * cfg.lineSize) (h32 : i < 32)
    (h : Filling cfg c₁ pid done c) (hdone : i ∉ done) (hs₁ : c₁.Shaped cfg)
    (hok : i ≠ pid → (c.line a).qualifiedReader i = true → c₁.FetchOk i a) :
    Ensures (· = .lru) (fun st => Filling cfg c₁ pid (done ++ [i]) st.1)
      (pushBody pid home a (c, cost, hops) i) := by
  have hskip : Filling cfg c₁ pid (done ++ [i]) c :=
    ⟨h.residents, fun j hj => h.cache j (by simp_all), fun j hj => h.sharers j (by simp_all)⟩
  simp only [pushBody]
  by_cases hne : i = pid
  · rw [if_neg (not_not_intro hne)]
    exact hskip
  rw [if_pos hne]
  by_cases hq : (c.line a).qualifiedReader i = true
  · rw [if_pos hq]
    -- the cache of `i` is as at the start, so its fetch displaces no shared address
    have hfetch : (c.record (.push i a)).FetchOk i a :=
      (hok hne hq).mono h32 hs₁ (h.residents.shaped.congr rfl rfl)
        (h.cache i hdone hne) (h.sharers i hdone hne)
    have hres : Residents cfg (c.record (.push i a)) :=
      h.residents.mono (h.residents.shaped.congr rfl rfl) rfl
        fun p b hp => Or.inl hp
    refine (ensures_fills hgeo h32 hres hfetch).bind fun c' _ hc' => ?_
    -- the caches further ahead are not touched
    have hnext : ∀ j ∉ done ++ [i], j ≠ pid → c'.cache j = c₁.cache j ∧
        ∀ b, j ∈ (c'.coherence.entries b).sharers → j ∈ (c₁.coherence.entries b).sharers := by
      intro j hj hjp
      have hji : j ≠ i := fun he => hj (by simp [he])
      have hjd : j ∉ done := fun hd => hj (by simp [hd])
      exact ⟨(hc'.cache j hji).trans (h.cache j hjd hjp), fun b hb =>
        h.sharers j hjd hjp b (hc'.sharers j b hb)⟩
    by_cases hset : (!(c'.line a).isSet i) = true
    · rw [if_pos hset]
      refine ⟨hc'.setSharer h32, fun j hj hjp => (hnext j hj hjp).1, fun j hj hjp b hb => ?_⟩
      rcases (mem_sharers_setSharer h32).mp hb with ⟨rfl, -⟩ | hb
      · exact absurd hj (by simp)
      · exact (hnext j hj hjp).2 b hb
    · rw [if_neg hset]
      exact ⟨hc'.residents, fun j hj hjp => (hnext j hj hjp).1, fun j hj hjp => (hnext j hj hjp).2⟩
  · rw [if_neg hq]
    by_cases hset : (c.line a).isSet i = true
    · rw [if_pos hset]
      refine ⟨h.residents.mono (h.residents.shaped.congr rfl rfl) rfl
        fun p b hp => Or.inl (mem_sharers_clearSharer h32 hp), hskip.cache, fun j hj hjp b hb => ?_⟩
      exact hskip.sharers j hj hjp b (mem_sharers_clearSharer h32 hb)
    · rw [if_neg hset]
      exact hskip

/-- The refetch of an evicted last writer, whose line is there. -/
theorem ensures_filling_refetch (hgeo : 2 ≤ cfg.numSets * cfg.lineSize) (h32 : pid < 32)
    (h : Residents cfg c) (hholds : (c.cache pid (cfg.index a)).Holds (cfg.tag a)) :
    Ensures (· = .lru) (fun r => Filling cfg c pid [] r.1) (c.refetch pid a cost) := by
  simp only [refetch]
  split
  · refine (ensures_fills hgeo h32 h (fetchOk_of_holds h32 h.shaped hholds)).bind
      fun c' _ hc' => ?_
    refine ⟨hc'.setSharer h32, fun i _ hne => hc'.cache i hne, fun i _ hne b hb => ?_⟩
    rcases (mem_sharers_setSharer h32).mp hb with ⟨rfl, -⟩ | hb
    · exact absurd rfl hne
    · exact hc'.sharers i b hb
  · exact ⟨h, fun _ _ _ => rfl, fun _ _ _ _ hb => hb⟩

/-- **The last writer's branch.** -/
theorem ensures_residents_of_callsBack (hgeo : 2 ≤ cfg.numSets * cfg.lineSize)
    (hn : c.coherence.numProcessors ≤ 32) (hp : pid < c.coherence.numProcessors)
    (hinv : (c.coherence.entries a).state = .invalid ↔ (c.coherence.entries a).sharers = ∅)
    (hcalls : CallsBack c.coherence pid a) (h : Residents cfg c)
    (hholds : (c.cache pid (cfg.index a)).Holds (cfg.tag a))
    (hok : ∀ i < c.coherence.numProcessors, i ≠ pid → (c.line a).qualifiedReader i = true →
      c.FetchOk i a) :
    Ensures (· = .lru) (fun r => Residents cfg r.1) (c.processWrite pid a) := by
  have h32 : pid < 32 := by omega
  have hwrites : Writes c.coherence pid a := ⟨hn, hcalls.1, hp, hcalls.2.2, hcalls.2.1⟩
  rw [processWrite_of_callsBack h32 hcalls]
  refine ((ensures_refetch hwrites hinv).and
    (ensures_filling_refetch hgeo h32 h hholds)).bind ?_
  rintro ⟨c', cost, response⟩ - ⟨⟨-, xs, log, hpush⟩, hfilling⟩
  have hnum : c'.coherence.numProcessors = c.coherence.numProcessors := hpush.numProcessors
  rw [hnum]
  have hloop := ensures_foldlM (E := (· = .lru))
    (I := fun done (st : Controller × ℕ × ℕ) =>
      (∃ xs log, Pushing c.coherence pid a done xs log st.1.coherence) ∧
        Filling cfg c pid done st.1)
    (f := pushBody pid (c.coherence.getHomeNode a) a) (l := List.range c.coherence.numProcessors)
    (s := (c', cost, (getDirectoryCost pid (c.coherence.getHomeNode a) 0).2))
    ⟨⟨xs, log, hpush⟩, hfilling⟩ ?_
  · refine hloop.bind ?_
    rintro ⟨c'', cost', hops'⟩ - ⟨-, hfilling'⟩
    refine hfilling'.residents.mono (hfilling'.residents.shaped.congr rfl rfl) rfl
      fun p b hb => Or.inl ?_
    change p ∈ ((c''.coherence.setLine a _).entries b).sharers at hb
    rcases eq_or_ne b a with rfl | hne
    · rw [entries_setLine_self] at hb
      exact hb
    · rwa [entries_setLine_of_ne hne] at hb
  · rintro u i v ⟨d, cost', hops'⟩ hl ⟨⟨xs', log', hpush'⟩, hfilling'⟩
    have hi := lt_of_range_eq hl
    have hdone := notMem_of_range_eq hl
    refine (ensures_pushBody hwrites hi hpush').and
      (ensures_filling_pushBody hgeo (by omega) hfilling' hdone h.shaped fun hne hq => ?_)
    exact hok i hi hne (by rwa [show (d.line a).qualifiedReader i = _ from hpush'.qualified] at hq)

/-! ## One access -/

/-- An event that lets in no processor but its own, whose line is there. -/
theorem Residents.simulates {y : Event ℕ Addr} {log : List Call} {m : DirMsi}
    (h : Residents cfg c) (hsim : Simulates [y] log c.coherence m)
    (hholds : (c.cache y.proc (cfg.index y.addr)).Holds (cfg.tag y.addr))
    (hsharers : ∀ i ∈ (y.onEntry c.coherence.rules (c.coherence.entries y.addr)).sharers,
      i = y.proc ∨ i ∈ (c.coherence.entries y.addr).sharers) :
    Residents cfg { c with coherence := m } := by
  refine h.mono (h.shaped.congr rfl rfl) rfl fun p b hp => ?_
  change p ∈ (m.entries b).sharers at hp
  rw [hsim.entries, List.foldl_cons, List.foldl_nil, Event.apply] at hp
  rcases eq_or_ne b y.addr with rfl | hne
  · rw [Function.update_self] at hp
    rcases hsharers p hp with rfl | hp
    · exact Or.inr hholds
    · exact Or.inl hp
  · rw [Function.update_of_ne hne] at hp
    exact Or.inl hp

/-- The pushes of a store find the caches the access started with. -/
theorem pushes_fetchOk {pre : List (Event ℕ Addr)} {calls : List Call}
    (hn : cfg.numProcessors ≤ 32) (ht : Tracks cfg.numProcessors detector t c.coherence)
    (hf : Fetched cfg.numProcessors detector t x c.coherence pre calls c₁.coherence)
    (hfills : Fills cfg x.pid x.addr c.clearCalls c₁) (hs : c.Shaped cfg) (hk : x.kind = .store)
    (hcalls : CallsBack c₁.coherence x.pid x.addr) (hx : x.pid < 32) (hok : EvictOk cfg c x) :
    ∀ i < cfg.numProcessors, i ≠ x.pid → (c₁.line x.addr).qualifiedReader i = true →
      c₁.FetchOk i x.addr := by
  have hfewer := hf.fewer
  have hstate : (c.line x.addr).state ≠ .invalid := by
    intro hinvalid
    have hnone : (c.coherence.entries x.addr).sharers = ∅ :=
      (ht.inv x.addr).invalid_iff.mp hinvalid
    exact hcalls.2.1 (hf.inv.invalid_iff.mpr (Finset.subset_empty.mp (hnone ▸ hfewer.sharers)))
  have hwriter : (c.line x.addr).isLastWriter x.pid = true :=
    (DirectoryLine.writer_eq_some hx).mp (hfewer.writer.symm.trans hcalls.2.2)
  have hreads : (c₁.line x.addr).readCountVector = (c.line x.addr).readCountVector := hfewer.reads
  have hdetector : c.coherence.detector = true :=
    ht.detector.trans (hf.detector.symm.trans hcalls.1)
  intro i hi hne hq
  rw [DirectoryLine.qualifiedReader, hreads] at hq
  exact (hok.2 hk hdetector hstate hwriter i hi hne hq).mono (by omega) hs
    hfills.residents.shaped (hfills.cache i hne) fun b => hfills.sharers i b

/-- **One access.** -/
theorem ensures_residents (hgeo : 2 ≤ cfg.numSets * cfg.lineSize)
    (ht : Tracks cfg.numProcessors detector t c.coherence) (hx : x.pid < cfg.numProcessors)
    (h : Residents cfg c) (hok : EvictOk cfg c x) :
    Ensures (· = .lru) (fun r => Residents cfg r.1) (c.step x) := by
  have hn := cfg.numProcessors_le
  have h32 : x.pid < 32 := by omega
  have hclear : Residents cfg c.clearCalls :=
    h.mono (h.shaped.congr rfl rfl) rfl fun p a hp => Or.inl hp
  rw [step_eq]
  refine ((ensures_fetched hn ht hx).and (ensures_fills hgeo h32 hclear hok.1)).bind ?_
  rintro c₁ - ⟨⟨pre, calls, hf⟩, hfills⟩
  have hn₁ : c₁.coherence.numProcessors ≤ 32 := hf.numProcessors ▸ hn
  have hx₁ : x.pid < c₁.coherence.numProcessors := hf.numProcessors ▸ hx
  have hpush := pushes_fetchOk hn ht hf hfills h.shaped
  suffices hhandle : Ensures (· = .lru) (fun s => Residents cfg s.1) (c₁.handle x) from
    hhandle.bind fun s _ hs => hs
  obtain ⟨kind, pid, a⟩ := x
  cases kind with
  | load =>
    obtain ⟨m', charge, hm', hread, -⟩ := simulates_processRead hn₁ hx₁ hf.inv
    simp only [handle, hm', ok_bind]
    exact hfills.residents.simulates hread hfills.holds fun i =>
      (Entry.mem_sharers_read c₁.coherence.rules).mp
  | store =>
    by_cases hcalls : CallsBack c₁.coherence pid a
    · exact ensures_residents_of_callsBack hgeo hn₁ hx₁ hf.inv.invalid_iff hcalls
        hfills.residents hfills.holds (hf.numProcessors ▸ hpush rfl hcalls h32 hok)
    · obtain ⟨m', charge, log, hm', hstores⟩ := exists_processWrite hcalls hn₁ hx₁ hf.inv
      rw [handle, hm']
      refine hfills.residents.simulates hstores.simulates hfills.holds fun i hi => ?_
      rcases (Entry.mem_sharers_store c₁.coherence.rules).mp hi with rfl | hpushes
      · exact Or.inl rfl
      · exact (hcalls ⟨hpushes.1, hpushes.2.1, hpushes.2.2.1⟩).elim

theorem residents_start : Residents cfg (cfg.start detector) where
  shaped := shaped_start
  tidy _ _ := .new cfg.associativity_pos
  resident p a hp := by
    rw [entries_start] at hp
    exact absurd hp (Finset.notMem_empty p)

theorem Residents.toResident (h : Residents cfg c) : Resident cfg c := by
  intro a p hp hset
  have hle := cfg.numProcessors_le
  rw [h.shaped.getTag, h.shaped.getSetIndex]
  exact h.resident p a ((DirectoryLine.isSet_iff (by omega)).mp hset)

end Controller

/-! ## Runs -/

/-- **Every sharer bit stands for a line**, along the accesses whose
fetches hand over the one address of a displaced line that has a bit. -/
theorem resident_of_evictOk (cfg : Config) (detector : Bool) (t : List Access)
    (hgeo : 2 ≤ cfg.numSets * cfg.lineSize) (hv : cfg.Valid t)
    (h : cfg.Respects detector t (EvictOk cfg)) :
    cfg.Throughout detector t (Resident cfg) := by
  have hall : cfg.Throughout detector t (Controller.Residents cfg) := by
    refine throughout_of_respects hv Controller.residents_start ?_ h
    intro u x c c' r hx ht hres hok hstep
    exact (Controller.ensures_residents hgeo ht hx hres hok).of_ok hstep
  intro u v c reports htuv hrun
  exact (hall u v c reports htuv hrun).toResident

/-- The line of address `0`, whose bit is its only one, is displaced by a
store to the next line. -/
theorem resident_of_evictOk_pair :
    Config.pair.Throughout true [⟨.load, 0, 0⟩, ⟨.store, 0, 2⟩] (Resident .pair) := by
  refine resident_of_evictOk .pair true _ (by decide) (by decide) ?_
  have hfirst : Config.pair.Respects true [⟨.load, 0, 0⟩] (EvictOk .pair) := by
    refine respects_nil.snoc (t := []) fun c rs hrun => ⟨fun l y hl => ?_, fun hk => by cases hk⟩
    have hnone : Ensures (fun _ => False)
        (fun s => (s.1.cache 0 (s.1.getSetIndex 0)).displaced (s.1.getTag 0) = none)
        (Config.pair.run true []) := by decide
    cases (hnone.of_ok hrun).symm.trans hl
  refine hfirst.snoc fun c rs hrun => ?_
  obtain ⟨c₀, rs₀, r, pre, post, hrun₀, -, -, hstepped⟩ :=
    run_then (u := []) (x := ⟨.load, 0, 0⟩) (by decide) hrun
  cases hrun₀
  have hzero : ∀ b i, i ∈ (c.coherence.entries b).sharers → b = 0 := by
    intro b i hi
    rcases hstepped.mem_sharers hi with hold | ⟨hb, -⟩
    · rw [entries_start] at hold
      exact absurd hold (Finset.notMem_empty i)
    · exact hb.symm
  have hone : Ensures (fun _ => False) (fun s => (s.1.line 2).state = .invalid ∧
      ∀ d ∈ (s.1.cache 0 (s.1.getSetIndex 2)).displaced (s.1.getTag 2), d.2 = 0)
      (Config.pair.run true [⟨.load, 0, 0⟩]) := by decide
  obtain ⟨hinvalid, hd⟩ := hone.of_ok hrun
  refine ⟨fun l y hl b _ _ hset => ?_, fun _ _ h => absurd hinvalid h⟩
  exact (hzero b 0 ((DirectoryLine.isSet_iff (by decide)).mp hset)).trans (hd (l, y) hl).symm

/-- **A load that displaces the line in the first way leaves its bit.**
The set hands `0` to `invalidate`, and the line was of address `2`. -/
theorem load_load_not_resident :
    ¬ Config.pair.Throughout false [⟨.load, 0, 2⟩, ⟨.load, 0, 4⟩] (Resident .pair) := by
  intro h
  have hrun : Ensures (fun _ => False) (fun s => (s.1.line 2).isSet 0 = true ∧
      ¬ (s.1.cache 0 (s.1.getSetIndex 2)).Holds (s.1.getTag 2))
      (Config.pair.run false [⟨.load, 0, 2⟩, ⟨.load, 0, 4⟩]) := by decide
  obtain ⟨⟨c, rs⟩, hok, hset, hno⟩ := hrun.exists_ok
  exact hno (h [⟨.load, 0, 2⟩, ⟨.load, 0, 4⟩] [] c rs rfl hok 2 0 (by decide) hset)

end AdaptiveMsi
