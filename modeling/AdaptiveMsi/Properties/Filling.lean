import AdaptiveMsi.Controller.Mirror
import AdaptiveMsi.Properties.Overflow
import AdaptiveMsi.Properties.Representation
/-!
# Runs that fill a set

Along baseline loads of different lines, every way in use was used once,
and as long as they fit the directory is what the loads alone make of it.
The first line too many for a set finds all counters the same, and what
gives way is the first way, whose address is handed over as `0`.
-/

namespace AdaptiveMsi

open Machine Protocol DirMsi

/-! ## Low counters -/

namespace CacheSet

variable {s : CacheSet} {m : DirMsi} {lines : List CacheLine} {tag : BitVec 64} {addr : Addr}
variable {replace : Bool} {pid k ways : ℕ}

/-- No counter is above `k`. -/
def Below (k : ℕ) (s : CacheSet) : Prop := ∀ l ∈ s.lines, l.lru.toNat ≤ k

theorem Below.line {i : ℕ} (h : s.Below k) : (s.line i).lru.toNat ≤ k := by
  by_cases hlt : i < s.lines.length
  · exact h _ (getD_mem hlt .empty)
  · have hempty : s.line i = .empty := by
      simp [CacheSet.line, List.getD_eq_getElem?_getD, List.getElem?_eq_none (Nat.le_of_not_lt hlt)]
    rw [hempty]
    exact Nat.zero_le k

theorem below_succ {n : BitVec 64} (h : n.toNat ≤ k) : (n + 1).toNat ≤ k + 1 := by
  rw [BitVec.toNat_add]
  exact (Nat.mod_le _ _).trans (Nat.add_le_add_right h 1)

theorem ensures_fetchLoop_below (hk : k + 2 < 2 ^ 64) (h : ∀ l ∈ lines, l.lru.toNat ≤ k) :
    Ensures (fun _ => False) (fun r => ∀ l ∈ r.1, l.lru.toNat ≤ k + 1)
      (fetchLoop tag replace lines) := by
  induction lines with
  | nil => simp [fetchLoop]
  | cons l lines ih =>
    obtain ⟨hl, hlines⟩ := List.forall_mem_cons.mp h
    have hkeep : ∀ l ∈ lines, l.lru.toNat ≤ k + 1 := fun l hl => (hlines l hl).trans (by omega)
    rw [fetchLoop]
    split
    · split
      · have hne : (l.lru + 1 != allOnes) = true := by
          have hlt := below_succ hl
          refine bne_iff_ne.mpr fun he => ?_
          rw [he] at hlt
          have hall : allOnes.toNat = 2 ^ 64 - 1 := by decide
          omega
        dsimp only
        rw [hne]
        exact List.forall_mem_cons.mpr ⟨below_succ hl, hkeep⟩
      · exact List.forall_mem_cons.mpr ⟨by omega, hkeep⟩
    · refine (ih hlines).bind fun r _ hr => ?_
      exact List.forall_mem_cons.mpr ⟨by omega, hr⟩

/-- **A fetch does not fail on low counters**, and raises one by two at
most. -/
theorem Below.ensures_fetchSingleLine (h : s.Below k) (hk : k + 2 < 2 ^ 64) :
    Ensures (fun _ => False) (fun r => r.1.Below (k + 2))
      (s.fetchSingleLine pid tag addr m replace) := by
  have hfetch : Ensures (fun _ => False) (fun r => ∀ l ∈ r.1.lines, l.lru.toNat ≤ k + 1)
      (s.fetch tag replace) := (ensures_fetchLoop_below hk h).bind fun _ _ hr => hr
  refine hfetch.bind ?_
  rintro ⟨s', status⟩ - hs'
  replace hs' : s'.Below (k + 1) := hs'
  cases status with
  | cached => exact fun l hl => (hs' l hl).trans (by omega)
  | uncached =>
    intro l hl
    change l ∈ (s'.install (s'.evict pid m).1 tag addr replace).lines at hl
    rcases mem_install hl with hl | rfl
    · exact (hs' l hl).trans (by omega)
    · have hline : (s'.line (s'.evict pid m).1).lru.toNat ≤ k + 1 := hs'.line
      simp only [installed]
      split
      · exact below_succ hline
      · omega

/-! ## Lines used once -/

variable {T : Finset (BitVec 64)}

/-- Every way in use holds a line of `T` and was used once. -/
def Once (T : Finset (BitVec 64)) (s : CacheSet) : Prop :=
  ∀ l ∈ s.lines, l.status = .cached → l.lru = 1 ∧ l.tag ∈ T

theorem Once.absent (h : s.Once T) (hs : s.Stocks ways T) (htag : tag ≠ allOnes) (hnew : tag ∉ T) :
    ∀ l ∈ s.lines, l.tag ≠ tag := by
  rintro l hl rfl
  cases hst : l.status with
  | cached => exact hnew (h l hl hst).2
  | uncached => exact htag (hs.uncached l hl hst).1

/-- **A new line** with a way to spare. -/
theorem Once.fetched {r : CacheSet × DirMsi} (h : s.Once T) (hs : s.Stocks ways T)
    (hr : Fetched pid tag addr true s m r) (hnew : tag ∉ T) (hT : T.card < ways) :
    r.1.Once (insert tag T) := by
  have hold : ∀ l ∈ s.lines, l.status = .cached → l.lru = 1 ∧ l.tag ∈ insert tag T :=
    fun l hl hst => ⟨(h l hl hst).1, Finset.mem_insert_of_mem (h l hl hst).2⟩
  cases hr with
  | hit pre l post hlines hpre htag hstatus hlru =>
    exact absurd (htag ▸ (h l (by simp [hlines]) hstatus).2) hnew
  | miss habsent =>
    intro l hl hst
    rcases mem_install hl with hl | rfl
    · exact hold l hl hst
    · have hpos := (hs.clean (by omega)).pos
      have hzero : (s.line s.victim.evict).lru = 0 :=
        (hs.uncached _ (victim_mem hpos) (hs.victim_uncached hT)).2
      refine ⟨?_, Finset.mem_insert_self tag T⟩
      simp only [installed, hzero, if_true]
      rfl

/-- A set with a line for every way is in full use. -/
theorem Stocks.cached_of_full (hs : s.Stocks ways T) (hT : T.card = ways) :
    ∀ l ∈ s.lines, l.status = .cached := by
  have hsub : T ⊆ ((s.lines.filter (·.status = .cached)).map CacheLine.tag).toFinset := by
    intro t ht
    obtain ⟨l, hl, rfl, hst⟩ := hs.holds t ht
    exact List.mem_toFinset.mpr (List.mem_map.mpr ⟨l, by simp [hl, hst], rfl⟩)
  have hle := (Finset.card_le_card hsub).trans (List.toFinset_card_le _)
  rw [List.length_map, hT, ← hs.length] at hle
  have hall := List.length_filter_eq_length_iff.mp
    (le_antisymm (List.length_filter_le _ s.lines) hle)
  exact fun l hl => by simpa using hall l hl

/-- **The first line too many** displaces the first way, which is handed
over as `0`. -/
theorem Once.displaced (h : s.Once T) (hs : s.Stocks ways T) (htag : tag ≠ allOnes)
    (hnew : tag ∉ T) (hT : T.card = ways) (hways : 0 < ways) :
    ∃ l, s.displaced tag = some (l, 0) := by
  have hpos := (hs.clean hways).pos
  have hv := isVictim hpos
  have hall := hs.cached_of_full hT
  have hmem := victim_mem hpos
  have hfirst : s.victim.evict = 0 := by
    by_contra hne
    have hlt := hv.first 0 (by omega)
    have hzero : s.lines.getD 0 .empty ∈ s.lines := getD_mem hpos _
    have hmin : s.victim.min = 1 := hv.min.symm.trans (h _ hmem (hall _ hmem)).1
    rw [hmin, (h _ hzero (hall _ hzero)).1] at hlt
    omega
  refine ⟨s.line s.victim.evict, ?_⟩
  rw [displaced_of_absent (h.absent hs htag hnew) (hall _ hmem), hv.addr, if_pos hfirst]

end CacheSet

namespace Config

variable {cfg : Config} {t u : List Access} {x : Access}

/-- The line an access is to, in its processor's cache. -/
def lineOf (cfg : Config) (x : Access) : ℕ × ℕ × BitVec 64 :=
  (x.pid, cfg.index x.addr, cfg.tag x.addr)

/-- Nobody accesses a line twice. -/
def Distinct (cfg : Config) (t : List Access) : Prop := (t.map cfg.lineOf).Nodup

theorem mem_accessed_iff_lineOf {tag : BitVec 64} {p i : ℕ} :
    tag ∈ cfg.accessed u p i ↔ (p, i, tag) ∈ u.map cfg.lineOf := by
  simp [mem_accessed, lineOf]

theorem Distinct.append (h : cfg.Distinct (t ++ u)) : cfg.Distinct t := by
  rw [Distinct, List.map_append] at h
  exact h.of_append_left

theorem Distinct.notMem (h : cfg.Distinct (u ++ [x])) :
    cfg.tag x.addr ∉ cfg.accessed u x.pid (cfg.index x.addr) := by
  rw [Distinct, List.map_append, List.nodup_append'] at h
  rw [mem_accessed_iff_lineOf]
  exact fun hmem => h.2.2 hmem (by simp [lineOf])

/-- Traces of the same lines fill the caches alike. -/
theorem Fits.congr (h : cfg.Fits t) (hlines : u.map cfg.lineOf = t.map cfg.lineOf) :
    cfg.Fits u := by
  intro p i
  have heq : cfg.accessed u p i = cfg.accessed t p i := by
    ext tag
    rw [mem_accessed_iff_lineOf, mem_accessed_iff_lineOf, hlines]
  rw [heq]
  exact h p i

/-- Accesses to one line fit. -/
theorem fits_of_tag (tag : BitVec 64) (h : ∀ x ∈ t, cfg.tag x.addr = tag) : cfg.Fits t := by
  intro p i
  have hsub : cfg.accessed t p i ⊆ {tag} := by
    intro tag' htag'
    obtain ⟨x, hx, -, -, rfl⟩ := mem_accessed.mp htag'
    exact Finset.mem_singleton.mpr (h x hx)
  have hle := Finset.card_le_card hsub
  have hways := cfg.associativity_pos
  rw [Finset.card_singleton] at hle
  omega

/-- A trace that does not fit has a first access too many. -/
theorem exists_first (h : ¬ cfg.Fits t) :
    ∃ u x v, t = u ++ x :: v ∧ cfg.Fits u ∧ ¬ cfg.Fits (u ++ [x]) := by
  induction t using List.reverseRecOn with
  | nil => exact absurd (fits_of_tag 0 (by simp)) h
  | append_singleton t x ih =>
    by_cases hfits : cfg.Fits t
    · exact ⟨t, x, [], rfl, hfits, h⟩
    · obtain ⟨u, y, v, rfl, hu⟩ := ih hfits
      exact ⟨u, y, v ++ [x], by simp, hu⟩

/-- The access that is one line too many finds its set full. -/
theorem Fits.full (h : cfg.Fits u) (hx : ¬ cfg.Fits (u ++ [x])) :
    (cfg.accessed u x.pid (cfg.index x.addr)).card = cfg.associativity ∧
      cfg.tag x.addr ∉ cfg.accessed u x.pid (cfg.index x.addr) := by
  simp only [Fits, not_forall, not_le] at hx
  obtain ⟨p, i, hpi⟩ := hx
  have hold := h p i
  rw [accessed_snoc] at hpi
  split at hpi
  · rename_i hself
    obtain ⟨rfl, rfl⟩ := hself
    by_cases hmem : cfg.tag x.addr ∈ cfg.accessed u x.pid (cfg.index x.addr)
    · rw [Finset.insert_eq_of_mem hmem] at hpi
      omega
    · rw [Finset.card_insert_of_notMem hmem] at hpi
      exact ⟨by omega, hmem⟩
  · omega

end Config

namespace Controller

variable {cfg : Config} {c c' d : Controller} {t u v : List Access} {x y : Access} {a b : Addr}
variable {r : Report} {rs : List Report} {k : ℕ}

/-- The line fetch on low counters. -/
theorem ensures_fetchCacheLine_below (pid : ℕ) (a : Addr) (replace : Bool)
    (h : ∀ p i, (c.cache p i).Below k) (hk : k + 2 < 2 ^ 64) :
    Ensures (fun _ => False) (fun c' => ∀ p i, (c'.cache p i).Below (k + 2))
      (c.fetchCacheLine pid a replace) := by
  refine ((h pid (c.getSetIndex a)).ensures_fetchSingleLine hk).bind ?_
  rintro ⟨s, m⟩ - hs p i
  change CacheSet.Below (k + 2) ((c.putSet pid (c.getSetIndex a) (s, m)).cache p i)
  rw [cache_putSet]
  split
  · exact hs
  · exact fun l hl => (h p i l hl).trans (by omega)

/-- **An access of the baseline does not fail on low counters.** -/
theorem exists_step (ht : Tracks cfg.numProcessors false t c.coherence)
    (hx : x.pid < cfg.numProcessors) (h : ∀ p i, (c.cache p i).Below k) (hk : k + 2 < 2 ^ 64) :
    ∃ d r, c.step x = .ok (d, r) ∧ Tracks cfg.numProcessors false (t ++ [x]) d.coherence ∧
      ∀ p i, (d.cache p i).Below (k + 2) := by
  have hn := cfg.numProcessors_le
  obtain ⟨c₁, hfetch, hbelow⟩ := (ensures_fetchCacheLine_below (c := c.clearCalls) x.pid x.addr true
    h hk).exists_ok
  obtain ⟨pre, calls, hf⟩ := (ensures_fetched hn ht hx).of_ok hfetch
  obtain ⟨m, charge, log, hok, -⟩ := exists_handle (fun _ => not_callsBack hf.detector)
    (hf.numProcessors ▸ hn) (hf.numProcessors ▸ hx) hf.inv
  have hstep : c.step x = .ok ({ c₁ with coherence := m }, ⟨x, charge, m.calls⟩) := by
    rw [step_eq, hfetch, ok_bind, hok, ok_bind]
  obtain ⟨pre, post, hstepped⟩ := (ensures_step hn ht hx).of_ok hstep
  exact ⟨_, _, hstep, hstepped.tracks ht hx, hbelow⟩

/-! ## Runs of the baseline that fit -/

/-- **The states of a run that displaces nothing**: the directory is what
the accesses alone make of it. -/
structure Filled (cfg : Config) (t : List Access) (c : Controller) : Prop where
  tracks : Tracks cfg.numProcessors false t c.coherence
  stocked : Stocked cfg t c
  entries : c.coherence.entries = (t.map Access.event).foldl
    (Event.apply (rules cfg.numProcessors false)) (cfg.start false).coherence.entries
  once : cfg.Distinct t → ∀ p i, (c.cache p i).Once (cfg.accessed t p i)

theorem filled_start : Filled cfg [] (cfg.start false) where
  tracks := tracks_start
  stocked := stocked_start
  entries := rfl
  once _ p i l hl hst := by
    rw [List.eq_of_mem_replicate hl] at hst
    cases hst

/-- **One access of such a run**, and what it answers. -/
theorem Filled.step (hgeo : 2 ≤ cfg.numSets * cfg.lineSize) (h : Filled cfg t c)
    (hx : x.pid < cfg.numProcessors) (hfits : cfg.Fits (t ++ [x])) (hstep : c.step x = .ok (d, r)) :
    Filled cfg (t ++ [x]) d ∧
      (r.response = .cacheHit ↔ x.Hits c.coherence.rules (c.coherence.entries x.addr)) := by
  obtain ⟨c₁, hfetch, hhandle⟩ := step_eq_ok hstep
  obtain ⟨c', charge, hok, hs⟩ := exists_settled hgeo hx hfits h.tracks h.stocked
    (fun h => by cases h) (fun h => by cases h) hfetch
  cases hok.symm.trans hhandle
  refine ⟨⟨hs.tracks, hs.stocked, ?_, fun hd p i => ?_⟩, hs.hit⟩
  · rw [hs.entries, h.tracks.rules, h.entries, List.map_append, List.foldl_append]
    rfl
  · have hstocks := h.stocked.stocks x.pid (cfg.index x.addr)
    obtain ⟨res, hres, hput⟩ := (h.stocked.ensures_fetched hgeo).of_ok hfetch
    have hnew := hd.notMem
    have hcard := hfits x.pid (cfg.index x.addr)
    rw [Config.accessed_snoc, if_pos ⟨rfl, rfl⟩, Finset.card_insert_of_notMem hnew] at hcard
    have honce := h.once hd.append
    rw [hs.cache, hput, cache_putSet, Config.accessed_snoc]
    by_cases hpi : p = x.pid ∧ i = cfg.index x.addr
    · rw [if_pos hpi, if_pos ⟨hpi.1.symm, hpi.2.symm⟩, hpi.1, hpi.2]
      exact (honce x.pid (cfg.index x.addr)).fetched hstocks hres hnew (by omega)
    · rw [if_neg hpi, if_neg fun h => hpi ⟨h.1.symm, h.2.symm⟩]
      exact honce p i

theorem Filled.below (h : Filled cfg t c) (hd : cfg.Distinct t) (p i : ℕ) :
    (c.cache p i).Below 1 := by
  intro l hl
  cases hst : l.status with
  | cached =>
    rw [(h.once hd p i l hl hst).1]
    exact le_refl 1
  | uncached =>
    rw [((h.stocked.stocks p i).uncached l hl hst).2]
    exact Nat.zero_le 1

/-- **Accesses to different lines that fit** make such a run. -/
theorem exists_filled (hgeo : 2 ≤ cfg.numSets * cfg.lineSize) (hv : cfg.Valid t)
    (hd : cfg.Distinct t) (hfits : cfg.Fits t) :
    ∃ c rs, cfg.run false t = .ok (c, rs) ∧ Filled cfg t c := by
  induction t using List.reverseRecOn with
  | nil => exact ⟨_, _, rfl, filled_start⟩
  | append_singleton t x ih =>
    obtain ⟨c, rs, hrun, h⟩ := ih (fun y hy => hv y (List.mem_append_left _ hy)) hd.append
      hfits.append
    have hx : x.pid < cfg.numProcessors := hv x (by simp)
    obtain ⟨d, r, hstep, -⟩ := exists_step h.tracks hx (h.below hd.append) (by omega)
    exact ⟨d, rs ++ [r], run_snoc_eq_ok.mpr ⟨c, rs, r, hrun, hstep, rfl⟩,
      (h.step hgeo hx hfits hstep).1⟩

/-- **One line too many.** The accessing processor gives up its copy of
address `0`, and nothing else happens but the access. -/
theorem Filled.overflow (hgeo : 2 ≤ cfg.numSets * cfg.lineSize) (h : Filled cfg t c)
    (hd : cfg.Distinct t) (hfits : cfg.Fits t) (hx : x.pid < cfg.numProcessors)
    (hover : ¬ cfg.Fits (t ++ [x])) (hstep : c.step x = .ok (d, r)) :
    d.coherence.entries = [.evict x.pid 0, x.event].foldl
      (Event.apply (rules cfg.numProcessors false)) c.coherence.entries := by
  have hn := cfg.numProcessors_le
  obtain ⟨hfull, hnew⟩ := hfits.full hover
  obtain ⟨c₁, hfetch, hhandle⟩ := step_eq_ok hstep
  have hstocks := h.stocked.stocks x.pid (cfg.index x.addr)
  obtain ⟨res, hres, hput⟩ := (h.stocked.ensures_fetched hgeo).of_ok hfetch
  obtain ⟨calls, hsim⟩ := hres.simulates (by omega)
  -- each way was used once, so the first goes, with address `0`
  obtain ⟨l, hl⟩ := (h.once hd x.pid (cfg.index x.addr)).displaced hstocks
    (Config.tag_ne_allOnes hgeo) hnew hfull cfg.associativity_pos
  rw [hl] at hsim
  obtain ⟨pre, calls', hf⟩ := (ensures_fetched hn h.tracks hx).of_ok hfetch
  obtain ⟨m, charge, log, hok, hevent, -⟩ := exists_handle (fun _ => not_callsBack hf.detector)
    (hf.numProcessors ▸ hn) (hf.numProcessors ▸ hx) hf.inv
  cases hok.symm.trans hhandle
  have hrules : c₁.coherence.rules = rules cfg.numProcessors false := by
    rw [DirMsi.rules, hf.numProcessors, hf.detector]
  have hrules' : c.clearCalls.coherence.rules = rules cfg.numProcessors false := h.tracks.rules
  have hentries : c₁.coherence.entries =
      [.evict x.pid 0].foldl (Event.apply (rules cfg.numProcessors false)) c.coherence.entries := by
    rw [hput, ← hrules']
    exact hsim.entries
  change m.entries = _
  rw [hevent.entries, hrules, hentries]
  rfl

end Controller

end AdaptiveMsi
