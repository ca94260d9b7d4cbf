import AdaptiveMsi.Cache.Spare
/-!
# Sets with ways to spare

A set that is asked for no more lines than it has ways displaces none of
them: an empty way keeps the counter `0` of its constructor and a filled
one never has it, so the selection loop ends on an empty way as long as
there is one. `Stocks` is the invariant, relative to the tags the set was
asked for.
-/

namespace AdaptiveMsi

open Machine Protocol

namespace CacheSet

variable {s : CacheSet} {m : DirMsi} {pid ways : ℕ} {tag : BitVec 64} {addr : Addr}
variable {T : Finset (BitVec 64)} {replace : Bool} {lines : List CacheLine}

/-- **A set that was asked for the tags `T`** and has displaced nothing. -/
structure Stocks (ways : ℕ) (T : Finset (BitVec 64)) (s : CacheSet) : Prop where
  length : s.lines.length = ways
  uncached : ∀ l ∈ s.lines, l.status = .uncached → l.tag = allOnes ∧ l.lru = 0
  cached : ∀ l ∈ s.lines, l.status = .cached → l.lru ≠ 0 ∧ l.lru ≠ allOnes
  count : s.lines.countP (·.status = .cached) ≤ T.card
  holds : ∀ t ∈ T, s.Holds t

theorem Stocks.clean (h : s.Stocks ways T) (hways : 0 < ways) : s.Clean where
  pos := h.length ▸ hways
  uncached := h.uncached

theorem Stocks.spares (h : s.Stocks ways T) : s.Spares T where
  counted _ := h.cached
  holds _ := h.holds

theorem Stocks.new : (new ways).Stocks ways ∅ where
  length := by simp [CacheSet.new]
  uncached l hl _ := by
    rw [List.eq_of_mem_replicate hl]
    exact ⟨rfl, rfl⟩
  cached l hl hst := by
    rw [List.eq_of_mem_replicate hl] at hst
    cases hst
  count := by simp [CacheSet.new, List.countP_replicate, CacheLine.empty]
  holds t ht := absurd ht (Finset.notMem_empty t)

/-- It holds nothing else. -/
theorem Stocks.holds_iff (h : s.Stocks ways T) : s.Holds tag ↔ tag ∈ T := by
  refine ⟨fun htag => ?_, h.holds tag⟩
  -- as many lines are in use as there are tags
  let held := ((s.lines.filter (·.status = .cached)).map CacheLine.tag).toFinset
  have hheld : ∀ t, t ∈ held ↔ s.Holds t := by
    intro t
    simp only [held, List.mem_toFinset, List.mem_map, List.mem_filter, decide_eq_true_eq, Holds]
    grind
  have hcard : held.card ≤ T.card := by
    have hle := List.toFinset_card_le ((s.lines.filter (·.status = .cached)).map CacheLine.tag)
    rw [List.length_map, ← List.countP_eq_length_filter] at hle
    exact hle.trans h.count
  have heq : T = held :=
    Finset.eq_of_subset_of_card_le (fun t ht => (hheld t).mpr (h.holds t ht)) hcard
  rw [heq, hheld]
  exact htag

/-- With fewer tags than ways there is an empty way. -/
theorem Stocks.spared (h : s.Stocks ways T) (hT : T.card < ways) : s.Spared := by
  by_contra hall
  have hfull : s.lines.countP (·.status = .cached) = s.lines.length := by
    rw [List.countP_eq_length]
    intro l hl
    cases hu : l.status with
    | cached => rfl
    | uncached => exact absurd ⟨l, hl, hu⟩ hall
  have hcount := h.count
  have hlength := h.length
  omega

/-- With a way to spare the victim is an empty way. -/
theorem Stocks.victim_uncached (h : s.Stocks ways T) (hT : T.card < ways) :
    (s.line s.victim.evict).status = .uncached :=
  h.spares.victim_uncached (h.clean (by omega)) (h.spared hT)

theorem Stocks.displaced_eq_none (h : s.Stocks ways T) (hT : (insert tag T).card ≤ ways) :
    s.displaced tag = none := by
  rw [displaced_eq]
  split
  · rfl
  · rename_i habsent
    have hnew : tag ∉ T := fun ht => by
      obtain ⟨l, hl, htag, -⟩ := h.holds tag ht
      exact habsent (List.any_eq_true.mpr ⟨l, hl, by simpa using htag⟩)
    rw [Finset.card_insert_of_notMem hnew] at hT
    rw [if_neg (by simp [h.victim_uncached (by omega)])]

/-- A fetch that displaces nothing is silent. -/
theorem Fetched.eq_or_record {r : CacheSet × DirMsi}
    (h : Fetched pid tag addr replace s m r) (hnone : s.displaced tag = none) :
    r.2 = m ∨ r.2 = m.record (.evict pid s.lines s.victim.evict) := by
  cases h with
  | hit pre l post hlines hpre htag hstatus hlru => exact Or.inl rfl
  | miss habsent =>
    have hst : (s.line s.victim.evict).status ≠ .cached := fun hst => by
      rw [displaced_of_absent habsent hst] at hnone
      cases hnone
    refine Or.inr ?_
    simp only [evict]
    cases hu : (s.line s.victim.evict).status with
    | cached => exact absurd hu hst
    | uncached => rfl

/-- One way filled, or touched. -/
theorem Stocks.fill {T' : Finset (BitVec 64)} {pre post : List CacheLine} {l l' : CacheLine}
    (h : s.Stocks ways T) (hlines : s.lines = pre ++ l :: post) (hst : l'.status = .cached)
    (hlru : l'.lru ≠ 0 ∧ l'.lru ≠ allOnes)
    (hcount : (if l.status = .cached then T.card else T.card + 1) ≤ T'.card)
    (hholds : ∀ t ∈ T', (⟨pre ++ l' :: post⟩ : CacheSet).Holds t) :
    (⟨pre ++ l' :: post⟩ : CacheSet).Stocks ways T' := by
  have hmem : ∀ k ∈ pre ++ l' :: post, k ∈ s.lines ∨ k = l' := by
    intro k hk
    rw [hlines]
    simp only [List.mem_append, List.mem_cons] at hk ⊢
    tauto
  refine ⟨?_, fun k hk hu => ?_, fun k hk hu => ?_, ?_, hholds⟩
  · rw [← h.length, hlines]
    simp
  · rcases hmem k hk with hk | rfl
    · exact h.uncached k hk hu
    · rw [hst] at hu
      cases hu
  · rcases hmem k hk with hk | rfl
    · exact h.cached k hk hu
    · exact hlru
  · have hold := h.count
    rw [hlines] at hold
    simp only [List.countP_append, List.countP_cons, hst, decide_true, if_true] at hold ⊢
    split_ifs at hcount with hl <;> simp [hl] at hold <;> omega

/-- The way a line is installed over. -/
theorem install_lines (tag : BitVec 64) (addr : Addr) (replace : Bool) {i : ℕ}
    (hi : i < s.lines.length) :
    ∃ pre post, s.lines = pre ++ s.line i :: post ∧
      s.install i tag addr replace = ⟨pre ++ installed tag addr replace (s.line i) :: post⟩ := by
  obtain ⟨pre, l, post, hlines, rfl, hmodify⟩ := List.exists_of_modify
    (installed tag addr replace) hi
  have hline : s.line pre.length = l := by simp [line, hlines]
  refine ⟨pre, post, by rw [hline, hlines], ?_⟩
  rw [hline]
  exact congrArg CacheSet.mk hmodify

/-- **A fetch keeps the stock.** -/
theorem Fetched.stocks {r : CacheSet × DirMsi} (h : Fetched pid tag addr true s m r)
    (hs : s.Stocks ways T) (hT : (insert tag T).card ≤ ways) (hways : 0 < ways) :
    r.1.Stocks ways (insert tag T) := by
  obtain ⟨-, hholds, hkeeps⟩ := h.holds (hs.clean hways).tidy
  have hall : ∀ t ∈ insert tag T, r.1.Holds t := by
    intro t ht
    rcases Finset.mem_insert.mp ht with rfl | ht
    · exact hholds
    · refine hkeeps t (hs.holds t ht) fun l x hl => ?_
      rw [hs.displaced_eq_none hT] at hl
      cases hl
  cases h with
  | hit pre l post hlines hpre htag hstatus hlru =>
    have hl : l ∈ s.lines := by simp [hlines]
    have hused := (hs.cached l hl hstatus).2
    refine hs.fill hlines (by simpa using hstatus) ⟨fun h0 => hused ?_, hlru rfl⟩ ?_ hall
    · have h0 : l.lru + 1 = 0 := h0
      unfold allOnes
      bv_omega
    · rw [if_pos hstatus]
      exact Finset.card_le_card (Finset.subset_insert tag T)
  | miss habsent =>
    have hnew : tag ∉ T := fun ht => by
      obtain ⟨l, hl, htag, -⟩ := hs.holds tag ht
      exact habsent l hl htag
    have hcard := Finset.card_insert_of_notMem hnew
    -- a new tag that fits leaves a free way for it
    have hempty := hs.victim_uncached (by omega)
    have hpos := (hs.clean hways).pos
    obtain ⟨pre, post, hlines, hinstall⟩ := install_lines tag addr true (isVictim hpos).lt
    have hzero : (s.line s.victim.evict).lru = 0 := (hs.uncached _ (victim_mem hpos) hempty).2
    rw [hinstall] at hall ⊢
    refine hs.fill hlines rfl ?_ ?_ hall
    · simp [installed, hzero, allOnes]
    · rw [if_neg (by simp [hempty])]
      omega

/-- The lookup of a push. -/
theorem fetchLoop_of_mem (hcached : ∀ l ∈ lines, l.tag = tag → l.status = .cached)
    (h : ∃ l ∈ lines, l.tag = tag) : fetchLoop tag false lines = .ok (lines, .cached) := by
  induction lines with
  | nil => simp at h
  | cons l lines ih =>
    rw [fetchLoop]
    by_cases htag : l.tag = tag
    · rw [if_pos htag]
      simp [hcached l List.mem_cons_self htag, pure_eq_ok]
    · obtain ⟨l', hl', htag'⟩ := h
      have hmem : l' ∈ lines := by
        rcases List.mem_cons.mp hl' with rfl | hl'
        · exact absurd htag' htag
        · exact hl'
      rw [if_neg htag, ih (fun l hl => hcached l (List.mem_cons_of_mem _ hl)) ⟨l', hmem, htag'⟩]
      rfl

/-- **A push of a line that is there changes nothing.** -/
theorem fetchSingleLine_of_holds (hs : s.Tidy) (htag : tag ≠ allOnes) (h : s.Holds tag) :
    s.fetchSingleLine pid tag addr m false = .ok (s, m) := by
  have hcached : ∀ l ∈ s.lines, l.tag = tag → l.status = .cached := by
    intro l hl ht
    cases hu : l.status with
    | cached => rfl
    | uncached => exact absurd (ht.symm.trans (hs.uncached l hl hu)) htag
  obtain ⟨l, hl, ht, -⟩ := h
  simp only [fetchSingleLine, fetch, fetchLoop_of_mem hcached ⟨l, hl, ht⟩]
  rfl

end CacheSet

namespace Config

variable {cfg : Config} {t : List Access} {x : Access} {p i : ℕ}

/-- The tags of the lines that processor `p` accesses in set `i`. -/
def accessed (cfg : Config) (t : List Access) (p i : ℕ) : Finset (BitVec 64) :=
  ((t.filter fun x => x.pid = p ∧ cfg.index x.addr = i).map fun x => cfg.tag x.addr).toFinset

/-- No processor accesses more lines of a set than the set has ways. -/
def Fits (cfg : Config) (t : List Access) : Prop :=
  ∀ p i, (cfg.accessed t p i).card ≤ cfg.associativity

theorem mem_accessed {tag : BitVec 64} : tag ∈ cfg.accessed t p i ↔
    ∃ x ∈ t, x.pid = p ∧ cfg.index x.addr = i ∧ cfg.tag x.addr = tag := by
  simp [accessed, and_assoc]

/-- Accesses that repeat others ask for no more. -/
theorem accessed_subset {u : List Access} (h : ∀ y ∈ u, ∃ z ∈ t, z.pid = y.pid ∧ z.addr = y.addr) :
    cfg.accessed u p i ⊆ cfg.accessed t p i := by
  intro tag htag
  obtain ⟨y, hy, rfl, rfl, rfl⟩ := mem_accessed.mp htag
  obtain ⟨z, hz, hpid, haddr⟩ := h y hy
  exact mem_accessed.mpr ⟨z, hz, hpid, haddr ▸ rfl, haddr ▸ rfl⟩

/-- Only the sets that are accessed matter. -/
theorem fits_iff : cfg.Fits t ↔
    ∀ x ∈ t, (cfg.accessed t x.pid (cfg.index x.addr)).card ≤ cfg.associativity := by
  constructor
  · intro h x _
    exact h x.pid (cfg.index x.addr)
  · intro h p i
    rcases (cfg.accessed t p i).eq_empty_or_nonempty with hnone | ⟨tag, htag⟩
    · simp [hnone]
    · obtain ⟨x, hx, rfl, rfl, -⟩ := mem_accessed.mp htag
      exact h x hx

instance (cfg : Config) (t : List Access) : Decidable (cfg.Fits t) :=
  decidable_of_iff _ fits_iff.symm

theorem Fits.append {u : List Access} (h : cfg.Fits (t ++ u)) : cfg.Fits t := by
  intro p i
  refine (Finset.card_le_card fun tag htag => ?_).trans (h p i)
  obtain ⟨x, hx, hrest⟩ := mem_accessed.mp htag
  exact mem_accessed.mpr ⟨x, List.mem_append_left u hx, hrest⟩

theorem accessed_snoc : cfg.accessed (t ++ [x]) p i =
    if x.pid = p ∧ cfg.index x.addr = i then insert (cfg.tag x.addr) (cfg.accessed t p i)
    else cfg.accessed t p i := by
  ext tag
  split
  · rename_i h
    simp only [mem_accessed, Finset.mem_insert, List.mem_append, List.mem_singleton]
    grind
  · rename_i h
    simp only [mem_accessed, List.mem_append, List.mem_singleton]
    grind

end Config

namespace Controller

variable {cfg : Config} {c c' : Controller} {t : List Access} {x : Access} {a : Addr}
variable {pid i : ℕ} {replace : Bool}

/-- **The caches of a run that displaces nothing.** -/
structure Stocked (cfg : Config) (t : List Access) (c : Controller) : Prop where
  shaped : c.Shaped cfg
  stocks : ∀ p i, (c.cache p i).Stocks cfg.associativity (cfg.accessed t p i)

theorem stocked_start {detector : Bool} : Stocked cfg [] (cfg.start detector) where
  shaped := shaped_start
  stocks _ _ := .new

/-- Whoever accessed an address has its line. -/
theorem Stocked.holds (h : Stocked cfg t c) (hx : x ∈ t) :
    (c.cache x.pid (c.getSetIndex x.addr)).Holds (c.getTag x.addr) := by
  rw [h.shaped.getSetIndex, h.shaped.getTag]
  exact (h.stocks x.pid (cfg.index x.addr)).holds _ (Config.mem_accessed.mpr ⟨x, hx, rfl, rfl, rfl⟩)

/-- What the line fetch of an access does to its set. -/
theorem Stocked.ensures_fetched (hgeo : 2 ≤ cfg.numSets * cfg.lineSize) (h : Stocked cfg t c) :
    Ensures (· = .lru) (fun c' => ∃ r, CacheSet.Fetched pid (cfg.tag a) a replace
        (c.cache pid (cfg.index a)) c.clearCalls.coherence r ∧
        c' = c.clearCalls.putSet pid (cfg.index a) r)
      (c.clearCalls.fetchCacheLine pid a replace) :=
  Shaped.ensures_fetched (c := c.clearCalls) (h.shaped.congr rfl rfl) hgeo
    ((h.stocks pid (cfg.index a)).clean cfg.associativity_pos).tidy

/-- **The line fetch of an access** displaces nothing and calls nothing. -/
theorem ensures_stocked (hgeo : 2 ≤ cfg.numSets * cfg.lineSize) (h : Stocked cfg t c)
    (hfits : cfg.Fits (t ++ [x])) :
    Ensures (· = .lru)
      (fun c' => Stocked cfg (t ++ [x]) c' ∧
        c'.coherence.numProcessors = c.coherence.numProcessors ∧
        c'.coherence.detector = c.coherence.detector ∧
        c'.coherence.directory = c.coherence.directory ∧
        ∀ i b, .invalidate i b ∉ c'.coherence.calls)
      (c.clearCalls.fetchCacheLine x.pid x.addr true) := by
  have hs : c.clearCalls.Shaped cfg := h.shaped.congr rfl rfl
  have hstocks := h.stocks x.pid (cfg.index x.addr)
  have hcard : (insert (cfg.tag x.addr) (cfg.accessed t x.pid (cfg.index x.addr))).card ≤
      cfg.associativity := by
    have := hfits x.pid (cfg.index x.addr)
    rwa [Config.accessed_snoc, if_pos ⟨rfl, rfl⟩] at this
  refine (h.ensures_fetched hgeo).mono ?_
  rintro c' - ⟨r, hr, rfl⟩
  refine ⟨⟨hs.congr rfl rfl, fun p i => ?_⟩, ?_⟩
  · rw [cache_putSet, Config.accessed_snoc]
    by_cases hpi : p = x.pid ∧ i = cfg.index x.addr
    · rw [if_pos hpi, if_pos ⟨hpi.1.symm, hpi.2.symm⟩, hpi.1, hpi.2]
      exact hr.stocks hstocks hcard cfg.associativity_pos
    · rw [if_neg hpi, if_neg fun h => hpi ⟨h.1.symm, h.2.symm⟩]
      exact h.stocks p i
  · rcases hr.eq_or_record (hstocks.displaced_eq_none hcard) with hm | hm
    · simp [putSet, hm, clearCalls]
    · simp [putSet, hm, clearCalls]

/-- **The line fetch of a push** to a processor that accessed the address. -/
theorem Stocked.fetchCacheLine_eq (hgeo : 2 ≤ cfg.numSets * cfg.lineSize) (h : Stocked cfg t c)
    (hx : x ∈ t) : c.fetchCacheLine x.pid x.addr false = .ok c := by
  have htag : c.getTag x.addr ≠ allOnes := by
    rw [h.shaped.getTag]
    exact Config.tag_ne_allOnes hgeo
  have htidy := ((h.stocks x.pid (c.getSetIndex x.addr)).clean cfg.associativity_pos).tidy
  simp only [fetchCacheLine, CacheSet.fetchSingleLine_of_holds htidy htag (h.holds hx), ok_bind,
    Function.update_eq_self, pure_eq_ok]

end Controller

end AdaptiveMsi
