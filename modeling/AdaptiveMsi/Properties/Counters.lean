import AdaptiveMsi.Properties.Representation
/-!
# What the replacement counters count

The counters of a set move by one for each request that replaces: an
access's own, and the second one of an evicted last writer, which is the
only request counted beside the accesses. A push counts nothing, whether
it finds the line or is installed over a victim. The counters are words,
so the sum is exact up to whole turns, and a run is too short for one to
go unnoticed.
-/

namespace AdaptiveMsi

open Machine Protocol

namespace CacheSet

variable {cfg : Config} {s : CacheSet} {m : DirMsi} {pid : ℕ} {tag : BitVec 64} {addr : Addr}
variable {replace : Bool} {l l' : CacheLine}

/-- The sum of the counters of a set. -/
def total (s : CacheSet) : ℕ := (s.lines.map fun l => l.lru.toNat).sum

/-- One counter moves by one, or turns over. -/
theorem Replaces.toNat_lru (h : Replaces tag addr replace s l l') :
    ∃ w, l'.lru.toNat + 2 ^ 64 * w = l.lru.toNat + if replace then 1 else 0 := by
  have hlt := l.lru.isLt
  rw [h.lru_eq]
  cases replace with
  | false => exact ⟨0, by simp⟩
  | true =>
    simp only [if_true, BitVec.toNat_add]
    rcases Nat.lt_or_ge (l.lru.toNat + 1) (2 ^ 64) with hsmall | hbig
    · exact ⟨0, by simpa using hsmall⟩
    · refine ⟨1, ?_⟩
      have hall : l.lru.toNat = 2 ^ 64 - 1 := by omega
      simp [hall]

/-- **What a fetch does to the sum.** -/
theorem Fetched.exists_total {r : CacheSet × DirMsi} (h : Fetched pid tag addr replace s m r)
    (hpos : 0 < s.lines.length) :
    ∃ w, r.1.total + 2 ^ 64 * w = s.total + if replace then 1 else 0 := by
  obtain ⟨pre, l, post, l', hlines, hlines', hl'⟩ := h.exists_replaces hpos
  obtain ⟨w, hw⟩ := hl'.toNat_lru
  refine ⟨w, ?_⟩
  simp only [total, hlines, hlines', List.map_append, List.map_cons, List.sum_append, List.sum_cons]
  omega

end CacheSet

/-- The request counts in set `i` of `p`. -/
def Request.Counts (cfg : Config) (p i : ℕ) (q : Request) : Prop :=
  q.replace = true ∧ q.pid = p ∧ cfg.index q.addr = i

instance (cfg : Config) (p i : ℕ) (q : Request) : Decidable (q.Counts cfg p i) := by
  unfold Request.Counts
  infer_instance

namespace Controller

variable {cfg : Config} {c c' : Controller} {q : Request} {qs : List Request} {x : Access}
variable {r : Report} {t : List Access} {detector : Bool} {p i : ℕ}

theorem Represents.exists_total_fetch (hgeo : 2 ≤ cfg.numSets * cfg.lineSize)
    (h : Represents cfg c) (hfetch : c.fetchCacheLine q.pid q.addr q.replace = .ok c') :
    ∃ w, (c'.cache p i).total + 2 ^ 64 * w =
      (c.cache p i).total + if q.Counts cfg p i then 1 else 0 := by
  obtain ⟨res, hr, rfl⟩ := (h.ensures_fetched hgeo).of_ok hfetch
  obtain ⟨w, hw⟩ := hr.exists_total (h.sets q.pid (cfg.index q.addr)).clean.pos
  rw [cache_putSet]
  by_cases hpi : p = q.pid ∧ i = cfg.index q.addr
  · rw [if_pos hpi, hpi.1, hpi.2]
    exact ⟨w, by simpa [Request.Counts] using hw⟩
  · have hno : ¬ q.Counts cfg p i := fun hc => hpi ⟨hc.2.1.symm, hc.2.2.symm⟩
    rw [if_neg hpi, if_neg hno]
    exact ⟨0, rfl⟩

/-- The requests of an access that count. -/
theorem Asked.countP_counts (h : c.Asked x qs) :
    (x.demand :: qs).countP (·.Counts cfg p i) =
      if x.pid = p ∧ cfg.index x.addr = i then 1 + if c.Refetches x then 1 else 0 else 0 := by
  have hqs : qs.countP (·.Counts cfg p i) =
      if x.pid = p ∧ cfg.index x.addr = i then qs.countP (·.replace) else 0 := by
    split
    · rename_i hx
      refine List.countP_congr fun q hq => ?_
      have haddr := h.addr q hq
      have hown := h.own q hq
      simp only [Request.Counts, decide_eq_true_eq, haddr]
      constructor
      · exact fun hc => hc.1
      · exact fun hr => ⟨hr, (hown hr).trans hx.1, hx.2⟩
    · rename_i hx
      rw [List.countP_eq_zero]
      intro q hq
      simp only [Request.Counts, decide_eq_true_eq, h.addr q hq]
      exact fun hc => hx ⟨(h.own q hq hc.1).symm.trans hc.2.1, hc.2.2⟩
  rw [List.countP_cons, hqs, h.refetch]
  by_cases hx : x.pid = p ∧ cfg.index x.addr = i
  · simp only [Request.Counts, Access.demand, hx, and_self, if_true, decide_true]
    omega
  · simp only [Request.Counts, Access.demand, hx, and_false, if_false, decide_false,
      Bool.false_eq_true]

/-- **What an access does to the sums.** -/
theorem Represents.exists_total_step (hgeo : 2 ≤ cfg.numSets * cfg.lineSize) (h : Represents cfg c)
    (ht : Tracks cfg.numProcessors detector t c.coherence) (hx : x.pid < cfg.numProcessors)
    (hstep : c.step x = .ok (c', r)) :
    ∃ w, (c'.cache p i).total + 2 ^ 64 * w = (c.cache p i).total +
      if x.pid = p ∧ cfg.index x.addr = i then 1 + if c.Refetches x then 1 else 0 else 0 := by
  obtain ⟨-, qs, hserves, hasked⟩ := exists_serves cfg.numProcessors_le ht hx hstep
  rw [← hasked.countP_counts]
  have hall := hserves.induction (P := fun us d => Represents cfg d ∧
    ∃ w, (d.cache p i).total + 2 ^ 64 * w =
      (c.cache p i).total + us.countP (·.Counts cfg p i))
    ⟨h.congr ⟨rfl, rfl, rfl⟩, 0, by simp [clearCalls]⟩ ?_ ?_
  · exact hall.2
  · rintro us d d' hrests ⟨hd, w, hw⟩
    exact ⟨hd.congr hrests.same, w, by rw [hrests.same.cache, hw]⟩
  · rintro us q vs d d' - hfetch ⟨hd, w, hw⟩
    obtain ⟨w', hw'⟩ := hd.exists_total_fetch (p := p) (i := i) hgeo hfetch
    refine ⟨(hd.fetch hgeo hfetch).1, w + w', ?_⟩
    simp only [List.countP_append, List.countP_cons, List.countP_nil, decide_eq_true_eq]
    omega

/-! ## The second fetch, from the state before the access -/

/-- The access is an adaptive store by the last writer of a line somebody
holds, which has no copy, or gives it up to its own line fetch while
another processor keeps one. -/
def FindsNoCopy (c : Controller) (x : Access) : Prop :=
  x.kind = .store ∧ c.coherence.detector = true ∧ (c.line x.addr).state ≠ .invalid ∧
    (c.line x.addr).isLastWriter x.pid = true ∧
    ((c.line x.addr).isSet x.pid = true → c.GivesUp x.pid x.addr ∧
      ∃ i < c.coherence.numProcessors, i ≠ x.pid ∧ (c.line x.addr).isSet i = true)

instance : Decidable (c.FindsNoCopy x) := by
  unfold FindsNoCopy
  infer_instance

theorem refetchesAt_iff {pid : ℕ} {a : Addr} (h32 : pid < 32) :
    c.RefetchesAt pid a ↔ CallsBack c.coherence pid a ∧ pid ∉ (c.coherence.entries a).sharers := by
  have hwriter := DirectoryLine.writer_eq_some (d := c.line a) h32
  have hset := DirectoryLine.isSet_iff (d := c.line a) h32
  constructor
  · rintro ⟨hd, hs, hw, hbit⟩
    refine ⟨⟨hd, hs, hwriter.mpr hw⟩, fun hmem => ?_⟩
    rw [hset.mpr hmem] at hbit
    cases hbit
  · rintro ⟨⟨hd, hs, hw⟩, hmem⟩
    exact ⟨hd, hs, hwriter.mp hw, Bool.eq_false_iff.mpr fun hbit => hmem (hset.mp hbit)⟩

/-- Another processor's bit is set. -/
theorem exists_isSet_iff {pid : ℕ} {a : Addr} {last : Option ℕ}
    (hn : c.coherence.numProcessors ≤ 32)
    (hinv : (c.coherence.entries a).Inv c.coherence.rules last) :
    (∃ i < c.coherence.numProcessors, i ≠ pid ∧ (c.line a).isSet i = true) ↔
      (c.coherence.entries a).sharers.erase pid ≠ ∅ := by
  rw [← Finset.nonempty_iff_ne_empty]
  constructor
  · rintro ⟨i, hi, hne, hbit⟩
    exact ⟨i, Finset.mem_erase.mpr ⟨hne, (DirectoryLine.isSet_iff (by omega)).mp hbit⟩⟩
  · rintro ⟨i, hi⟩
    obtain ⟨hne, hmem⟩ := Finset.mem_erase.mp hi
    have hlt : i < c.coherence.numProcessors := mem_procs.mp (hinv.sharers_subset hmem)
    exact ⟨i, hlt, hne, (DirectoryLine.isSet_iff (by omega)).mpr hmem⟩

/-- **The second fetch is decided before the access.** -/
theorem Represents.refetches_iff (hgeo : 2 ≤ cfg.numSets * cfg.lineSize) (h : Represents cfg c)
    (ht : Tracks cfg.numProcessors detector t c.coherence) (hx : x.pid < cfg.numProcessors)
    (hstep : c.step x = .ok (c', r)) : c.Refetches x ↔ c.FindsNoCopy x := by
  have hn := cfg.numProcessors_le
  have h32 : x.pid < 32 := by omega
  obtain ⟨c₁, hfetch, -⟩ := step_eq_ok hstep
  obtain ⟨pre, calls, hf⟩ := (AdaptiveMsi.ensures_fetched hn ht hx).of_ok hfetch
  have hclear : Represents cfg c.clearCalls := h.congr ⟨rfl, rfl, rfl⟩
  have hentry : c₁.coherence.entries x.addr = if c.GivesUp x.pid x.addr then
      (c.coherence.entries x.addr).evict c.coherence.rules x.pid
      else c.coherence.entries x.addr :=
    (hclear.entries_fetched hgeo h32 hfetch :)
  have hinv := ht.inv x.addr
  have hdet : c₁.coherence.detector = c.coherence.detector :=
    hf.detector.trans ht.detector.symm
  have hset := DirectoryLine.isSet_iff (d := c.line x.addr) h32
  have hwriter := DirectoryLine.writer_eq_some (d := c.line x.addr) h32
  rw [refetches_iff_of_fetch hfetch, refetchesAt_iff h32, FindsNoCopy, CallsBack, hdet, hentry,
    hset, exists_isSet_iff (ht.numProcessors ▸ hn) hinv, ← hwriter]
  change _ ↔ _ ∧ _ ∧ (c.coherence.entries x.addr).state ≠ _ ∧
    (c.coherence.entries x.addr).writer = _ ∧ (_ ∈ (c.coherence.entries x.addr).sharers → _)
  by_cases hgives : c.GivesUp x.pid x.addr
  · -- the own copy is gone, and the line is in use as long as another one is there
    rw [if_pos hgives, hinv.evict_ne_invalid, Entry.evict_sharers]
    simp only [Entry.evict, Finset.notMem_erase, not_false_eq_true, and_true, hgives, true_and]
    tauto
  · rw [if_neg hgives]
    simp only [hgives, false_and, imp_false]
    tauto

end Controller

/-! ## Runs -/

variable {cfg : Config} {c : Controller} {t : List Access} {detector : Bool} {rs : List Report}

/-- The number of the accesses of `p` to addresses of set `i`. -/
def Config.demands (cfg : Config) (t : List Access) (p i : ℕ) : ℕ :=
  t.countP fun x => x.pid = p ∧ cfg.index x.addr = i

/-- The access is not a store of `p` into set `i` that finds no copy of
`p`, and so fetches its line a second time. -/
def FetchesOnce (cfg : Config) (p i : ℕ) (c : Controller) (x : Access) : Prop :=
  x.pid = p → cfg.index x.addr = i → ¬ c.FindsNoCopy x

theorem demands_snoc {x : Access} {p i : ℕ} : cfg.demands (t ++ [x]) p i =
    cfg.demands t p i + if x.pid = p ∧ cfg.index x.addr = i then 1 else 0 := by
  simp [Config.demands, List.countP_append, List.countP_cons]

/-- **The sum counts the accesses and the second fetches.** -/
theorem exists_total_of_run (hgeo : 2 ≤ cfg.numSets * cfg.lineSize) (hv : cfg.Valid t)
    (hrun : cfg.run detector t = .ok (c, rs)) (p i : ℕ) :
    ∃ k w, (c.cache p i).total + 2 ^ 64 * w = cfg.demands t p i + k ∧ k ≤ t.length ∧
      (k = 0 ↔ cfg.Respects detector t (FetchesOnce cfg p i)) := by
  refine (Config.induction_of_run (I := fun u _ c => c.Represents cfg ∧
    ∃ k w, (c.cache p i).total + 2 ^ 64 * w = cfg.demands u p i + k ∧ k ≤ u.length ∧
      (k = 0 ↔ cfg.Respects detector u (FetchesOnce cfg p i))) hv hrun
    ⟨Controller.represents_start, 0, 0, ?_, le_rfl, by simp [respects_nil]⟩ ?_).2
  · simp [Config.start, Controller.new, CacheSet.total, CacheSet.new, CacheLine.empty,
      Config.demands]
  · rintro u x v bs c c' r - hx hrun₀ ht ⟨hc, k, w, hw, hk, hzero⟩ hstep
    obtain ⟨w', hw'⟩ := hc.exists_total_step (p := p) (i := i) hgeo ht hx hstep
    refine ⟨(hc.step hgeo ht hx hstep).1, ?_⟩
    have hsnoc : cfg.Respects detector (u ++ [x]) (FetchesOnce cfg p i) ↔
        k = 0 ∧ FetchesOnce cfg p i c x := by
      rw [hzero, Config.respects_snoc]
      refine and_congr_right fun _ => ⟨fun h => h c bs hrun₀, fun h c₀ rs₀ hrun₁ => ?_⟩
      cases hrun₀.symm.trans hrun₁
      exact h
    rw [hsnoc, demands_snoc]
    by_cases hmatch : x.pid = p ∧ cfg.index x.addr = i
    · rw [if_pos hmatch] at hw' ⊢
      have honce : FetchesOnce cfg p i c x ↔ ¬ c.FindsNoCopy x :=
        ⟨fun h => h hmatch.1 hmatch.2, fun h _ _ => h⟩
      rw [honce, ← hc.refetches_iff hgeo ht hx hstep]
      -- the demand counts once, the second fetch once more
      by_cases hre : c.Refetches x
      · rw [if_pos hre] at hw'
        exact ⟨k + 1, w + w', by omega, by simp; omega, by simp [hre]⟩
      · rw [if_neg hre] at hw'
        exact ⟨k, w + w', by omega, by simp; omega, by simp [hre]⟩
    · rw [if_neg hmatch] at hw' ⊢
      have honce : FetchesOnce cfg p i c x := fun h h' => absurd ⟨h, h'⟩ hmatch
      exact ⟨k, w + w', by omega, by simp; omega, by simp [honce]⟩

/-- **The counters of a set count the accesses of its processor** exactly
in the runs in which no store of the processor into the set finds no copy
of its own and fetches its line a second time: whatever is pushed
contributes nothing. -/
theorem total_eq_demands_iff (cfg : Config) (detector : Bool)
    (hgeo : 2 ≤ cfg.numSets * cfg.lineSize) (t : List Access) (hv : cfg.Valid t)
    (hshort : t.length < 2 ^ 64 - 1) (c : Controller) (rs : List Report)
    (hrun : cfg.run detector t = .ok (c, rs)) (p i : ℕ) :
    (c.cache p i).total = cfg.demands t p i ↔ cfg.Respects detector t (FetchesOnce cfg p i) := by
  obtain ⟨k, w, hw, hk, hzero⟩ := exists_total_of_run hgeo hv hrun p i
  have hle : cfg.demands t p i ≤ t.length := List.countP_le_length
  rw [← hzero]
  omega

/-- A push into the cache of the consumer. -/
theorem total_eq_demands_iff_pair :
    let t : List Access := [⟨.store, 0, 4⟩, ⟨.load, 1, 4⟩, ⟨.load, 1, 6⟩, ⟨.load, 1, 4⟩,
      ⟨.store, 0, 4⟩]
    ∃ c rs, Config.pair.run true t = .ok (c, rs) ∧ ∀ p i,
      ((c.cache p i).total = Config.pair.demands t p i ↔
        Config.pair.Respects true t (FetchesOnce .pair p i)) := by
  intro t
  have hrun : Ensures (fun _ => False) (fun _ => True) (Config.pair.run true t) := by decide
  obtain ⟨⟨c, rs⟩, hok, -⟩ := hrun.exists_ok
  exact ⟨c, rs, hok, fun p i =>
    total_eq_demands_iff .pair true (by decide) t (by decide) (by decide) c rs hok p i⟩

/-- **An evicted last writer is counted twice.** Three accesses of one
processor to one set raise its counters to four. -/
theorem counted_twice :
    ∃ c rs, Config.pair.run true [⟨.store, 0, 0⟩, ⟨.load, 1, 0⟩, ⟨.load, 0, 4⟩, ⟨.store, 0, 0⟩] =
        .ok (c, rs) ∧ (c.cache 0 0).total = 4 ∧
      Config.pair.demands
        [⟨.store, 0, 0⟩, ⟨.load, 1, 0⟩, ⟨.load, 0, 4⟩, ⟨.store, 0, 0⟩] 0 0 = 3 := by
  have hrun : Ensures (fun _ => False) (fun s => (s.1.cache 0 0).total = 4)
      (Config.pair.run true
        [⟨.store, 0, 0⟩, ⟨.load, 1, 0⟩, ⟨.load, 0, 4⟩, ⟨.store, 0, 0⟩]) := by decide
  obtain ⟨⟨c, rs⟩, hok, htotal⟩ := hrun.exists_ok
  exact ⟨c, rs, hok, htotal, by decide⟩

end AdaptiveMsi
