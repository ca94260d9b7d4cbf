import AdaptiveMsi.Cache.Contents
import AdaptiveMsi.Controller.Step
/-!
# The two protocols in lockstep

State and sharer vector are all that reads, write misses and the charges
of a line depend on. Two directories that agree in them, one of each
protocol, stay so under evictions, since the baseline's modified line has
one sharer, and answer the calls both protocols share alike.
-/

namespace AdaptiveMsi

open Machine Protocol DirMsi

variable {pid home hops i n : ℕ} {a b : Addr} {last : Option ℕ}

/-! ## Lines -/

/-- Two lines with one state and one sharer vector. -/
structure DirectoryLine.Alike (d d' : DirectoryLine) : Prop where
  state : d'.state = d.state
  sharerVector : d'.sharerVector = d.sharerVector

namespace DirectoryLine.Alike

variable {d d' : DirectoryLine}

theorem isSet (h : d.Alike d') : d'.isSet i = d.isSet i := by
  rw [DirectoryLine.isSet, DirectoryLine.isSet, h.sharerVector]

theorem sharers (h : d.Alike d') : d'.sharers = d.sharers :=
  DirectoryLine.sharerVector_eq_iff.mp h.sharerVector

theorem setSharer (h : d.Alike d') : (d.setSharer i).Alike (d'.setSharer i) where
  state := h.state
  sharerVector := by
    rw [DirectoryLine.setSharer, DirectoryLine.setSharer, h.sharerVector]

theorem withState (h : d.Alike d') (s : CacheState) :
    DirectoryLine.Alike { d with state := s } { d' with state := s } :=
  ⟨rfl, h.sharerVector⟩

theorem owner (h : d.Alike d') : d'.owner n = d.owner n := by
  have hloop : ∀ k i, d'.ownerLoop n k i = d.ownerLoop n k i := by
    intro k
    induction k with
    | zero => exact fun _ => rfl
    | succ k ih =>
      intro i
      rw [ownerLoop, ownerLoop, h.isSet, ih]
  rw [DirectoryLine.owner, DirectoryLine.owner, hloop, h.state]

theorem of_entry (hstate : d'.entry.state = d.entry.state)
    (hsharers : d'.entry.sharers = d.entry.sharers) : d.Alike d' :=
  ⟨hstate, DirectoryLine.sharerVector_eq_iff.mpr hsharers⟩

end DirectoryLine.Alike

/-! ## Evictions -/

/-- **One eviction under both protocols.** A modified line has one sharer,
so its owner leaves nobody behind. -/
theorem Protocol.Entry.evict_alike {P ρ : Type*} [DecidableEq P] {R : Rules P ρ}
    {e e' : Entry P ρ} {last : Option P} (R' : Rules P ρ) (p : P) (h : e.Inv R last)
    (hR : R.adaptive = false) (hstate : e'.state = e.state) (hsharers : e'.sharers = e.sharers) :
    (e'.evict R' p).state = (e.evict R p).state ∧
      (e'.evict R' p).sharers = (e.evict R p).sharers := by
  refine ⟨?_, by simp [hsharers]⟩
  simp only [evict, hsharers, hstate]
  by_cases hempty : e.sharers.erase p = ∅
  · rw [if_pos hempty, if_pos hempty]
  · have hnot : ¬ (p ∈ e.sharers ∧ e.state = .modified) := by
      rintro ⟨hmem, hmod⟩
      obtain ⟨w, -, hw⟩ := h.sharers_eq_singleton hR hmod
      have hpw : p = w := Finset.mem_singleton.mp (hw ▸ hmem)
      exact hempty (by rw [hw, hpw, Finset.erase_singleton])
    have hno : ¬ e.Owns R p := fun ho => hnot ⟨ho.1, ho.2.1⟩
    have hno' : ¬ e'.Owns R' p := fun ho => hnot ⟨hsharers ▸ ho.1, hstate ▸ ho.2.1⟩
    rw [if_neg hempty, if_neg hempty, if_neg hno, if_neg hno']

namespace DirMsi

/-- **Two directories that look alike** to the routines of the baseline. -/
structure Alike (m m' : DirMsi) : Prop where
  numProcessors : m'.numProcessors = m.numProcessors
  lines : ∀ a, (m.directory a).Alike (m'.directory a)

variable {m m' : DirMsi} {d d' : DirectoryLine}

theorem Alike.getHomeNode (h : m.Alike m') : m'.getHomeNode a = m.getHomeNode a := by
  rw [DirMsi.getHomeNode, DirMsi.getHomeNode, h.numProcessors]

theorem Alike.setLine (h : m.Alike m') (hd : d.Alike d') :
    (m.setLine a d).Alike (m'.setLine a d') where
  numProcessors := h.numProcessors
  lines b := by
    rcases eq_or_ne b a with rfl | hne
    · simpa using hd
    · simpa [hne] using h.lines b

theorem Alike.invalidate (h : m.Alike m') (hp : pid < 32) (hm : m.detector = false)
    (hinv : (m.entries a).Inv m.rules last) : (m.invalidate pid a).Alike (m'.invalidate pid a) := by
  have hline : ∀ b, (m'.entries b).state = (m.entries b).state ∧
      (m'.entries b).sharers = (m.entries b).sharers :=
    fun b => ⟨(h.lines b).state, (h.lines b).sharers⟩
  have hevict : ∀ b,
      ((m'.invalidate pid a).entries b).state = ((m.invalidate pid a).entries b).state ∧
      ((m'.invalidate pid a).entries b).sharers = ((m.invalidate pid a).entries b).sharers := by
    intro b
    rw [entries_invalidate hp, entries_invalidate hp]
    rcases eq_or_ne b a with rfl | hne
    · rw [Function.update_self, Function.update_self]
      exact Entry.evict_alike m'.rules pid hinv hm (hline b).1 (hline b).2
    · rw [Function.update_of_ne hne, Function.update_of_ne hne]
      exact hline b
  refine ⟨?_, fun b => .of_entry (hevict b).1 (hevict b).2⟩
  exact (simulates_invalidate hp).numProcessors.trans
    (h.numProcessors.trans (simulates_invalidate hp).numProcessors.symm)

/-! ## Reads -/

theorem Alike.agree_fetch (h : m.Alike m') :
    Agree (fun r r' => r.1.Alike r'.1 ∧ r'.2 = r.2) (m.fetch pid home a hops)
      (m'.fetch pid home a hops) := by
  have hline := h.lines a
  simp only [fetch, hline.state, hline.isSet, hline.owner, h.numProcessors]
  cases hcheck : check ((m.directory a).state != .invalid) .fetch with
  | error e => exact agree_error
  | ok u =>
    simp only [ok_bind]
    split
    · exact ⟨h, rfl⟩
    · split
      · cases (m.directory a).owner m.numProcessors with
        | error e => exact agree_error
        | ok o => exact ⟨h.setLine (hline.setSharer.withState .shared), rfl⟩
      · exact ⟨h.setLine (hline.setSharer.withState .shared), rfl⟩

theorem Alike.agree_readMiss (h : m.Alike m') :
    Agree (fun r r' => r.1.Alike r'.1 ∧ r'.2 = r.2) (m.readMiss pid home a hops)
      (m'.readMiss pid home a hops) := by
  have hline := h.lines a
  simp only [readMiss, hline.state]
  cases check ((m.directory a).state == .invalid) .readMiss with
  | error e => exact agree_error
  | ok u => exact ⟨h.setLine (hline.withState .shared).setSharer, rfl⟩

theorem Alike.agree_increaseReadCount (h : m.Alike m') :
    Agree DirectoryLine.Alike ((m.directory a).increaseReadCount pid)
      ((m'.directory a).increaseReadCount pid) := by
  have hline := h.lines a
  simp only [DirectoryLine.increaseReadCount]
  cases check (decide (pid < 64)) .readCount with
  | error e => exact agree_error
  | ok u =>
    simp only [ok_bind]
    split <;> split <;> exact ⟨hline.state, hline.sharerVector⟩

theorem Alike.agree_finishRead (h : m.Alike m') (charge : Charge) :
    Agree (fun r r' => r.1.Alike r'.1 ∧ r'.2 = r.2) (m.finishRead pid a charge)
      (m'.finishRead pid a charge) := by
  unfold finishRead
  split
  · refine h.agree_increaseReadCount.bind fun d d' _ _ hd => ?_
    have hset := h.setLine (a := a) hd
    exact ⟨⟨hset.numProcessors, hset.lines⟩, rfl⟩
  · exact ⟨⟨h.numProcessors, h.lines⟩, rfl⟩

/-- **Reads are alike.** -/
theorem Alike.agree_processRead (h : m.Alike m') :
    Agree (fun r r' => r.1.Alike r'.1 ∧ r'.2 = r.2) (m.processRead pid a)
      (m'.processRead pid a) := by
  simp only [processRead_eq, (h.lines a).state, h.getHomeNode]
  cases (m.directory a).state with
  | shared | modified =>
    refine h.agree_fetch.bind ?_
    rintro ⟨m₁, charge⟩ ⟨m₁', charge'⟩ - - ⟨hm, hcharge⟩
    cases hcharge
    exact hm.agree_finishRead charge
  | invalid =>
    refine h.agree_readMiss.bind ?_
    rintro ⟨m₁, cost, hops⟩ ⟨m₁', costs⟩ - - ⟨hm, hcosts⟩
    cases hcosts
    exact hm.agree_finishRead ⟨.cacheMiss, cost, hops⟩

/-! ## Hops -/

theorem invalidateHops_congr (hn : m'.numProcessors = m.numProcessors)
    (h : ∀ i < m.numProcessors, i ≠ pid → d'.isSet i = d.isSet i) :
    m'.invalidateHops d' pid home hops = m.invalidateHops d pid home hops := by
  unfold invalidateHops
  rw [hn]
  refine List.foldl_ext _ _ hops fun hops i hi => ?_
  by_cases hne : i = pid
  · simp [hne]
  · rw [h i (List.mem_range.mp hi) hne]

/-- Copies at home are invalidated without a hop. -/
theorem invalidateHops_eq_self
    (h : ∀ i < m.numProcessors, d.isSet i = true → i = pid ∨ i = home) :
    m.invalidateHops d pid home hops = hops := by
  refine List.foldlRecOn (motive := fun k => k = hops) _ _ rfl ?_
  rintro k rfl i hi
  split
  · rename_i hset
    rw [Bool.and_eq_true, bne_iff_ne] at hset
    rcases h i (List.mem_range.mp hi) hset.1 with hi | rfl
    · exact absurd hi hset.2
    · simp [getDirectoryCost]
  · rfl

theorem Alike.record (h : m.Alike m') (call call' : Call) :
    (m.record call).Alike (m'.record call') :=
  ⟨h.numProcessors, h.lines⟩

end DirMsi

namespace Controller

variable {c d : Controller} {cost : ℕ}

/-! ## The line fetch -/

/-- **A line fetch** keeps two directories alike. -/
theorem agree_fetchCacheLine_alike {replace : Bool} (h : c.SameCaches d)
    (halike : c.coherence.Alike d.coherence) (hp : pid < 32) (hdet : c.coherence.detector = false)
    {last : Addr → Option ℕ} (hinv : Protocol.Inv c.coherence.rules last c.coherence.entries) :
    Agree (fun c' d' => c'.SameCaches d' ∧ c'.coherence.Alike d'.coherence)
      (c.fetchCacheLine pid a replace) (d.fetchCacheLine pid a replace) := by
  refine h.agree_fetchCacheLine.mono fun c' d' _ _ hr => ⟨hr.1, ?_⟩
  rcases hr.2 with ⟨hc, hd⟩ | ⟨s, hc, hd⟩
  · rw [hc, hd]
    exact halike
  · rw [hc, hd]
    have hrec := halike.record (.evict pid s.lines s.victim.evict)
      (.evict pid s.lines s.victim.evict)
    simp only [CacheSet.evict]
    split
    · exact hrec.invalidate hp hdet (hinv _)
    · exact hrec

/-! ## The store -/

/-- A store that the adaptive protocol charges as the baseline does: of a
sharer, and either the last writer's, with no other copy than the home
node's, or the home node's own. -/
def Plain (c : Controller) (pid : ℕ) (addr : Addr) : Prop :=
  (c.line addr).state ≠ .invalid → (c.line addr).isSet pid = true ∧
    if (c.line addr).isLastWriter pid then
      ∀ i < c.coherence.numProcessors, (c.line addr).isSet i = true →
        i = pid ∨ i = c.coherence.getHomeNode addr
    else pid = c.coherence.getHomeNode addr

instance (c : Controller) (pid : ℕ) (addr : Addr) : Decidable (c.Plain pid addr) := by
  unfold Plain
  infer_instance

/-- The baseline's store of a sharer. -/
theorem processWrite_of_sharer (h : pid < 32) (hd : c.coherence.detector = false)
    (hs : (c.line a).state ≠ .invalid) (hmem : pid ∈ (c.line a).sharers) :
    ∃ charge : Charge, charge = ⟨.cacheHit,
        (getDirectoryCost pid (c.coherence.getHomeNode a) 0).1 + localCacheAccess,
        c.coherence.invalidateHops (c.line a) pid (c.coherence.getHomeNode a)
          (getDirectoryCost pid (c.coherence.getHomeNode a) 0).2⟩ ∧
      c.processWrite pid a =
        .ok ({ c with coherence := (c.coherence.claim pid a).profileStore pid a charge }, charge) :=
  ⟨_, rfl, processWrite_of_baseline hd hs (fetch_of_mem _ _ h hs hmem) hs rfl⟩

theorem setLine_line : c.setLine a (c.line a) = c := by
  rw [setLine, line, DirMsi.setLine_self]

/-- **The push loop without a reader to push to** clears bits of the line,
and charges nothing. -/
theorem exists_clearLoop (pid home cost hops : ℕ) {l : List ℕ}
    (hq : ∀ i ∈ l, i ≠ pid → (c.line a).qualifiedReader i = false) :
    ∃ d, l.foldlM (pushBody pid home a) (c, cost, hops) = .ok (c.setLine a d, cost, hops) ∧
      d.readCountVector = (c.line a).readCountVector := by
  induction l generalizing c with
  | nil =>
    refine ⟨c.line a, ?_, rfl⟩
    rw [setLine_line]
    rfl
  | cons i l ih =>
    have hbody : ∃ d, pushBody pid home a (c, cost, hops) i = .ok (c.setLine a d, cost, hops) ∧
        d.readCountVector = (c.line a).readCountVector := by
      simp only [pushBody]
      by_cases hne : i = pid
      · rw [if_neg (not_not_intro hne)]
        exact ⟨c.line a, by rw [setLine_line]; rfl, rfl⟩
      · have hqual := hq i List.mem_cons_self hne
        rw [if_pos hne, if_neg (by simp [hqual])]
        split
        · exact ⟨_, rfl, rfl⟩
        · exact ⟨c.line a, by rw [setLine_line]; rfl, rfl⟩
    obtain ⟨d, hok, hreads⟩ := hbody
    have hline : (c.setLine a d).line a = d := by simp [line, setLine]
    obtain ⟨d', hok', hreads'⟩ := ih (c := c.setLine a d) fun j hj hne => by
      rw [hline, DirectoryLine.qualifiedReader, hreads]
      exact hq j (List.mem_cons_of_mem i hj) hne
    rw [hline] at hreads'
    refine ⟨d', ?_, hreads'.trans hreads⟩
    rw [List.foldlM_cons, hok, ok_bind, hok']
    simp [setLine]

/-- What a plain store leaves and charges, under either protocol. -/
structure Claims (pid : ℕ) (a : Addr) (c c' : Controller) (charge : Charge) : Prop where
  same : c.SameCaches c'
  numProcessors : c'.coherence.numProcessors = c.coherence.numProcessors
  elsewhere : ∀ b ≠ a, (c'.coherence.directory b) = c.coherence.directory b
  state : (c'.line a).state = .modified
  sharers : (c'.line a).sharers = {pid}
  response : charge.response = .cacheHit
  cost : charge.cost =
    (getDirectoryCost pid (c.coherence.getHomeNode a) 0).1 + localCacheAccess
  hops : charge.hops = c.coherence.invalidateHops (c.line a) pid (c.coherence.getHomeNode a)
    (getDirectoryCost pid (c.coherence.getHomeNode a) 0).2

theorem claims_baseline (h : pid < 32) (hd : c.coherence.detector = false)
    (hs : (c.line a).state ≠ .invalid) (hmem : pid ∈ (c.line a).sharers) :
    ∃ c' charge, c.processWrite pid a = .ok (c', charge) ∧ Claims pid a c c' charge := by
  obtain ⟨charge, rfl, hok⟩ := processWrite_of_sharer h hd hs hmem
  have hline : (c.coherence.claim pid a).directory a = claimedLine (c.line a) pid := by
    simp [claim, line]
  refine ⟨_, _, hok, ⟨rfl, rfl, rfl⟩, rfl, fun b hb => ?_, ?_, ?_, rfl, rfl, rfl⟩
  · change (c.coherence.claim pid a).directory b = _
    simp [claim, hb]
  · exact congrArg DirectoryLine.state hline
  · exact (congrArg DirectoryLine.sharers hline).trans (claimedLine_sharers h)

theorem claims_handoff (h : pid < 32) (hn : c.coherence.numProcessors ≤ 32)
    (hd : c.coherence.detector = true) (hs : (c.line a).state ≠ .invalid)
    (hw : ¬ (c.line a).isLastWriter pid = true) (hhome : pid = c.coherence.getHomeNode a) :
    ∃ c' charge, c.processWrite pid a = .ok (c', charge) ∧ Claims pid a c c' charge := by
  have hok : c.processWrite pid a = _ := processWrite_of_detector hd hs
  rw [pushAndInvalidate_of_handoff h hn hs hw, ok_bind] at hok
  have hline : ((noted c.coherence pid a).claim pid a).directory a =
      claimedLine ((c.line a).updateLastWriter pid) pid := by
    rw [noted_claim]
    simp [line]
  refine ⟨_, _, hok, ⟨rfl, rfl, rfl⟩, rfl, fun b hb => ?_, ?_, ?_, rfl, rfl, ?_⟩
  · change ((noted c.coherence pid a).claim pid a).directory b = _
    rw [noted_claim]
    simp [hb]
  · exact congrArg DirectoryLine.state hline
  · exact (congrArg DirectoryLine.sharers hline).trans (claimedLine_sharers h)
  · -- at home the second request costs no hop, and the new bit is its own
    have hzero : ∀ k, (getDirectoryCost pid (c.coherence.getHomeNode a) k).2 = k := by
      intro k
      simp [getDirectoryCost, ← hhome]
    simp only [hzero]
    refine invalidateHops_congr rfl fun i hi hne => ?_
    rw [DirectoryLine.isSet_eq_decide (by omega), DirectoryLine.isSet_eq_decide (by omega)]
    congr 1
    change (i ∈ ((c.line a).setSharer pid).sharers) = _
    simp [DirectoryLine.sharers_setSharer h, hne]

theorem claims_lastWriter (hn : c.coherence.numProcessors ≤ 32)
    (hp : pid < c.coherence.numProcessors) (hcalls : CallsBack c.coherence pid a)
    (hinv : (c.coherence.entries a).Inv c.coherence.rules last)
    (hmem : pid ∈ (c.line a).sharers)
    (hothers : ∀ i < c.coherence.numProcessors, (c.line a).isSet i = true →
      i = pid ∨ i = c.coherence.getHomeNode a)
    (hq : ∀ i < c.coherence.numProcessors, i ≠ pid → (c.line a).qualifiedReader i = false) :
    ∃ c' charge, c.processWrite pid a = .ok (c', charge) ∧ Claims pid a c c' charge := by
  have h32 : pid < 32 := by omega
  have hwrites : Writes c.coherence pid a := ⟨hn, hcalls.1, hp, hcalls.2.2, hcalls.2.1⟩
  obtain ⟨home, hhome⟩ : ∃ home, home = c.coherence.getHomeNode a := ⟨_, rfl⟩
  obtain ⟨d, hloop, -⟩ := exists_clearLoop (c := c) (a := a) pid home
    ((getDirectoryCost pid home 0).1 + localCacheAccess) (getDirectoryCost pid home 0).2
    (l := List.range c.coherence.numProcessors) fun i hi => hq i (List.mem_range.mp hi)
  obtain ⟨xs', log', hpush'⟩ := (ensures_pushLoop home hwrites _ (pushing_enter hmem)).of_ok hloop
  have hentry := hpush'.entries_eq hwrites hinv.sharers_subset
  -- nobody else qualifies, so the writer is left alone
  have hsharers : ((c.coherence.entries a).store c.coherence.rules pid).sharers = {pid} := by
    ext i
    rw [Entry.mem_sharers_store, Finset.mem_singleton]
    refine or_iff_left fun hi => ?_
    obtain ⟨-, -, -, hmem, hne, hqual⟩ := hi
    have := hq i (mem_procs.mp hmem) hne
    exact absurd (this.symm.trans hqual) (by decide)
  have hok := processWrite_of_callsBack h32 hcalls
  rw [← hhome, refetch_of_mem h32 _ hmem, ok_bind, hloop, ok_bind] at hok
  refine ⟨_, _, hok, ⟨rfl, rfl, rfl⟩, rfl, fun b hb => ?_, ?_, ?_, rfl, hhome ▸ rfl, ?_⟩
  · simp [setLine, profileStore, hb]
  · simp [line, setLine, profileStore]
  · refine Eq.trans ?_ ((congrArg Entry.sharers hentry).trans hsharers)
    simp [line, setLine, profileStore, DirectoryLine.sharers]
  · rw [invalidateHops_eq_self hothers, ← hhome]

theorem SameCaches.trans {c₁ c₂ : Controller} (h : c.SameCaches c₁) (h' : c₁.SameCaches c₂) :
    c.SameCaches c₂ :=
  ⟨h'.cache.trans h.cache, h'.offsetNumBits.trans h.offsetNumBits, h'.tagMask.trans h.tagMask⟩

theorem SameCaches.symm (h : c.SameCaches d) : d.SameCaches c :=
  ⟨h.cache.symm, h.offsetNumBits.symm, h.tagMask.symm⟩

/-- Two plain stores, one of each protocol. -/
theorem Claims.alike {c' d' : Controller} {charge charge' : Charge} (h : Claims pid a c c' charge)
    (h' : Claims pid a d d' charge') (hsame : c.SameCaches d)
    (halike : c.coherence.Alike d.coherence) :
    c'.SameCaches d' ∧ c'.coherence.Alike d'.coherence ∧ charge' = charge := by
  have hhome : d.coherence.getHomeNode a = c.coherence.getHomeNode a := halike.getHomeNode
  refine ⟨(h.same.symm.trans hsame).trans h'.same, ⟨?_, fun b => ?_⟩, ?_⟩
  · rw [h.numProcessors, h'.numProcessors, halike.numProcessors]
  · rcases eq_or_ne b a with rfl | hne
    · exact .of_entry (h'.state.trans h.state.symm) (h'.sharers.trans h.sharers.symm)
    · rw [h.elsewhere b hne, h'.elsewhere b hne]
      exact halike.lines b
  · have hhops : charge'.hops = charge.hops := by
      rw [h.hops, h'.hops, hhome]
      exact invalidateHops_congr halike.numProcessors fun i _ _ => (halike.lines a).isSet
    obtain ⟨response, cost, hops⟩ := charge
    obtain ⟨response', cost', hops'⟩ := charge'
    simp only [Charge.mk.injEq]
    exact ⟨h'.response.trans h.response.symm, h'.cost.trans (hhome ▸ h.cost.symm), hhops⟩

/-- **Plain stores are alike.** -/
theorem agree_processWrite (hsame : c.SameCaches d) (halike : c.coherence.Alike d.coherence)
    (hc : c.coherence.detector = false) (hd : d.coherence.detector = true)
    (hn : d.coherence.numProcessors ≤ 32) (hp : pid < d.coherence.numProcessors)
    (hinv : (d.coherence.entries a).Inv d.coherence.rules last) (hplain : d.Plain pid a)
    (hq : (d.line a).isLastWriter pid = true →
      ∀ i < d.coherence.numProcessors, i ≠ pid → (d.line a).qualifiedReader i = false) :
    Agree (fun r r' => r.1.SameCaches r'.1 ∧ r.1.coherence.Alike r'.1.coherence ∧ r'.2 = r.2)
      (c.processWrite pid a) (d.processWrite pid a) := by
  have h32 : pid < 32 := by omega
  have hline := halike.lines a
  by_cases hs : (d.line a).state = .invalid
  · have hs' : (c.line a).state = .invalid := hline.state.symm.trans hs
    have hcharge : writeMissCharge d.coherence pid a = writeMissCharge c.coherence pid a := by
      rw [writeMissCharge, writeMissCharge, halike.getHomeNode]
    rw [processWrite_of_invalid hs, processWrite_of_invalid hs', hcharge]
    have hbits := (hline.setSharer (i := pid)).setSharer (i := pid)
    have hfilled : (filledLine (c.line a) pid).Alike (filledLine (d.line a) pid) :=
      ⟨rfl, hbits.sharerVector⟩
    have hset := halike.setLine (a := a) hfilled
    refine ⟨⟨hsame.cache, hsame.offsetNumBits, hsame.tagMask⟩, ?_, rfl⟩
    rw [noted_setLine, noted_setLine]
    exact ⟨hset.numProcessors, hset.lines⟩
  · have hs' : (c.line a).state ≠ .invalid := fun h => hs (hline.state.trans h)
    obtain ⟨hset, hkind⟩ := hplain hs
    have hmem : pid ∈ (d.line a).sharers := (DirectoryLine.isSet_iff h32).mp hset
    obtain ⟨c', charge, hok, hclaims⟩ := claims_baseline h32 hc hs' (hline.sharers ▸ hmem)
    -- last writer or not, the adaptive store does what the baseline does
    have hadaptive : ∃ d' charge, d.processWrite pid a = .ok (d', charge) ∧
        Claims pid a d d' charge := by
      by_cases hw : (d.line a).isLastWriter pid = true
      · rw [if_pos hw] at hkind
        have hcalls : CallsBack d.coherence pid a :=
          ⟨hd, hs, (DirectoryLine.writer_eq_some h32).mpr hw⟩
        exact claims_lastWriter hn hp hcalls hinv hmem hkind (hq hw)
      · rw [if_neg hw] at hkind
        exact claims_handoff h32 hn hd hs hw hkind
    obtain ⟨d', charge', hok', hclaims'⟩ := hadaptive
    rw [hok, hok']
    exact hclaims.alike hclaims' hsame halike

end Controller

end AdaptiveMsi
