import AdaptiveMsi.Cache.Contents
import AdaptiveMsi.Controller.Ledger
/-!
# One set laid over the others

An access works on one set of every cache and on the entries of the
addresses of that set. `overlay` takes these from one controller and the
rest from another, with the counters of both, and every routine commutes
with it: what it does to the first, it does to the two together. The one
address that may be of another set is `0`, which `evict` hands over for a
victim in the first way; nobody has accessed it, so nothing comes of it.
-/

namespace AdaptiveMsi

open Machine

/-! ## Counters -/

namespace AccessStat

variable {s s' s'' : AccessStat}

theorem add_right_comm : (s.add s').add s'' = (s.add s'').add s' := by
  ext <;> simp only [add, Stat.add] <;> omega

theorem add_left_comm : s.add (s'.add s'') = s'.add (s.add s'') := by
  ext <;> simp only [add, Stat.add] <;> omega

end AccessStat

namespace Profile

variable {p q r : Profile} {b : Bill}

/-- The counters of both. -/
def add (p q : Profile) : Profile :=
  ⟨fun i => (p.profiles i).add (q.profiles i), fun a => (p.lineStat a).add (q.lineStat a)⟩

theorem new_add : Profile.new.add p = p := by
  ext i <;> simp [add, new, AccessStat.add, Stat.add, AccessStat.zero, Stat.zero]

theorem add_left_comm : p.add (q.add r) = q.add (p.add r) := by
  ext1
  · exact funext fun i => AccessStat.add_left_comm
  · exact funext fun a => AccessStat.add_left_comm

/-- **A bill goes to either.** -/
theorem post_add : b.post (p.add q) = (b.post p).add q := by
  ext1
  · funext i
    simp only [add, Bill.post_profiles]
    split
    · exact AccessStat.add_right_comm
    · rfl
  · funext a
    simp only [add, Bill.post_lineStat]
    split
    · exact AccessStat.add_right_comm
    · rfl

end Profile

/-! ## The directory -/

namespace DirMsi

variable {S : Addr → Prop} [DecidablePred S] {m m' k : DirMsi} {a b : Addr} {d : DirectoryLine}
variable {pid home hops : ℕ}

/-- `m` at the addresses of `S`, and `k` at the others. -/
def overlay (S : Addr → Prop) [DecidablePred S] (m k : DirMsi) : DirMsi :=
  { k with
    profiles := m.profiles.add k.profiles
    directory := fun a => if S a then m.directory a else k.directory a
    calls := m.calls }

theorem overlay_directory :
    (m.overlay S k).directory a = if S a then m.directory a else k.directory a := rfl

/-- `m'` is `m` laid over `k`, where nobody has touched address `0`. -/
structure Laid (S : Addr → Prop) [DecidablePred S] (k m m' : DirMsi) : Prop where
  eq : m' = m.overlay S k
  zero : m.directory 0 = .empty
  rules : m.numProcessors = k.numProcessors ∧ m.detector = k.detector

theorem Laid.line (h : Laid S k m m') (ha : S a) : m'.directory a = m.directory a := by
  rw [h.eq]
  exact if_pos ha

theorem Laid.numProcessors (h : Laid S k m m') : m'.numProcessors = m.numProcessors := by
  rw [h.eq]
  exact h.rules.1.symm

theorem Laid.detector (h : Laid S k m m') : m'.detector = m.detector := by
  rw [h.eq]
  exact h.rules.2.symm

theorem Laid.getHomeNode (h : Laid S k m m') : m'.getHomeNode a = m.getHomeNode a := by
  simp only [DirMsi.getHomeNode, h.numProcessors]

theorem Laid.setLine (h : Laid S k m m') (ha : S a) (ha0 : a ≠ 0) :
    Laid S k (m.setLine a d) (m'.setLine a d) where
  eq := by
    rw [h.eq]
    simp only [DirMsi.setLine, overlay]
    congr 1
    funext b
    rcases eq_or_ne b a with rfl | hne
    · rw [Function.update_self, Function.update_self, if_pos ha]
    · rw [Function.update_of_ne hne, Function.update_of_ne hne]
  zero := by
    rw [setLine_directory, Function.update_of_ne ha0.symm]
    exact h.zero
  rules := h.rules

theorem Laid.record (h : Laid S k m m') (call : Call) :
    Laid S k (m.record call) (m'.record call) where
  eq := by
    rw [h.eq]
    rfl
  zero := h.zero
  rules := h.rules

theorem Laid.clear (h : Laid S k m m') :
    Laid S k { m with calls := [] } { m' with calls := [] } where
  eq := by
    rw [h.eq]
    rfl
  zero := h.zero
  rules := h.rules

theorem Laid.post (h : Laid S k m m') (x : Bill) :
    Laid S k { m with profiles := x.post m.profiles }
      { m' with profiles := x.post m'.profiles } where
  eq := by
    rw [h.eq]
    simp only [overlay, Profile.post_add]
  zero := h.zero
  rules := h.rules

/-- There is nothing to evict of an address nobody has touched. -/
theorem invalidate_of_empty (h : m.directory a = .empty) :
    m.invalidate pid a = m.record (.invalidate pid a) := by
  have hown : m.ownership pid a = false := by
    simp [ownership, DirectoryLine.isOwner, h, DirectoryLine.empty]
  have hclear : DirectoryLine.empty.clearSharer pid = .empty := by
    simp [DirectoryLine.clearSharer, DirectoryLine.empty]
  simp only [invalidate, hown, Bool.false_eq_true, if_false, h, hclear]
  change (m.record (.invalidate pid a)).setLine a .empty = _
  rw [← h]
  exact setLine_self

/-- **An eviction** of an address of the part, or of address `0`. -/
theorem Laid.invalidate (h : Laid S k m m') (hk : k.directory 0 = .empty) (hb : S b ∨ b = 0) :
    Laid S k (m.invalidate pid b) (m'.invalidate pid b) := by
  rcases eq_or_ne b 0 with rfl | hb0
  · have hzero : m'.directory 0 = .empty := by
      by_cases hS : S 0
      · rw [h.line hS, h.zero]
      · rw [h.eq]
        exact (if_neg hS).trans hk
    rw [invalidate_of_empty h.zero, invalidate_of_empty hzero]
    exact h.record _
  · have hS : S b := hb.resolve_right hb0
    have hline := h.line hS
    have hown : m'.ownership pid b = m.ownership pid b := by
      simp only [ownership, hline, h.detector]
    simp only [DirMsi.invalidate, hown, hline, h.detector, h.getHomeNode]
    split
    · have hcharged := (h.record (.invalidate pid b)).record (.profileCacheEvict pid b
        (dataWriteBack pid (m.getHomeNode b) 0).1 (dataWriteBack pid (m.getHomeNode b) 0).2)
      have hposted := hcharged.post (.evict pid b (dataWriteBack pid (m.getHomeNode b) 0).1
        (dataWriteBack pid (m.getHomeNode b) 0).2)
      exact hposted.setLine hS hb0
    · exact (h.record (.invalidate pid b)).setLine hS hb0

/-- **The line fetch of the directory.** -/
theorem Laid.agree_fetch (h : Laid S k m m') (ha : S a) (ha0 : a ≠ 0) :
    Agree (fun r r' => Laid S k r.1 r'.1 ∧ r'.2 = r.2) (m.fetch pid home a hops)
      (m'.fetch pid home a hops) := by
  simp only [DirMsi.fetch, h.line ha, h.numProcessors]
  cases check ((m.directory a).state != .invalid) .fetch with
  | error e => exact agree_error
  | ok u =>
    simp only [ok_bind]
    split
    · exact ⟨h, rfl⟩
    · split
      · cases (m.directory a).owner m.numProcessors with
        | error e => exact agree_error
        | ok o => exact ⟨h.setLine ha ha0, rfl⟩
      · exact ⟨h.setLine ha ha0, rfl⟩

theorem Laid.agree_fetchAndInvalidate (h : Laid S k m m') (ha : S a) (ha0 : a ≠ 0) :
    Agree (fun r r' => Laid S k r.1 r'.1 ∧ r'.2 = r.2) (m.fetchAndInvalidate pid home a hops)
      (m'.fetchAndInvalidate pid home a hops) := by
  refine (h.agree_fetch ha ha0).bind ?_
  rintro ⟨m₁, charge⟩ ⟨m₁', charge'⟩ - - ⟨h₁ : Laid S k m₁ m₁', hcharge⟩
  cases hcharge
  simp only [h₁.line ha]
  cases check ((m₁.directory a).state != .invalid) .fetchAndInvalidate with
  | error e => exact agree_error
  | ok u =>
    refine ⟨h₁.setLine ha ha0, ?_⟩
    simp only [invalidateHops, h₁.numProcessors]

theorem Laid.agree_readMiss (h : Laid S k m m') (ha : S a) (ha0 : a ≠ 0) :
    Agree (fun r r' => Laid S k r.1 r'.1 ∧ r'.2 = r.2) (m.readMiss pid home a hops)
      (m'.readMiss pid home a hops) := by
  simp only [DirMsi.readMiss, h.line ha]
  cases check ((m.directory a).state == .invalid) .readMiss with
  | error e => exact agree_error
  | ok u => exact ⟨h.setLine ha ha0, rfl⟩

theorem Laid.agree_writeMiss (h : Laid S k m m') (ha : S a) (ha0 : a ≠ 0) :
    Agree (fun r r' => Laid S k r.1 r'.1 ∧ r'.2 = r.2) (m.writeMiss pid home a hops)
      (m'.writeMiss pid home a hops) := by
  simp only [DirMsi.writeMiss, h.line ha]
  cases check ((m.directory a).state == .invalid) .writeMiss with
  | error e => exact agree_error
  | ok u => exact ⟨h.setLine ha ha0, rfl⟩

theorem Laid.agree_finishRead (h : Laid S k m m') (ha : S a) (ha0 : a ≠ 0) (charge : Charge) :
    Agree (fun r r' => Laid S k r.1 r'.1 ∧ r'.2 = r.2) (m.finishRead pid a charge)
      (m'.finishRead pid a charge) := by
  simp only [finishRead, h.line ha]
  split
  · cases (m.directory a).increaseReadCount pid with
    | error e => exact agree_error
    | ok d => exact ⟨(h.setLine ha ha0).post (.access ⟨.load, pid, a⟩ charge), rfl⟩
  · exact ⟨h.post (.access ⟨.load, pid, a⟩ charge), rfl⟩

/-- **Reads.** -/
theorem Laid.agree_processRead (h : Laid S k m m') (ha : S a) (ha0 : a ≠ 0) :
    Agree (fun r r' => Laid S k r.1 r'.1 ∧ r'.2 = r.2) (m.processRead pid a)
      (m'.processRead pid a) := by
  simp only [DirMsi.processRead_eq, h.line ha, h.getHomeNode]
  cases (m.directory a).state with
  | shared | modified =>
    refine (h.agree_fetch ha ha0).bind ?_
    rintro ⟨m₁, charge⟩ ⟨m₁', charge'⟩ - - ⟨h₁, hcharge⟩
    cases hcharge
    exact h₁.agree_finishRead ha ha0 charge
  | invalid =>
    refine (h.agree_readMiss ha ha0).bind ?_
    rintro ⟨m₁, cost, hops⟩ ⟨m₁', costs⟩ - - ⟨h₁, hcosts⟩
    cases hcosts
    exact h₁.agree_finishRead ha ha0 ⟨.cacheMiss, cost, hops⟩

end DirMsi

/-! ## The cache set -/

namespace CacheSet

variable {S : Addr → Prop} {s : CacheSet} {m m' k : DirMsi} {pid : ℕ}
variable {tag : BitVec 64} {addr : Addr} {replace : Bool}

/-- The lines in use are of addresses of `S`. -/
def Within (S : Addr → Prop) (s : CacheSet) : Prop :=
  ∀ l ∈ s.lines, l.status = .cached → S l.addr

theorem Within.fetch {r : CacheSet × LocalStatus} (h : s.Within S)
    (hr : s.fetch tag replace = .ok r) : r.1.Within S := by
  obtain ⟨⟨lines⟩, status⟩ := r
  have hlooked : Looked tag replace s.lines (lines, status) := ensures_fetch.of_ok hr
  cases hlooked with
  | absent => exact h
  | found pre l post hlines =>
    intro l' hl' hst
    rcases List.mem_append.mp hl' with hl' | hl'
    · exact h l' (by simp [hlines, hl']) hst
    · rcases List.mem_cons.mp hl' with rfl | hl'
      · rw [touch_status] at hst
        have haddr : (touch replace l).addr = l.addr := by
          unfold touch
          split <;> rfl
        rw [haddr]
        exact h l (by simp [hlines]) hst
      · exact h l' (by simp [hlines, hl']) hst

/-- The address of a victim in use is of the part, or `0`. -/
theorem Within.victim (h : s.Within S) (hst : (s.line s.victim.evict).status = .cached) :
    S s.victim.evictAddr ∨ s.victim.evictAddr = 0 := by
  rw [evictAddr_of_cached hst]
  split
  · exact Or.inr rfl
  · exact Or.inl (h _ (victim_mem (length_pos_of_cached hst)) hst)

variable [DecidablePred S]

theorem Within.evict (h : s.Within S) (hk : k.directory 0 = .empty) (hm : DirMsi.Laid S k m m') :
    DirMsi.Laid S k (s.evict pid m).2 (s.evict pid m').2 := by
  cases hst : (s.line s.victim.evict).status with
  | uncached =>
    rw [evict_of_uncached hst, evict_of_uncached hst]
    exact hm.record _
  | cached =>
    rw [evict_of_cached hst, evict_of_cached hst]
    exact (hm.record _).invalidate hk (h.victim hst)

/-- **A fetch into a set of the part.** -/
theorem Within.agree_fetchSingleLine (h : s.Within S) (ha : S addr) (hk : k.directory 0 = .empty)
    (hm : DirMsi.Laid S k m m') :
    Agree (fun r r' => r'.1 = r.1 ∧ r.1.Within S ∧ DirMsi.Laid S k r.2 r'.2)
      (s.fetchSingleLine pid tag addr m replace) (s.fetchSingleLine pid tag addr m' replace) := by
  simp only [fetchSingleLine]
  cases hf : s.fetch tag replace with
  | error e => exact agree_error
  | ok r =>
    obtain ⟨s', status⟩ := r
    have hs' : s'.Within S := h.fetch hf
    cases status with
    | cached => exact ⟨rfl, hs', hm⟩
    | uncached =>
      have hway : (s'.evict pid m').1 = (s'.evict pid m).1 := evict_fst.trans evict_fst.symm
      refine ⟨congrArg (s'.install · tag addr replace) hway, fun l hl hst => ?_, hs'.evict hk hm⟩
      rcases mem_install hl with hl | rfl
      · exact hs' l hl hst
      · exact ha

end CacheSet

/-! ## The controller -/

namespace Controller

variable {cfg : Config} {c c' d : Controller} {i j pid home cost hops : ℕ} {a : Addr}
variable {replace : Bool} {m m' : DirMsi}

/-- Set `i` of every cache from `c` and the others from `d`. -/
def overlay (cfg : Config) (i : ℕ) (c d : Controller) : Controller :=
  { d with
    coherence := c.coherence.overlay (cfg.index · = i) d.coherence
    cache := fun p j => if j = i then c.cache p j else d.cache p j }

theorem overlay_line :
    (c.overlay cfg i d).line a = if cfg.index a = i then c.line a else d.line a := by
  have hover : (c.overlay cfg i d).coherence =
      c.coherence.overlay (cfg.index · = i) d.coherence := rfl
  rw [Controller.line, hover, DirMsi.overlay_directory]
  rfl

theorem overlay_cache :
    (c.overlay cfg i d).cache pid j = if j = i then c.cache pid j else d.cache pid j := rfl

/-- **`c'` is `c` laid over `d`** at set `i`. -/
structure Laid (cfg : Config) (i : ℕ) (d c c' : Controller) : Prop where
  eq : c' = c.overlay cfg i d
  zero : c.line 0 = .empty
  rules : c.coherence.numProcessors = d.coherence.numProcessors ∧
    c.coherence.detector = d.coherence.detector
  shaped : c.Shaped cfg
  baseShaped : d.Shaped cfg
  within : ∀ p, (c.cache p i).Within (cfg.index · = i)

theorem Laid.coherence (h : Laid cfg i d c c') :
    DirMsi.Laid (cfg.index · = i) d.coherence c.coherence c'.coherence where
  eq := by
    rw [h.eq]
    rfl
  zero := h.zero
  rules := h.rules

/-- A routine of the directory. -/
theorem Laid.withCoherence (h : Laid cfg i d c c')
    (hm : DirMsi.Laid (cfg.index · = i) d.coherence m m') :
    Laid cfg i d { c with coherence := m } { c' with coherence := m' } where
  eq := by
    rw [h.eq, hm.eq]
    rfl
  zero := hm.zero
  rules := hm.rules
  shaped := h.shaped.congr rfl rfl
  baseShaped := h.baseShaped
  within := h.within

theorem Laid.line (h : Laid cfg i d c c') (ha : cfg.index a = i) : c'.line a = c.line a :=
  h.coherence.line ha

theorem Laid.setLine (h : Laid cfg i d c c') (ha : cfg.index a = i) (ha0 : a ≠ 0)
    {l : DirectoryLine} : Laid cfg i d (c.setLine a l) (c'.setLine a l) :=
  h.withCoherence (h.coherence.setLine ha ha0)

theorem Laid.record (h : Laid cfg i d c c') (call : Call) :
    Laid cfg i d (c.record call) (c'.record call) :=
  h.withCoherence (h.coherence.record call)

/-- **A line fetch** of an address of the set. -/
theorem Laid.agree_fetchCacheLine (h : Laid cfg i d c c') (hd : d.line 0 = .empty)
    (ha : cfg.index a = i) : Agree (Laid cfg i d) (c.fetchCacheLine pid a replace)
      (c'.fetchCacheLine pid a replace) := by
  have hshaped' : c'.Shaped cfg := by
    rw [h.eq]
    exact h.baseShaped.congr rfl rfl
  have hindex : c.getSetIndex a = i := h.shaped.getSetIndex.trans ha
  have hindex' : c'.getSetIndex a = i := hshaped'.getSetIndex.trans ha
  have htag : c'.getTag a = c.getTag a := hshaped'.getTag.trans h.shaped.getTag.symm
  -- the two have the set itself in common
  have hset : c'.cache pid i = c.cache pid i := by
    rw [h.eq]
    exact if_pos rfl
  simp only [fetchCacheLine, hindex, hindex', htag, hset]
  refine ((h.within pid).agree_fetchSingleLine ha hd h.coherence).bind ?_
  rintro ⟨s, m⟩ ⟨s', m'⟩ - - ⟨hs : s' = s, hwithin, hm⟩
  subst hs
  have hcache : Function.update c'.cache pid (Function.update (c'.cache pid) i s') =
      fun p j => if j = i then
        Function.update c.cache pid (Function.update (c.cache pid) i s') p j
      else d.cache p j := by
    rw [h.eq]
    funext p j
    rcases eq_or_ne p pid with rfl | hp
    · rcases eq_or_ne j i with rfl | hj
      · simp
      · simp [overlay, hj]
    · simp [overlay, hp]
  refine ⟨?_, hm.zero, hm.rules, h.shaped.congr rfl rfl, h.baseShaped, fun p => ?_⟩
  · rw [hcache, hm.eq, h.eq]
    rfl
  · rcases eq_or_ne p pid with rfl | hp
    · simpa using hwithin
    · simpa [hp] using h.within p

/-- Two computations that lay their results over `d`. -/
abbrev Lays (cfg : Config) (i : ℕ) (d : Controller) {β : Type}
    (x y : Except AssertFailure (Controller × β)) : Prop :=
  Agree (fun r r' => Laid cfg i d r.1 r'.1 ∧ r'.2 = r.2) x y

/-- **One round of the push loop.** -/
theorem Laid.agree_pushBody (h : Laid cfg i d c c') (hd : d.line 0 = .empty)
    (ha : cfg.index a = i) (ha0 : a ≠ 0) :
    Lays cfg i d (pushBody pid home a (c, cost, hops) j)
      (pushBody pid home a (c', cost, hops) j) := by
  simp only [pushBody, h.line ha]
  split
  · split
    · refine ((h.record (.push j a)).agree_fetchCacheLine hd ha).bind fun c₁ c₁' _ _ h₁ => ?_
      simp only [h₁.line ha]
      split
      · exact ⟨h₁.setLine ha ha0, rfl⟩
      · exact ⟨h₁, rfl⟩
    · split
      · exact ⟨h.setLine ha ha0, rfl⟩
      · exact ⟨h, rfl⟩
  · exact ⟨h, rfl⟩

theorem Laid.agree_pushLoop {l : List ℕ} (h : Laid cfg i d c c') (hd : d.line 0 = .empty)
    (ha : cfg.index a = i) (ha0 : a ≠ 0) :
    Lays cfg i d (l.foldlM (pushBody pid home a) (c, cost, hops))
      (l.foldlM (pushBody pid home a) (c', cost, hops)) := by
  refine Agree.foldlM ⟨h, rfl⟩ ?_
  rintro j - ⟨c₁, cost, hops⟩ ⟨c₁', r⟩ ⟨h₁, hr⟩
  cases hr
  exact h₁.agree_pushBody hd ha ha0

theorem Laid.agree_refetch (h : Laid cfg i d c c') (hd : d.line 0 = .empty)
    (ha : cfg.index a = i) (ha0 : a ≠ 0) :
    Lays cfg i d (c.refetch pid a cost) (c'.refetch pid a cost) := by
  simp only [refetch, h.line ha]
  split
  · refine (h.agree_fetchCacheLine hd ha).bind fun c₁ c₁' _ _ h₁ => ?_
    rw [h₁.line ha]
    exact ⟨h₁.setLine ha ha0, rfl⟩
  · exact ⟨h, rfl⟩

/-- The adaptive store of a line somebody holds. -/
theorem Laid.agree_pushAndInvalidate (h : Laid cfg i d c c') (hd : d.line 0 = .empty)
    (ha : cfg.index a = i) (ha0 : a ≠ 0) :
    Lays cfg i d (c.pushAndInvalidate pid home a hops) (c'.pushAndInvalidate pid home a hops) := by
  simp only [pushAndInvalidate, h.line ha, h.coherence.numProcessors]
  cases check ((c.line a).state != .invalid) .pushAndInvalidate with
  | error e => exact agree_error
  | ok u =>
    simp only [ok_bind]
    split
    · refine (h.agree_refetch hd ha ha0).bind ?_
      rintro ⟨c₁, cost, response⟩ ⟨c₁', r⟩ - - ⟨h₁ : Laid cfg i d c₁ c₁', hr⟩
      cases hr
      simp only [h₁.coherence.numProcessors]
      refine (h₁.agree_pushLoop hd ha ha0).bind ?_
      rintro ⟨c₂, cost', hops'⟩ ⟨c₂', r⟩ - - ⟨h₂ : Laid cfg i d c₂ c₂', hr⟩
      cases hr
      rw [h₂.line ha]
      exact ⟨h₂.setLine ha ha0, rfl⟩
    · cases (List.range c.coherence.numProcessors).foldlM (decreaseBody pid) (c.line a) with
      | error e => exact agree_error
      | ok l =>
        have hnoted := (h.coherence.setLine (d := l.updateLastWriter pid) ha ha0).record
          (.updateLastWriter pid a)
        refine (hnoted.agree_fetchAndInvalidate ha ha0).bind ?_
        rintro ⟨m, charge⟩ ⟨m', charge'⟩ - - ⟨hm, hcharge⟩
        cases hcharge
        exact ⟨h.withCoherence hm, rfl⟩

/-- **Stores.** -/
theorem Laid.agree_processWrite (h : Laid cfg i d c c') (hd : d.line 0 = .empty)
    (ha : cfg.index a = i) (ha0 : a ≠ 0) :
    Lays cfg i d (c.processWrite pid a) (c'.processWrite pid a) := by
  have hstore : ∀ {c₁ c₁' : Controller} (charge : Charge), Laid cfg i d c₁ c₁' → Laid cfg i d
      { c₁ with coherence := c₁.coherence.profileStore pid a charge }
      { c₁' with coherence := c₁'.coherence.profileStore pid a charge } := fun charge h₁ =>
    h₁.withCoherence (h₁.coherence.post (.access ⟨.store, pid, a⟩ charge))
  simp only [processWrite, h.line ha, h.coherence.getHomeNode, h.coherence.detector]
  cases (c.line a).state with
  | shared | modified =>
    dsimp only
    split
    · refine (h.agree_pushAndInvalidate hd ha ha0).bind ?_
      rintro ⟨c₁, charge⟩ ⟨c₁', charge'⟩ - - ⟨h₁, hcharge⟩
      cases hcharge
      exact ⟨hstore charge h₁, rfl⟩
    · refine (h.coherence.agree_fetchAndInvalidate ha ha0).bind ?_
      rintro ⟨m, charge⟩ ⟨m', charge'⟩ - - ⟨hm, hcharge⟩
      cases hcharge
      exact ⟨hstore charge (h.withCoherence hm), rfl⟩
  | invalid =>
    dsimp only
    have hnoted := (h.coherence.setLine (d := (c.line a).updateLastWriter pid) ha ha0).record
      (.updateLastWriter pid a)
    refine (hnoted.agree_writeMiss ha ha0).bind ?_
    rintro ⟨m, cost, hops⟩ ⟨m', costs⟩ - - ⟨hm, hcosts⟩
    cases hcosts
    exact ⟨hstore ⟨.cacheMiss, cost, hops⟩ (h.withCoherence hm), rfl⟩

/-- **An access commutes with the overlay**, and reports the same. -/
theorem Laid.agree_step {x : Access} (h : Laid cfg i d c c') (hd : d.line 0 = .empty)
    (ha : cfg.index x.addr = i) (ha0 : x.addr ≠ 0) : Lays cfg i d (c.step x) (c'.step x) := by
  have hclear : Laid cfg i d c.clearCalls c'.clearCalls := h.withCoherence h.coherence.clear
  rw [step_eq, step_eq]
  refine (hclear.agree_fetchCacheLine hd ha).bind fun c₁ c₁' _ _ h₁ => ?_
  have hhandle : Lays cfg i d (c₁.handle x) (c₁'.handle x) := by
    obtain ⟨kind, pid, a⟩ := x
    cases kind with
    | load =>
      refine (h₁.coherence.agree_processRead ha ha0).bind ?_
      rintro ⟨m, charge⟩ ⟨m', charge'⟩ - - ⟨hm, hcharge⟩
      exact ⟨h₁.withCoherence hm, hcharge⟩
    | store => exact h₁.agree_processWrite hd ha ha0
  refine hhandle.bind ?_
  rintro ⟨c₂, charge⟩ ⟨c₂', charge'⟩ - - ⟨h₂ : Laid cfg i d c₂ c₂', hcharge⟩
  cases hcharge
  have hcalls : c₂'.coherence.calls = c₂.coherence.calls := by
    rw [h₂.eq]
    rfl
  exact ⟨h₂, by rw [hcalls]⟩

end Controller

end AdaptiveMsi
