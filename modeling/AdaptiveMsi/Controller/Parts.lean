import AdaptiveMsi.Controller.Fills
import AdaptiveMsi.Protocol.Rename
import Mathlib.Data.List.Perm.Basic
/-!
# Two machines in step, part by part

Two controllers that match on some of the processors and some of the
addresses, the processors of the one having other names in the other. An
access by one of these processors to one of these addresses does the same
to both, as long as it pushes to no other processors; the two push loops
may visit the caches in different orders.
-/

namespace AdaptiveMsi

open Machine Protocol DirMsi

/-- Some of the processors, and some of the addresses. -/
structure Part where
  procs : ℕ → Prop
  addrs : Addr → Prop

namespace Part

/-- All of them. -/
def whole : Part := ⟨fun _ => True, fun _ => True⟩

/-- What is not of the part. -/
def others (P : Part) : Part := ⟨fun p => ¬ P.procs p, fun b => ¬ P.addrs b⟩

/-- One address less. -/
def without (P : Part) (a : Addr) : Part := ⟨P.procs, fun b => P.addrs b ∧ b ≠ a⟩

end Part

variable {P : Part} {σ : Equiv.Perm ℕ} {T : BitVec 64 → BitVec 64 → Prop}
variable {n pid cost cost' : ℕ} {a b : Addr} {detector : Bool} {x : Access}
variable {c c' c₀ c₀' c₁ c₁' : Controller} {t t' : List Access} {l l' : List ℕ}
variable {last last' : Option ℕ}

/-- The access by the renamed processor. -/
def Access.rename (σ : Equiv.Perm ℕ) (x : Access) : Access := { x with pid := σ x.pid }

theorem Access.event_rename : (x.rename σ).event = x.event.rename σ := by
  obtain ⟨kind, pid, a⟩ := x
  cases kind <;> rfl

/-! ## Line fetches -/

/-- A set does one thing for any processor, and hands over one address. -/
theorem CacheSet.agree_fetchSingleLine_pid {s : CacheSet} {m m' : DirMsi} {pid' : ℕ}
    {tag : BitVec 64} {replace : Bool} :
    Agree (fun r r' => r'.1 = r.1 ∧ (r.2 = m ∧ r'.2 = m' ∨
        ∃ s : CacheSet, r.2 = (s.evict pid m).2 ∧ r'.2 = (s.evict pid' m').2))
      (s.fetchSingleLine pid tag a m replace) (s.fetchSingleLine pid' tag a m' replace) := by
  simp only [fetchSingleLine]
  cases s.fetch tag replace with
  | error e => exact agree_error
  | ok r =>
    obtain ⟨s', status⟩ := r
    cases status with
    | cached => exact ⟨rfl, Or.inl ⟨rfl, rfl⟩⟩
    | uncached =>
      refine ⟨?_, Or.inr ⟨s', rfl, rfl⟩⟩
      simp only [evict_fst]

namespace Controller

/-- What a store leaves of its own line. -/
theorem Stores.entries_self {m m' : DirMsi} {xs : List (Event ℕ Addr)} {log : List Call}
    {response : AccessType} (h : Stores pid a xs log m m' response) :
    m'.entries a = (m.entries a).store m.rules pid := by
  rw [h.simulates.entries, List.foldl_cons, foldl_apply_of_ne fun x hx => (h.evicts x hx).1]
  simp [Event.apply, Event.addr, Event.onEntry]

/-- **Two controllers match** on a part, up to names; `T` compares what they
remember of the reads. -/
structure Matches (P : Part) (σ : Equiv.Perm ℕ) (T : BitVec 64 → BitVec 64 → Prop) (n : ℕ)
    (detector : Bool) (c c' : Controller) : Prop where
  offsetNumBits : c'.offsetNumBits = c.offsetNumBits
  tagMask : c'.tagMask = c.tagMask
  rules : c.coherence.rules = AdaptiveMsi.rules n detector
  rules' : c'.coherence.rules = AdaptiveMsi.rules n detector
  cache : ∀ p, P.procs p → c'.cache (σ p) = c.cache p
  entries : ∀ b, P.addrs b → (c.coherence.entries b).Renames σ T (c'.coherence.entries b)

theorem Matches.getTag (h : Matches P σ T n detector c c') : c'.getTag a = c.getTag a := by
  rw [Controller.getTag, Controller.getTag, h.tagMask]

theorem Matches.getSetIndex (h : Matches P σ T n detector c c') :
    c'.getSetIndex a = c.getSetIndex a := by
  rw [Controller.getSetIndex, Controller.getSetIndex, h.tagMask, h.offsetNumBits]

/-- A change of the line of `a` is not seen elsewhere. -/
theorem Matches.without (h : Matches P σ T n detector c c') :
    Matches (P.without a) σ T n detector c c' :=
  ⟨h.offsetNumBits, h.tagMask, h.rules, h.rules', h.cache, fun b hb => h.entries b hb.1⟩

/-- One cache of each is replaced. -/
theorem cache_update {f : ℕ → CacheSet} {p : ℕ} (h : c'.cache (σ p) = c.cache p) :
    Function.update c'.cache (σ pid) f (σ p) = Function.update c.cache pid f p := by
  rcases eq_or_ne p pid with rfl | hne
  · rw [Function.update_self, Function.update_self]
  · rw [Function.update_of_ne hne, Function.update_of_ne (σ.injective.ne hne), h]

theorem numProcessors_of_rules {m : DirMsi} (h : m.rules = AdaptiveMsi.rules n detector) :
    m.numProcessors = n := by
  have hmem : ∀ i, i < m.numProcessors ↔ i < n := fun i => by
    have hprocs : i ∈ m.rules.procs ↔ i < n := by
      rw [h]
      exact mem_procs
    exact mem_procs.symm.trans hprocs
  have hle := hmem m.numProcessors
  have hge := hmem n
  omega

theorem detector_of_rules {m : DirMsi} (h : m.rules = AdaptiveMsi.rules n detector) :
    m.detector = detector :=
  congrArg Rules.adaptive h

/-- The names keep to the processors. -/
theorem lt_of_renames {i : ℕ} (hR : (AdaptiveMsi.rules n detector).Renames σ T
    (AdaptiveMsi.rules n detector)) : σ i < n ↔ i < n := by
  rw [← mem_procs (b := detector), hR.procs, mem_procs]

/-- **A line fetch** for a processor of the part. -/
theorem Matches.agree_fetchCacheLine {replace : Bool} (h : Matches P σ T n detector c c')
    (hR : (AdaptiveMsi.rules n detector).Renames σ T (AdaptiveMsi.rules n detector)) (hn : n ≤ 32)
    (hp : pid < n) (hpart : P.procs pid) :
    Agree (Matches P σ T n detector) (c.fetchCacheLine pid a replace)
      (c'.fetchCacheLine (σ pid) a replace) := by
  have hσp : σ pid < n := (lt_of_renames hR).mpr hp
  simp only [fetchCacheLine, h.getTag, h.getSetIndex, h.cache pid hpart]
  refine CacheSet.agree_fetchSingleLine_pid.bind ?_
  rintro ⟨s, m⟩ ⟨s', m'⟩ - - ⟨hs, hm⟩
  obtain rfl : s' = s := hs
  rcases hm with ⟨hm, hm'⟩ | ⟨v, hm, hm'⟩
  · obtain rfl : m = c.coherence := hm
    obtain rfl : m' = c'.coherence := hm'
    exact ⟨h.offsetNumBits, h.tagMask, h.rules, h.rules',
      fun p hp => cache_update (h.cache p hp), h.entries⟩
  · obtain rfl : m = (v.evict pid c.coherence).2 := hm
    obtain rfl : m' = (v.evict (σ pid) c'.coherence).2 := hm'
    refine ⟨h.offsetNumBits, h.tagMask, (CacheSet.rules_evict (by omega)).trans h.rules,
      (CacheSet.rules_evict (by omega)).trans h.rules', fun p hp => cache_update (h.cache p hp),
      fun b hb => ?_⟩
    change ((v.evict pid c.coherence).2.entries b).Renames _ _
      ((v.evict (σ pid) c'.coherence).2.entries b)
    rw [CacheSet.entries_evict (by omega), CacheSet.entries_evict (by omega)]
    split
    · rw [h.rules, h.rules']
      exact renames_apply (x := .evict pid v.victim.evictAddr) hR (mem_procs.mpr hp)
        (h.entries b hb)
    · exact h.entries b hb

/-! ## The store that calls back -/

theorem Matches.isSet (h : Matches P σ T n detector c c') (ha : P.addrs a) (hp : pid < 32)
    (hσp : σ pid < 32) : (c'.line a).isSet (σ pid) = (c.line a).isSet pid := by
  rw [Bool.eq_iff_iff, DirectoryLine.isSet_iff hσp, DirectoryLine.isSet_iff hp]
  exact (h.entries a ha).sharers pid

/-- **The second line fetch.** -/
theorem Matches.agree_refetch (h : Matches P σ T n detector c c')
    (hR : (AdaptiveMsi.rules n detector).Renames σ T (AdaptiveMsi.rules n detector)) (hn : n ≤ 32)
    (hp : pid < n) (hpart : P.procs pid) (ha : P.addrs a) :
    Agree (fun r r' => Matches P σ T n detector r.1 r'.1 ∧ r'.2.2 = r.2.2) (c.refetch pid a cost)
      (c'.refetch (σ pid) a cost') := by
  have hσp : σ pid < n := (lt_of_renames hR).mpr hp
  simp only [refetch, h.isSet ha (by omega : pid < 32) (by omega)]
  split
  · refine (h.agree_fetchCacheLine hR hn hp hpart).bind fun c₁ c₁' _ _ h₁ => ?_
    refine ⟨⟨h₁.offsetNumBits, h₁.tagMask, h₁.rules, h₁.rules', h₁.cache, fun b hb => ?_⟩, rfl⟩
    have hb := h₁.entries b hb
    simp only [setLine_coherence]
    rcases eq_or_ne b a with rfl | hne
    · rw [entries_setLine_self, entries_setLine_self]
      refine ⟨hb.state, fun q => ?_, hb.writer, hb.reads⟩
      rw [DirectoryLine.entry_sharers, DirectoryLine.entry_sharers,
        DirectoryLine.sharers_setSharer (by omega), DirectoryLine.sharers_setSharer (by omega),
        Finset.mem_insert, Finset.mem_insert, EmbeddingLike.apply_eq_iff_eq]
      exact or_congr_right (hb.sharers q)
    · rw [entries_setLine_of_ne hne, entries_setLine_of_ne hne]
      exact hb
  · exact ⟨h, rfl⟩

/-- The renamed loop pushes to the renamed processors, in its own order. -/
theorem Matches.receivers (h : Matches P σ T n true c c') (ha : P.addrs a)
    (hR : (AdaptiveMsi.rules n true).Renames σ T (AdaptiveMsi.rules n true)) :
    (c'.receivers (σ pid) a).Perm ((c.receivers pid a).map σ) := by
  refine (List.perm_ext_iff_of_nodup (List.nodup_range.filter _)
    ((List.nodup_range.filter _).map σ.injective)).mpr fun q' => ?_
  obtain ⟨q, rfl⟩ := σ.surjective q'
  have hqualified : q < n → (c'.line a).qualifiedReader (σ q) = (c.line a).qualifiedReader q :=
    fun hq => hR.qualified rfl q (mem_procs.mpr hq) _ _ (h.entries a ha).reads
  rw [List.mem_map_of_injective σ.injective]
  simp only [List.mem_filter, List.mem_range, numProcessors_of_rules h.rules,
    numProcessors_of_rules h.rules', lt_of_renames hR, ne_eq, EmbeddingLike.apply_eq_iff_eq]
  constructor
  · rintro ⟨hq, hne⟩
    rw [hqualified hq] at hne
    exact ⟨hq, hne⟩
  · rintro ⟨hq, hne⟩
    rw [← hqualified hq] at hne
    exact ⟨hq, hne⟩

/-- **What two loops fill** in orders of their own. -/
theorem Matches.filled (h : Matches P σ T n true c₀ c₀')
    (hR : (AdaptiveMsi.rules n true).Renames σ T (AdaptiveMsi.rules n true))
    (hl : ∀ i ∈ l, i < n ∧ P.procs i) (hperm : l'.Perm (l.map σ)) (hfill : Supplied c₀ a l c)
    (hfill' : Supplied c₀' a l' c') : Matches (P.without a) σ T n true c c' where
  offsetNumBits := by rw [hfill.offsetNumBits, hfill'.offsetNumBits, h.offsetNumBits]
  tagMask := by rw [hfill.tagMask, hfill'.tagMask, h.tagMask]
  rules := hfill.rules.trans h.rules
  rules' := hfill'.rules.trans h.rules'
  cache p hp := by
    have hmem : σ p ∈ l' ↔ p ∈ l := by
      rw [hperm.mem_iff, List.mem_map_of_injective σ.injective]
    simp only [hfill.cache, hfill'.cache, hmem, filledCache, h.cache p hp, h.getSetIndex, h.getTag]
  entries b hb := by
    have hspills : ∀ p ∈ l, c₀'.spills a (σ p) = (c₀.spills a p).map (Event.rename σ) :=
      fun p hp => by
        simp only [spills, h.cache p (hl p hp).2, h.getSetIndex, h.getTag, List.map_map]
        rfl
    -- in the order of the first loop
    have horder : (l'.flatMap (c₀'.spills a)).Perm
        ((l.flatMap (c₀.spills a)).map (Event.rename σ)) := by
      refine (hperm.flatMap_right _).trans (List.Perm.of_eq ?_)
      rw [List.flatMap_map, List.map_flatMap]
      exact List.flatMap_congr hspills
    have hevict : ∀ x ∈ l'.flatMap (c₀'.spills a), ∃ p b, x = .evict p b := fun x hx => by
      obtain ⟨p, -, hx⟩ := List.mem_flatMap.mp hx
      obtain ⟨b, -, rfl⟩ := List.mem_map.mp hx
      exact ⟨p, b, rfl⟩
    have hprocs : ∀ x ∈ l.flatMap (c₀.spills a), x.proc ∈ (AdaptiveMsi.rules n true).procs :=
      fun x hx => by
        obtain ⟨p, hp, hx⟩ := List.mem_flatMap.mp hx
        obtain ⟨b, -, rfl⟩ := List.mem_map.mp hx
        exact mem_procs.mpr (hl p hp).1
    rw [hfill.entries b hb.2, hfill'.entries b hb.2, h.rules, h.rules',
      foldl_apply_perm horder hevict]
    exact renames_foldl hR hprocs (h.entries b hb.1)

/-- The processors that a store to `a` may push to are of the part. -/
def KeepsTo (c : Controller) (P : Part) (a : Addr) : Prop :=
  c.coherence.detector = true → ∀ i < c.coherence.numProcessors,
    c.coherence.rules.qualified (c.coherence.entries a).reads i = true → P.procs i

theorem keepsTo_whole : c.KeepsTo .whole a := fun _ _ _ _ => trivial

/-- The same counters qualify the same readers. -/
theorem KeepsTo.congr (h : c.KeepsTo P a) (hrules : c'.coherence.rules = c.coherence.rules)
    (hreads : (c'.coherence.entries a).reads = (c.coherence.entries a).reads) :
    c'.KeepsTo P a := by
  intro hd i hi hq
  have hnum : c'.coherence.numProcessors = c.coherence.numProcessors :=
    numProcessors_of_rules hrules
  rw [hrules, hreads] at hq
  exact h ((congrArg Rules.adaptive hrules).symm.trans hd) i (hnum ▸ hi) hq

/-- **A store that calls back** does the same to both. -/
theorem Matches.agree_processWrite_of_callsBack (h : Matches P σ T n true c c')
    (hR : (AdaptiveMsi.rules n true).Renames σ T (AdaptiveMsi.rules n true)) (hn : n ≤ 32)
    (hp : pid < n) (hpart : P.procs pid) (ha : P.addrs a) (hkeeps : c.KeepsTo P a)
    (hcalls : CallsBack c.coherence pid a) (hcalls' : CallsBack c'.coherence (σ pid) a)
    (hinv : (c.coherence.entries a).Inv c.coherence.rules last)
    (hinv' : (c'.coherence.entries a).Inv c'.coherence.rules last') :
    Agree (fun r r' => Matches P σ T n true r.1 r'.1 ∧ r'.2.response = r.2.response)
      (c.processWrite pid a) (c'.processWrite (σ pid) a) := by
  have hσp : σ pid < n := (lt_of_renames hR).mpr hp
  have hnum := numProcessors_of_rules h.rules
  have hnum' := numProcessors_of_rules h.rules'
  have hwrites : Writes c.coherence pid a :=
    ⟨hnum ▸ hn, hcalls.1, hnum ▸ hp, hcalls.2.2, hcalls.2.1⟩
  have hloops : Agree (fun r r' => Matches (P.without a) σ T n true r.1 r'.1 ∧
      r'.2.response = r.2.response) (c.processWrite pid a) (c'.processWrite (σ pid) a) := by
    rw [processWrite_of_callsBack (by omega) hcalls, processWrite_of_callsBack (by omega) hcalls']
    refine (h.agree_refetch hR hn hp hpart ha).bind ?_
    rintro ⟨c₀, cost, response⟩ ⟨c₀', cost', response'⟩ hrefetch - ⟨h₀, hresponse⟩
    have hle : c₀.coherence.numProcessors ≤ 32 := numProcessors_of_rules h₀.rules ▸ hn
    have hle' : c₀'.coherence.numProcessors ≤ 32 := numProcessors_of_rules h₀.rules' ▸ hn
    obtain ⟨⟨c₁, cost₁, hops₁⟩, hok, hfill⟩ := exists_pushLoop (a := a) pid
      (c.coherence.getHomeNode a) cost (getDirectoryCost pid (c.coherence.getHomeNode a) 0).2 hle
    obtain ⟨⟨c₁', cost₁', hops₁'⟩, hok', hfill'⟩ := exists_pushLoop (a := a) (σ pid)
      (c'.coherence.getHomeNode a) cost'
      (getDirectoryCost (σ pid) (c'.coherence.getHomeNode a) 0).2 hle'
    rw [hok, hok']
    -- the receivers qualified before the second line fetch
    obtain ⟨-, _, _, hpush⟩ := (ensures_refetch hwrites hinv.invalid_iff).of_ok hrefetch
    have hkeeps₀ : c₀.KeepsTo P a :=
      hkeeps.congr (h₀.rules.trans h.rules.symm) hpush.reads
    have hl : ∀ i ∈ c₀.receivers pid a, i < n ∧ P.procs i := fun i hi => by
      obtain ⟨hi, hq⟩ := List.mem_filter.mp hi
      have hi := List.mem_range.mp hi
      refine ⟨numProcessors_of_rules h₀.rules ▸ hi,
        hkeeps₀ (detector_of_rules h₀.rules) i hi ?_⟩
      exact (of_decide_eq_true hq).2
    have h₁ := h₀.filled hR hl (h₀.receivers ha hR) hfill hfill'
    refine ⟨⟨h₁.offsetNumBits, h₁.tagMask, h₁.rules, h₁.rules', h₁.cache, fun b hb => ?_⟩,
      hresponse⟩
    change ((c₁.coherence.setLine a _).entries b).Renames _ _
      ((c₁'.coherence.setLine a _).entries b)
    rw [entries_setLine_of_ne hb.2, entries_setLine_of_ne hb.2]
    exact h₁.entries b hb
  refine hloops.mono fun r r' hok hok' hr => ⟨⟨hr.1.offsetNumBits, hr.1.tagMask, hr.1.rules,
    hr.1.rules', hr.1.cache, fun b hb => ?_⟩, hr.2⟩
  rcases eq_or_ne b a with rfl | hne
  · -- at the line itself both are the store
    obtain ⟨xs, log, hstores⟩ := (ensures_processWrite (hnum ▸ hn) (hnum ▸ hp) hinv).of_ok hok
    obtain ⟨xs', log', hstores'⟩ :=
      (ensures_processWrite (hnum' ▸ hn) (hnum' ▸ hσp) hinv').of_ok hok'
    rw [hstores.entries_self, hstores'.entries_self, h.rules, h.rules']
    exact (h.entries b hb).store hR
  · exact hr.1.entries b ⟨hb, hne⟩

/-! ## One access -/

/-- **One access** of a processor of the part to an address of the part. -/
theorem Matches.agree_step (h : Matches P σ T n detector c c')
    (hR : (AdaptiveMsi.rules n detector).Renames σ T (AdaptiveMsi.rules n detector)) (hn : n ≤ 32)
    (ht : Tracks n detector t c.coherence) (ht' : Tracks n detector t' c'.coherence)
    (hx : x.pid < n) (hpart : P.procs x.pid) (haddr : P.addrs x.addr)
    (hkeeps : c.KeepsTo P x.addr) :
    Agree (fun r r' => Matches P σ T n detector r.1 r'.1 ∧ r'.2.response = r.2.response)
      (c.step x) (c'.step (x.rename σ)) := by
  have hσx : (x.rename σ).pid < n := (lt_of_renames hR).mpr hx
  have hclear : Matches P σ T n detector c.clearCalls c'.clearCalls :=
    ⟨h.offsetNumBits, h.tagMask, h.rules, h.rules', h.cache, h.entries⟩
  rw [step_eq, step_eq]
  refine (hclear.agree_fetchCacheLine hR hn hx hpart).bind fun c₁ c₁' hc₁ hc₁' h₁ => ?_
  obtain ⟨_, _, hf⟩ := (ensures_fetched hn ht hx).of_ok hc₁
  obtain ⟨_, _, hf'⟩ := (ensures_fetched (x := x.rename σ) hn ht' hσx).of_ok hc₁'
  have hentry := h₁.entries x.addr haddr
  have hhandle : Agree (fun r r' => Matches P σ T n detector r.1 r'.1 ∧
      r'.2.response = r.2.response) (c₁.handle x) (c₁'.handle (x.rename σ)) := by
    have hback : CallsBack c₁'.coherence (σ x.pid) x.addr ↔
        CallsBack c₁.coherence x.pid x.addr := by
      rw [CallsBack, CallsBack, hf.detector, hf'.detector, hentry.state, hentry.writer_eq_some]
    by_cases hcalls : x.kind = .store ∧ CallsBack c₁.coherence x.pid x.addr
    · obtain ⟨hk, hcalls⟩ := hcalls
      obtain rfl : detector = true := hf.detector.symm.trans hcalls.1
      have hstore : c₁.handle x = c₁.processWrite x.pid x.addr := by
        rw [handle, hk]
      have hstore' : c₁'.handle (x.rename σ) = c₁'.processWrite (σ x.pid) x.addr := by
        rw [handle, show (x.rename σ).kind = .store from hk]
        rfl
      rw [hstore, hstore']
      exact h₁.agree_processWrite_of_callsBack hR hn hx hpart haddr
        (hkeeps.congr (h₁.rules.trans h.rules.symm) hf.fewer.reads) hcalls (hback.mpr hcalls)
        hf.inv hf'.inv
    · have hno : x.kind = .store → ¬ CallsBack c₁.coherence x.pid x.addr := fun hk hback =>
        hcalls ⟨hk, hback⟩
      obtain ⟨m, charge, log, hok, hsim, hhit⟩ := exists_handle hno (hf.numProcessors ▸ hn)
        (hf.numProcessors ▸ hx) hf.inv
      obtain ⟨m', charge', log', hok', hsim', hhit'⟩ := exists_handle (x := x.rename σ)
        (fun hk => mt hback.mp (hno hk)) (hf'.numProcessors ▸ hn) (hf'.numProcessors ▸ hσx) hf'.inv
      rw [hok, hok']
      refine ⟨⟨h₁.offsetNumBits, h₁.tagMask, hsim.rules.trans h₁.rules, hsim'.rules.trans h₁.rules',
        h₁.cache, fun b hb => ?_⟩, ?_⟩
      · change (m.entries b).Renames _ _ (m'.entries b)
        rw [hsim.entries, hsim'.entries, h₁.rules, h₁.rules', Access.event_rename]
        have hproc : x.event.proc ∈ (AdaptiveMsi.rules n detector).procs := by
          rw [Access.proc_event]
          exact mem_procs.mpr hx
        exact renames_apply hR hproc (h₁.entries b hb)
      · have hhits : charge'.response = .cacheHit ↔ charge.response = .cacheHit := by
          rw [hhit, hhit', h₁.rules, h₁.rules']
          change σ x.pid ∈ (c₁'.coherence.entries x.addr).sharers ∨ x.kind = .store ∧
              (c₁'.coherence.entries x.addr).state ≠ .invalid ∧
                (c₁'.coherence.entries x.addr).StartsOver _ (σ x.pid) ↔ _
          rw [hentry.sharers, hentry.state, hentry.startsOver hR]
          rfl
        change charge'.response = charge.response
        cases hr : charge.response <;> cases hr' : charge'.response <;> simp_all
  exact hhandle.bind fun r r' _ _ hr => hr

end Controller

end AdaptiveMsi
