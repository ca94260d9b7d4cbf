import AdaptiveMsi.Common.Shards
import AdaptiveMsi.Controller.Books
import AdaptiveMsi.Controller.Fills
import AdaptiveMsi.Controller.Requests
import AdaptiveMsi.Properties.Assertions
import AdaptiveMsi.Properties.Messages
/-!
# Without pushes the caches are alone

In the baseline nothing but a processor's own accesses moves its cache:
what the others do reaches its directory bits and never its ways. So the
caches, with the addresses of one processor only, are shards of their own,
and each evolves as if its processor ran by itself.
-/

namespace AdaptiveMsi

open Machine Protocol DirMsi

/-- The choice of a way to evict: the processor, its set, and the way. -/
def Call.way? : Call → Option (ℕ × List CacheLine × ℕ)
  | evict pid lines way => some (pid, lines, way)
  | invalidate _ _ | profileCacheEvict _ _ _ _ | updateLastWriter _ _ | push _ _ => none

/-- The ways a report tells of. -/
def Report.ways (r : Report) : List (ℕ × List CacheLine × ℕ) := r.calls.filterMap Call.way?

/-- What a report says of its processor alone: the ways, and the response
where the address is the processor's `own`. -/
def Report.apart (own : ℕ → Addr → Bool) (r : Report) :
    ℕ × List (ℕ × List CacheLine × ℕ) × Option AccessType :=
  (r.access.pid, r.ways, if own r.access.pid r.access.addr then some r.response else none)

/-- An access, with what it says of its processor alone. -/
def Controller.stepApart (own : ℕ → Addr → Bool) (c : Controller) (x : Access) :
    Except AssertFailure (Controller × ℕ × List (ℕ × List CacheLine × ℕ) × Option AccessType) := do
  let (c, r) ← c.step x
  return (c, r.apart own)

variable {cfg : Config} {n pid : ℕ} {a : Addr} {x : Access} {t : List Access} {replace : Bool}
variable {c c' d c₁ d₁ : Controller} {r : Report} {rs : List Report} {s : CacheSet}
variable {m m' : DirMsi} {tag : BitVec 64} {log : List Call} {own : ℕ → Addr → Bool}

/-- Quiet calls choose no way. -/
theorem filterMap_way?_of_quiet (h : ∀ call ∈ log, ¬ call.Evicting) :
    log.filterMap Call.way? = [] := by
  refine List.filterMap_eq_nil_iff.mpr fun call hcall => ?_
  cases call with
  | evict pid lines way => exact (h _ hcall trivial).elim
  | invalidate pid b | updateLastWriter pid b | push pid b => rfl
  | profileCacheEvict pid b cost hops => rfl

theorem Controller.Rests.ways (h : c.Rests c') :
    c'.coherence.calls.filterMap Call.way? = c.coherence.calls.filterMap Call.way? := by
  obtain ⟨log, hlog, hquiet⟩ := h.calls
  rw [hlog, List.filterMap_append, filterMap_way?_of_quiet hquiet, List.append_nil]

/-- An eviction tells of one way, chosen by the set alone. -/
theorem ways_evict : (s.evict pid m).2.calls.filterMap Call.way? =
    m.calls.filterMap Call.way? ++ [(pid, s.lines, s.victim.evict)] := by
  have hinvalidate : ∀ (m : DirMsi) (b : Addr), (m.invalidate pid b).calls.filterMap Call.way? =
      m.calls.filterMap Call.way? := by
    intro m b
    have hcalls : ∃ log, (m.invalidate pid b).calls = m.calls ++ log ∧
        log.filterMap Call.way? = [] := by
      simp only [DirMsi.invalidate]
      split
      · let charge := dataWriteBack pid (m.getHomeNode b) 0
        exact ⟨[.invalidate pid b, .profileCacheEvict pid b charge.1 charge.2],
          by simp [DirMsi.record, charge], rfl⟩
      · exact ⟨[.invalidate pid b], rfl, rfl⟩
    obtain ⟨log, hlog, hnone⟩ := hcalls
    rw [hlog, List.filterMap_append, hnone, List.append_nil]
  have hrecord : (m.record (.evict pid s.lines s.victim.evict)).calls.filterMap Call.way? =
      m.calls.filterMap Call.way? ++ [(pid, s.lines, s.victim.evict)] := by
    simp [DirMsi.record, Call.way?]
  simp only [CacheSet.evict]
  split
  · rw [hinvalidate, hrecord]
  · exact hrecord

/-- The event of an access changes two entries alike. -/
theorem apply_congr {R : Rules ℕ (BitVec 64)} {D D' : Addr → Entry ℕ (BitVec 64)}
    {y : Event ℕ Addr} (h : D' a = D a) : y.apply R D' a = y.apply R D a := by
  rcases eq_or_ne a y.addr with rfl | hne
  · rw [Event.apply_self, Event.apply_self, h]
  · rw [Event.apply_of_ne hne, Event.apply_of_ne hne, h]

namespace Controller

/-- **The part of a processor** in two controllers of the baseline: its cache
and the entries of its own addresses. -/
structure SamePart (n : ℕ) (own : ℕ → Addr → Bool) (pid : ℕ) (c d : Controller) : Prop where
  cache : d.cache pid = c.cache pid
  offsetNumBits : d.offsetNumBits = c.offsetNumBits
  tagMask : d.tagMask = c.tagMask
  tracked : ∃ t, Tracks n false t d.coherence
  entries : ∀ a, own pid a → d.coherence.entries a = c.coherence.entries a

/-- **A line fetch** looks at its own cache only. -/
theorem SamePart.agree_fetchCacheLine (h : SamePart n own pid c d) (replace : Bool) (hp : pid < 32)
    (hrules : d.coherence.rules = c.coherence.rules)
    (hways : d.coherence.calls.filterMap Call.way? = c.coherence.calls.filterMap Call.way?) :
    Agree (fun c' d' => d'.cache pid = c'.cache pid ∧ d'.offsetNumBits = c'.offsetNumBits ∧
        d'.tagMask = c'.tagMask ∧
        d'.coherence.calls.filterMap Call.way? = c'.coherence.calls.filterMap Call.way? ∧
        ∀ a, own pid a → d'.coherence.entries a = c'.coherence.entries a)
      (c.fetchCacheLine pid a replace) (d.fetchCacheLine pid a replace) := by
  have htag : d.getTag a = c.getTag a := by rw [getTag, getTag, h.tagMask]
  have hindex : d.getSetIndex a = c.getSetIndex a := by
    rw [getSetIndex, getSetIndex, h.tagMask, h.offsetNumBits]
  have hset : Agree (fun r r' : CacheSet × DirMsi => r'.1 = r.1 ∧
      r'.2.calls.filterMap Call.way? = r.2.calls.filterMap Call.way? ∧
      ∀ a, own pid a → r'.2.entries a = r.2.entries a)
      ((c.cache pid (c.getSetIndex a)).fetchSingleLine pid (c.getTag a) a c.coherence replace)
      ((d.cache pid (d.getSetIndex a)).fetchSingleLine pid (d.getTag a) a d.coherence replace) := by
    rw [htag, hindex, h.cache]
    simp only [CacheSet.fetchSingleLine]
    cases (c.cache pid (c.getSetIndex a)).fetch (c.getTag a) replace with
    | error e => exact agree_error
    | ok r =>
      obtain ⟨s, status⟩ := r
      cases status with
      | cached => exact ⟨rfl, hways, h.entries⟩
      | uncached =>
        refine ⟨by rw [CacheSet.evict_fst, CacheSet.evict_fst], ?_, fun b hb => ?_⟩
        · change (s.evict pid d.coherence).2.calls.filterMap Call.way? =
            (s.evict pid c.coherence).2.calls.filterMap Call.way?
          rw [ways_evict, ways_evict, hways]
        · change (s.evict pid d.coherence).2.entries b = (s.evict pid c.coherence).2.entries b
          rw [CacheSet.entries_evict hp, CacheSet.entries_evict hp, hrules]
          split
          · exact apply_congr (h.entries b hb)
          · exact h.entries b hb
  refine hset.bind fun r r' _ _ hr => ?_
  refine ⟨?_, h.offsetNumBits, h.tagMask, hr.2⟩
  change Function.update d.cache pid (Function.update (d.cache pid) (d.getSetIndex a) r'.1) pid =
    Function.update c.cache pid (Function.update (c.cache pid) (c.getSetIndex a) r.1) pid
  rw [Function.update_self, Function.update_self, h.cache, hindex, hr.1]

/-- **The baseline's handlers** leave the caches alone, and do to their own
entry what it says. -/
theorem exists_rests {last : Option ℕ} (hd : c.coherence.detector = false)
    (hn : c.coherence.numProcessors ≤ 32) (hx : x.pid < c.coherence.numProcessors)
    (hinv : (c.coherence.entries x.addr).Inv c.coherence.rules last) :
    ∃ c' charge, c.handle x = .ok (c', charge) ∧ c.Rests c' ∧
      c'.coherence.entries = x.event.apply c.coherence.rules c.coherence.entries ∧
      (charge.response = .cacheHit ↔
        x.Hits c.coherence.rules (c.coherence.entries x.addr)) := by
  obtain ⟨m, charge, log, hok, hsim, hhit⟩ :=
    exists_handle (fun _ => not_callsBack hd) hn hx hinv
  refine ⟨_, charge, hok, ?_, hsim.entries, hhit⟩
  obtain ⟨kind, pid, a⟩ := x
  cases kind with
  | load =>
    obtain ⟨m', charge', hread, hsim', -⟩ := simulates_processRead hn hx hinv
    simp only [handle, hread, ok_bind] at hok
    cases hok
    exact rests_coherence (by simpa using hsim'.calls)
  | store => exact rests_processWrite (not_callsBack hd) hn hx hinv hok

/-- What an access of the baseline does after its line fetch. -/
structure After (n : ℕ) (x : Access) (c₁ c' : Controller) (r : Report) : Prop where
  rests : c₁.Rests c'
  calls : r.calls = c'.coherence.calls
  access : r.access = x
  entries : c'.coherence.entries = x.event.apply (AdaptiveMsi.rules n false) c₁.coherence.entries
  hit : r.response = .cacheHit ↔ x.Hits (AdaptiveMsi.rules n false) (c₁.coherence.entries x.addr)
  tracked : ∃ t, Tracks n false t c'.coherence

theorem exists_after (hn : n ≤ 32) (ht : Tracks n false t c.coherence) (hx : x.pid < n)
    (hfetch : c.clearCalls.fetchCacheLine x.pid x.addr true = .ok c₁) :
    ∃ c' r, c.step x = .ok (c', r) ∧ After n x c₁ c' r := by
  obtain ⟨pre, calls, hf⟩ := (ensures_fetched hn ht hx).of_ok hfetch
  have hrules : c₁.coherence.rules = AdaptiveMsi.rules n false := by
    rw [DirMsi.rules, hf.numProcessors, hf.detector]
  obtain ⟨c', charge, hok, hrests, hentries, hhit⟩ := exists_rests hf.detector
    (hf.numProcessors ▸ hn) (hf.numProcessors ▸ hx) hf.inv
  rw [hrules] at hentries hhit
  have hstep : c.step x = .ok (c', ⟨x, charge, c'.coherence.calls⟩) := by
    rw [step_eq, hfetch, ok_bind, hok]
    rfl
  obtain ⟨_, _, hstepped⟩ := (ensures_step hn ht hx).of_ok hstep
  exact ⟨c', _, hstep, hrests, rfl, rfl, hentries, hhit, _, hstepped.tracks ht hx⟩

/-- The baseline, with nobody but its owner holding an owned address. -/
def Apart (n : ℕ) (own : ℕ → Addr → Bool) (c : Controller) : Prop :=
  (∃ t, Tracks n false t c.coherence) ∧
    ∀ p a, own p a → ∀ i ∈ (c.coherence.entries a).sharers, i = p

/-- An access that respects the owners. -/
def Allowed (n : ℕ) (own : ℕ → Addr → Bool) (x : Access) : Prop :=
  x.pid < n ∧ ∀ p, own p x.addr → x.pid = p

theorem apart_step (hn : n ≤ 32) (h : Apart n own c) (hx : Allowed n own x)
    (hstep : c.step x = .ok (c', r)) : Apart n own c' := by
  obtain ⟨⟨t, ht⟩, howners⟩ := h
  obtain ⟨pre, post, hbooked⟩ := (ensures_booked hn ht hx.1).of_ok hstep
  refine ⟨⟨_, hbooked.stepped.tracks ht hx.1⟩, fun p a hown i hi => ?_⟩
  rcases hbooked.stepped.mem_sharers hi with hi | ⟨rfl, rfl | ⟨-, hpush⟩⟩
  · exact howners p a hown i hi
  · exact hx.2 p hown
  · -- nothing is pushed in the baseline
    obtain ⟨-, -, hadapt, -⟩ := hbooked.pushed _ _ hpush
    rw [ht.rules] at hadapt
    cases hadapt

/-- The entries of the others' addresses are left alone. -/
theorem entries_of_owned (hn : n ≤ 32) (h : Apart n own c) (hx : Allowed n own x)
    (hstep : c.step x = .ok (c', r)) {p : ℕ} (hp : p ≠ x.pid) (hown : own p a) :
    c'.coherence.entries a = c.coherence.entries a := by
  obtain ⟨⟨t, ht⟩, howners⟩ := h
  obtain ⟨pre, post, hstepped⟩ := (ensures_step hn ht hx.1).of_ok hstep
  have hne : a ≠ x.event.addr := fun he => by
    rw [Access.addr_event] at he
    rw [he] at hown
    exact hp (hx.2 p hown).symm
  rw [hstepped.entries, hstepped.alone ht.detector, List.foldl_append, List.foldl_cons,
    List.foldl_nil, Event.apply_of_ne hne]
  refine foldl_evict_of_not_mem (p := x.pid) (ht.inv a).invalid_iff
    (fun hmem => hp (howners p a hown _ hmem).symm) fun y hy => ?_
  obtain ⟨b, hb, -⟩ := hstepped.before y hy
  exact ⟨b, hb⟩

/-- **The processors of the baseline are shards**, each with its cache and
its own addresses. -/
theorem processors_shards (hn : n ≤ 32) (own : ℕ → Addr → Bool) :
    Shards (stepApart own) Access.pid Prod.fst (Apart n own) (Allowed n own) (SamePart n own) where
  keep c x r hc hx hstep := by
    obtain ⟨⟨c', r'⟩, hok, h⟩ := bind_eq_ok.mp hstep
    cases h
    exact apart_step hn hc hx hok
  key_eq c x r hstep := by
    obtain ⟨⟨c', r'⟩, hok, h⟩ := bind_eq_ok.mp hstep
    cases h
    rw [Report.apart, access_of_step hok]
  near c d x := by
    rintro ⟨⟨t, ht⟩, -⟩ ⟨hx, -⟩ hsame
    obtain ⟨u, hu⟩ := hsame.tracked
    have hclear : SamePart n own x.pid c.clearCalls d.clearCalls :=
      ⟨hsame.cache, hsame.offsetNumBits, hsame.tagMask, ⟨u, hu.numProcessors, hu.detector, hu.inv,
        hu.packed⟩, hsame.entries⟩
    have hfetch := hclear.agree_fetchCacheLine (a := x.addr) true
      (show x.pid < 32 by omega) (hu.rules.trans ht.rules.symm) rfl
    cases hc : c.clearCalls.fetchCacheLine x.pid x.addr true with
    | error e =>
      rw [hc] at hfetch
      rw [stepApart, stepApart, step_eq, step_eq, hc, hfetch.error_left]
      exact agree_error
    | ok c₁ =>
      obtain ⟨d₁, hd, hcache, hoffset, hmask, hways, hentries⟩ := hfetch.of_ok hc
      obtain ⟨c', r, hcstep, hafter⟩ := exists_after hn ht hx hc
      obtain ⟨d', r', hdstep, hafter'⟩ := exists_after hn hu hx hd
      rw [stepApart, stepApart, hcstep, hdstep]
      refine ⟨⟨?_, ?_, ?_, hafter'.tracked, fun a ha => ?_⟩, ?_⟩
      · exact (congrFun hafter'.rests.same.cache x.pid).trans
          (hcache.trans (congrFun hafter.rests.same.cache x.pid).symm)
      · exact hafter'.rests.same.offsetNumBits.trans
          (hoffset.trans hafter.rests.same.offsetNumBits.symm)
      · exact hafter'.rests.same.tagMask.trans (hmask.trans hafter.rests.same.tagMask.symm)
      · rw [hafter'.entries, hafter.entries]
        exact apply_congr (hentries a ha)
      · have hreport : r'.ways = r.ways := by
          rw [Report.ways, Report.ways, hafter'.calls, hafter.calls, hafter'.rests.ways,
            hafter.rests.ways, hways]
        simp only [Report.apart, hafter.access, hafter'.access, hreport]
        split
        · rename_i hown
          have hhits : r'.response = .cacheHit ↔ r.response = .cacheHit := by
            rw [hafter'.hit, hafter.hit, hentries _ hown]
          have hresponse : r'.response = r.response := by
            cases hr : r.response with
            | cacheHit => exact hhits.mpr hr
            | cacheMiss =>
              cases hr' : r'.response with
              | cacheHit => exact absurd (hhits.mp hr') (by simp [hr])
              | cacheMiss => rfl
          rw [hresponse]
        · rfl
  far c d x r p hc hx hstep hp hsame := by
    obtain ⟨⟨c', r'⟩, hok, h⟩ := bind_eq_ok.mp hstep
    cases h
    obtain ⟨c₁, hfetch, -⟩ := step_eq_ok hok
    obtain ⟨t, ht⟩ := hc.1
    obtain ⟨c'', r'', hok', hafter⟩ := exists_after hn ht hx.1 hfetch
    cases hok.symm.trans hok'
    have hbeside := Beside.fetchCacheLine hfetch
    refine ⟨?_, ?_, ?_, hsame.tracked, fun a ha => ?_⟩
    · have hcache : c'.cache p = c.cache p :=
        (congrFun hafter.rests.same.cache p).trans (hbeside.cache p hp)
      rw [hsame.cache, hcache]
    · exact hsame.offsetNumBits.trans
        (hafter.rests.same.offsetNumBits.trans hbeside.offsetNumBits).symm
    · exact hsame.tagMask.trans (hafter.rests.same.tagMask.trans hbeside.tagMask).symm
    · rw [hsame.entries a ha, entries_of_owned hn hc hx hok hp ha]

/-- A run, as its processors see it. -/
theorem run_stepApart {bs : List (ℕ × List (ℕ × List CacheLine × ℕ) × Option AccessType)} :
    run (stepApart own) c t = .ok (c', bs) ↔
      ∃ rs, run step c t = .ok (c', rs) ∧ bs = rs.map (Report.apart own) :=
  run_map_eq_ok fun _ _ _ _ => map_eq_ok

end Controller

/-- The accesses of processor `p`. -/
def ofProcessor (p : ℕ) (t : List Access) : List Access := t.filter (·.pid = p)

variable {p : ℕ} {rs' : List Report}

theorem apart_start : Controller.Apart cfg.numProcessors own (cfg.start false) :=
  ⟨⟨[], tracks_start⟩, fun p a _ i hi => by
    rw [entries_start] at hi
    exact absurd hi (Finset.notMem_empty i)⟩

theorem samePart_start :
    Controller.SamePart cfg.numProcessors own p (cfg.start false) (cfg.start false) :=
  ⟨rfl, rfl, rfl, ⟨[], tracks_start⟩, fun _ _ => rfl⟩

/-- The part of a processor, from its own accesses. -/
theorem exists_part (own : ℕ → Addr → Bool)
    (ht : ∀ x ∈ t, Controller.Allowed cfg.numProcessors own x)
    (hrun : cfg.run false t = .ok (c, rs)) (p : ℕ) :
    ∃ c' rs', cfg.run false (ofProcessor p t) = .ok (c', rs') ∧ c'.cache p = c.cache p ∧
      rs'.map (Report.apart own) = (rs.filter (·.access.pid = p)).map (Report.apart own) := by
  obtain ⟨c', hruns, -⟩ := (Controller.processors_shards cfg.numProcessors_le own).exists_shards
    apart_start ht (fun _ => samePart_start) (Controller.run_stepApart.mpr ⟨rs, hrun, rfl⟩)
  obtain ⟨hrun', hpart⟩ := hruns p
  obtain ⟨rs', hrun', hapart⟩ := Controller.run_stepApart.mp hrun'
  rw [List.filter_map] at hapart
  exact ⟨c' p, rs', hrun', hpart.cache, hapart.symm⟩

/-- The responses at an owned address, as its processor sees them. -/
theorem responses_apart (h : ∀ r ∈ rs, r.access.addr = a → r.access.pid = p) :
    (rs.map (Report.apart fun q b => q = p && b = a)).filterMap (·.2.2) =
      (rs.filter (·.access.addr = a)).map Report.response := by
  induction rs with
  | nil => rfl
  | cons r rs ih =>
    have hrest := ih fun r hr => h r (by simp [hr])
    by_cases ha : r.access.addr = a
    · have hpid : r.access.pid = p := h r (by simp) ha
      rw [List.map_cons,
        List.filterMap_cons_some (b := r.response) (by simp [Report.apart, ha, hpid]),
        List.filter_cons_of_pos (by simpa using ha), List.map_cons, hrest]
    · rw [List.map_cons, List.filterMap_cons_none (by simp [Report.apart, ha]),
        List.filter_cons_of_neg (by simpa using ha), hrest]

/-- **What processor `p` does alone**: `c'` and `rs'` are the run of its
accesses by themselves. -/
structure Alone (cfg : Config) (t : List Access) (c : Controller) (rs : List Report) (p : ℕ)
    (c' : Controller) (rs' : List Report) : Prop where
  run : cfg.run false (ofProcessor p t) = .ok (c', rs')
  cache : c'.cache p = c.cache p
  ways : rs'.map Report.ways = (rs.filter (·.access.pid = p)).map Report.ways
  responses : ∀ a, (∀ x ∈ t, x.addr = a → x.pid = p) →
    (rs'.filter (·.access.addr = a)).map Report.response =
      (rs.filter (·.access.addr = a)).map Report.response

/-- The responses at an address of `p` alone. -/
theorem responses_of_own (ht : cfg.Valid t) (hrun : cfg.run false t = .ok (c, rs))
    (hrun' : cfg.run false (ofProcessor p t) = .ok (c', rs'))
    (hown : ∀ x ∈ t, x.addr = a → x.pid = p) :
    (rs'.filter (·.access.addr = a)).map Report.response =
      (rs.filter (·.access.addr = a)).map Report.response := by
  have hallowed : ∀ x ∈ t, Controller.Allowed cfg.numProcessors (fun q b => q = p && b = a) x := by
    intro x hx
    refine ⟨ht x hx, fun q hq => ?_⟩
    obtain ⟨rfl, ha⟩ : q = p ∧ x.addr = a := by simpa using hq
    exact hown x hx ha
  obtain ⟨c'', rs'', hrun'', -, hapart⟩ := exists_part _ hallowed hrun p
  cases hrun'.symm.trans hrun''
  -- whose the accesses of the two runs are
  have hv' : cfg.Valid (ofProcessor p t) := fun x hx => ht x (List.mem_filter.mp hx).1
  have haccess := map_access_of_run ht hrun
  have haccess' := map_access_of_run hv' hrun'
  have hpids : ∀ r ∈ rs, r.access.addr = a → r.access.pid = p := fun r hr =>
    hown r.access (haccess ▸ List.mem_map_of_mem hr)
  have hpids' : ∀ r ∈ rs', r.access.addr = a → r.access.pid = p := fun r hr _ => by
    have hmem : r.access ∈ ofProcessor p t := haccess' ▸ List.mem_map_of_mem hr
    simpa using (List.mem_filter.mp hmem).2
  have hfilter : (rs.filter (·.access.pid = p)).filter (·.access.addr = a) =
      rs.filter (·.access.addr = a) := by
    rw [List.filter_filter]
    refine List.filter_congr fun r hr => ?_
    by_cases ha : r.access.addr = a
    · simp [ha, hpids r hr ha]
    · simp [ha]
  rw [← responses_apart hpids', hapart,
    responses_apart fun r hr => hpids r (List.mem_filter.mp hr).1, hfilter]

/-- **In the baseline processors are alone with their caches.** However the
accesses of the processors interleave, the run returns exactly if every
processor's own accesses do. Every cache is left as if its processor had
run by itself: every fill takes the same way of the same set, and copies
lost to the others leave the directory's bits, not the cache's ways. And
at the addresses no other processor accesses, every access hits or misses
as it does by itself. -/
theorem caches_are_alone (ht : cfg.Valid t) :
    ((∃ s, cfg.run false t = .ok s) ↔ ∀ p, ∃ s, cfg.run false (ofProcessor p t) = .ok s) ∧
      ∀ c rs, cfg.run false t = .ok (c, rs) → ∀ p, ∃ c' rs', Alone cfg t c rs p c' rs' := by
  have hallowed : ∀ x ∈ t, Controller.Allowed cfg.numProcessors (fun _ _ => false) x :=
    fun x hx => ⟨ht x hx, fun p hp => by simp at hp⟩
  have hall : ∀ c rs, cfg.run false t = .ok (c, rs) → ∀ p, ∃ c' rs', Alone cfg t c rs p c' rs' := by
    intro c rs hrun p
    obtain ⟨c', rs', hrun', hcache, hapart⟩ := exists_part _ hallowed hrun p
    have hways := congrArg (List.map (·.2.1)) hapart
    rw [List.map_map, List.map_map] at hways
    exact ⟨c', rs', hrun', hcache, hways, fun a hown => responses_of_own ht hrun hrun' hown⟩
  refine ⟨⟨fun ⟨s, hrun⟩ p => ?_, fun hruns => ?_⟩, hall⟩
  · obtain ⟨c', rs', halone⟩ := hall s.1 s.2 hrun p
    exact ⟨_, halone.run⟩
  · have hshards := Controller.processors_shards cfg.numProcessors_le fun _ _ => false
    obtain ⟨⟨c, bs⟩, hrun⟩ := hshards.exists_run apart_start hallowed (fun _ => samePart_start)
      fun p => by
        obtain ⟨⟨c, rs⟩, hrun⟩ := hruns p
        exact ⟨_, Controller.run_stepApart.mpr ⟨rs, hrun, rfl⟩⟩
    obtain ⟨rs, hrun, -⟩ := Controller.run_stepApart.mp hrun
    exact ⟨_, hrun⟩

/-- The store takes the copy of `4` and not its way. -/
theorem caches_are_alone_pair :
    let t : List Access := [⟨.load, 0, 4⟩, ⟨.store, 1, 4⟩, ⟨.load, 0, 8⟩, ⟨.load, 0, 4⟩]
    ∃ c rs, Config.pair.run false t = .ok (c, rs) ∧
      ∀ p, ∃ c' rs', Alone .pair t c rs p c' rs' := by
  intro t
  have hrun : Ensures (fun _ => False) (fun _ => True) (Config.pair.run false t) := by decide
  obtain ⟨⟨c, rs⟩, hok, -⟩ := hrun.exists_ok
  exact ⟨c, rs, hok, (caches_are_alone (by decide)).2 c rs hok⟩

end AdaptiveMsi
