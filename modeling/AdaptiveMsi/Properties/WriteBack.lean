import AdaptiveMsi.Properties.Directory
/-!
# Write-backs

A modified line has one processor that answers for its data, the last to
have stored. Its eviction is charged a write-back wherever it comes among
the evictions of the other copies, and nobody else's is. A foreign access
that takes the data over is charged the owner's write-back too, unless it
is an adaptive store: there the directory fetches the line after it has
set the new writer's bit, and the fetch is a hit.
-/

namespace AdaptiveMsi

open Machine Protocol DirMsi

variable {m m' : DirMsi} {n i w : ℕ} {a : Addr} {is : List ℕ} {last : Option ℕ}

/-! ## Evicting every copy -/

/-- The evictions of the copies of `is`, in order. -/
def evictAll (m : DirMsi) (is : List ℕ) (a : Addr) : DirMsi :=
  is.foldl (fun m i => m.invalidate i a) m

theorem invalidate_profiles_owns (h : i < 32) : (m.invalidate i a).profiles =
    if m.Owns i a then
      m.profiles.profileCacheEvict i a (dataWriteBack i (m.getHomeNode a) 0).1
        (dataWriteBack i (m.getHomeNode a) 0).2
    else m.profiles := by
  rw [invalidate_profiles]
  by_cases ho : m.Owns i a
  · rw [if_pos ho, if_pos ((ownership_iff h).mpr ho)]
  · rw [if_neg ho, if_neg fun hi => ho ((ownership_iff h).mp hi)]

/-- What evictions that charge nothing leave. -/
structure Dropped (is : List ℕ) (a : Addr) (m m' : DirMsi) : Prop where
  numProcessors : m'.numProcessors = m.numProcessors
  detector : m'.detector = m.detector
  profiles : m'.profiles = m.profiles
  calls : m'.calls = m.calls ++ is.map (.invalidate · a)
  inv : ∀ last, (m.entries a).Inv m.rules last → (m'.entries a).Inv m'.rules last
  sharers : (m'.entries a).sharers = (m.entries a).sharers \ is.toFinset
  state : (m'.entries a).state = .modified ↔ (m.entries a).state = .modified

/-- **Evictions by others charge nothing.** Either nobody answers for the
data or the processor that does is not among them. -/
theorem dropped_evictAll (is : List ℕ) (his : ∀ i ∈ is, i < 32)
    (hinv : (m.entries a).Inv m.rules (some w))
    (hw : (m.entries a).state = .modified → w ∉ is) : Dropped is a m (evictAll m is a) := by
  induction is generalizing m with
  | nil => exact ⟨rfl, rfl, rfl, by simp [evictAll], fun _ h => h, by simp [evictAll], Iff.rfl⟩
  | cons i is ih =>
    have h32 : i < 32 := his i List.mem_cons_self
    -- only the last writer answers for the data
    have hown : ¬ m.Owns i a := by
      intro ho
      have hiw : w = i := Option.some.inj (hinv.eq_of_owns ho)
      exact hw ho.2.1 (by simp [hiw])
    have hsim := simulates_invalidate (m := m) (a := a) h32
    have hent := entries_invalidate_self (m := m) (a := a) h32
    have hstate : ((m.invalidate i a).entries a).state = .modified ↔
        (m.entries a).state = .modified := by
      rw [hent, hinv.evict_state]
      exact and_iff_left hown
    have hstep : (m.invalidate i a).rules = m.rules := hsim.rules
    have hinv' : ((m.invalidate i a).entries a).Inv (m.invalidate i a).rules (some w) := by
      rw [hent, hstep]
      exact hinv.evict
    have hrest := ih (fun j hj => his j (List.mem_cons_of_mem i hj)) hinv' fun hs hmem =>
      hw (hstate.mp hs) (List.mem_cons_of_mem i hmem)
    change Dropped (i :: is) a m (evictAll (m.invalidate i a) is a)
    exact {
      numProcessors := hrest.numProcessors.trans hsim.numProcessors
      detector := hrest.detector.trans hsim.detector
      profiles := by rw [hrest.profiles, invalidate_profiles_owns h32, if_neg hown]
      calls := by
        rw [hrest.calls, hsim.calls, evictCalls, if_neg hown]
        simp
      inv := fun last h => hrest.inv last (by
        rw [hent, hstep]
        exact h.evict)
      sharers := by
        rw [hrest.sharers, hent, Entry.evict_sharers]
        ext j
        simp only [Finset.mem_sdiff, Finset.mem_erase, List.mem_toFinset, List.mem_cons]
        grind
      state := hrest.state.trans hstate }

/-- What the eviction of the owner leaves. -/
structure WrittenBack (w : ℕ) (a : Addr) (m m' : DirMsi) : Prop where
  profiles : m'.profiles = m.profiles.profileCacheEvict w a
    (dataWriteBack w (m.getHomeNode a) 0).1 (dataWriteBack w (m.getHomeNode a) 0).2
  calls : m'.calls = m.calls ++ [.invalidate w a, .profileCacheEvict w a
    (dataWriteBack w (m.getHomeNode a) 0).1 (dataWriteBack w (m.getHomeNode a) 0).2]
  inv : (m'.entries a).Inv m'.rules (some w)
  sharers : (m'.entries a).sharers = (m.entries a).sharers.erase w
  clean : (m'.entries a).state ≠ .modified

/-- **The owner's eviction** is charged, and nobody answers for the data
after it. -/
theorem writtenBack_invalidate (h32 : w < 32) (hinv : (m.entries a).Inv m.rules (some w))
    (ho : m.Owns w a) : WrittenBack w a m (m.invalidate w a) where
  profiles := by rw [invalidate_profiles_owns h32, if_pos ho]
  calls := by rw [(simulates_invalidate h32).calls, evictCalls, if_pos ho]
  inv := by
    rw [entries_invalidate_self h32, (simulates_invalidate h32).rules]
    exact hinv.evict
  sharers := by rw [entries_invalidate_self h32, Entry.evict_sharers]
  clean := by
    rw [Ne, entries_invalidate_self h32, hinv.evict_state]
    exact fun h => h.2 ho

/-- **One write-back for each dirty line.** Evict every sharer of a
`MODIFIED` line, in any order, with repetitions and processors that hold
no copy: the first eviction of the processor that stored last is charged
a write-back and no other, and the entry ends `INVALID` with an empty
vector. -/
theorem one_write_back {cfg : Config} {detector : Bool} {t : List Access} {c : Controller}
    {reports : List Report} (hv : cfg.Valid t) (hrun : cfg.run detector t = .ok (c, reports))
    (hmod : (c.line a).state = .modified) (his : ∀ i ∈ is, i < cfg.numProcessors)
    (hall : ∀ i, (c.line a).sharerVector.getLsbD i = true → i ∈ is) :
    ∃ w before after, lastStore t a = some w ∧ is = before ++ w :: after ∧ w ∉ before ∧
      (evictAll c.coherence is a).calls = c.coherence.calls ++
        before.map (.invalidate · a) ++
        [.invalidate w a, .profileCacheEvict w a
          (dataWriteBack w (c.coherence.getHomeNode a) 0).1
          (dataWriteBack w (c.coherence.getHomeNode a) 0).2] ++
        after.map (.invalidate · a) ∧
      (evictAll c.coherence is a).profiles = c.coherence.profiles.profileCacheEvict w a
        (dataWriteBack w (c.coherence.getHomeNode a) 0).1
        (dataWriteBack w (c.coherence.getHomeNode a) 0).2 ∧
      ((evictAll c.coherence is a).directory a).state = .invalid ∧
      ((evictAll c.coherence is a).directory a).sharerVector = 0 := by
  have htracks : Tracks cfg.numProcessors detector t c.coherence :=
    (ensures_tracks hv).of_ok hrun
  have h32 : ∀ i ∈ is, i < 32 := by
    intro i hi
    have := his i hi
    have := cfg.numProcessors_le
    omega
  have hinv : (c.coherence.entries a).Inv c.coherence.rules (lastStore t a) := htracks.inv a
  obtain ⟨w, hlast, howns⟩ := hinv.owns hmod
  rw [hlast] at hinv
  have hwis : w ∈ is := hall w (getLsbD_sharerVector.mpr howns.1)
  obtain ⟨before, after, rfl, hbefore⟩ := List.eq_append_cons_of_mem hwis
  have hw32 : w < 32 := h32 w hwis
  -- the evictions before the owner's
  have hb := dropped_evictAll before (fun i hi => h32 i (by simp [hi])) hinv
    fun _ => hbefore
  have hinv₁ := hb.inv _ hinv
  obtain ⟨w', hw', howns₁⟩ := hinv₁.owns (hb.state.mpr hmod)
  obtain rfl : w = w' := Option.some.inj hw'
  have hdirty : (evictAll c.coherence before a).Owns w a := howns₁
  have hhome : (evictAll c.coherence before a).getHomeNode a = c.coherence.getHomeNode a := by
    rw [getHomeNode, getHomeNode, hb.numProcessors]
  -- the owner's
  have hown := writtenBack_invalidate hw32 hinv₁ hdirty
  -- and those after it
  have ha := dropped_evictAll after (fun i hi => h32 i (by simp [hi])) hown.inv
    fun h => absurd h hown.clean
  have hall' : evictAll c.coherence (before ++ w :: after) a =
      evictAll ((evictAll c.coherence before a).invalidate w a) after a := by
    simp [evictAll]
  have hempty : ((evictAll c.coherence (before ++ w :: after) a).entries a).sharers = ∅ := by
    rw [hall', ha.sharers, hown.sharers, hb.sharers, Finset.eq_empty_iff_forall_notMem]
    intro j hj
    have hj' : j ∈ before ++ w :: after := by
      refine hall j (getLsbD_sharerVector.mpr ?_)
      simp only [Finset.mem_sdiff, Finset.mem_erase] at hj
      exact hj.1.2.1
    simp only [Finset.mem_sdiff, Finset.mem_erase, List.mem_toFinset] at hj
    simp only [List.mem_append, List.mem_cons] at hj'
    grind
  refine ⟨w, before, after, hlast, rfl, hbefore, ?_, ?_, ?_, ?_⟩
  · rw [hall', ha.calls, hown.calls, hb.calls, hhome]
  · rw [hall', ha.profiles, hown.profiles, hb.profiles, hhome]
  · exact ((hall' ▸ ha.inv _ hown.inv).invalid_iff).mpr hempty
  · exact DirectoryLine.sharers_eq_empty.mp hempty

/-- A dirty line with two sharers, its last writer and a consumer it was
pushed to, evicted four times. -/
theorem one_write_back_pair :
    let t : List Access := [⟨.store, 0, 4⟩, ⟨.load, 1, 4⟩, ⟨.store, 0, 4⟩, ⟨.load, 1, 4⟩,
      ⟨.store, 0, 4⟩]
    ∃ c reports, Config.pair.run true t = .ok (c, reports) ∧ (c.line 4).sharerVector = 3 ∧
      ∃ w before after, lastStore t 4 = some w ∧
        [1, 0, 1, 0] = before ++ w :: after ∧ w ∉ before ∧
        (evictAll c.coherence [1, 0, 1, 0] 4).calls = c.coherence.calls ++
          before.map (.invalidate · 4) ++
          [.invalidate w 4, .profileCacheEvict w 4
            (dataWriteBack w (c.coherence.getHomeNode 4) 0).1
            (dataWriteBack w (c.coherence.getHomeNode 4) 0).2] ++
          after.map (.invalidate · 4) ∧
        (evictAll c.coherence [1, 0, 1, 0] 4).profiles =
          c.coherence.profiles.profileCacheEvict w 4
            (dataWriteBack w (c.coherence.getHomeNode 4) 0).1
            (dataWriteBack w (c.coherence.getHomeNode 4) 0).2 ∧
        ((evictAll c.coherence [1, 0, 1, 0] 4).directory 4).state = .invalid ∧
        ((evictAll c.coherence [1, 0, 1, 0] 4).directory 4).sharerVector = 0 := by
  intro t
  obtain ⟨⟨c, reports⟩, hok, hmod, hvector⟩ := Ensures.exists_ok
    (P := fun s => (s.1.line 4).state = .modified ∧ (s.1.line 4).sharerVector = 3)
    (by decide +kernel : Ensures _ _ (Config.pair.run true t))
  refine ⟨c, reports, hok, hvector,
    one_write_back (by decide) hok hmod (by decide) fun i hi => ?_⟩
  have : ∀ i < 32, (3 : BitVec 32).getLsbD i = true → i ∈ [1, 0, 1, 0] := by decide
  exact this i (BitVec.lt_of_getLsbD hi) (hvector ▸ hi)

/-! ## Taking dirty data over -/

variable {cfg : Config} {detector : Bool} {t : List Access} {c c' : Controller} {p q home : ℕ}
variable {kind : AccessKind} {reports : List Report} {r : Report}

/-- **The fetch of dirty data** charges one write-back, its owner's. -/
theorem fetch_of_dirty (home : ℕ) (hn : m.numProcessors ≤ 32) (h : q < 32)
    (hinv : (m.entries a).Inv m.rules last) (hs : (m.entries a).state = .modified)
    (hmem : q ∉ (m.entries a).sharers) :
    ∃ o ∈ (m.entries a).sharers, ∃ hops, m.fetch q home a 0 =
      .ok (m.setLine a (sharedLine (m.directory a) q), ⟨.cacheMiss,
        (getDirectoryCost q home 0).1 + memoryAccess + (dataWriteBack o home 0).1, hops⟩) := by
  obtain ⟨o, ho, -, howner⟩ := exists_owner hn hinv hs
  exact ⟨o, ho, _, fetch_of_modified h hs hmem howner⟩

/-- The cost of dirty data taken over from a sharer of it: a write-back on
top of the fetch of `q`, which is from its own cache if it has a copy. -/
def TakenOver (m : DirMsi) (q : ℕ) (a : Addr) (cost : ℕ) : Prop :=
  ∃ w < m.numProcessors, (m.directory a).isSet w = true ∧
    cost = (getDirectoryCost q (m.getHomeNode a) 0).1 +
      (if (m.directory a).isSet q = true then localCacheAccess else memoryAccess) +
      (dataWriteBack w (m.getHomeNode a) 0).1

/-- A handler that fetches the line from its owner. -/
theorem takenOver_of_handle {x : Access} {charge : Charge} (hn : c.coherence.numProcessors ≤ 32)
    (hx : x.pid < c.coherence.numProcessors)
    (hinv : (c.coherence.entries x.addr).Inv c.coherence.rules last)
    (hs : (c.coherence.entries x.addr).state = .modified)
    (hmem : x.pid ∉ (c.coherence.entries x.addr).sharers)
    (hk : ¬ (c.coherence.detector = true ∧ x.kind = .store))
    (h : c.handle x = .ok (c', charge)) : TakenOver c.coherence x.pid x.addr charge.cost := by
  have h32 : x.pid < 32 := by omega
  have hs' : (c.line x.addr).state ≠ .invalid := by
    rw [show (c.line x.addr).state = .modified from hs]
    simp
  obtain ⟨o, ho, hops, hf⟩ := fetch_of_dirty (c.coherence.getHomeNode x.addr) hn h32 hinv
    hs hmem
  have hon : o < c.coherence.numProcessors := mem_procs.mp (hinv.sharers_subset ho)
  have hset : (c.coherence.directory x.addr).isSet o = true :=
    (DirectoryLine.isSet_iff (by omega)).mpr ho
  have hno : ¬ (c.coherence.directory x.addr).isSet x.pid = true :=
    fun hmem' => hmem ((DirectoryLine.isSet_iff h32).mp hmem')
  refine ⟨o, hon, hset, ?_⟩
  rw [if_neg hno]
  obtain ⟨kind, pid, a⟩ := x
  cases kind with
  | load =>
    rw [Controller.handle, processRead_of_miss (by omega) hs' rfl hf] at h
    cases h
    rfl
  | store =>
    have hd : c.coherence.detector = false := by simpa using hk
    rw [Controller.handle, Controller.processWrite_of_baseline hd hs' hf
      (by simp [sharedLine]) rfl] at h
    cases h
    rfl

/-- The handoff charges the new writer's own cache and the way to the
directory. -/
theorem cost_of_handoff {x : Access} {charge : Charge} (hn : c.coherence.numProcessors ≤ 32)
    (h32 : x.pid < 32) (hs : (c.coherence.entries x.addr).state ≠ .invalid)
    (hw : (c.coherence.entries x.addr).writer ≠ some x.pid) (hd : c.coherence.detector = true)
    (hk : x.kind = .store) (h : c.handle x = .ok (c', charge)) :
    charge.cost = (getDirectoryCost x.pid (c.coherence.getHomeNode x.addr) 0).1 +
      localCacheAccess := by
  obtain ⟨kind, pid, a⟩ := x
  cases hk
  have hw' : ¬ (c.line a).isLastWriter pid = true := fun h =>
    hw ((DirectoryLine.writer_eq_some h32).mpr h)
  rw [Controller.handle, Controller.processWrite_of_detector hd hs,
    Controller.pushAndInvalidate_of_handoff h32 hn hs hw'] at h
  cases h
  rfl

/-- A trip to memory. -/
theorem TakenOver.le {cost : ℕ} (h : TakenOver m q a cost) : memoryAccess ≤ cost := by
  obtain ⟨w, -, -, rfl⟩ := h
  simp only [dataWriteBack]
  omega

theorem TakenOver.congr {cost : ℕ} (h : TakenOver m' q a cost) (hn : m.numProcessors ≤ 32)
    (hq : q < 32) (hproc : m'.numProcessors = m.numProcessors)
    (hent : m'.entries a = m.entries a) : TakenOver m q a cost := by
  obtain ⟨w, hw, hset, hcost⟩ := h
  have hhome : m'.getHomeNode a = m.getHomeNode a := by rw [getHomeNode, getHomeNode, hproc]
  have hsets : ∀ i < 32, (m'.directory a).isSet i = true ↔ (m.directory a).isSet i = true := by
    intro i hi
    rw [DirectoryLine.isSet_iff hi, DirectoryLine.isSet_iff hi]
    change i ∈ (m'.entries a).sharers ↔ i ∈ (m.entries a).sharers
    rw [hent]
  rw [hproc] at hw
  rw [hhome] at hcost
  simp only [hsets q hq] at hcost
  exact ⟨w, hw, (hsets w (by omega)).mp hset, hcost⟩

/-- The evictions of a line fetch leave a dirty line to its last writer. -/
theorem Fetched.dirty {x : Access} {n : ℕ} {pre : List (Event ℕ Addr)} {calls : List Call}
    (h : Fetched n detector t x m pre calls m') (hadapt : m.rules.adaptive = true)
    (hinv : (m.entries x.addr).Inv m.rules (some p))
    (hmod : (m.entries x.addr).state = .modified) (hne : x.pid ≠ p) :
    (m'.entries x.addr).state = .modified ∧ (m'.entries x.addr).writer = some p := by
  obtain ⟨p', hp', hmem, -⟩ := hinv.modified hmod
  obtain rfl : p = p' := Option.some.inj hp'
  obtain ⟨hs, hw, -, -⟩ := foldl_evict_of_writer (R := m.rules) (pre.filter (·.addr = x.addr))
    hadapt hne (hinv.writer_eq hadapt) hmem
    fun y hy => (h.spills.evicts y (List.mem_filter.mp hy).1).imp fun _ h => h.1
  rw [← foldl_apply_at] at hs hw
  rw [h.entries]
  exact ⟨hs.trans hmod, hw⟩

/-- **Dirty data taken over is written back, unless the access is an
adaptive store.** The line was stored by `p` last and `q` is another
processor, one that holds no copy or, in the adaptive protocol, any that
stores. -/
theorem takenOver_iff (hv : cfg.Valid (t ++ [⟨kind, q, a⟩]))
    (hrun : cfg.run detector t = .ok (c, reports)) (hmod : (c.line a).state = .modified)
    (hlast : lastStore t a = some p) (hpq : q ≠ p)
    (hq : (c.line a).isSet q = false ∨ detector = true ∧ kind = .store)
    (hstep : c.step ⟨kind, q, a⟩ = .ok (c', r)) :
    TakenOver c.coherence q a r.charge.cost ↔ ¬ (detector = true ∧ kind = .store) := by
  have hle := cfg.numProcessors_le
  have hqn : q < cfg.numProcessors := hv ⟨kind, q, a⟩ (by simp)
  have h32 : q < 32 := by omega
  have ht : Tracks cfg.numProcessors detector t c.coherence :=
    (ensures_tracks fun x hx => hv x (List.mem_append_left _ hx)).of_ok hrun
  have hinv : (c.coherence.entries a).Inv c.coherence.rules (some p) := hlast ▸ ht.inv a
  obtain ⟨c₁, hfetch, hhandle⟩ := Controller.step_eq_ok hstep
  obtain ⟨pre, calls, hf⟩ := (ensures_fetched hle ht hqn).of_ok hfetch
  constructor
  · rintro htaken ⟨hd, hk⟩
    have hadapt : c.coherence.rules.adaptive = true := ht.detector.trans hd
    obtain ⟨hs₁, hw₁⟩ := hf.dirty hadapt hinv hmod hpq
    -- the handoff charges too little for a write back
    have hcost := cost_of_handoff (x := ⟨kind, q, a⟩) (hf.numProcessors ▸ hle) h32
      (by simp [hs₁]) (by simpa [hw₁] using hpq.symm) (hf.detector.trans hd) hk hhandle
    have h100 := htaken.le
    simp only [hcost, getDirectoryCost, localCacheAccess, remoteCacheAccess, memoryAccess] at h100
    split_ifs at h100 <;> omega
  · intro hk
    have hmem : q ∉ (c.coherence.entries a).sharers := fun hmem => by
      have hset := (DirectoryLine.isSet_iff (d := c.line a) h32).mpr hmem
      rcases hq with hq | hq
      · rw [hq] at hset
        cases hset
      · exact hk hq
    -- the fetch of a processor without a copy leaves the entry alone
    have hent : c₁.coherence.entries a = c.coherence.entries a :=
      hf.entries_eq hinv.invalid_iff hmem
    refine TakenOver.congr ?_ (ht.numProcessors ▸ hle) h32
      (hf.numProcessors.trans ht.numProcessors.symm) hent
    exact takenOver_of_handle (x := ⟨kind, q, a⟩) (hf.numProcessors ▸ hle)
      (hf.numProcessors ▸ hqn) hf.inv (by rw [hent]; exact hmod) (by rw [hent]; exact hmem)
      (by rw [hf.detector]; exact hk) hhandle

/-- A foreign load of a dirty line. -/
theorem takenOver_iff_pair :
    ∃ c reports c' r, Config.pair.run true [⟨.store, 0, 4⟩] = .ok (c, reports) ∧
      c.step ⟨.load, 1, 4⟩ = .ok (c', r) ∧
      (TakenOver c.coherence 1 4 r.charge.cost ↔
        ¬ (true = true ∧ AccessKind.load = AccessKind.store)) := by
  have hrun : Ensures (fun _ => False) (fun s => (s.1.line 4).state = .modified ∧
      (s.1.line 4).isSet 1 = false ∧ Ensures (fun _ => False) (fun _ => True)
        (s.1.step ⟨.load, 1, 4⟩)) (Config.pair.run true [⟨.store, 0, 4⟩]) := by decide
  obtain ⟨⟨c, reports⟩, hok, hmod, hset, hnext⟩ := hrun.exists_ok
  obtain ⟨⟨c', r⟩, hstep, -⟩ := hnext.exists_ok
  exact ⟨c, reports, c', r, hok, hstep,
    takenOver_iff (by decide) hok hmod (p := 0) (by decide) (by decide) (Or.inl hset) hstep⟩

/-- **The handoff of a dirty line is not.** The second processor stores to
a line the first has changed: it is charged ten cycles, its way to the
directory and its own cache, and no trip to memory. -/
theorem handoff_not_takenOver :
    ∃ c reports c' r, Config.pair.run true [⟨.store, 0, 4⟩] = .ok (c, reports) ∧
      (c.line 4).state = .modified ∧ lastStore [⟨.store, 0, 4⟩] 4 = some 0 ∧
      (c.line 4).isSet 1 = false ∧ c.step ⟨.store, 1, 4⟩ = .ok (c', r) ∧ r.charge.cost = 10 ∧
      ¬ TakenOver c.coherence 1 4 r.charge.cost := by
  have hrun : Ensures (fun _ => False) (fun s => (s.1.line 4).state = .modified ∧
      (s.1.line 4).isSet 1 = false ∧ Ensures (fun _ => False) (fun s' => s'.2.charge.cost = 10)
        (s.1.step ⟨.store, 1, 4⟩)) (Config.pair.run true [⟨.store, 0, 4⟩]) := by decide
  obtain ⟨⟨c, reports⟩, hok, hmod, hset, hnext⟩ := hrun.exists_ok
  obtain ⟨⟨c', r⟩, hstep, hcost⟩ := hnext.exists_ok
  refine ⟨c, reports, c', r, hok, hmod, by decide, hset, hstep, hcost, fun h => ?_⟩
  have h100 := h.le
  rw [hcost] at h100
  exact absurd h100 (by decide)

end AdaptiveMsi
