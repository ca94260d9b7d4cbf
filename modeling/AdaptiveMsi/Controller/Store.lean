import AdaptiveMsi.Controller.Push
/-!
# The store

`process_write` has four paths: a write miss, the baseline's
write-invalidate, the adaptive handoff to a new writer, and the last
writer's push. The first three call no cache and are computed; the fourth
ends in the loop of `Push.lean`. `Stores` is what all four have in
common.
-/

namespace AdaptiveMsi

open Machine Protocol DirMsi

namespace Controller

variable {c c' : Controller} {m m' : DirMsi} {pid home hops i : ℕ} {a b addr : Addr}
variable {d : DirectoryLine} {xs : List (Event ℕ Addr)} {log : List Call} {last : Option ℕ}
variable {response : AccessType}

/-- **What a store of `pid` at `a` does to the directory**: the store, and
then evictions at other addresses, each recorded as a call. -/
structure Stores (pid : ℕ) (a : Addr) (xs : List (Event ℕ Addr)) (log : List Call)
    (m m' : DirMsi) (response : AccessType) : Prop where
  simulates : Simulates (.store pid a :: xs) log m m'
  evicts : ∀ x ∈ xs, x.addr ≠ a ∧ x.proc < m.numProcessors ∧
    ∃ i b, x = .evict i b ∧ .invalidate i b ∈ log
  alone : m.detector = false → xs = []
  pushes : ∀ i, (m.entries a).Pushes m.rules pid i → .push i a ∈ log
  updates : ∀ i b, .updateLastWriter i b ∈ log ↔
    i = pid ∧ b = a ∧ (m.entries a).StartsOver m.rules pid
  hit : response = .cacheHit ↔ pid ∈ (m.entries a).sharers ∨
    (m.entries a).state ≠ .invalid ∧ (m.entries a).StartsOver m.rules pid

theorem Stores.profileStore {charge : Charge} (h : Stores pid a xs log m m' response) :
    Stores pid a xs log m (m'.profileStore pid a charge) response :=
  { h with simulates := h.simulates.profiles }

/-! ## The handoff -/

theorem exists_decreaseBody (pid : ℕ) (d : DirectoryLine) (h : i < 64) :
    ∃ v, decreaseBody pid d i = .ok { d with readCountVector := v } := by
  unfold decreaseBody
  split
  · simp only [DirectoryLine.decreaseReadCount, h, decide_true, check_true, ok_bind]
    split
    · exact ⟨_, rfl⟩
    · exact ⟨_, rfl⟩
  · exact ⟨_, rfl⟩

/-- **The handoff loop changes the counters and nothing else**, and no
assertion of it fails. -/
theorem exists_decreaseLoop (pid : ℕ) (d : DirectoryLine) {l : List ℕ} (hl : ∀ i ∈ l, i < 64) :
    ∃ v, l.foldlM (decreaseBody pid) d = .ok { d with readCountVector := v } := by
  induction l generalizing d with
  | nil => exact ⟨_, rfl⟩
  | cons i l ih =>
    obtain ⟨v, hv⟩ := exists_decreaseBody pid d (hl i List.mem_cons_self)
    rw [List.foldlM_cons, hv]
    exact ih _ fun j hj => hl j (List.mem_cons_of_mem i hj)

/-- The directory in which a new writer's store is carried out: the writer
is noted and is a sharer, the counters are zero. -/
def noted (m : DirMsi) (pid : ℕ) (a : Addr) : DirMsi :=
  (m.setLine a ((m.directory a).updateLastWriter pid)).record (.updateLastWriter pid a)

@[simp] theorem noted_directory : (noted m pid a).directory =
    Function.update m.directory a ((m.directory a).updateLastWriter pid) := rfl

/-- **The handoff.** The new writer's bit is set before the line is
fetched, so the fetch is a hit. -/
theorem pushAndInvalidate_of_handoff (h : pid < 32) (hn : c.coherence.numProcessors ≤ 32)
    (hs : (c.line a).state ≠ .invalid) (hw : ¬ (c.line a).isLastWriter pid = true) :
    c.pushAndInvalidate pid home a hops =
      .ok ({ c with coherence := (noted c.coherence pid a).claim pid a },
        ⟨.cacheHit, (getDirectoryCost pid home hops).1 + localCacheAccess,
          (noted c.coherence pid a).invalidateHops ((c.line a).updateLastWriter pid) pid home
            (getDirectoryCost pid home (getDirectoryCost pid home hops).2).2⟩) := by
  obtain ⟨v, hv⟩ := exists_decreaseLoop pid (c.line a)
    (l := List.range c.coherence.numProcessors) fun i hi => by
      have := List.mem_range.mp hi
      omega
  have hline : (noted c.coherence pid a).directory a = (c.line a).updateLastWriter pid := by
    rw [noted_directory, Function.update_self]
    rfl
  -- the note of the last writer sets its bit
  have hmem : pid ∈ ((noted c.coherence pid a).directory a).sharers := by
    rw [hline]
    change pid ∈ ((c.line a).setSharer pid).sharers
    simp [DirectoryLine.sharers_setSharer h]
  have hs' : ((noted c.coherence pid a).directory a).state ≠ .invalid := by
    rw [hline]
    exact hs
  have hne : ((c.line a).state != .invalid) = true := by simpa using hs
  have hfetch := fetchAndInvalidate_eq
    (fetch_of_mem home (getDirectoryCost pid home hops).2 h hs' hmem) hs'
  rw [hline] at hfetch
  simp only [pushAndInvalidate, hne, check_true, ok_bind, if_neg hw, hv]
  change ((noted c.coherence pid a).fetchAndInvalidate pid home a _ >>= _) = _
  rw [hfetch, claim, hline]
  rfl

/-! ## The write handler, path by path -/

variable {charge : Charge}

/-- What the profiler is charged for a write miss. -/
def writeMissCharge (m : DirMsi) (pid : ℕ) (a : Addr) : Charge :=
  ⟨.cacheMiss, (getDirectoryCost pid (m.getHomeNode a) 0).1 + memoryAccess,
    (getDirectoryCost pid (m.getHomeNode a) 0).2⟩

/-- The line a write miss stores. -/
def filledLine (d : DirectoryLine) (pid : ℕ) : DirectoryLine :=
  { d.updateLastWriter pid with state := .modified }.setSharer pid

theorem processWrite_of_invalid (hs : (c.line a).state = .invalid) :
    c.processWrite pid a =
      .ok ({ c with coherence := ((noted c.coherence pid a).setLine a
        (filledLine (c.line a) pid)).profileStore pid a (writeMissCharge c.coherence pid a) },
        writeMissCharge c.coherence pid a) := by
  have hline : (noted c.coherence pid a).directory a = (c.line a).updateLastWriter pid := by
    rw [noted_directory, Function.update_self]
    rfl
  have hmiss := writeMiss_eq pid (c.coherence.getHomeNode a) 0
    (show ((noted c.coherence pid a).directory a).state = .invalid by rw [hline]; exact hs)
  rw [hline] at hmiss
  simp only [processWrite, hs]
  change ((noted c.coherence pid a).writeMiss pid _ a 0 >>= _) = _
  rw [hmiss]
  rfl

/-- What the baseline's store is charged, from the charge of its fetch. -/
def claimCharge (m : DirMsi) (pid : ℕ) (a : Addr) (charge : Charge) : Charge :=
  { charge with
    hops := m.invalidateHops (m.directory a) pid (m.getHomeNode a) charge.hops }

theorem processWrite_of_baseline (hd : c.coherence.detector = false)
    (hs : (c.line a).state ≠ .invalid)
    (hf : c.coherence.fetch pid (c.coherence.getHomeNode a) a 0 = .ok (m', charge))
    (hs' : (m'.directory a).state ≠ .invalid) (hn : m'.numProcessors = c.coherence.numProcessors) :
    c.processWrite pid a =
      .ok ({ c with
          coherence := (m'.claim pid a).profileStore pid a (claimCharge m' pid a charge) },
        claimCharge m' pid a charge) := by
  have hhome : m'.getHomeNode a = c.coherence.getHomeNode a := by
    rw [getHomeNode, getHomeNode, hn]
  have hclaim := fetchAndInvalidate_eq hf hs'
  rw [← hhome] at hclaim
  cases hst : (c.line a).state with
  | invalid => exact absurd hst hs
  | shared | modified =>
    simp only [processWrite, hst, hd, Bool.false_eq_true, if_false, ← hhome, hclaim, ok_bind,
      pure_eq_ok, claimCharge, claim]

theorem processWrite_of_detector (hd : c.coherence.detector = true)
    (hs : (c.line a).state ≠ .invalid) :
    c.processWrite pid a = c.pushAndInvalidate pid (c.coherence.getHomeNode a) a 0 >>= fun r =>
      .ok ({ r.1 with coherence := r.1.coherence.profileStore pid a r.2 }, r.2) := by
  cases hst : (c.line a).state with
  | invalid => exact absurd hst hs
  | shared | modified =>
    simp only [processWrite, hst, hd, if_true]
    rfl

/-! ## The write handler is a store -/

theorem entry_filledLine (h : pid < 32) (hs : (m.entries a).state = .invalid)
    (hinv : (m.entries a).Inv m.rules last) :
    (filledLine (m.directory a) pid).entry = (m.entries a).store m.rules pid := by
  have hsharers : (m.directory a).sharers = ∅ := hinv.invalid_iff.mp hs
  rw [Entry.store_of_startsOver m.rules (Or.inl hs)]
  ext1
  · rfl
  · change (((m.directory a).setSharer pid).setSharer pid).sharers = {pid}
    rw [DirectoryLine.sharers_setSharer h, DirectoryLine.sharers_setSharer h, hsharers,
      Finset.insert_idem, insert_empty_eq]
  · exact DirectoryLine.writer_of_lastWriter h rfl
  · rfl

theorem entry_claimedLine (h : pid < 32) (hd : m.rules.adaptive = false)
    (hs : (m.entries a).state ≠ .invalid) :
    (claimedLine (m.directory a) pid).entry = (m.entries a).store m.rules pid := by
  have hstore : (m.entries a).store m.rules pid =
      { m.entries a with state := .modified, sharers := {pid} } := by
    rw [Entry.store, if_neg (by simp [hd]), if_neg (by simp [hd, hs])]
  rw [hstore]
  ext1
  · rfl
  · exact claimedLine_sharers h
  · rfl
  · rfl

theorem entry_handedLine (h : pid < 32) (hover : (m.entries a).StartsOver m.rules pid) :
    (claimedLine ((m.directory a).updateLastWriter pid) pid).entry =
      (m.entries a).store m.rules pid := by
  rw [Entry.store_of_startsOver m.rules hover]
  ext1
  · rfl
  · exact claimedLine_sharers h
  · exact DirectoryLine.writer_of_lastWriter h rfl
  · rfl

theorem noted_setLine {l : DirectoryLine} :
    (noted m pid a).setLine a l = (m.record (.updateLastWriter pid a)).setLine a l := by
  simp [noted, DirMsi.setLine, DirMsi.record]

theorem noted_claim : (noted m pid a).claim pid a =
    (noted m pid a).setLine a (claimedLine ((m.directory a).updateLastWriter pid) pid) := by
  rw [claim, noted_directory, Function.update_self]

/-- A write miss and a handoff: the store is the line they leave. -/
theorem stores_of_startsOver {l : DirectoryLine} (hinv : (m.entries a).Inv m.rules last)
    (hover : (m.entries a).StartsOver m.rules pid)
    (hl : l.entry = (m.entries a).store m.rules pid)
    (hhit : response = .cacheHit ↔ (m.entries a).state ≠ .invalid) :
    Stores pid a [] [.updateLastWriter pid a] m
      ((noted m pid a).setLine a l) response where
  simulates := by
    rw [noted_setLine]
    have hset : Simulates [.store pid a] [] (m.record (.updateLastWriter pid a)) _ :=
      .setLine rfl hl
    exact Simulates.record.trans hset
  evicts := by simp
  alone _ := rfl
  pushes i hi := by
    unfold Entry.StartsOver at hover
    unfold Entry.Pushes at hi
    grind
  updates i b := by simp [hover]
  hit := by
    have hne : pid ∈ (m.entries a).sharers → (m.entries a).state ≠ .invalid :=
      ne_invalid_of_mem hinv
    rw [hhit]
    grind

/-- The baseline's store. -/
theorem stores_claim (h : pid < 32) (hd : m.rules.adaptive = false)
    (hs : (m.entries a).state ≠ .invalid)
    (hhit : response = .cacheHit ↔ pid ∈ (m.entries a).sharers) :
    Stores pid a [] [] m (m.claim pid a) response where
  simulates := .setLine rfl (entry_claimedLine h hd hs)
  evicts := by simp
  alone _ := rfl
  pushes i hi := by
    rw [hi.1] at hd
    cases hd
  updates i b := by simp [Entry.StartsOver, hd, hs]
  hit := by simp [hhit, Entry.StartsOver, hd, hs]

/-- The fetch of the baseline's store, for a sharer and for another. -/
theorem exists_fetch_claim (home hops : ℕ) (h : pid < 32) (hn : m.numProcessors ≤ 32)
    (hinv : (m.entries a).Inv m.rules last) (hs : (m.directory a).state ≠ .invalid) :
    ∃ m' charge, m.fetch pid home a hops = .ok (m', charge) ∧
      (m'.directory a).state ≠ .invalid ∧ m'.numProcessors = m.numProcessors ∧
      m'.claim pid a = m.claim pid a ∧
      (charge.response = .cacheHit ↔ pid ∈ (m.directory a).sharers) := by
  by_cases hmem : pid ∈ (m.directory a).sharers
  · exact ⟨m, _, fetch_of_mem home hops h hs hmem, hs, rfl, rfl, by simpa using hmem⟩
  · obtain ⟨cost, hops', hf⟩ := fetch_of_not_mem home hops h hn hinv hs hmem
    refine ⟨_, _, hf, ?_, rfl, ?_, by simpa using hmem⟩
    · rw [setLine_directory, Function.update_self]
      simp [sharedLine]
    · rw [claim, claim, setLine_directory, Function.update_self, setLine_setLine]
      rfl

/-- The last writer's store: the loop's evictions come after it. -/
theorem Pushing.stores (hw : Writes m pid a) (hinv : (m.entries a).Inv m.rules last)
    (hhit : response = .cacheHit ↔ pid ∈ (m.entries a).sharers)
    (h : Pushing m pid a (List.range m.numProcessors) xs log m') :
    Stores pid a xs log m (m'.setLine a { m'.directory a with state := .modified })
      response where
  simulates := {
    numProcessors := h.numProcessors
    detector := h.detector
    entries := by
      funext b
      rw [List.foldl_cons]
      rcases eq_or_ne b a with rfl | hne
      · rw [entries_setLine_self, h.entries_eq hw hinv.sharers_subset,
          foldl_apply_of_ne fun x hx => (h.evicts x hx).1]
        simp [Event.apply, Event.addr, Event.onEntry]
      · rw [entries_setLine_of_ne hne, h.elsewhere b hne]
        exact foldl_apply_congr (by simp [Event.apply, Event.addr, hne])
    calls := h.calls }
  evicts := h.evicts
  alone hd := by
    rw [hw.detector] at hd
    cases hd
  pushes i hi := by
    have hi' : i < m.numProcessors := mem_procs.mp hi.mem_procs
    exact h.pushes i (List.mem_range.mpr hi') hi.2.2.2.2.1 hi.2.2.2.2.2
  updates i b := by
    -- a store of the last writer does not start over
    have hover : ¬ (m.entries a).StartsOver m.rules pid := by
      simp [Entry.StartsOver, hw.state, hw.writer]
    constructor
    · intro hmem
      rcases h.quiet _ hmem with hc | ⟨j, hj⟩
      · exact hc.elim
      · cases hj
    · exact fun hc => absurd hc.2.2 hover
  hit := by
    rw [hhit]
    simp [Entry.StartsOver, hw.state, hw.writer]

/-- The path that calls back into the caches: an adaptive store of the
last writer to a line somebody holds. -/
def CallsBack (m : DirMsi) (pid : ℕ) (a : Addr) : Prop :=
  m.detector = true ∧ (m.entries a).state ≠ .invalid ∧ (m.entries a).writer = some pid

instance (m : DirMsi) (pid : ℕ) (a : Addr) : Decidable (CallsBack m pid a) := by
  unfold CallsBack
  infer_instance

/-- The baseline does not call back. -/
theorem not_callsBack {m : DirMsi} (h : m.detector = false) : ¬ CallsBack m pid a := by
  intro hcalls
  rw [hcalls.1] at h
  cases h

/-- **The other paths of `process_write` are a store**: they leave the
caches alone, and nothing fails in them. -/
theorem exists_processWrite (hcalls : ¬ CallsBack c.coherence pid a)
    (hn : c.coherence.numProcessors ≤ 32) (hp : pid < c.coherence.numProcessors)
    (hinv : (c.coherence.entries a).Inv c.coherence.rules last) :
    ∃ m' charge log, c.processWrite pid a = .ok ({ c with coherence := m' }, charge) ∧
      Stores pid a [] log c.coherence m' charge.response := by
  have h32 : pid < 32 := by omega
  by_cases hs : (c.coherence.entries a).state = .invalid
  · exact ⟨_, _, _, processWrite_of_invalid hs, (stores_of_startsOver hinv (Or.inl hs)
      (entry_filledLine h32 hs hinv) (by simp [writeMissCharge, hs])).profileStore⟩
  cases hd : c.coherence.detector with
  | false =>
    obtain ⟨m', charge, hf, hm', hn', hclaim, hhit⟩ := exists_fetch_claim
      (c.coherence.getHomeNode a) 0 h32 hn hinv hs
    refine ⟨_, _, [], processWrite_of_baseline hd hs hf hm' hn', ?_⟩
    rw [hclaim]
    exact (stores_claim h32 hd hs hhit).profileStore
  | true =>
    have hw : (c.coherence.entries a).writer ≠ some pid := fun hw => hcalls ⟨hd, hs, hw⟩
    have hover : (c.coherence.entries a).StartsOver c.coherence.rules pid := Or.inr ⟨hd, hw⟩
    have hw' : ¬ (c.line a).isLastWriter pid = true := fun h =>
      hw ((DirectoryLine.writer_eq_some h32).mpr h)
    rw [processWrite_of_detector hd hs, pushAndInvalidate_of_handoff h32 hn hs hw', noted_claim]
    exact ⟨_, _, _, rfl, (stores_of_startsOver hinv hover (entry_handedLine h32 hover)
      (by simp [hs])).profileStore⟩

/-- The path that does: a second line fetch where the last writer was
evicted, and the loop. -/
theorem processWrite_of_callsBack (h : pid < 32) (hcalls : CallsBack c.coherence pid a) :
    c.processWrite pid a =
      c.refetch pid a (getDirectoryCost pid (c.coherence.getHomeNode a) 0).1 >>= fun r =>
        (List.range r.1.coherence.numProcessors).foldlM
            (pushBody pid (c.coherence.getHomeNode a) a)
            (r.1, r.2.1, (getDirectoryCost pid (c.coherence.getHomeNode a) 0).2) >>= fun st =>
          .ok ({ st.1 with
            coherence := (st.1.coherence.setLine a
              { st.1.line a with state := .modified }).profileStore pid a
                ⟨r.2.2, st.2.1, st.2.2⟩ }, ⟨r.2.2, st.2.1, st.2.2⟩) := by
  obtain ⟨hd, hs, hw⟩ := hcalls
  have hne : ((c.line a).state != .invalid) = true := bne_iff_ne.mpr hs
  have hw' : (c.line a).isLastWriter pid = true := (DirectoryLine.writer_eq_some h).mp hw
  rw [processWrite_of_detector hd hs]
  simp only [pushAndInvalidate, hne, check_true, ok_bind, if_pos hw']
  cases c.refetch pid a (getDirectoryCost pid (c.coherence.getHomeNode a) 0).1 with
  | error e => rfl
  | ok r =>
    simp only [ok_bind]
    cases (List.range r.1.coherence.numProcessors).foldlM
      (pushBody pid (c.coherence.getHomeNode a) a)
      (r.1, r.2.1, (getDirectoryCost pid (c.coherence.getHomeNode a) 0).2) <;> rfl

/-- **`process_write` is a store**, and no assertion of the directory
fails in it. -/
theorem ensures_processWrite (hn : c.coherence.numProcessors ≤ 32)
    (hp : pid < c.coherence.numProcessors)
    (hinv : (c.coherence.entries a).Inv c.coherence.rules last) :
    Ensures (· = .lru)
      (fun r => ∃ xs log, Stores pid a xs log c.coherence r.1.coherence r.2.response)
      (c.processWrite pid a) := by
  by_cases hcalls : CallsBack c.coherence pid a
  · have hwrites : Writes c.coherence pid a := ⟨hn, hcalls.1, hp, hcalls.2.2, hcalls.2.1⟩
    rw [processWrite_of_callsBack (by omega) hcalls]
    refine (ensures_refetch hwrites hinv.invalid_iff).bind ?_
    rintro ⟨c', cost, response⟩ - ⟨hhit, xs, log, hpush⟩
    have hloop := ensures_pushLoop (c.coherence.getHomeNode a) hwrites
      (c', cost, (getDirectoryCost pid (c.coherence.getHomeNode a) 0).2) hpush
    rw [← hpush.numProcessors] at hloop
    refine hloop.bind ?_
    rintro ⟨c'', cost', hops'⟩ - ⟨xs', log', hpush'⟩
    rw [hpush.numProcessors] at hpush'
    exact ⟨_, _, (hpush'.stores hwrites hinv hhit).profileStore⟩
  · obtain ⟨m', charge, log, hok, hstores⟩ := exists_processWrite hcalls hn hp hinv
    rw [hok]
    exact ⟨[], log, hstores⟩

end Controller

end AdaptiveMsi
