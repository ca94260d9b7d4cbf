import AdaptiveMsi.Cache.Lookup
import AdaptiveMsi.Model.Controller
/-!
# The push loop

The last writer's branch of `push_and_invalidate` calls back into every
qualified reader's cache, whose evictions come back to the directory in
the middle of the loop, possibly for the very line being written.
`Pushing` is the loop's invariant, relative to the directory the branch
started from: elsewhere only copies are given up, and at the line itself
the processors behind the loop are sharers exactly if they qualify.
-/

namespace AdaptiveMsi

open Machine Protocol DirMsi

namespace Controller

variable {c c' : Controller} {m m₀ m₁ m₂ : DirMsi} {pid home i : ℕ} {a b addr : Addr}
variable {replace : Bool}

@[simp] theorem setLine_coherence {d : DirectoryLine} :
    (c.setLine a d).coherence = c.coherence.setLine a d := rfl

@[simp] theorem record_coherence {call : Call} :
    (c.record call).coherence = c.coherence.record call := rfl

/-- **What fetching a line does to the directory**: it gives up copies of
the processor it is fetched for. -/
theorem ensures_fetchCacheLine (h : pid < 32) :
    Ensures (· = .lru)
      (fun c' => ∃ xs calls, Simulates xs calls c.coherence c'.coherence ∧ Spills pid xs calls)
      (c.fetchCacheLine pid addr replace) :=
  (CacheSet.ensures_fetchSingleLine h).bind fun _ _ hr => hr

/-- The calls of the last writer's branch. -/
def Pushes (a : Addr) (call : Call) : Prop := call.Evicting ∨ ∃ i, call = .push i a

/-- **The invariant of the push loop** of `pid` at `a`, entered at `m₀`,
with the processors `done` behind it: the events elsewhere are `xs` and
the calls are `log`. -/
structure Pushing (m₀ : DirMsi) (pid : ℕ) (a : Addr) (done : List ℕ)
    (xs : List (Event ℕ Addr)) (log : List Call) (m : DirMsi) : Prop where
  numProcessors : m.numProcessors = m₀.numProcessors
  detector : m.detector = m₀.detector
  elsewhere : ∀ b ≠ a, m.entries b = xs.foldl (Event.apply m₀.rules) m₀.entries b
  state : (m.entries a).state = (m₀.entries a).state
  writer : (m.entries a).writer = (m₀.entries a).writer
  reads : (m.entries a).reads = (m₀.entries a).reads
  sharers : ∀ i, i ∈ (m.entries a).sharers ↔ i = pid ∨
    if i ∈ done then m₀.rules.qualified (m₀.entries a).reads i = true
    else i ∈ (m₀.entries a).sharers
  calls : m.calls = m₀.calls ++ log
  evicts : ∀ x ∈ xs, x.addr ≠ a ∧ x.proc < m₀.numProcessors ∧
    ∃ i b, x = .evict i b ∧ .invalidate i b ∈ log
  pushes : ∀ i ∈ done, i ≠ pid → m₀.rules.qualified (m₀.entries a).reads i = true →
    .push i a ∈ log
  quiet : ∀ call ∈ log, Pushes a call

variable {done : List ℕ} {xs ys : List (Event ℕ Addr)} {log log' : List Call}

theorem Pushing.rules (h : Pushing m₀ pid a done xs log m) : m.rules = m₀.rules := by
  rw [DirMsi.rules, DirMsi.rules, h.numProcessors, h.detector]

theorem Pushing.qualified (h : Pushing m₀ pid a done xs log m) :
    (m.directory a).qualifiedReader i = m₀.rules.qualified (m₀.entries a).reads i := by
  rw [← h.reads]
  rfl

/-- The qualified readers behind the loop were pushed to, one more among
them. -/
theorem Pushing.pushes_snoc (h : Pushing m₀ pid a done xs log m) (hlog : log ⊆ log')
    (hi : i ≠ pid → m₀.rules.qualified (m₀.entries a).reads i = true → .push i a ∈ log') :
    ∀ j ∈ done ++ [i], j ≠ pid → m₀.rules.qualified (m₀.entries a).reads j = true →
      .push j a ∈ log' := by
  intro j hj hne hq
  rcases List.mem_append.mp hj with hj | hj
  · exact hlog (h.pushes j hj hne hq)
  · obtain rfl := List.mem_singleton.mp hj
    exact hi hne hq

/-- A processor the loop leaves alone goes behind it. -/
theorem Pushing.skip (h : Pushing m₀ pid a done xs log m)
    (hi : i = pid ∨ ¬ m₀.rules.qualified (m₀.entries a).reads i = true ∧
      i ∉ (m.entries a).sharers) :
    Pushing m₀ pid a (done ++ [i]) xs log m where
  numProcessors := h.numProcessors
  detector := h.detector
  elsewhere := h.elsewhere
  state := h.state
  writer := h.writer
  reads := h.reads
  sharers j := by
    have hj := h.sharers j
    have hself := h.sharers i
    simp only [List.mem_append, List.mem_singleton]
    grind
  calls := h.calls
  evicts := h.evicts
  pushes := h.pushes_snoc (List.Subset.refl log) fun hne hq => by
    rcases hi with hi | hi
    · exact absurd hi hne
    · exact absurd hq hi.1
  quiet := h.quiet

/-- The line stored back with one bit changed. -/
theorem entries_setLine_self {d : DirectoryLine} : (m.setLine a d).entries a = d.entry := by
  rw [entries_setLine, Function.update_self]

theorem entries_setLine_of_ne {d : DirectoryLine} (hb : b ≠ a) :
    (m.setLine a d).entries b = m.entries b := by
  rw [entries_setLine, Function.update_of_ne hb]

/-- A sharer that does not qualify is cleared. -/
theorem Pushing.clear (h : Pushing m₀ pid a done xs log m) (h32 : i < 32) (hne : i ≠ pid)
    (hq : ¬ m₀.rules.qualified (m₀.entries a).reads i = true) :
    Pushing m₀ pid a (done ++ [i]) xs log
      (m.setLine a ((m.directory a).clearSharer i)) where
  numProcessors := h.numProcessors
  detector := h.detector
  elsewhere b hb := by rw [entries_setLine_of_ne hb, h.elsewhere b hb]
  state := by rw [entries_setLine_self]; exact h.state
  writer := by rw [entries_setLine_self]; exact h.writer
  reads := by rw [entries_setLine_self]; exact h.reads
  sharers j := by
    have hj := h.sharers j
    rw [entries_setLine_self, DirectoryLine.entry_sharers,
      DirectoryLine.sharers_clearSharer h32, Finset.mem_erase]
    change j ≠ i ∧ j ∈ (m.entries a).sharers ↔ _
    rw [hj]
    simp only [List.mem_append, List.mem_singleton]
    grind
  calls := h.calls
  evicts := h.evicts
  pushes := h.pushes_snoc (List.Subset.refl log) fun _ hq' => absurd hq' hq
  quiet := h.quiet

/-- `i` joins the sharers of the entry of `a`, if it is not among them. -/
structure Adds (i : ℕ) (a : Addr) (m m' : DirMsi) : Prop where
  numProcessors : m'.numProcessors = m.numProcessors
  detector : m'.detector = m.detector
  calls : m'.calls = m.calls
  self : m'.entries a = { m.entries a with sharers := insert i (m.entries a).sharers }
  other : ∀ b ≠ a, m'.entries b = m.entries b

theorem adds_setSharer (h : i < 32) : Adds i a m (m.setLine a ((m.directory a).setSharer i)) where
  numProcessors := rfl
  detector := rfl
  calls := rfl
  self := by
    rw [entries_setLine_self]
    ext1
    · rfl
    · exact DirectoryLine.sharers_setSharer h
    · rfl
    · rfl
  other b hb := entries_setLine_of_ne hb

theorem adds_of_isSet (h : i < 32) (hset : (m.directory a).isSet i = true) : Adds i a m m where
  numProcessors := rfl
  detector := rfl
  calls := rfl
  self := by
    have hmem : i ∈ (m.entries a).sharers := (DirectoryLine.isSet_iff h).mp hset
    rw [Finset.insert_eq_of_mem hmem]
  other _ _ := rfl

/-- **The evictions of a push** change no bit of the line but the reader's. -/
theorem Pushing.spilled (h : Pushing m₀ pid a done xs log m) (hne : i ≠ pid)
    (had : m₀.detector = true) (hw : (m₀.entries a).writer = some pid) {call : Call}
    (hsim : Simulates ys log' (m.record call) m₁) (hspill : Spills i ys log') :
    (m₁.entries a).state = (m₀.entries a).state ∧ (m₁.entries a).writer = (m₀.entries a).writer ∧
      (m₁.entries a).reads = (m₀.entries a).reads ∧
      ∀ j ≠ i, (j ∈ (m₁.entries a).sharers ↔ j ∈ (m.entries a).sharers) := by
  have hpid : pid ∈ (m.entries a).sharers := (h.sharers pid).mpr (Or.inl rfl)
  have hevict : ∀ x ∈ ys.filter (·.addr = a), ∃ b, x = .evict i b := fun x hx =>
    (hspill.evicts x (List.mem_filter.mp hx).1).imp fun _ hb => hb.1
  obtain ⟨hst, hwr, hrd, hsh⟩ := foldl_evict_of_writer (R := m₀.rules) (e := m.entries a) _ had hne
    (h.writer.trans hw) hpid hevict
  rw [← h.rules] at hst hwr hrd hsh
  have hent := hsim.entries_at (b := a)
  change m₁.entries a = (ys.filter (·.addr = a)).foldl
    (fun e x => x.onEntry m.rules e) (m.entries a) at hent
  rw [← hent] at hst hwr hrd hsh
  exact ⟨hst.trans h.state, hwr.trans hw.symm, hrd.trans h.reads, hsh⟩

/-- **A qualified reader is pushed to**: its cache gives up copies, perhaps
of this very line, and then its bit is set. -/
theorem Pushing.push (h : Pushing m₀ pid a done xs log m) (hi : i < m₀.numProcessors)
    (hne : i ≠ pid) (had : m₀.detector = true) (hw : (m₀.entries a).writer = some pid)
    (hq : m₀.rules.qualified (m₀.entries a).reads i = true)
    (hsim : Simulates ys log' (m.record (.push i a)) m₁) (hspill : Spills i ys log')
    (hadds : Adds i a m₁ m₂) :
    Pushing m₀ pid a (done ++ [i]) (xs ++ ys.filter (·.addr ≠ a))
      (log ++ (.push i a :: log')) m₂ := by
  -- an eviction of this line by the fetch changes nothing but the sharers
  obtain ⟨hst, hwr, hrd, hsh⟩ := h.spilled hne had hw hsim hspill
  exact {
    numProcessors := hadds.numProcessors.trans (hsim.numProcessors.trans h.numProcessors)
    detector := hadds.detector.trans (hsim.detector.trans h.detector)
    elsewhere := fun b hb => by
      rw [hadds.other b hb, hsim.entries, List.foldl_append, foldl_apply_filter_ne hb]
      change ys.foldl (Event.apply m.rules) m.entries b = _
      rw [h.rules]
      exact foldl_apply_congr (h.elsewhere b hb)
    state := by rw [hadds.self]; exact hst
    writer := by rw [hadds.self]; exact hwr
    reads := by rw [hadds.self]; exact hrd
    sharers := fun j => by
      have hj := h.sharers j
      have hj' := hsh j
      rw [hadds.self, Finset.mem_insert]
      simp only [List.mem_append, List.mem_singleton]
      grind
    calls := by
      rw [hadds.calls, hsim.calls, DirMsi.record_calls, h.calls]
      simp
    evicts := fun x hx => by
      rcases List.mem_append.mp hx with hx | hx
      · obtain ⟨h1, h2, j, b, h3, h4⟩ := h.evicts x hx
        exact ⟨h1, h2, j, b, h3, List.mem_append_left _ h4⟩
      · obtain ⟨hx, hxa⟩ := List.mem_filter.mp hx
        obtain ⟨b, rfl, hb⟩ := hspill.evicts x hx
        exact ⟨by simpa using hxa, hi, i, b, rfl,
          List.mem_append_right _ (List.mem_cons_of_mem _ hb)⟩
    pushes := h.pushes_snoc (List.subset_append_left log _) fun _ _ =>
      List.mem_append_right _ List.mem_cons_self
    quiet := fun call hcall => by
      rcases List.mem_append.mp hcall with hcall | hcall
      · exact h.quiet call hcall
      · rcases List.mem_cons.mp hcall with rfl | hcall
        · exact Or.inr ⟨i, rfl⟩
        · exact Or.inl (hspill.quiet call hcall) }

/-- What the last writer's branch needs of the directory it starts from. -/
structure Writes (m₀ : DirMsi) (pid : ℕ) (a : Addr) : Prop where
  numProcessors : m₀.numProcessors ≤ 32
  detector : m₀.detector = true
  proc : pid < m₀.numProcessors
  writer : (m₀.entries a).writer = some pid
  state : (m₀.entries a).state ≠ .invalid

/-- **One round of the loop.** -/
theorem ensures_pushBody (hw : Writes m₀ pid a) {cost hops : ℕ}
    (hi : i < m₀.numProcessors) (h : Pushing m₀ pid a done xs log c.coherence) :
    Ensures (· = .lru)
      (fun st => ∃ xs log, Pushing m₀ pid a (done ++ [i]) xs log st.1.coherence)
      (pushBody pid home a (c, cost, hops) i) := by
  have hle := hw.numProcessors
  have h32 : i < 32 := by omega
  have hqr : (c.line a).qualifiedReader i = _ := h.qualified
  simp only [pushBody]
  by_cases hne : i = pid
  · rw [if_neg (not_not_intro hne)]
    exact ⟨xs, log, h.skip (Or.inl hne)⟩
  rw [if_pos hne]
  by_cases hq : (c.line a).qualifiedReader i = true
  · rw [if_pos hq]
    refine (ensures_fetchCacheLine h32).bind fun c' _ hc' => ?_
    -- the fetch evicts `ys`, then the bit is set, if it is not
    obtain ⟨ys, log', hsim, hspill⟩ := hc'
    have hq' : m₀.rules.qualified (m₀.entries a).reads i = true := hqr ▸ hq
    split
    · exact ⟨_, _, h.push hi hne hw.detector hw.writer hq' hsim hspill (adds_setSharer h32)⟩
    · rename_i hset
      rw [Bool.not_eq_true', Bool.not_eq_false] at hset
      exact ⟨_, _, h.push hi hne hw.detector hw.writer hq' hsim hspill (adds_of_isSet h32 hset)⟩
  · rw [if_neg hq]
    by_cases hset : (c.line a).isSet i = true
    · rw [if_pos hset]
      exact ⟨xs, log, h.clear h32 hne (hqr ▸ hq)⟩
    · rw [if_neg hset]
      exact ⟨xs, log, h.skip (Or.inr ⟨hqr ▸ hq, fun hmem =>
        hset ((DirectoryLine.isSet_iff h32).mpr hmem)⟩)⟩

/-- **The whole loop.** -/
theorem ensures_pushLoop (home : ℕ) (hw : Writes m₀ pid a) (st : Controller × ℕ × ℕ)
    (h : Pushing m₀ pid a [] xs log st.1.coherence) :
    Ensures (· = .lru)
      (fun st => ∃ xs log, Pushing m₀ pid a (List.range m₀.numProcessors) xs log st.1.coherence)
      ((List.range m₀.numProcessors).foldlM (pushBody pid home a) st) := by
  refine ensures_foldlM
    (I := fun done (st : Controller × ℕ × ℕ) =>
      ∃ xs log, Pushing m₀ pid a done xs log st.1.coherence) ⟨xs, log, h⟩ ?_
  rintro u i v ⟨c, cost, hops⟩ hl ⟨xs', log', h'⟩
  exact ensures_pushBody hw (lt_of_range_eq hl) h'

/-- Behind the loop the line has the sharers of the store. -/
theorem Pushing.entries_eq (hw : Writes m₀ pid a)
    (hsub : (m₀.entries a).sharers ⊆ m₀.rules.procs)
    (h : Pushing m₀ pid a (List.range m₀.numProcessors) xs log m) :
    { m.directory a with state := .modified : DirectoryLine }.entry =
      (m₀.entries a).store m₀.rules pid := by
  have hstore : (m₀.entries a).store m₀.rules pid = { m₀.entries a with
      state := .modified
      sharers := insert pid (m₀.rules.procs.filter ((m₀.entries a).Pushes m₀.rules pid)) } :=
    if_pos ⟨hw.detector, hw.state, hw.writer⟩
  ext1
  · rw [hstore]
    rfl
  · ext i
    have hi := h.sharers i
    have hmem : i ∈ m₀.rules.procs ↔ i < m₀.numProcessors := mem_procs
    have hproc : i ∈ (m₀.entries a).sharers → i < m₀.numProcessors := fun hs =>
      hmem.mp (hsub hs)
    rw [Entry.mem_sharers_store]
    change i ∈ (m.entries a).sharers ↔ _
    rw [hi]
    have hd : m₀.rules.adaptive = true := hw.detector
    have hs := hw.state
    simp only [List.mem_range, Entry.Pushes, hw.writer, hmem]
    grind
  · rw [hstore]
    exact h.writer
  · rw [hstore]
    exact h.reads

/-- A last writer that kept its copy fetches nothing again. -/
theorem refetch_of_mem (h : pid < 32) (cost : ℕ) (hmem : pid ∈ (c.coherence.entries a).sharers) :
    c.refetch pid a cost = .ok (c, cost + localCacheAccess, .cacheHit) := by
  have hset : (c.line a).isSet pid = true := (DirectoryLine.isSet_iff h).mpr hmem
  simp [refetch, hset, pure_eq_ok]

/-- The loop of a last writer that kept its copy. -/
theorem pushing_enter (hmem : pid ∈ (m₀.entries a).sharers) : Pushing m₀ pid a [] [] [] m₀ where
  numProcessors := rfl
  detector := rfl
  elsewhere _ _ := rfl
  state := rfl
  writer := rfl
  reads := rfl
  sharers i := by
    simp only [List.not_mem_nil, if_false]
    constructor
    · exact Or.inr
    · rintro (rfl | hi)
      · exact hmem
      · exact hi
  calls := by simp
  evicts := by simp
  pushes := by simp
  quiet := by simp

/-- The loop of a last writer that was evicted: its second line fetch gives
up copies of its own, of which it has none of this line. -/
theorem pushing_refetch (hw : Writes m₀ pid a)
    (hinv : (m₀.entries a).state = .invalid ↔ (m₀.entries a).sharers = ∅)
    (hmem : pid ∉ (m₀.entries a).sharers) (hsim : Simulates ys log' m₀ m₁)
    (hspill : Spills pid ys log') (hadds : Adds pid a m₁ m₂) :
    Pushing m₀ pid a [] (ys.filter (·.addr ≠ a)) log' m₂ := by
  have hself : m₂.entries a =
      { m₀.entries a with sharers := insert pid (m₀.entries a).sharers } := by
    rw [hadds.self, hsim.entries, foldl_evict_of_not_mem hinv hmem fun x hx =>
      (hspill.evicts x hx).imp fun _ h => h.1]
  exact {
    numProcessors := hadds.numProcessors.trans hsim.numProcessors
    detector := hadds.detector.trans hsim.detector
    elsewhere := fun b hb => by
      rw [hadds.other b hb, foldl_apply_filter_ne hb, hsim.entries]
    state := by rw [hself]
    writer := by rw [hself]
    reads := by rw [hself]
    sharers := fun i => by
      rw [hself, Finset.mem_insert]
      rfl
    calls := hadds.calls.trans hsim.calls
    evicts := fun x hx => by
      obtain ⟨hx, hxa⟩ := List.mem_filter.mp hx
      obtain ⟨b, rfl, hb⟩ := hspill.evicts x hx
      exact ⟨by simpa using hxa, hw.proc, pid, b, rfl, hb⟩
    pushes := by simp
    quiet := fun call hcall => Or.inl (hspill.quiet call hcall) }

/-- The second line fetch, where there is one, enters the loop. -/
theorem ensures_refetch (hw : Writes c.coherence pid a)
    (hinv : (c.coherence.entries a).state = .invalid ↔ (c.coherence.entries a).sharers = ∅)
    {cost : ℕ} :
    Ensures (· = .lru)
      (fun r => (r.2.2 = .cacheHit ↔ pid ∈ (c.coherence.entries a).sharers) ∧
        ∃ xs log, Pushing c.coherence pid a [] xs log r.1.coherence)
      (c.refetch pid a cost) := by
  have hlt := hw.proc
  have hle := hw.numProcessors
  have h32 : pid < 32 := by omega
  have hset : (c.line a).isSet pid = true ↔ pid ∈ (c.coherence.entries a).sharers :=
    DirectoryLine.isSet_iff h32
  by_cases hmem : pid ∈ (c.coherence.entries a).sharers
  · rw [refetch_of_mem h32 cost hmem]
    exact ⟨by simpa using hmem, [], [], pushing_enter hmem⟩
  · rw [refetch, if_pos (by simpa using fun hs => hmem (hset.mp hs))]
    refine (ensures_fetchCacheLine h32).bind fun c' _ hc' => ?_
    obtain ⟨ys, log', hsim, hspill⟩ := hc'
    exact ⟨by simpa using hmem, _, log',
      pushing_refetch hw hinv hmem hsim hspill (adds_setSharer h32)⟩

end Controller

end AdaptiveMsi
