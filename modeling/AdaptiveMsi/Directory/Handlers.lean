import AdaptiveMsi.Directory.Line
import AdaptiveMsi.Model.Coherence
/-!
# The directory's routines as events

Each routine of the directory is computed once, on the line it is called
for, and read as an event of the protocol. `Simulates` is what the rest
of the development uses: which events a step performs, in which order,
and which calls it records.
-/

namespace AdaptiveMsi

open Machine Protocol

namespace DirMsi

variable {m m' m'' : DirMsi} {pid home hops : ℕ} {a b : Addr} {d : DirectoryLine} {c : Call}

/-- The directory as a map of entries. -/
def entries (m : DirMsi) (a : Addr) : Entry ℕ (BitVec 64) := (m.directory a).entry

def rules (m : DirMsi) : Rules ℕ (BitVec 64) := AdaptiveMsi.rules m.numProcessors m.detector

@[simp] theorem setLine_directory :
    (m.setLine a d).directory = Function.update m.directory a d := rfl

@[simp] theorem setLine_calls : (m.setLine a d).calls = m.calls := rfl

@[simp] theorem setLine_setLine {d' : DirectoryLine} :
    (m.setLine a d).setLine a d' = m.setLine a d' := by
  simp [setLine]

@[simp] theorem setLine_self : m.setLine a (m.directory a) = m := by
  simp [setLine]

@[simp] theorem record_directory : (m.record c).directory = m.directory := rfl

@[simp] theorem record_numProcessors : (m.record c).numProcessors = m.numProcessors := rfl

@[simp] theorem record_detector : (m.record c).detector = m.detector := rfl

@[simp] theorem record_calls : (m.record c).calls = m.calls ++ [c] := rfl

theorem entries_setLine : (m.setLine a d).entries = Function.update m.entries a d.entry := by
  funext b
  rcases eq_or_ne b a with rfl | hne
  · simp [entries]
  · simp [entries, hne]

/-! ## Steps as events -/

/-- **`m'` is `m` after the events `xs`**, which recorded the calls
`calls`. -/
structure Simulates (xs : List (Event ℕ Addr)) (calls : List Call) (m m' : DirMsi) : Prop where
  numProcessors : m'.numProcessors = m.numProcessors
  detector : m'.detector = m.detector
  entries : m'.entries = xs.foldl (Event.apply m.rules) m.entries
  calls : m'.calls = m.calls ++ calls

variable {xs ys : List (Event ℕ Addr)} {calls calls' : List Call}

theorem Simulates.rules (h : Simulates xs calls m m') : m'.rules = m.rules := by
  rw [DirMsi.rules, DirMsi.rules, h.numProcessors, h.detector]

theorem Simulates.refl : Simulates [] [] m m := ⟨rfl, rfl, rfl, (List.append_nil _).symm⟩

theorem Simulates.trans (h : Simulates xs calls m m') (h' : Simulates ys calls' m' m'') :
    Simulates (xs ++ ys) (calls ++ calls') m m'' where
  numProcessors := h'.numProcessors.trans h.numProcessors
  detector := h'.detector.trans h.detector
  entries := by rw [h'.entries, h.rules, h.entries, List.foldl_append]
  calls := by rw [h'.calls, h.calls, List.append_assoc]

/-- A step that leaves the directory alone performs no event. -/
theorem Simulates.record : Simulates [] [c] m (m.record c) := ⟨rfl, rfl, rfl, rfl⟩

/-- The entry at an address is what the events there make of it. -/
theorem Simulates.entries_at (h : Simulates xs calls m m') :
    m'.entries b =
      (xs.filter (·.addr = b)).foldl (fun e x => x.onEntry m.rules e) (m.entries b) := by
  rw [h.entries, foldl_apply_at]

/-- Storing back the line an event leaves performs the event. -/
theorem Simulates.setLine {x : Event ℕ Addr} (hx : x.addr = a)
    (hd : d.entry = x.onEntry m.rules (m.entries a)) : Simulates [x] [] m (m.setLine a d) where
  numProcessors := rfl
  detector := rfl
  entries := by
    rw [entries_setLine, hd, ← hx]
    rfl
  calls := (List.append_nil _).symm

theorem Simulates.profiles {p : Profile} (h : Simulates xs calls m m') :
    Simulates xs calls m { m' with profiles := p } :=
  ⟨h.numProcessors, h.detector, h.entries, h.calls⟩

/-! ## Eviction -/

/-- The processor answers for the data of the address. -/
def Owns (m : DirMsi) (pid : ℕ) (a : Addr) : Prop := (m.entries a).Owns m.rules pid

instance : Decidable (m.Owns pid a) := by
  unfold Owns
  infer_instance

theorem ownership_iff (h : pid < 32) : m.ownership pid a = true ↔ m.Owns pid a := by
  have hset := DirectoryLine.isSet_iff (d := m.directory a) h
  have hw := DirectoryLine.writer_eq_some (d := m.directory a) h
  simp only [Owns, Entry.Owns, entries, rules, rules_adaptive, DirectoryLine.entry_sharers,
    DirectoryLine.entry_state, DirectoryLine.entry_writer, hw, ownership, DirectoryLine.isOwner,
    ← hset]
  cases m.detector
  · simp
  · simp
    grind

/-- The write-back charged for the owner, if `pid` is the owner. -/
def evictCalls (m : DirMsi) (pid : ℕ) (a : Addr) : List Call :=
  if m.Owns pid a then
    [.profileCacheEvict pid a (dataWriteBack pid (m.getHomeNode a) 0).1
      (dataWriteBack pid (m.getHomeNode a) 0).2]
  else []

/-- The line `invalidate` stores back, from the line with the new state. -/
theorem entry_evicted (h : pid < 32) {s : CacheState}
    (hs : s = if (m.entries a).Owns m.rules pid then
      if m.rules.adaptive then .shared else .invalid else (m.directory a).state)
    (hd : d = { m.directory a with state := s }.clearSharer pid) :
    (if d.sharerVector = 0 then { d with state := .invalid } else d).entry =
      (m.entries a).evict m.rules pid := by
  have hsharers : d.sharers = (m.directory a).sharers.erase pid := by
    rw [hd]
    exact DirectoryLine.sharers_clearSharer h
  have hzero := DirectoryLine.sharers_eq_empty (d := d)
  rw [hsharers] at hzero
  have hstate : d.state = s := by rw [hd]; rfl
  have hwriter : d.writer = (m.directory a).writer := by rw [hd]; rfl
  have hreads : d.readCountVector = (m.directory a).readCountVector := by rw [hd]; rfl
  -- the entry is invalid exactly when no sharer is left
  by_cases hz : d.sharerVector = 0
  · rw [if_pos hz]
    ext1
    · exact (if_pos (hzero.mpr hz)).symm
    · exact hsharers
    · exact hwriter
    · exact hreads
  · rw [if_neg hz]
    ext1
    · exact hstate.trans (hs.trans (if_neg fun he => hz (hzero.mp he)).symm)
    · exact hsharers
    · exact hwriter
    · exact hreads

/-- **`invalidate` is the eviction of one copy.** -/
theorem simulates_invalidate (h : pid < 32) :
    Simulates [.evict pid a] (.invalidate pid a :: m.evictCalls pid a) m (m.invalidate pid a) := by
  by_cases ho : m.Owns pid a
  · have hif := (ownership_iff h).mpr ho
    simp only [invalidate, hif, if_true]
    refine ⟨rfl, rfl, ?_, by simp [evictCalls, ho]⟩
    rw [entries_setLine]
    exact congrArg _ (entry_evicted h (if_pos ho).symm rfl)
  · have hif : ¬ m.ownership pid a = true := fun hi => ho ((ownership_iff h).mp hi)
    simp only [invalidate, if_neg hif]
    refine ⟨rfl, rfl, ?_, by simp [evictCalls, ho]⟩
    rw [entries_setLine]
    exact congrArg _ (entry_evicted h (if_neg ho).symm rfl)

theorem entries_invalidate (h : pid < 32) : (m.invalidate pid a).entries =
    Function.update m.entries a ((m.entries a).evict m.rules pid) :=
  (simulates_invalidate h).entries

theorem entries_invalidate_self (h : pid < 32) :
    (m.invalidate pid a).entries a = (m.entries a).evict m.rules pid := by
  rw [entries_invalidate h, Function.update_self]

/-- The line `invalidate` stores back. -/
def evictedLine (m : DirMsi) (pid : ℕ) (a : Addr) : DirectoryLine :=
  let d := (if m.ownership pid a then
      { m.directory a with state := if m.detector then .shared else .invalid }
    else m.directory a).clearSharer pid
  if d.sharerVector = 0 then { d with state := .invalid } else d

/-- **The directory after `invalidate`**, at the address and nowhere
else. -/
theorem invalidate_directory : (m.invalidate pid a).directory =
    Function.update m.directory a (m.evictedLine pid a) := by
  simp only [invalidate, evictedLine]
  split <;> rfl

theorem invalidate_directory_of_ne (hb : b ≠ a) :
    (m.invalidate pid a).directory b = m.directory b := by
  rw [invalidate_directory, Function.update_of_ne hb]

/-- **What it charges**: one write-back, of an owner. -/
theorem invalidate_profiles : (m.invalidate pid a).profiles =
    if m.ownership pid a then
      m.profiles.profileCacheEvict pid a (dataWriteBack pid (m.getHomeNode a) 0).1
        (dataWriteBack pid (m.getHomeNode a) 0).2
    else m.profiles := by
  simp only [invalidate]
  split <;> rfl

theorem isSet_evictedLine (h : pid < 32) : (m.evictedLine pid a).isSet pid = false := by
  have hself := entries_invalidate_self (m := m) (a := a) h
  rw [entries, invalidate_directory, Function.update_self] at hself
  have hsharers : (m.evictedLine pid a).sharers = (m.entries a).sharers.erase pid :=
    congrArg Entry.sharers hself
  rw [DirectoryLine.isSet_eq_decide h, hsharers]
  simp

theorem evictedLine_state (hzero : (m.evictedLine pid a).sharerVector = 0) :
    (m.evictedLine pid a).state = .invalid := by
  unfold evictedLine at hzero ⊢
  generalize (if m.ownership pid a then
    { m.directory a with state := if m.detector then .shared else .invalid }
    else m.directory a).clearSharer pid = d at hzero ⊢
  by_cases hd : d.sharerVector = 0
  · exact congrArg DirectoryLine.state (if_pos hd)
  · exact absurd ((congrArg DirectoryLine.sharerVector (if_neg hd)).symm.trans hzero) hd

/-- Without a bit there is nothing to give up. -/
theorem evictedLine_eq_self_iff (h : pid < 32) : m.evictedLine pid a = m.directory a ↔
    (m.directory a).isSet pid = false ∧
      ((m.directory a).sharerVector = 0 → (m.directory a).state = .invalid) := by
  constructor
  · intro heq
    have hset : (m.directory a).isSet pid = false := heq ▸ isSet_evictedLine h
    exact ⟨hset, fun hzero => heq ▸ evictedLine_state (heq ▸ hzero)⟩
  · rintro ⟨hset, hzero⟩
    have hno : m.ownership pid a = false := by
      simp [ownership, DirectoryLine.isOwner, hset]
    have hclear : (m.directory a).clearSharer pid = m.directory a := by
      have hmem : pid ∉ (m.directory a).sharers := fun hmem => by
        rw [(DirectoryLine.isSet_iff h).mpr hmem] at hset
        cases hset
      have hvector : ((m.directory a).clearSharer pid).sharerVector =
          (m.directory a).sharerVector := by
        rw [DirectoryLine.sharerVector_eq_iff, DirectoryLine.sharers_clearSharer h,
          Finset.erase_eq_of_notMem hmem]
      exact congrArg (fun v => { m.directory a with sharerVector := v }) hvector
    simp only [evictedLine, hno, Bool.false_eq_true, if_false, hclear]
    split
    · rename_i hz
      rw [← hzero hz]
    · rfl

/-! ## The routines, case by case -/

variable {o : ℕ} {charge : Charge}

theorem fetch_of_mem (home hops : ℕ) (h : pid < 32) (hs : (m.directory a).state ≠ .invalid)
    (hmem : pid ∈ (m.directory a).sharers) :
    m.fetch pid home a hops = .ok (m, ⟨.cacheHit,
      (getDirectoryCost pid home hops).1 + localCacheAccess,
      (getDirectoryCost pid home hops).2⟩) := by
  have hset := (DirectoryLine.isSet_iff h).mpr hmem
  have hne : ((m.directory a).state != .invalid) = true := by simpa using hs
  simp only [fetch, hne, check_true, hset, if_true]
  rfl

/-- The line a reader is added to. -/
def sharedLine (d : DirectoryLine) (pid : ℕ) : DirectoryLine :=
  { d.setSharer pid with state := .shared }

theorem fetch_of_shared (h : pid < 32) (hs : (m.directory a).state = .shared)
    (hmem : pid ∉ (m.directory a).sharers) :
    m.fetch pid home a hops = .ok (m.setLine a (sharedLine (m.directory a) pid), ⟨.cacheMiss,
      (getDirectoryCost pid home hops).1 + memoryAccess,
      (getDirectoryCost pid home hops).2⟩) := by
  have hset : ¬ (m.directory a).isSet pid = true := fun hi =>
    hmem ((DirectoryLine.isSet_iff h).mp hi)
  simp only [fetch, hs, if_neg hset, reduceCtorEq, if_false]
  rfl

/-- **A miss on a modified line charges the owner's write-back** on top of
the reader's own fetch. -/
theorem fetch_of_modified (h : pid < 32) (hs : (m.directory a).state = .modified)
    (hmem : pid ∉ (m.directory a).sharers) (ho : (m.directory a).owner m.numProcessors = .ok o) :
    m.fetch pid home a hops = .ok (m.setLine a (sharedLine (m.directory a) pid), ⟨.cacheMiss,
      (getDirectoryCost pid home hops).1 + memoryAccess +
        (dataWriteBack o home (getDirectoryCost pid home hops).2).1,
      (dataWriteBack o home (getDirectoryCost pid home hops).2).2⟩) := by
  have hset : ¬ (m.directory a).isSet pid = true := fun hi =>
    hmem ((DirectoryLine.isSet_iff h).mp hi)
  simp only [fetch, hs, if_neg hset, if_true, ho]
  rfl

/-- The line its new writer claims. -/
def claimedLine (d : DirectoryLine) (pid : ℕ) : DirectoryLine :=
  { { d with sharerVector := 0 }.setSharer pid with state := .modified }

/-- The directory in which `pid` has claimed the line. -/
def claim (m : DirMsi) (pid : ℕ) (a : Addr) : DirMsi :=
  m.setLine a (claimedLine (m.directory a) pid)

theorem claimedLine_sharers (h : pid < 32) : (claimedLine d pid).sharers = {pid} := by
  change ({ d with sharerVector := 0 }.setSharer pid).sharers = {pid}
  rw [DirectoryLine.sharers_setSharer h, DirectoryLine.sharers, BitSet.bits_zero,
    insert_empty_eq]

theorem fetchAndInvalidate_eq (hf : m.fetch pid home a hops = .ok (m', charge))
    (hs : (m'.directory a).state ≠ .invalid) :
    m.fetchAndInvalidate pid home a hops = .ok (m'.setLine a (claimedLine (m'.directory a) pid),
      { charge with hops := m'.invalidateHops (m'.directory a) pid home charge.hops }) := by
  have hne : ((m'.directory a).state != .invalid) = true := by simpa using hs
  rw [fetchAndInvalidate, hf]
  change (check ((m'.directory a).state != .invalid) _ >>= fun _ => _) = _
  rw [hne]
  rfl

theorem readMiss_eq (hs : (m.directory a).state = .invalid) :
    m.readMiss pid home a hops = .ok (m.setLine a (sharedLine (m.directory a) pid),
      (getDirectoryCost pid home hops).1 + memoryAccess,
      (getDirectoryCost pid home hops).2) := by
  simp only [readMiss, hs]
  rfl

theorem writeMiss_eq (pid home hops : ℕ) (hs : (m.directory a).state = .invalid) :
    m.writeMiss pid home a hops = .ok
      (m.setLine a ({ m.directory a with state := .modified }.setSharer pid),
        (getDirectoryCost pid home hops).1 + memoryAccess,
        (getDirectoryCost pid home hops).2) := by
  simp only [writeMiss, hs]
  rfl

/-! ## The read handler -/

variable {last : Option ℕ}

theorem ne_invalid_of_mem (hinv : (m.entries a).Inv m.rules last)
    (hmem : pid ∈ (m.directory a).sharers) : (m.directory a).state ≠ .invalid := by
  intro hs
  have : (m.directory a).sharers = ∅ := hinv.invalid_iff.mp hs
  rw [this] at hmem
  exact absurd hmem (Finset.notMem_empty _)

/-- A modified line has an owner, the least of its sharers. -/
theorem exists_owner (hn : m.numProcessors ≤ 32) (hinv : (m.entries a).Inv m.rules last)
    (hs : (m.directory a).state = .modified) :
    ∃ o ∈ (m.directory a).sharers, (∀ i ∈ (m.directory a).sharers, o ≤ i) ∧
      (m.directory a).owner m.numProcessors = .ok o := by
  refine DirectoryLine.exists_owner hn hs (fun he => ?_) hinv.sharers_subset
  have : (m.directory a).state = .invalid := hinv.invalid_iff.mpr he
  rw [this] at hs
  cases hs

/-- A reader without a copy misses, whatever the state. -/
theorem fetch_of_not_mem (home hops : ℕ) (h : pid < 32) (hn : m.numProcessors ≤ 32)
    (hinv : (m.entries a).Inv m.rules last) (hs : (m.directory a).state ≠ .invalid)
    (hmem : pid ∉ (m.directory a).sharers) :
    ∃ cost hops', m.fetch pid home a hops =
      .ok (m.setLine a (sharedLine (m.directory a) pid), ⟨.cacheMiss, cost, hops'⟩) := by
  cases hst : (m.directory a).state with
  | invalid => exact absurd hst hs
  | shared => exact ⟨_, _, fetch_of_shared h hst hmem⟩
  | modified =>
    obtain ⟨o, -, -, ho⟩ := exists_owner hn hinv hst
    exact ⟨_, _, fetch_of_modified h hst hmem ho⟩

/-- The end of `process_read`: a miss is counted, and the profiler called. -/
def finishRead (m : DirMsi) (pid : ℕ) (a : Addr) (charge : Charge) :
    Except AssertFailure (DirMsi × Charge) :=
  match charge.response with
  | .cacheMiss => do
      let d ← (m.directory a).increaseReadCount pid
      return ((m.setLine a d).profileLoad pid a charge, charge)
  | .cacheHit => return (m.profileLoad pid a charge, charge)

/-- **The two parts of a read.** -/
theorem processRead_eq : m.processRead pid a =
    match (m.directory a).state with
    | .modified | .shared =>
        m.fetch pid (m.getHomeNode a) a 0 >>= fun r => r.1.finishRead pid a r.2
    | .invalid => m.readMiss pid (m.getHomeNode a) a 0 >>= fun r =>
        r.1.finishRead pid a ⟨.cacheMiss, r.2.1, r.2.2⟩ := by
  unfold processRead finishRead
  cases (m.directory a).state with
  | shared | modified =>
    dsimp only
    cases m.fetch pid (m.getHomeNode a) a 0 with
    | error e => rfl
    | ok r =>
      obtain ⟨m', response, cost, hops⟩ := r
      cases response <;> rfl
  | invalid =>
    dsimp only
    cases m.readMiss pid (m.getHomeNode a) a 0 <;> rfl

/-- The handler after a hit changes nothing but the profile. -/
theorem processRead_of_hit (hs : (m.directory a).state ≠ .invalid)
    (hr : charge.response = .cacheHit) (hf : m.fetch pid (m.getHomeNode a) a 0 = .ok (m', charge)) :
    m.processRead pid a = .ok (m'.profileLoad pid a charge, charge) := by
  cases hst : (m.directory a).state with
  | invalid => exact absurd hst hs
  | shared | modified => simp only [processRead_eq, finishRead, hst, hf, ok_bind, hr, pure_eq_ok]

/-- What the handler stores after a miss: the reader's counter goes up. -/
def missedLine (d : DirectoryLine) (pid : ℕ) : DirectoryLine :=
  { sharedLine d pid with readCountVector := DirectoryLine.missVector pid d.readCountVector }

theorem increaseReadCount_sharedLine (h : pid < 64) :
    (sharedLine d pid).increaseReadCount pid = .ok (missedLine d pid) :=
  DirectoryLine.increaseReadCount_eq h

theorem processRead_of_miss (h : pid < 64) (hs : (m.directory a).state ≠ .invalid)
    (hr : charge.response = .cacheMiss)
    (hf : m.fetch pid (m.getHomeNode a) a 0 =
      .ok (m.setLine a (sharedLine (m.directory a) pid), charge)) :
    m.processRead pid a =
      .ok ((m.setLine a (missedLine (m.directory a) pid)).profileLoad pid a charge, charge) := by
  cases hst : (m.directory a).state with
  | invalid => exact absurd hst hs
  | shared | modified =>
    simp only [processRead_eq, finishRead, hst, hf, ok_bind, hr, setLine_directory,
      Function.update_self, increaseReadCount_sharedLine h, setLine_setLine, pure_eq_ok]

theorem processRead_of_invalid (h : pid < 64) (hs : (m.directory a).state = .invalid) :
    m.processRead pid a =
      .ok ((m.setLine a (missedLine (m.directory a) pid)).profileLoad pid a
        ⟨.cacheMiss, (getDirectoryCost pid (m.getHomeNode a) 0).1 + memoryAccess,
          (getDirectoryCost pid (m.getHomeNode a) 0).2⟩,
        ⟨.cacheMiss, (getDirectoryCost pid (m.getHomeNode a) 0).1 + memoryAccess,
          (getDirectoryCost pid (m.getHomeNode a) 0).2⟩) := by
  simp only [processRead_eq, finishRead, hs, readMiss_eq hs, ok_bind, setLine_directory,
    Function.update_self, increaseReadCount_sharedLine h, setLine_setLine, pure_eq_ok]

theorem entry_missedLine (h : pid < 32) (hmem : pid ∉ (m.directory a).sharers) :
    (missedLine (m.directory a) pid).entry = (m.entries a).read m.rules pid := by
  rw [Entry.read, if_neg (show pid ∉ (m.entries a).sharers from hmem)]
  ext1
  · rfl
  · exact DirectoryLine.sharers_setSharer h
  · rfl
  · rfl

/-- **`process_read` is a read**, no assertion of it fails, and it reports a
hit exactly for a sharer. -/
theorem simulates_processRead (hn : m.numProcessors ≤ 32) (hp : pid < m.numProcessors)
    (hinv : (m.entries a).Inv m.rules last) :
    ∃ m' charge, m.processRead pid a = .ok (m', charge) ∧
      Simulates [.read pid a] [] m m' ∧
      (charge.response = .cacheHit ↔ pid ∈ (m.directory a).sharers) := by
  have h32 : pid < 32 := by omega
  have h64 : pid < 64 := by omega
  by_cases hmem : pid ∈ (m.directory a).sharers
  · have hs := ne_invalid_of_mem hinv hmem
    have hself : (m.directory a).entry = (m.entries a).read m.rules pid :=
      (if_pos (show pid ∈ (m.entries a).sharers from hmem)).symm
    have hread : Simulates [.read pid a] [] m (m.setLine a (m.directory a)) := .setLine rfl hself
    rw [setLine_self] at hread
    exact ⟨_, _, processRead_of_hit hs rfl (fetch_of_mem _ _ h32 hs hmem), hread.profiles,
      by simpa using hmem⟩
  · have hread : Simulates [.read pid a] [] m (m.setLine a (missedLine (m.directory a) pid)) :=
      .setLine rfl (entry_missedLine h32 hmem)
    by_cases hs : (m.directory a).state = .invalid
    · exact ⟨_, _, processRead_of_invalid h64 hs, hread.profiles, by simpa using hmem⟩
    · obtain ⟨cost, hops', hf⟩ := fetch_of_not_mem (m.getHomeNode a) 0 h32 hn hinv hs hmem
      exact ⟨_, _, processRead_of_miss h64 hs rfl hf, hread.profiles, by simpa using hmem⟩

end DirMsi

end AdaptiveMsi
