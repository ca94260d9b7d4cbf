import AdaptiveMsi.Cache.Contents
import AdaptiveMsi.Controller.Reached
import AdaptiveMsi.Properties.Directory
/-!
# The messages of a store

A store's hops should be its request, the owner's write-back and one
message for each processor whose copy it takes or gives, each `2` unless
it stays at the home node. The baseline counts so. The handoff counts its
request twice, and the last writer's loop clears bits without a message
and sends one for a bit that its own push made the directory clear.
-/

namespace AdaptiveMsi

open Machine Protocol DirMsi

/-! ## What a push tells the directory -/

namespace CacheSet

variable {s : CacheSet} {m : DirMsi} {pid : ℕ} {tag : BitVec 64} {a addr : Addr}

/-- The address a line fetch hands to `invalidate`, if it hands over any:
`0` for a line in the first way, the line's own otherwise. -/
def announced (s : CacheSet) (tag : BitVec 64) : Option Addr :=
  let l := s.line s.leastWay
  if s.status tag = .uncached ∧ l.status = .cached then
    some (if s.leastWay = 0 then 0 else l.addr)
  else none

theorem evictedLine_record {call : Call} :
    (m.record call).evictedLine pid a = m.evictedLine pid a := rfl

/-- **A push tells the directory of one address at most.** -/
theorem exists_push (s : CacheSet) (m : DirMsi) (pid : ℕ) (tag : BitVec 64) (addr : Addr) :
    ∃ r, s.fetchSingleLine pid tag addr m false = .ok r ∧ ∀ a, r.2.directory a =
      if s.announced tag = some a then m.evictedLine pid a else m.directory a := by
  refine ⟨_, fetchSingleLine_push, fun a => ?_⟩
  cases hst : s.status tag with
  | cached => simp [announced, hst]
  | uncached =>
    change (s.evict pid m).2.directory a = _
    have hway : s.leastWay = s.victim.evict := victim_eq_leastWay.symm
    cases hv : (s.line s.victim.evict).status with
    | uncached => simp [announced, hway, hv, evict_of_uncached hv]
    | cached =>
      simp only [announced, hst, hway, hv, evict_of_cached hv, ← evictAddr_of_cached hv]
      rcases eq_or_ne s.victim.evictAddr a with rfl | hne
      · simp [invalidate_directory, evictedLine_record]
      · simp [invalidate_directory, Function.update_of_ne hne.symm, hne]

end CacheSet

/-! ## Messages -/

variable {m m' : DirMsi} {d : DirectoryLine} {pid home hops src dest cost i : ℕ} {a : Addr}
variable {c c' c₁ : Controller} {charge : Charge} {done : List ℕ}

theorem getDirectoryCost_hops :
    (getDirectoryCost src dest hops).2 = hops + if src ≠ dest then 2 else 0 := by
  by_cases h : src = dest <;> simp [getDirectoryCost, h]

/-- The loop of `fetch_and_invalidate` sends one message for each copy. -/
theorem invalidateHops_eq : m.invalidateHops d pid home hops = hops +
    2 * (List.range m.numProcessors).countP fun i => i ≠ pid ∧ i ≠ home ∧ d.isSet i = true := by
  unfold invalidateHops
  induction List.range m.numProcessors generalizing hops with
  | nil => rfl
  | cons i l ih =>
    have hstep : (if d.isSet i && i != pid then (getDirectoryCost i home hops).2 else hops) =
        hops + 2 * if i ≠ pid ∧ i ≠ home ∧ d.isSet i = true then 1 else 0 := by
      simp only [getDirectoryCost_hops]
      grind
    rw [List.foldl_cons, hstep, ih, List.countP_cons]
    simp only [decide_eq_true_eq]
    omega

/-- The processor whose write-back the directory's `fetch` charges. -/
def DirMsi.fetchWriteBack (m : DirMsi) (pid : ℕ) (a : Addr) : Option ℕ :=
  if (m.directory a).isSet pid then none
  else if (m.directory a).state = .modified then ((m.directory a).owner m.numProcessors).toOption
  else none

/-- The messages of a write-back. -/
def writeBackHops (home : ℕ) (owner : Option ℕ) : ℕ :=
  owner.elim 0 fun o => if o ≠ home then 2 else 0

/-- **The hops of `fetch`**: the request and the write-back. -/
theorem fetch_hops (h : m.fetch pid home a hops = .ok (m', charge)) :
    charge.hops = hops + (if pid ≠ home then 2 else 0) +
      writeBackHops home (m.fetchWriteBack pid a) := by
  simp only [fetch] at h
  obtain ⟨-, -, h⟩ := bind_eq_ok.mp h
  by_cases hset : (m.directory a).isSet pid = true
  · rw [if_pos hset] at h
    cases h
    simp [fetchWriteBack, hset, writeBackHops, getDirectoryCost_hops]
  · rw [if_neg hset] at h
    by_cases hmod : (m.directory a).state = .modified
    · rw [if_pos hmod] at h
      obtain ⟨o, ho, h⟩ := bind_eq_ok.mp h
      cases h
      simp [fetchWriteBack, hset, hmod, ho, writeBackHops, dataWriteBack, getDirectoryCost_hops,
        Except.toOption]
    · rw [if_neg hmod] at h
      cases h
      simp [fetchWriteBack, hset, hmod, writeBackHops, getDirectoryCost_hops]

/-- `fetch` leaves the other bits alone. -/
theorem fetch_isSet (hpid : pid < 32) (hi : i < 32) (hne : i ≠ pid)
    (h : m.fetch pid home a hops = .ok (m', charge)) :
    (m'.directory a).isSet i = (m.directory a).isSet i := by
  have hshared : (m.setLine a (sharedLine (m.directory a) pid)).directory a =
      sharedLine (m.directory a) pid := by simp
  have hbit : (sharedLine (m.directory a) pid).isSet i = (m.directory a).isSet i := by
    rw [DirectoryLine.isSet_eq_decide hi, DirectoryLine.isSet_eq_decide hi]
    change decide (i ∈ ((m.directory a).setSharer pid).sharers) = _
    simp [DirectoryLine.sharers_setSharer hpid, hne]
  simp only [fetch] at h
  obtain ⟨-, -, h⟩ := bind_eq_ok.mp h
  split at h
  · cases h
    rfl
  · split at h
    · obtain ⟨o, -, h⟩ := bind_eq_ok.mp h
      cases h
      exact (congrArg (fun d => d.isSet i) hshared).trans hbit
    · cases h
      exact (congrArg (fun d => d.isSet i) hshared).trans hbit

namespace Controller

/-- The processor whose write-back the store charges. The last writer's
branch does not call `fetch`, and the handoff calls it when the writer is
noted. -/
def storeWriteBack (c : Controller) (pid : ℕ) (a : Addr) : Option ℕ :=
  if c.coherence.detector then
    if (c.line a).isLastWriter pid then none else (noted c.coherence pid a).fetchWriteBack pid a
  else c.coherence.fetchWriteBack pid a

/-- How many of the processors other than `pid` and the home node are in
the relation. -/
def others (c : Controller) (pid : ℕ) (a : Addr) (P : ℕ → Prop) [DecidablePred P] : ℕ :=
  (List.range c.coherence.numProcessors).countP fun i =>
    i ≠ pid ∧ i ≠ c.coherence.getHomeNode a ∧ P i

/-- **The messages of a store** that takes the controller to `c'`: its
request, the write-back, and one for each other processor whose bit it
changes. -/
def messages (c c' : Controller) (pid : ℕ) (a : Addr) : ℕ :=
  (if pid ≠ c.coherence.getHomeNode a then 2 else 0) +
    writeBackHops (c.coherence.getHomeNode a) (c.storeWriteBack pid a) +
    2 * c.others pid a fun i => (c'.line a).isSet i ≠ (c.line a).isSet i

/-- A push of the line to `i` makes the directory clear its bit. -/
def Repushes (c : Controller) (a : Addr) (i : ℕ) : Prop :=
  (c.cache i (c.getSetIndex a)).announced (c.getTag a) = some a

instance : DecidablePred (c.Repushes a) := fun i => by
  unfold Repushes
  infer_instance

/-- **Where the messages are counted exactly**: in the baseline; in a
handoff by the home node; in a store of the last writer that clears as
many bits without a message as it sends messages for bits that were set. -/
def CountsExactly (c : Controller) (pid : ℕ) (a : Addr) : Prop :=
  c.coherence.detector = true →
    if (c.line a).isLastWriter pid then
      (c.others pid a fun i => (c.line a).isSet i = true ∧ (c.line a).qualifiedReader i = false) =
        c.others pid a fun i => (c.line a).isSet i = true ∧ (c.line a).qualifiedReader i = true ∧
          c.Repushes a i
    else pid = c.coherence.getHomeNode a

instance : Decidable (c.CountsExactly pid a) := by
  unfold CountsExactly
  infer_instance

variable {P Q R : ℕ → Prop} [DecidablePred P] [DecidablePred Q] [DecidablePred R]

theorem others_congr (h : ∀ i < c.coherence.numProcessors, i ≠ pid → (P i ↔ Q i)) :
    c.others pid a P = c.others pid a Q := by
  refine List.countP_congr fun i hi => ?_
  have hiff := h i (List.mem_range.mp hi)
  simp only [decide_eq_true_eq]
  tauto

/-- Two kinds of processors, counted apart. -/
theorem others_add (h : ∀ i < c.coherence.numProcessors, i ≠ pid → (P i ↔ Q i ∨ R i))
    (hdisjoint : ∀ i, Q i → ¬ R i) :
    c.others pid a P = c.others pid a Q + c.others pid a R := by
  rw [others_congr h]
  unfold others
  induction List.range c.coherence.numProcessors with
  | nil => rfl
  | cons i l ih =>
    have hi := hdisjoint i
    simp only [List.countP_cons, ih, decide_eq_true_eq]
    grind

theorem isSet_claimedLine {d : DirectoryLine} (hpid : pid < 32) (hi : i < 32) (hne : i ≠ pid) :
    (claimedLine d pid).isSet i = false := by
  rw [DirectoryLine.isSet_eq_decide hi, claimedLine_sharers hpid]
  simpa using hne

/-- A store that ends with one copy: the bits it changes are those that
were set. -/
theorem messages_claim (hpid : pid < 32) (hn : c.coherence.numProcessors ≤ 32)
    {d : DirectoryLine} (hline : c'.line a = claimedLine d pid) :
    c.messages c' pid a = (if pid ≠ c.coherence.getHomeNode a then 2 else 0) +
      writeBackHops (c.coherence.getHomeNode a) (c.storeWriteBack pid a) +
      2 * c.others pid a fun i => (c.line a).isSet i = true := by
  rw [messages]
  congr 2
  refine others_congr fun i hi hne => ?_
  rw [hline, isSet_claimedLine hpid (by omega) hne]
  cases (c.line a).isSet i <;> simp

/-- **The baseline counts exactly.** -/
theorem hops_of_baseline {last : Option ℕ} (hpid : pid < 32) (hn : c.coherence.numProcessors ≤ 32)
    (hinv : (c.coherence.entries a).Inv c.coherence.rules last)
    (hd : c.coherence.detector = false) (hs : (c.line a).state ≠ .invalid)
    (h : c.processWrite pid a = .ok (c', charge)) : charge.hops = c.messages c' pid a := by
  obtain ⟨m', charge', hf, hm', hn', hclaim, -⟩ := exists_fetch_claim
    (c.coherence.getHomeNode a) 0 hpid hn hinv hs
  rw [processWrite_of_baseline hd hs hf hm' hn'] at h
  obtain ⟨hc, hcharge⟩ := Prod.mk.inj (Except.ok.inj h)
  have hline : c'.line a = claimedLine (m'.directory a) pid := by
    rw [← hc]
    exact Function.update_self _ _ _
  have hhome : m'.getHomeNode a = c.coherence.getHomeNode a := by
    rw [getHomeNode, getHomeNode, hn']
  have hbits : (List.range m'.numProcessors).countP (fun i => i ≠ pid ∧ i ≠ m'.getHomeNode a ∧
      (m'.directory a).isSet i = true) = c.others pid a fun i => (c.line a).isSet i = true := by
    rw [hn', hhome]
    refine others_congr fun i hi hne => ?_
    rw [fetch_isSet hpid (by omega) hne hf]
    rfl
  rw [messages_claim hpid hn hline, ← hcharge, storeWriteBack, hd]
  simp only [claimCharge, invalidateHops_eq, hbits, fetch_hops hf, Bool.false_eq_true, if_false]
  omega

/-- **The handoff sends its request twice.** -/
theorem hops_of_handoff (hpid : pid < 32) (hn : c.coherence.numProcessors ≤ 32)
    (hd : c.coherence.detector = true) (hs : (c.line a).state ≠ .invalid)
    (hw : ¬ (c.line a).isLastWriter pid = true)
    (h : c.processWrite pid a = .ok (c', charge)) :
    charge.hops = c.messages c' pid a + if pid ≠ c.coherence.getHomeNode a then 2 else 0 := by
  rw [processWrite_of_detector hd hs, pushAndInvalidate_of_handoff hpid hn hs hw, noted_claim,
    ok_bind] at h
  obtain ⟨hc, hcharge⟩ := Prod.mk.inj (Except.ok.inj h)
  have hline : c'.line a = claimedLine ((c.line a).updateLastWriter pid) pid := by
    rw [← hc]
    exact Function.update_self _ _ _
  have hset : ((noted c.coherence pid a).directory a).isSet pid = true := by
    rw [noted_directory, Function.update_self, DirectoryLine.isSet_iff hpid]
    change pid ∈ ((c.coherence.directory a).setSharer pid).sharers
    simp [DirectoryLine.sharers_setSharer hpid]
  have hnone : c.storeWriteBack pid a = none := by
    rw [storeWriteBack, if_pos hd, if_neg hw, fetchWriteBack, if_pos hset]
  have hbits : (List.range c.coherence.numProcessors).countP (fun i => i ≠ pid ∧
      i ≠ c.coherence.getHomeNode a ∧ ((c.line a).updateLastWriter pid).isSet i = true) =
      c.others pid a fun i => (c.line a).isSet i = true := by
    refine others_congr fun i hi hne => ?_
    have h32 : i < 32 := by omega
    have hsharers : ((c.line a).updateLastWriter pid).sharers =
        ((c.line a).setSharer pid).sharers := rfl
    rw [DirectoryLine.isSet_iff h32, DirectoryLine.isSet_iff h32, hsharers,
      DirectoryLine.sharers_setSharer hpid]
    simp [hne]
  rw [messages_claim hpid hn hline, hnone, ← hcharge]
  simp only [invalidateHops_eq, getDirectoryCost_hops]
  change _ + 2 * (List.range c.coherence.numProcessors).countP _ = _
  rw [hbits]
  simp only [writeBackHops, Option.elim]
  omega

/-! ## The last writer's loop -/

/-- The caches other than `i`'s stay, and so does the splitting of
addresses. -/
structure Beside (i : ℕ) (c c' : Controller) : Prop where
  cache : ∀ j ≠ i, c'.cache j = c.cache j
  offsetNumBits : c'.offsetNumBits = c.offsetNumBits
  tagMask : c'.tagMask = c.tagMask

theorem Beside.fetchCacheLine {replace : Bool} (h : c.fetchCacheLine i a replace = .ok c') :
    Beside i c c' := by
  obtain ⟨r, -, h⟩ := bind_eq_ok.mp h
  rw [← Except.ok.inj h]
  exact ⟨fun j hj => Function.update_of_ne hj _ _, rfl, rfl⟩

/-- **What a push leaves of the line**: its bit is cleared if the directory
is told of this very address. -/
theorem exists_pushFetch (c : Controller) (i : ℕ) (a : Addr) :
    ∃ c', c.fetchCacheLine i a false = .ok c' ∧ c'.coherence.directory a =
      if c.Repushes a i then c.coherence.evictedLine i a else c.line a := by
  obtain ⟨r, hr, hlines⟩ := CacheSet.exists_push (c.cache i (c.getSetIndex a)) c.coherence i
    (c.getTag a) a
  refine ⟨c.putSet i (c.getSetIndex a) r, ?_, hlines a⟩
  rw [fetchCacheLine, hr]
  rfl

/-- **The hops of the push loop** of `pid` at `a`, entered at `c` with
`hops₀`: one message for each qualified reader behind it whose bit was
clear or got cleared by its own push. -/
structure Sending (c : Controller) (pid : ℕ) (a : Addr) (hops₀ : ℕ) (done : List ℕ)
    (st : Controller × ℕ × ℕ) : Prop where
  pushing : ∃ xs log, Pushing c.coherence pid a done xs log st.1.coherence
  cache : ∀ i ∉ done, i ≠ pid → st.1.cache i = c.cache i
  offsetNumBits : st.1.offsetNumBits = c.offsetNumBits
  tagMask : st.1.tagMask = c.tagMask
  hops : st.2.2 = hops₀ + 2 * done.countP fun i => i ≠ pid ∧ i ≠ c.coherence.getHomeNode a ∧
    (c.line a).qualifiedReader i = true ∧ ((c.line a).isSet i = true → c.Repushes a i)

variable {hops₀ : ℕ} {st : Controller × ℕ × ℕ}

/-- The loop finds the bits ahead of it as they were. -/
theorem Sending.isSet (h : Sending c pid a hops₀ done st) (h32 : i < 32) (hi : i ∉ done)
    (hne : i ≠ pid) : (st.1.line a).isSet i = (c.line a).isSet i := by
  obtain ⟨xs, log, hpush⟩ := h.pushing
  have hsharers := hpush.sharers i
  simp only [hi, hne, false_or, if_false] at hsharers
  rw [DirectoryLine.isSet_eq_decide h32, DirectoryLine.isSet_eq_decide h32]
  exact decide_eq_decide.mpr hsharers

theorem Sending.repushes (h : Sending c pid a hops₀ done st) (hi : i ∉ done) (hne : i ≠ pid) :
    st.1.Repushes a i ↔ c.Repushes a i := by
  unfold Repushes getSetIndex getTag
  rw [h.cache i hi hne, h.offsetNumBits, h.tagMask]

/-- The caches ahead of the loop, with one processor fewer. -/
theorem Sending.cache_snoc (h : Sending c pid a hops₀ done st) :
    ∀ j ∉ done ++ [i], j ≠ pid → j ≠ i ∧ st.1.cache j = c.cache j := by
  intro j hj hne
  exact ⟨fun he => hj (by simp [he]), h.cache j (fun hmem => hj (by simp [hmem])) hne⟩

/-- The hops after a round. -/
theorem Sending.hops_snoc {k : ℕ} (h : Sending c pid a hops₀ done st)
    (hk : k = st.2.2 + if i ≠ pid ∧ i ≠ c.coherence.getHomeNode a ∧
      (c.line a).qualifiedReader i = true ∧ ((c.line a).isSet i = true → c.Repushes a i) then 2
      else 0) :
    k = hops₀ + 2 * (done ++ [i]).countP fun i => i ≠ pid ∧ i ≠ c.coherence.getHomeNode a ∧
      (c.line a).qualifiedReader i = true ∧ ((c.line a).isSet i = true → c.Repushes a i) := by
  rw [hk, h.hops, List.countP_append, List.countP_singleton]
  simp only [decide_eq_true_eq]
  split <;> omega

/-- The bit that a push finds when its line fetch is done. -/
theorem Sending.isSet_pushed (h : Sending c pid a hops₀ done st) (h32 : i < 32) (hi : i ∉ done)
    (hne : i ≠ pid) (hfetch : (st.1.record (.push i a)).fetchCacheLine i a false = .ok c') :
    (c'.line a).isSet i = true ↔ (c.line a).isSet i = true ∧ ¬ c.Repushes a i := by
  obtain ⟨c'', hfetch', hline⟩ := exists_pushFetch (st.1.record (.push i a)) i a
  cases hfetch.symm.trans hfetch'
  have hsame : (st.1.record (.push i a)).Repushes a i ↔ c.Repushes a i := h.repushes hi hne
  have hset : ((st.1.record (.push i a)).line a).isSet i = (c.line a).isSet i := h.isSet h32 hi hne
  rw [line, hline]
  split
  · rename_i hr
    simp [isSet_evictedLine h32, hsame.mp hr]
  · rename_i hr
    simp [hset, mt hsame.mpr hr]

/-- **One round**, in which the loop sends a message or does not. -/
theorem Sending.step (hw : Writes c.coherence pid a) (hi : i < c.coherence.numProcessors)
    (hdone : i ∉ done) (h : Sending c pid a hops₀ done st) :
    Ensures (· = .lru) (Sending c pid a hops₀ (done ++ [i]))
      (pushBody pid (c.coherence.getHomeNode a) a st i) := by
  obtain ⟨d, cost, hops⟩ := st
  have hle := hw.numProcessors
  have h32 : i < 32 := by omega
  obtain ⟨xs, log, hpush⟩ := h.pushing
  have hqr : (d.line a).qualifiedReader i = (c.line a).qualifiedReader i := hpush.qualified
  have hcache : ∀ j ∉ done ++ [i], j ≠ pid → d.cache j = c.cache j := fun j hj hjp =>
    (h.cache_snoc j hj hjp).2
  refine (ensures_pushBody hw hi hpush).mono fun st' hbody hpush' => ?_
  simp only [pushBody] at hbody
  by_cases hne : i = pid
  · rw [if_neg (not_not_intro hne)] at hbody
    cases hbody
    exact ⟨hpush', hcache, h.offsetNumBits, h.tagMask, h.hops_snoc (by simp [hne])⟩
  rw [if_pos hne] at hbody
  -- a push is counted where the bit is clear after the fetch, which may clear it
  by_cases hq : (d.line a).qualifiedReader i = true
  · rw [if_pos hq] at hbody
    obtain ⟨c', hfetch, hbody⟩ := bind_eq_ok.mp hbody
    have hbeside := Beside.fetchCacheLine hfetch
    have hafter : ∀ j ∉ done ++ [i], j ≠ pid → c'.cache j = c.cache j := fun j hj hjp =>
      (hbeside.cache j (h.cache_snoc j hj hjp).1).trans (hcache j hj hjp)
    have hbit : (c'.line a).isSet i = true ↔ (c.line a).isSet i = true ∧ ¬ c.Repushes a i :=
      h.isSet_pushed h32 hdone hne hfetch
    split at hbody
    · rename_i hclear
      cases hbody
      refine ⟨hpush', hafter, hbeside.offsetNumBits.trans h.offsetNumBits,
        hbeside.tagMask.trans h.tagMask, h.hops_snoc ?_⟩
      rw [Bool.not_eq_true', ← Bool.not_eq_true, hbit] at hclear
      simp only [getDirectoryCost_hops]
      grind
    · rename_i hclear
      cases hbody
      refine ⟨hpush', hafter, hbeside.offsetNumBits.trans h.offsetNumBits,
        hbeside.tagMask.trans h.tagMask, h.hops_snoc ?_⟩
      rw [Bool.not_eq_true', Bool.not_eq_false, hbit] at hclear
      grind
  · rw [if_neg hq] at hbody
    -- nothing is counted for a processor that does not read
    have hno : hops = hops + if i ≠ pid ∧ i ≠ c.coherence.getHomeNode a ∧
        (c.line a).qualifiedReader i = true ∧ ((c.line a).isSet i = true → c.Repushes a i) then 2
        else 0 := by
      rw [if_neg fun h => hq (hqr.trans h.2.2.1)]
      rfl
    split at hbody
    · cases hbody
      exact ⟨hpush', hcache, h.offsetNumBits, h.tagMask, h.hops_snoc hno⟩
    · cases hbody
      exact ⟨hpush', hcache, h.offsetNumBits, h.tagMask, h.hops_snoc hno⟩

/-- The bits after the loop. -/
theorem Sending.isSet_range (h : Sending c pid a hops₀ (List.range c.coherence.numProcessors) st)
    (hle : c.coherence.numProcessors ≤ 32) (hi : i < c.coherence.numProcessors) (hne : i ≠ pid) :
    (st.1.line a).isSet i = (c.line a).qualifiedReader i := by
  obtain ⟨xs, log, hpush⟩ := h.pushing
  have hsharers := hpush.sharers i
  simp only [hne, false_or, List.mem_range.mpr hi, if_true] at hsharers
  have h32 : i < 32 := by omega
  rw [DirectoryLine.isSet_eq_decide h32]
  exact Bool.eq_iff_iff.mpr (decide_eq_true_iff.trans hsharers)

/-- The second line fetch is the last writer's own. -/
theorem Beside.refetch {r : Controller × ℕ × AccessType} (h : c.refetch pid a cost = .ok r) :
    Beside pid c r.1 := by
  simp only [Controller.refetch] at h
  split at h
  · obtain ⟨d, hfetch, hd⟩ := bind_eq_ok.mp h
    cases hd
    have hbeside := Beside.fetchCacheLine hfetch
    exact ⟨hbeside.cache, hbeside.offsetNumBits, hbeside.tagMask⟩
  · cases h
    exact ⟨fun _ _ => rfl, rfl, rfl⟩

/-- **The last writer's store** is its loop. -/
theorem exists_sending {last : Option ℕ} (hw : Writes c.coherence pid a)
    (hinv : (c.coherence.entries a).Inv c.coherence.rules last)
    (h : c.processWrite pid a = .ok (c', charge)) :
    ∃ st, Sending c pid a (getDirectoryCost pid (c.coherence.getHomeNode a) 0).2
        (List.range c.coherence.numProcessors) st ∧ charge.hops = st.2.2 ∧
      c'.line a = { st.1.line a with state := .modified } := by
  have hlt := hw.proc
  have hle := hw.numProcessors
  rw [processWrite_of_callsBack (by omega) ⟨hw.detector, hw.state, hw.writer⟩] at h
  obtain ⟨⟨c₁, cost, response⟩, hrefetch, h⟩ := bind_eq_ok.mp h
  obtain ⟨st, hloop, h⟩ := bind_eq_ok.mp h
  obtain ⟨rfl, rfl⟩ := Prod.mk.inj (Except.ok.inj h)
  obtain ⟨-, hpush⟩ := (ensures_refetch hw hinv.invalid_iff).of_ok hrefetch
  have hbeside := Beside.refetch hrefetch
  have hstart : Sending c pid a (getDirectoryCost pid (c.coherence.getHomeNode a) 0).2 []
      (c₁, cost, (getDirectoryCost pid (c.coherence.getHomeNode a) 0).2) :=
    ⟨hpush, fun i _ hne => hbeside.cache i hne, hbeside.offsetNumBits, hbeside.tagMask, by simp⟩
  obtain ⟨xs, log, hpush⟩ := hpush
  have hnum : c₁.coherence.numProcessors = c.coherence.numProcessors := hpush.numProcessors
  simp only [hnum] at hloop
  have hsending := (ensures_foldlM hstart fun u i v st hl hst =>
    hst.step hw (lt_of_range_eq hl) (notMem_of_range_eq hl)).of_ok hloop
  exact ⟨st, hsending, rfl, Function.update_self _ _ _⟩

/-- **The last writer's messages**: those it should send, but for the bits
it clears, and those for bits its own pushes made clear. -/
theorem hops_of_lastWriter {last : Option ℕ} (hw : Writes c.coherence pid a)
    (hinv : (c.coherence.entries a).Inv c.coherence.rules last)
    (h : c.processWrite pid a = .ok (c', charge)) :
    charge.hops + 2 * (c.others pid a fun i => (c.line a).isSet i = true ∧
        (c.line a).qualifiedReader i = false) =
      c.messages c' pid a + 2 * c.others pid a fun i => (c.line a).isSet i = true ∧
        (c.line a).qualifiedReader i = true ∧ c.Repushes a i := by
  have hlt := hw.proc
  have hle := hw.numProcessors
  have hlast : (c.line a).isLastWriter pid = true :=
    (DirectoryLine.writer_eq_some (by omega)).mp hw.writer
  obtain ⟨st, hsending, hhops, hline⟩ := exists_sending hw hinv h
  have hafter : ∀ i < c.coherence.numProcessors, i ≠ pid →
      (c'.line a).isSet i = (c.line a).qualifiedReader i := by
    intro i hi hne
    rw [hline]
    exact hsending.isSet_range hle hi hne
  -- a bit changes where a reader gets it or a sharer loses it
  have hchanged : (c.others pid a fun i => (c'.line a).isSet i ≠ (c.line a).isSet i) =
      (c.others pid a fun i => (c.line a).qualifiedReader i = true ∧ (c.line a).isSet i = false) +
      c.others pid a fun i => (c.line a).isSet i = true ∧ (c.line a).qualifiedReader i = false :=
    others_add (fun i hi hne => by
      rw [hafter i hi hne]
      cases (c.line a).qualifiedReader i <;> cases (c.line a).isSet i <;> simp)
      fun i hi hi' => by simp [hi.1] at hi'
  -- a push is counted for a new bit and for one its fetch cleared
  have hpushed : (c.others pid a fun i => (c.line a).qualifiedReader i = true ∧
        ((c.line a).isSet i = true → c.Repushes a i)) =
      (c.others pid a fun i => (c.line a).qualifiedReader i = true ∧ (c.line a).isSet i = false) +
      c.others pid a fun i => (c.line a).isSet i = true ∧ (c.line a).qualifiedReader i = true ∧
        c.Repushes a i :=
    others_add (fun i hi hne => by
      cases (c.line a).qualifiedReader i <;> cases (c.line a).isSet i <;> simp)
      fun i hi hi' => by simp [hi.2] at hi'
  -- the last writer has the data itself, so nobody writes back
  have hnone : c.storeWriteBack pid a = none := by
    rw [storeWriteBack, if_pos hw.detector, if_pos hlast]
  have hsent : charge.hops = (getDirectoryCost pid (c.coherence.getHomeNode a) 0).2 +
      2 * c.others pid a fun i => (c.line a).qualifiedReader i = true ∧
        ((c.line a).isSet i = true → c.Repushes a i) := hhops.trans hsending.hops
  rw [hsent, messages, hnone, hchanged, hpushed, getDirectoryCost_hops]
  simp only [writeBackHops, Option.elim]
  omega

end Controller

variable {cfg : Config} {detector : Bool}

/-- **The messages of a store are counted exactly where the two errors
cancel.** For every state reached, every entry in use and every store to
it, the hops recorded are the store's messages if and only if the store
is the baseline's, a handoff by the home node, or one of the last writer
that clears as many bits as its pushes set again. -/
theorem hops_eq_messages_iff (hc : Reached cfg detector c) (hpid : pid < cfg.numProcessors)
    (hs : (c.line a).state ≠ .invalid) (h : c.processWrite pid a = .ok (c', charge)) :
    charge.hops = c.messages c' pid a ↔ c.CountsExactly pid a := by
  have hle := cfg.numProcessors_le
  obtain ⟨hn, -, last, hinv⟩ := hc.keeps
  have h32 : pid < 32 := by omega
  have hn32 : c.coherence.numProcessors ≤ 32 := by omega
  unfold Controller.CountsExactly
  cases hd : c.coherence.detector with
  | false => simp [Controller.hops_of_baseline h32 hn32 (hinv a) hd hs h]
  | true =>
    simp only [true_imp_iff]
    by_cases hw : (c.line a).isLastWriter pid = true
    · have hwrites : Controller.Writes c.coherence pid a :=
        ⟨hn32, hd, by omega, (DirectoryLine.writer_eq_some h32).mpr hw, hs⟩
      have hhops := Controller.hops_of_lastWriter hwrites (hinv a) h
      rw [if_pos hw]
      omega
    · have hhops := Controller.hops_of_handoff h32 hn32 hd hs hw h
      rw [if_neg hw]
      by_cases hhome : pid = c.coherence.getHomeNode a
      · rw [if_neg (not_not_intro hhome)] at hhops
        exact iff_of_true hhops hhome
      · rw [if_pos hhome] at hhops
        exact iff_of_false (by omega) hhome

/-- The last writer stores again. -/
theorem hops_eq_messages_iff_pair :
    ∃ c reports c' charge, Config.pair.run true [⟨.store, 0, 4⟩, ⟨.load, 1, 4⟩] =
        .ok (c, reports) ∧ c.processWrite 0 4 = .ok (c', charge) ∧
      (charge.hops = c.messages c' 0 4 ↔ c.CountsExactly 0 4) := by
  have hrun : Ensures (fun _ => False) (fun s => (s.1.line 4).state ≠ .invalid ∧
      Ensures (fun _ => False) (fun _ => True) (s.1.processWrite 0 4))
      (Config.pair.run true [⟨.store, 0, 4⟩, ⟨.load, 1, 4⟩]) := by decide
  obtain ⟨⟨c, reports⟩, hok, hs, hnext⟩ := hrun.exists_ok
  obtain ⟨⟨c', charge⟩, hwrite, -⟩ := hnext.exists_ok
  exact ⟨c, reports, c', charge, hok, hwrite,
    hops_eq_messages_iff (reached_of_run (by decide) hok) (by decide) hs hwrite⟩

/-- **A handoff counts its request twice**: from the processor that is not
the home node it takes one message, and is charged `4`. -/
theorem request_counted_twice :
    ∃ c reports c' charge, Config.pair.run true [⟨.store, 0, 4⟩] = .ok (c, reports) ∧
      (c.line 4).state ≠ .invalid ∧ c.processWrite 1 4 = .ok (c', charge) ∧
      charge.hops = 4 ∧ c.messages c' 1 4 = 2 := by
  have hrun : Ensures (fun _ => False) (fun s => (s.1.line 4).state ≠ .invalid ∧
      Ensures (fun _ => False) (fun r => r.2.hops = 4 ∧ s.1.messages r.1 1 4 = 2)
        (s.1.processWrite 1 4)) (Config.pair.run true [⟨.store, 0, 4⟩]) := by decide
  obtain ⟨⟨c, reports⟩, hok, hs, hnext⟩ := hrun.exists_ok
  obtain ⟨⟨c', charge⟩, hwrite, hhops, hmessages⟩ := hnext.exists_ok
  exact ⟨c, reports, c', charge, hok, hs, hwrite, hhops, hmessages⟩

end AdaptiveMsi
