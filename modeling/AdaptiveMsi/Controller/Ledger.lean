import AdaptiveMsi.Common.Ledger
import AdaptiveMsi.Controller.Step
/-!
# The profiler's ledger

The profiler is called once at the end of each access and once for each
write-back, from wherever the eviction is. Its calls in order are the
bills of a ledger, and its two tables are that ledger posted by processor
and by address. The charges of an access are computed on the way, and
`Charge.Fair` bounds them by the response that goes with them.
-/

namespace AdaptiveMsi

open Machine Ledger DirMsi

/-! ## Bills -/

/-- A call of the profiler. -/
inductive Bill
  | access (x : Access) (charge : Charge)
  | evict (pid : ℕ) (addr : Addr) (cost hops : ℕ)

namespace Bill

def pid : Bill → ℕ
  | access x _ => x.pid
  | evict pid _ _ _ => pid

def addr : Bill → Addr
  | access x _ => x.addr
  | evict _ addr _ _ => addr

/-- The access the bill is for, unless it is for a write-back. -/
def access? : Bill → Option Access
  | access x _ => some x
  | evict _ _ _ _ => none

/-- What the profiler does. -/
def post (p : Profile) : Bill → Profile
  | access ⟨.load, pid, addr⟩ charge =>
      p.profileCacheLoad charge.response pid addr charge.cost charge.hops
  | access ⟨.store, pid, addr⟩ charge =>
      p.profileCacheStore charge.response pid addr charge.cost charge.hops
  | evict pid addr cost hops => p.profileCacheEvict pid addr cost hops

/-- The bill alone, in the table of the processors, -/
def stat (b : Bill) : AccessStat := (post .new b).profiles b.pid

/-- and in the table of the addresses. -/
def lineStat (b : Bill) : AccessStat := (post .new b).lineStat b.addr

end Bill

def Stat.add (s s' : Stat) : Stat :=
  ⟨s.hits + s'.hits, s.misses + s'.misses, s.hitCycles + s'.hitCycles,
    s.missCycles + s'.missCycles, s.hops + s'.hops⟩

def AccessStat.add (s s' : AccessStat) : AccessStat :=
  ⟨s.load.add s'.load, s.store.add s'.store, s.evict.add s'.evict, s.count + s'.count⟩

/-- A counter, or a sum of counters. -/
structure AccessStat.Additive (f : AccessStat → ℕ) : Prop where
  zero : f .zero = 0
  add : ∀ s s', f (s.add s') = f s + f s'

namespace Profile

variable {p : Profile} {pid i : ℕ} {addr a : Addr} {g : AccessStat → AccessStat}

@[simp] theorem onLine_profiles : (p.onLine addr g).profiles = p.profiles := rfl

@[simp] theorem onProfile_lineStat : (p.onProfile pid g).lineStat = p.lineStat := rfl

@[simp] theorem onProfile_profiles : (p.onProfile pid g).profiles i =
    if i = pid then g (p.profiles i) else p.profiles i := by
  unfold onProfile
  rcases eq_or_ne i pid with rfl | hne
  · simp
  · simp [hne]

@[simp] theorem onLine_lineStat : (p.onLine addr g).lineStat a =
    if a = addr then g (p.lineStat a) else p.lineStat a := by
  unfold onLine
  rcases eq_or_ne a addr with rfl | hne
  · simp
  · simp [hne]

end Profile

namespace Bill

variable {p : Profile} {b : Bill} {B : List Bill} {i : ℕ} {a : Addr} {f : AccessStat → ℕ}

/-- **A bill is added to its processor's account**, -/
theorem post_profiles :
    (post p b).profiles i = if b.pid = i then (p.profiles i).add b.stat else p.profiles i := by
  rcases eq_or_ne b.pid i with rfl | hne
  · rw [if_pos rfl]
    rcases b with ⟨⟨_ | _, pid, addr⟩, _ | _, cost, hops⟩ | ⟨pid, addr, cost, hops⟩ <;>
      simp [post, stat, Bill.pid, Profile.profileCacheLoad, Profile.profileCacheStore,
        Profile.profileCacheEvict, Profile.new, AccessStat.add, AccessStat.zero, Stat.add,
        Stat.zero]
  · rw [if_neg hne]
    rcases b with ⟨⟨_ | _, pid, addr⟩, _ | _, cost, hops⟩ | ⟨pid, addr, cost, hops⟩ <;>
      simp [post, Profile.profileCacheLoad, Profile.profileCacheStore,
        Profile.profileCacheEvict, show i ≠ pid from hne.symm]

/-- and to its address's. -/
theorem post_lineStat : (post p b).lineStat a =
    if b.addr = a then (p.lineStat a).add b.lineStat else p.lineStat a := by
  rcases eq_or_ne b.addr a with rfl | hne
  · rw [if_pos rfl]
    rcases b with ⟨⟨_ | _, pid, addr⟩, _ | _, cost, hops⟩ | ⟨pid, addr, cost, hops⟩ <;>
      simp [post, lineStat, Bill.addr, Profile.profileCacheLoad, Profile.profileCacheStore,
        Profile.profileCacheEvict, Profile.new, AccessStat.add, AccessStat.zero, Stat.add,
        Stat.zero]
  · rw [if_neg hne]
    rcases b with ⟨⟨_ | _, pid, addr⟩, _ | _, cost, hops⟩ | ⟨pid, addr, cost, hops⟩ <;>
      simp [post, Profile.profileCacheLoad, Profile.profileCacheStore,
        Profile.profileCacheEvict, show a ≠ addr from hne.symm]

/-- **The tables are the ledger's accounts.** -/
theorem profiles_foldl (hf : AccessStat.Additive f) :
    f ((B.foldl post .new).profiles i) = account Bill.pid (fun b => f b.stat) B i := by
  have hpost : ∀ p b, f ((post p b).profiles i) =
      f (p.profiles i) + if b.pid = i then f b.stat else 0 := fun p b => by
    rw [post_profiles]
    split
    · exact hf.add _ _
    · rfl
  have hfold := foldl_account (fun p => f (p.profiles i)) (s := Profile.new) (B := B) hpost
  rwa [show f (Profile.new.profiles i) = 0 from hf.zero, Nat.zero_add] at hfold

theorem lineStat_foldl (hf : AccessStat.Additive f) :
    f ((B.foldl post .new).lineStat a) = account Bill.addr (fun b => f b.lineStat) B a := by
  have hpost : ∀ p b, f ((post p b).lineStat a) =
      f (p.lineStat a) + if b.addr = a then f b.lineStat else 0 := fun p b => by
    rw [post_lineStat]
    split
    · exact hf.add _ _
    · rfl
  have hfold := foldl_account (fun p => f (p.lineStat a)) (s := Profile.new) (B := B) hpost
  rwa [show f (Profile.new.lineStat a) = 0 from hf.zero, Nat.zero_add] at hfold

end Bill

/-! ## What the routines post -/

/-- `m'` is `m` after write-backs of the processors below `n`. -/
structure WritesBack (n : ℕ) (m m' : DirMsi) : Prop where
  numProcessors : m'.numProcessors = m.numProcessors
  profiles : ∃ B : List Bill, (∀ b ∈ B, b.access? = none ∧ b.pid < n) ∧
    m'.profiles = B.foldl Bill.post m.profiles

/-- The cost an access of one of `n` processors is charged agrees with the
response. -/
structure Charge.Fair (n : ℕ) (charge : Charge) : Prop where
  hit : charge.response = .cacheHit → 6 ≤ charge.cost ∧ charge.cost ≤ 10 + 4 * (n - 1)
  miss : charge.response = .cacheMiss → 103 ≤ charge.cost

variable {n pid home hops i src dest cost : ℕ} {a : Addr} {m m' m'' : DirMsi} {charge : Charge}
variable {s s' : CacheSet} {tag : BitVec 64} {replace : Bool} {c c' : Controller}

theorem getDirectoryCost_bounds (src dest hops : ℕ) :
    3 ≤ (getDirectoryCost src dest hops).1 ∧ (getDirectoryCost src dest hops).1 ≤ 7 := by
  unfold getDirectoryCost localCacheAccess remoteCacheAccess
  split
  · omega
  · omega

namespace WritesBack

theorem refl : WritesBack n m m := ⟨rfl, [], by simp, rfl⟩

theorem trans (h : WritesBack n m m') (h' : WritesBack n m' m'') : WritesBack n m m'' where
  numProcessors := h'.numProcessors.trans h.numProcessors
  profiles := by
    obtain ⟨B, hB, hp⟩ := h.profiles
    obtain ⟨B', hB', hp'⟩ := h'.profiles
    refine ⟨B ++ B', fun b hb => ?_, by rw [hp', hp, List.foldl_append]⟩
    rcases List.mem_append.mp hb with hb | hb
    · exact hB b hb
    · exact hB' b hb

/-- A step that posts nothing. -/
theorem of_eq (hn : m'.numProcessors = m.numProcessors) (hp : m'.profiles = m.profiles) :
    WritesBack n m m' := ⟨hn, [], by simp, hp⟩

theorem invalidate (hpid : pid < n) : WritesBack n m (m.invalidate pid a) where
  numProcessors := by
    unfold DirMsi.invalidate
    split <;> rfl
  profiles := by
    rw [DirMsi.invalidate_profiles]
    split
    · exact ⟨[.evict pid a _ _], by simpa [Bill.access?, Bill.pid] using hpid, rfl⟩
    · exact ⟨[], by simp, rfl⟩

theorem evict (hpid : pid < n) : WritesBack n m (s.evict pid m).2 := by
  have hrecord : WritesBack n m (m.record (.evict pid s.lines s.victim.evict)) := of_eq rfl rfl
  simp only [CacheSet.evict]
  split
  · exact hrecord.trans (invalidate hpid)
  · exact hrecord

theorem fetchSingleLine {r : CacheSet × DirMsi} (hpid : pid < n)
    (h : s.fetchSingleLine pid tag a m replace = .ok r) : WritesBack n m r.2 := by
  obtain ⟨⟨s', status⟩, -, h⟩ := bind_eq_ok.mp h
  cases status with
  | uncached =>
    rw [← Except.ok.inj h]
    exact evict hpid
  | cached =>
    rw [← Except.ok.inj h]
    exact refl

theorem fetchCacheLine (hpid : pid < n) (h : c.fetchCacheLine pid a replace = .ok c') :
    WritesBack n c.coherence c'.coherence := by
  obtain ⟨r, hfetch, h⟩ := bind_eq_ok.mp h
  rw [← Except.ok.inj h]
  exact fetchSingleLine hpid hfetch

end WritesBack

namespace DirMsi

/-- **The line fetch of the directory** posts nothing, and its cost goes
with its response. -/
theorem fetch_fair (h : m.fetch pid home a hops = .ok (m', charge)) :
    WritesBack n m m' ∧ charge.Fair n := by
  have hcost := getDirectoryCost_bounds pid home hops
  simp only [fetch] at h
  obtain ⟨-, -, h⟩ := bind_eq_ok.mp h
  by_cases hset : (m.directory a).isSet pid = true
  · rw [if_pos hset] at h
    cases h
    refine ⟨.refl, fun _ => ?_, by simp⟩
    simp only [localCacheAccess]
    omega
  · rw [if_neg hset] at h
    by_cases hmod : (m.directory a).state = .modified
    · rw [if_pos hmod] at h
      obtain ⟨owner, -, h⟩ := bind_eq_ok.mp h
      cases h
      refine ⟨.of_eq rfl rfl, by simp, fun _ => ?_⟩
      simp only [memoryAccess]
      omega
    · rw [if_neg hmod] at h
      cases h
      refine ⟨.of_eq rfl rfl, by simp, fun _ => ?_⟩
      simp only [memoryAccess]
      omega

theorem fetchAndInvalidate_fair (h : m.fetchAndInvalidate pid home a hops = .ok (m', charge)) :
    WritesBack n m m' ∧ charge.Fair n := by
  obtain ⟨⟨m₁, charge₁⟩, hfetch, h⟩ := bind_eq_ok.mp h
  obtain ⟨-, -, h⟩ := bind_eq_ok.mp h
  cases h
  obtain ⟨hback, hfair⟩ := fetch_fair hfetch
  exact ⟨hback.trans (.of_eq rfl rfl), hfair.hit, hfair.miss⟩

/-- A miss on an `INVALID` line. -/
theorem miss_fair : (⟨.cacheMiss, (getDirectoryCost pid home hops).1 + memoryAccess,
    (getDirectoryCost pid home hops).2⟩ : Charge).Fair n := by
  have hcost := getDirectoryCost_bounds pid home hops
  refine ⟨by simp, fun _ => ?_⟩
  simp only [memoryAccess]
  omega

end DirMsi

/-- **A handler's calls of the profiler**: write-backs, and the access's own
bill last. -/
structure Posts (n : ℕ) (x : Access) (charge : Charge) (m m' : DirMsi) : Prop where
  numProcessors : m'.numProcessors = m.numProcessors
  fair : charge.Fair n
  profiles : ∃ m₁, WritesBack n m m₁ ∧ m'.profiles = Bill.post m₁.profiles (.access x charge)

namespace DirMsi

theorem finishRead_posts {m₁ : DirMsi} {charge' : Charge} (hback : WritesBack n m m₁)
    (hfair : charge.Fair n) (h : m₁.finishRead pid a charge = .ok (m', charge')) :
    Posts n ⟨.load, pid, a⟩ charge' m m' := by
  unfold finishRead at h
  split at h
  · obtain ⟨d, -, h⟩ := bind_eq_ok.mp h
    cases h
    exact ⟨hback.numProcessors, hfair, m₁, hback, rfl⟩
  · cases h
    exact ⟨hback.numProcessors, hfair, m₁, hback, rfl⟩

theorem processRead_posts (h : m.processRead pid a = .ok (m', charge)) :
    Posts n ⟨.load, pid, a⟩ charge m m' := by
  rw [processRead_eq] at h
  cases hs : (m.directory a).state with
  | invalid =>
    simp only [hs, readMiss_eq hs] at h
    have hback : WritesBack n m (m.setLine a (sharedLine (m.directory a) pid)) := .of_eq rfl rfl
    exact finishRead_posts hback miss_fair h
  | shared | modified =>
    simp only [hs] at h
    obtain ⟨⟨m₁, charge₁⟩, hfetch, h⟩ := bind_eq_ok.mp h
    obtain ⟨hback, hfair⟩ := fetch_fair hfetch
    exact finishRead_posts hback hfair h

end DirMsi

namespace Controller

variable {st st' : Controller × ℕ × ℕ}

/-- One round of the push loop costs a transfer at most. -/
theorem pushBody_posts (hi : i < n) (h : pushBody pid home a (c, cost, hops) i = .ok st) :
    WritesBack n c.coherence st.1.coherence ∧ cost ≤ st.2.1 ∧
      st.2.1 ≤ cost + 4 * if i ≠ pid then 1 else 0 := by
  simp only [pushBody] at h
  by_cases hne : i ≠ pid
  · rw [if_pos hne] at h ⊢
    by_cases hq : (c.line a).qualifiedReader i = true
    · rw [if_pos hq] at h
      obtain ⟨c', hfetch, h⟩ := bind_eq_ok.mp h
      have hrecord : WritesBack n c.coherence (c.record (.push i a)).coherence := .of_eq rfl rfl
      have hback := hrecord.trans (.fetchCacheLine hi hfetch)
      split at h
      · cases h
        refine ⟨hback.trans (.of_eq rfl rfl), ?_, ?_⟩ <;> simp only [cacheToCache] <;> omega
      · cases h
        refine ⟨hback, ?_, ?_⟩ <;> simp only [cacheToCache] <;> omega
    · rw [if_neg hq] at h
      split at h
      · cases h
        exact ⟨.of_eq rfl rfl, le_rfl, by simp⟩
      · cases h
        exact ⟨.refl, le_rfl, by simp⟩
  · rw [if_neg hne] at h ⊢
    cases h
    exact ⟨.refl, le_rfl, by simp⟩

/-- **The loop costs a transfer for each other processor at most.** -/
theorem pushLoop_posts (hpid : pid < n) (h : (List.range n).foldlM (pushBody pid home a) st =
    .ok st') : WritesBack n st.1.coherence st'.1.coherence ∧ st.2.1 ≤ st'.2.1 ∧
      st'.2.1 ≤ st.2.1 + 4 * (n - 1) := by
  have hloop := ensures_foldlM (E := fun _ : AssertFailure => True)
    (I := fun done (d : Controller × ℕ × ℕ) => WritesBack n st.1.coherence d.1.coherence ∧
      st.2.1 ≤ d.2.1 ∧ d.2.1 ≤ st.2.1 + 4 * done.countP (· ≠ pid))
    (f := pushBody pid home a) (l := List.range n) (s := st) ⟨.refl, le_rfl, by simp⟩ ?_
  · obtain ⟨hback, hle, hle'⟩ := hloop.of_ok h
    have hcount : (List.range n).countP (· ≠ pid) = n - 1 := by
      have hlen := List.length_eq_countP_add_countP (· == pid) (l := List.range n)
      have hone := List.count_eq_one_of_mem List.nodup_range (List.mem_range.mpr hpid)
      rw [List.count, List.length_range] at *
      have heq : (List.range n).countP (· ≠ pid) = (List.range n).countP fun i => ¬ (i == pid) :=
        by simp
      omega
    rw [hcount] at hle'
    exact ⟨hback, hle, hle'⟩
  · rintro u i v ⟨d, cost, hops⟩ hl ⟨hback, hle, hle'⟩
    cases hbody : pushBody pid home a (d, cost, hops) i with
    | error e => trivial
    | ok st₁ =>
      obtain ⟨hback', hcost, hcost'⟩ := pushBody_posts (lt_of_range_eq hl) hbody
      have hsnoc : (u ++ [i]).countP (· ≠ pid) = u.countP (· ≠ pid) + if i ≠ pid then 1 else 0 := by
        simp [List.countP_append, List.countP_cons]
      refine ⟨hback.trans hback', hle.trans hcost, hcost'.trans ?_⟩
      simp only at hle' ⊢
      omega

theorem refetch_posts {cost' : ℕ} {response : AccessType} (hpid : pid < n)
    (h : c.refetch pid a cost = .ok (c', cost', response)) :
    WritesBack n c.coherence c'.coherence ∧
      cost' = cost + if response = .cacheHit then localCacheAccess else memoryAccess := by
  simp only [refetch] at h
  split at h
  · obtain ⟨c₁, hfetch, h⟩ := bind_eq_ok.mp h
    cases h
    have hback := WritesBack.fetchCacheLine hpid hfetch
    exact ⟨hback.trans (.of_eq rfl rfl), by simp⟩
  · cases h
    exact ⟨.refl, by simp⟩

/-- The adaptive store of a line somebody holds. -/
theorem pushAndInvalidate_fair (hn : c.coherence.numProcessors = n) (hpid : pid < n)
    (h : c.pushAndInvalidate pid home a hops = .ok (c', charge)) :
    WritesBack n c.coherence c'.coherence ∧ charge.Fair n := by
  have hcost := getDirectoryCost_bounds pid home hops
  simp only [pushAndInvalidate] at h
  obtain ⟨-, -, h⟩ := bind_eq_ok.mp h
  split at h
  · obtain ⟨⟨c₁, cost, response⟩, hrefetch, h⟩ := bind_eq_ok.mp h
    obtain ⟨⟨c₂, cost', hops'⟩, hloop, h⟩ := bind_eq_ok.mp h
    cases h
    obtain ⟨hback, hcost₁⟩ := refetch_posts hpid hrefetch
    have hn₁ : c₁.coherence.numProcessors = n := hback.numProcessors.trans hn
    simp only [hn₁] at hloop
    obtain ⟨hback', hle, hle'⟩ := pushLoop_posts hpid hloop
    refine ⟨hback.trans (hback'.trans (.of_eq rfl rfl)), fun hr => ?_, fun hr => ?_⟩
    · simp only at hr hle hle' ⊢
      rw [hr, if_pos rfl, localCacheAccess] at hcost₁
      omega
    · simp only at hr hle hle' ⊢
      rw [hr, if_neg (by simp), memoryAccess] at hcost₁
      omega
  · obtain ⟨d, -, h⟩ := bind_eq_ok.mp h
    obtain ⟨⟨m₁, charge₁⟩, hfetch, h⟩ := bind_eq_ok.mp h
    cases h
    obtain ⟨hback, hfair⟩ := fetchAndInvalidate_fair hfetch
    have hnote : WritesBack n c.coherence
        ((c.coherence.setLine a (d.updateLastWriter pid)).record (.updateLastWriter pid a)) :=
      .of_eq rfl rfl
    exact ⟨hnote.trans hback, hfair⟩

theorem processWrite_posts (hn : c.coherence.numProcessors = n) (hpid : pid < n)
    (h : c.processWrite pid a = .ok (c', charge)) :
    Posts n ⟨.store, pid, a⟩ charge c.coherence c'.coherence := by
  have hpost : ∀ m₁, WritesBack n c.coherence m₁ → charge.Fair n →
      Posts n ⟨.store, pid, a⟩ charge c.coherence (m₁.profileStore pid a charge) :=
    fun m₁ hback hfair => ⟨hback.numProcessors, hfair, m₁, hback, rfl⟩
  cases hs : (c.line a).state with
  | invalid =>
    rw [processWrite_of_invalid hs] at h
    cases h
    exact hpost _ (.of_eq rfl rfl) miss_fair
  | shared | modified =>
    simp only [processWrite, hs] at h
    split at h
    · obtain ⟨⟨c₁, charge₁⟩, hpush, h⟩ := bind_eq_ok.mp h
      cases h
      obtain ⟨hback, hfair⟩ := pushAndInvalidate_fair hn hpid hpush
      exact hpost _ hback hfair
    · obtain ⟨⟨m₁, charge₁⟩, hfetch, h⟩ := bind_eq_ok.mp h
      cases h
      obtain ⟨hback, hfair⟩ := fetchAndInvalidate_fair hfetch
      exact hpost _ hback hfair

/-- **What an access posts**: write-backs, and then its own bill. -/
theorem step_posts {x : Access} {r : Report} (hn : c.coherence.numProcessors = n)
    (hx : x.pid < n) (h : c.step x = .ok (c', r)) :
    Posts n x r.charge c.coherence c'.coherence := by
  obtain ⟨c₁, hfetch, hhandle⟩ := step_eq_ok h
  have hclear : WritesBack n c.coherence c.clearCalls.coherence := .of_eq rfl rfl
  have hback := hclear.trans (.fetchCacheLine hx hfetch)
  obtain ⟨kind, pid, a⟩ := x
  have hposts : Posts n ⟨kind, pid, a⟩ r.charge c₁.coherence c'.coherence := by
    cases kind with
    | load =>
      simp only [handle] at hhandle
      obtain ⟨⟨m', charge⟩, hread, hhandle⟩ := bind_eq_ok.mp hhandle
      cases hhandle
      exact processRead_posts hread
    | store => exact processWrite_posts (hback.numProcessors.trans hn) hx hhandle
  obtain ⟨m₁, hback₁, hprofiles⟩ := hposts.profiles
  exact ⟨hposts.numProcessors.trans hback.numProcessors, hposts.fair, m₁, hback.trans hback₁,
    hprofiles⟩

end Controller

end AdaptiveMsi
