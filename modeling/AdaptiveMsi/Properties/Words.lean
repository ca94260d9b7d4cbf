import AdaptiveMsi.Controller.Requests
import AdaptiveMsi.Properties.Assertions
import AdaptiveMsi.Properties.Messages
import AdaptiveMsi.Properties.Report
/-!
# The counters fit their words

The source counts in `uint64_t`, and this development in `ℕ`. An access
of one of `n` processors is charged `214 + 4 * n` cycles and `6 + 2 * n`
messages at most, a write-back `107` and `2`, and there are no more
write-backs than stores. So no counter of the profile, and no sum of the
report, wraps in a run of up to `2 ^ 55` accesses.
-/

namespace AdaptiveMsi

open Machine Ledger DirMsi AccessStat

/-- **What an access of one of `n` processors may be charged.** -/
structure Charge.Within (n : ℕ) (charge : Charge) : Prop where
  cost : charge.cost ≤ 214 + 4 * n
  hops : charge.hops ≤ 6 + 2 * n

variable {n pid home hops i src dest cost : ℕ} {a : Addr} {m m' : DirMsi} {charge : Charge}
variable {s s' : CacheSet} {tag : BitVec 64} {replace : Bool} {c c' : Controller} {x : Access}
variable {cfg : Config} {detector : Bool} {t : List Access} {rs : List Report} {r : Report}

theorem getDirectoryCost_hops_le (src dest hops : ℕ) :
    (getDirectoryCost src dest hops).2 ≤ hops + 2 := by
  rw [getDirectoryCost_hops]
  split <;> omega

namespace DirMsi

/-! ## The charges of the directory -/

theorem fetch_le (h : m.fetch pid home a hops = .ok (m', charge)) :
    m'.numProcessors = m.numProcessors ∧ charge.cost ≤ 214 ∧ charge.hops ≤ hops + 4 := by
  have hcost := (getDirectoryCost_bounds pid home hops).2
  have hhops := getDirectoryCost_hops_le pid home hops
  simp only [fetch] at h
  obtain ⟨-, -, h⟩ := bind_eq_ok.mp h
  by_cases hset : (m.directory a).isSet pid = true
  · rw [if_pos hset] at h
    cases h
    refine ⟨rfl, ?_, ?_⟩ <;> simp only [localCacheAccess] <;> omega
  · rw [if_neg hset] at h
    by_cases hmod : (m.directory a).state = .modified
    · rw [if_pos hmod] at h
      obtain ⟨owner, -, h⟩ := bind_eq_ok.mp h
      cases h
      have hback := (getDirectoryCost_bounds owner home (getDirectoryCost pid home hops).2).2
      have hmore := getDirectoryCost_hops_le owner home (getDirectoryCost pid home hops).2
      refine ⟨rfl, ?_, ?_⟩ <;> simp only [dataWriteBack, memoryAccess] <;> omega
    · rw [if_neg hmod] at h
      cases h
      refine ⟨rfl, ?_, ?_⟩ <;> simp only [memoryAccess] <;> omega

theorem invalidateHops_le (d : DirectoryLine) (pid home hops : ℕ) :
    m.invalidateHops d pid home hops ≤ hops + 2 * m.numProcessors := by
  rw [invalidateHops_eq]
  have hcount := List.countP_le_length (l := List.range m.numProcessors)
    (p := fun i => i ≠ pid ∧ i ≠ home ∧ d.isSet i = true)
  rw [List.length_range] at hcount
  omega

theorem fetchAndInvalidate_le (h : m.fetchAndInvalidate pid home a hops = .ok (m', charge)) :
    charge.cost ≤ 214 ∧ charge.hops ≤ hops + 4 + 2 * m.numProcessors := by
  obtain ⟨⟨m₁, charge₁⟩, hfetch, h⟩ := bind_eq_ok.mp h
  obtain ⟨-, -, h⟩ := bind_eq_ok.mp h
  obtain ⟨hnum, hcost, hhops⟩ := fetch_le hfetch
  have hloop := invalidateHops_le (m := m₁) (m₁.directory a) pid home charge₁.hops
  cases h
  refine ⟨hcost, ?_⟩
  rw [hnum] at hloop
  simp only at hhops ⊢
  omega

/-- A miss on an `INVALID` line. -/
theorem miss_within : (⟨.cacheMiss, (getDirectoryCost pid home 0).1 + memoryAccess,
    (getDirectoryCost pid home 0).2⟩ : Charge).Within n := by
  have hcost := (getDirectoryCost_bounds pid home 0).2
  have hhops := getDirectoryCost_hops_le pid home 0
  constructor
  · simp only [memoryAccess]
    omega
  · simp only
    omega

theorem charge_of_finishRead {charge' : Charge}
    (h : m.finishRead pid a charge = .ok (m', charge')) : charge' = charge := by
  unfold finishRead at h
  split at h
  · obtain ⟨d, -, h⟩ := bind_eq_ok.mp h
    cases h
    rfl
  · cases h
    rfl

theorem processRead_within (h : m.processRead pid a = .ok (m', charge)) : charge.Within n := by
  rw [processRead_eq] at h
  cases hs : (m.directory a).state with
  | invalid =>
    simp only [hs, readMiss_eq hs, ok_bind] at h
    rw [charge_of_finishRead h]
    exact miss_within
  | shared | modified =>
    simp only [hs] at h
    obtain ⟨⟨m₁, charge₁⟩, hfetch, h⟩ := bind_eq_ok.mp h
    obtain ⟨-, hcost, hhops⟩ := fetch_le hfetch
    rw [charge_of_finishRead h]
    change charge₁.Within n
    exact ⟨by omega, by omega⟩

end DirMsi

namespace Controller

/-! ## The charges of the stores -/

variable {st st' : Controller × ℕ × ℕ}

/-- A round of the push loop sends one message at most. -/
theorem pushBody_hops_le (h : pushBody pid home a (c, cost, hops) i = .ok st) :
    st.2.2 ≤ hops + 2 := by
  have hhops := getDirectoryCost_hops_le i home hops
  simp only [pushBody] at h
  split at h
  · split at h
    · obtain ⟨c', -, h⟩ := bind_eq_ok.mp h
      split at h
      · cases h
        exact hhops
      · cases h
        simp only
        omega
    · split at h
      · cases h
        simp only
        omega
      · cases h
        simp only
        omega
  · cases h
    simp only
    omega

theorem pushLoop_hops_le (h : (List.range n).foldlM (pushBody pid home a) st = .ok st') :
    st'.2.2 ≤ st.2.2 + 2 * n := by
  have hloop := ensures_foldlM (E := fun _ : AssertFailure => True)
    (I := fun done (d : Controller × ℕ × ℕ) => d.2.2 ≤ st.2.2 + 2 * done.length)
    (f := pushBody pid home a) (l := List.range n) (s := st) (by simp) ?_
  · have hle := hloop.of_ok h
    rwa [List.length_range] at hle
  · rintro u i v ⟨d, cost, hops⟩ - hle
    cases hbody : pushBody pid home a (d, cost, hops) i with
    | error e => trivial
    | ok st₁ =>
      have hone := pushBody_hops_le hbody
      change st₁.2.2 ≤ _
      rw [List.length_append, List.length_singleton]
      simp only at hle
      omega

/-- The adaptive store of a line somebody holds. -/
theorem pushAndInvalidate_within (hn : c.coherence.numProcessors = n) (hpid : pid < n)
    (h : c.pushAndInvalidate pid home a 0 = .ok (c', charge)) : charge.Within n := by
  have hcost := (getDirectoryCost_bounds pid home 0).2
  have hhops := getDirectoryCost_hops_le pid home 0
  simp only [pushAndInvalidate] at h
  obtain ⟨-, -, h⟩ := bind_eq_ok.mp h
  split at h
  · obtain ⟨⟨c₁, cost, response⟩, hrefetch, h⟩ := bind_eq_ok.mp h
    obtain ⟨⟨c₂, cost', hops'⟩, hloop, h⟩ := bind_eq_ok.mp h
    cases h
    obtain ⟨hback, hcost₁⟩ := refetch_posts hpid hrefetch
    have hn₁ : c₁.coherence.numProcessors = n := hback.numProcessors.trans hn
    simp only [hn₁] at hloop
    obtain ⟨-, -, hcost₂⟩ := pushLoop_posts hpid hloop
    have hhops₂ := pushLoop_hops_le hloop
    have hline : (if response = .cacheHit then localCacheAccess else memoryAccess) ≤ 100 := by
      simp only [localCacheAccess, memoryAccess]
      split <;> omega
    simp only at hcost₂ hhops₂
    exact ⟨by simp only; omega, by simp only; omega⟩
  · obtain ⟨d, -, h⟩ := bind_eq_ok.mp h
    obtain ⟨⟨m₁, charge₁⟩, hfetch, h⟩ := bind_eq_ok.mp h
    cases h
    obtain ⟨hcost₁, hhops₁⟩ := fetchAndInvalidate_le hfetch
    have hnum : ((c.coherence.setLine a (d.updateLastWriter pid)).record
        (.updateLastWriter pid a)).numProcessors = n := hn
    rw [hnum] at hhops₁
    change charge₁.Within n
    exact ⟨by omega, by omega⟩

theorem processWrite_within (hn : c.coherence.numProcessors = n) (hpid : pid < n)
    (h : c.processWrite pid a = .ok (c', charge)) : charge.Within n := by
  cases hs : (c.line a).state with
  | invalid =>
    rw [processWrite_of_invalid hs] at h
    cases h
    exact miss_within
  | shared | modified =>
    simp only [processWrite, hs] at h
    split at h
    · obtain ⟨⟨c₁, charge₁⟩, hpush, h⟩ := bind_eq_ok.mp h
      cases h
      exact pushAndInvalidate_within hn hpid hpush
    · obtain ⟨⟨m₁, charge₁⟩, hfetch, h⟩ := bind_eq_ok.mp h
      cases h
      obtain ⟨hcost, hhops⟩ := fetchAndInvalidate_le hfetch
      rw [hn] at hhops
      change charge₁.Within n
      exact ⟨by omega, by omega⟩

/-- **An access is charged within its bound.** -/
theorem step_within (hn : c.coherence.numProcessors = n) (hx : x.pid < n)
    (h : c.step x = .ok (c', r)) : r.charge.Within n := by
  obtain ⟨c₁, hfetch, hhandle⟩ := step_eq_ok h
  have hn₁ : c₁.coherence.numProcessors = n :=
    (WritesBack.fetchCacheLine (n := n) hx hfetch).numProcessors.trans hn
  obtain ⟨kind, pid, a⟩ := x
  cases kind with
  | load =>
    simp only [handle] at hhandle
    obtain ⟨⟨m', charge⟩, hread, hhandle⟩ := bind_eq_ok.mp hhandle
    cases hhandle
    exact processRead_within hread
  | store => exact processWrite_within hn₁ hx hhandle

end Controller

/-! ## Write-backs -/

/-- The calls whose charges are those of a write-back. -/
def Call.Light : Call → Prop
  | profileCacheEvict _ _ cost hops => cost ≤ 107 ∧ hops ≤ 2
  | invalidate _ _ | updateLastWriter _ _ | push _ _ | evict _ _ _ => True

theorem light_of_not_evicting {call : Call} (h : ¬ call.Evicting) : call.Light := by
  cases call with
  | profileCacheEvict pid b cost hops => exact absurd trivial h
  | invalidate pid b | updateLastWriter pid b | push pid b | evict pid l way => trivial

/-- Light calls are recorded. -/
def DirMsi.Light (m : DirMsi) : Prop := ∀ call ∈ m.calls, call.Light

theorem DirMsi.Light.record {call : Call} (h : m.Light) (hcall : call.Light) :
    (m.record call).Light := by
  intro call' hmem
  rcases List.mem_append.mp hmem with hmem | hmem
  · exact h call' hmem
  · rw [List.mem_singleton.mp hmem]
    exact hcall

/-- A write-back is. -/
theorem DirMsi.Light.invalidate (h : m.Light) (hpid : pid < 32) : (m.invalidate pid a).Light := by
  intro call hmem
  rw [(simulates_invalidate hpid).calls, List.mem_append, List.mem_cons, evictCalls] at hmem
  rcases hmem with hmem | rfl | hmem
  · exact h call hmem
  · trivial
  · split at hmem
    · rw [List.mem_singleton.mp hmem]
      have hcost := (getDirectoryCost_bounds pid (m.getHomeNode a) 0).2
      have hhops := getDirectoryCost_hops_le pid (m.getHomeNode a) 0
      constructor <;> simp only [dataWriteBack, memoryAccess] <;> omega
    · cases hmem

theorem CacheSet.light_evict (h : m.Light) (hpid : pid < 32) : (s.evict pid m).2.Light := by
  have hrecord : (m.record (.evict pid s.lines s.victim.evict)).Light := h.record trivial
  simp only [CacheSet.evict]
  split
  · exact hrecord.invalidate hpid
  · exact hrecord

namespace Controller

theorem light_fetchCacheLine (h : c.coherence.Light) (hpid : pid < 32)
    (hok : c.fetchCacheLine pid a replace = .ok c') : c'.coherence.Light := by
  obtain ⟨⟨s', m'⟩, hfetch, hok⟩ := bind_eq_ok.mp hok
  cases hok
  obtain ⟨⟨s', status⟩, -, hset⟩ := bind_eq_ok.mp hfetch
  cases status with
  | uncached =>
    cases hset
    exact CacheSet.light_evict h hpid
  | cached =>
    cases hset
    exact h

/-- **The write-backs of an access** are charged within theirs. -/
theorem light_of_step (hn : n ≤ 32) (ht : Tracks n detector t c.coherence) (hx : x.pid < n)
    (h : c.step x = .ok (c', r)) : ∀ call ∈ r.calls, call.Light := by
  obtain ⟨hcalls, qs, hserves, hasked⟩ := exists_serves hn ht hx h
  have hpids : ∀ q ∈ x.demand :: qs, q.pid < 32 := by
    intro q hq
    rcases List.mem_cons.mp hq with rfl | hq
    · exact lt_of_lt_of_le hx hn
    cases hr : q.replace with
    | true =>
      rw [hasked.own q hq hr]
      omega
    | false =>
      have hlt := (hasked.push q hq hr).2.2.1
      rw [ht.numProcessors] at hlt
      omega
  rw [hcalls]
  refine hserves.induction (P := fun _ d => d.coherence.Light) (by simp [DirMsi.Light, clearCalls])
    ?_ ?_
  · intro us d d' hrests hd call hmem
    obtain ⟨log, hlog, hquiet⟩ := hrests.calls
    rw [hlog] at hmem
    rcases List.mem_append.mp hmem with hmem | hmem
    · exact hd call hmem
    · exact light_of_not_evicting (hquiet call hmem)
  · intro us q vs d d' hqs hfetch hd
    exact light_fetchCacheLine hd (hpids q (by simp [hqs])) hfetch

end Controller

/-! ## Sums -/

variable {B : List Bill} {b : Bill} {f : AccessStat → ℕ} {g : Bill → ℕ} {j k : ℕ}

namespace AccessStat

/-! All that is counted one by one, and all the cycles. -/

def events (s : AccessStat) : ℕ :=
  s.load.hits + s.load.misses + (s.store.hits + s.store.misses) + (s.evict.hits + s.evict.misses)

def cycles (s : AccessStat) : ℕ :=
  s.load.hitCycles + s.load.missCycles + (s.store.hitCycles + s.store.missCycles) +
    (s.evict.hitCycles + s.evict.missCycles)

theorem additive_events : Additive events where
  zero := rfl
  add s s' := by
    simp only [events, AccessStat.add, Stat.add]
    omega

theorem additive_cycles : Additive cycles where
  zero := rfl
  add s s' := by
    simp only [cycles, AccessStat.add, Stat.add]
    omega

theorem additive_totalHops : Additive totalHops where
  zero := rfl
  add s s' := by
    simp only [totalHops, AccessStat.add, Stat.add]
    omega

theorem additive_count : Additive count := ⟨rfl, fun _ _ => rfl⟩

/-- **The counters fit**: none of them, and no sum the report makes of them,
exceeds one of these. -/
structure Fits (s : AccessStat) : Prop where
  events : s.events < 2 ^ 64
  cycles : s.cycles < 2 ^ 64
  hops : s.totalHops < 2 ^ 64
  count : s.count < 2 ^ 64

end AccessStat

/-- The totals fit, as the report adds them up. -/
structure Totals.Fits (T : Totals) : Prop where
  accesses : T.allHits + T.allMisses < 2 ^ 64
  cycles : T.allCycels < 2 ^ 64
  loads : T.allLoads < 2 ^ 64
  loadHops : T.allLoadHops < 2 ^ 64
  hops : T.allHops < 2 ^ 64

/-- A bill is one event, of its cycles and its messages. -/
theorem stat_sums : b.stat.events = 1 ∧ b.stat.cycles = b.cost ∧ b.stat.totalHops = b.hops := by
  rcases b with ⟨⟨_ | _, pid, a⟩, _ | _, cost, hops⟩ | ⟨pid, a, cost, hops⟩ <;>
    simp [stat_load, stat_store, stat_evict, Charge.stat, AccessStat.events, AccessStat.cycles,
      AccessStat.totalHops, AccessStat.zero, Stat.zero, Bill.cost, Bill.hops]

/-- By processor the accesses are not counted. -/
theorem stat_count : b.stat.count = 0 := by
  rcases b with ⟨⟨_ | _, pid, a⟩, _ | _, cost, hops⟩ | ⟨pid, a, cost, hops⟩ <;>
    simp [stat_load, stat_store, stat_evict, AccessStat.zero]

/-- By address no cycles and no messages are kept. -/
theorem lineStat_sums : b.lineStat.events = 1 ∧ b.lineStat.cycles = 0 ∧
    b.lineStat.totalHops = 0 ∧ b.lineStat.count ≤ 1 := by
  rcases b with ⟨⟨_ | _, pid, a⟩, _ | _, cost, hops⟩ | ⟨pid, a, cost, hops⟩ <;>
    simp [Bill.lineStat, Bill.post, Bill.addr, Profile.profileCacheLoad, Profile.profileCacheStore,
      Profile.profileCacheEvict, Profile.new, AccessStat.events, AccessStat.cycles,
      AccessStat.totalHops, AccessStat.zero, Stat.zero]

/-- There are no more write-backs than accesses. -/
theorem length_evictions_le (hv : cfg.Valid t) (hrun : cfg.run detector t = .ok (c, rs)) :
    (rs.flatMap Report.evictions).length ≤ t.length := by
  have hback : ∀ calls : List Call,
      (calls.filterMap Call.bill?).length = (calls.filterMap Call.writeBack?).length := by
    intro calls
    induction calls with
    | nil => rfl
    | cons call calls ih =>
      cases call with
      | profileCacheEvict pid a cost hops => exact congrArg (· + 1) ih
      | invalidate pid a | updateLastWriter pid a | push pid a | evict pid l way => exact ih
  have heq : (rs.flatMap Report.evictions).length = (writtenBack rs).length := by
    rw [writtenBack, List.filterMap_flatMap]
    simp only [List.length_flatMap, filterMap_bills, Report.evictions, hback]
  rw [heq]
  exact (subperm_writtenBack hv hrun).length_le.trans (List.length_filterMap_le _ _)

theorem sum_map_le_mul {α : Type} {l : List α} {v : α → ℕ} (h : ∀ y ∈ l, v y ≤ k) :
    (l.map v).sum ≤ l.length * k := by
  have hsum := List.sum_le_card_nsmul (l.map v) k fun z hz => by
    obtain ⟨y, hy, rfl⟩ := List.mem_map.mp hz
    exact h y hy
  rw [List.length_map] at hsum
  exact hsum

/-- **A sum over the bills of a run**, from a bound on the accesses' and one
on the write-backs'. -/
theorem sum_bills_le (hv : cfg.Valid t) (hrun : cfg.run detector t = .ok (c, rs))
    (haccess : ∀ r ∈ rs, g (.access r.access r.charge) ≤ k)
    (hevict : ∀ b ∈ rs.flatMap Report.evictions, g b ≤ j) :
    ((rs.flatMap Report.bills).map g).sum ≤ (k + j) * t.length := by
  have hlen : rs.length = t.length := by
    rw [← map_access_of_run hv hrun, List.length_map]
  have hback := length_evictions_le hv hrun
  have haccesses : (rs.map fun r => g (.access r.access r.charge)).sum ≤ rs.length * k :=
    sum_map_le_mul fun r hr => haccess r hr
  have hevictions : ((rs.flatMap Report.evictions).map g).sum ≤
      (rs.flatMap Report.evictions).length * j := sum_map_le_mul fun b hb => hevict b hb
  calc ((rs.flatMap Report.bills).map g).sum
      = ((rs.flatMap Report.evictions).map g).sum +
          (rs.map fun r => g (.access r.access r.charge)).sum := sum_bills
    _ ≤ (rs.flatMap Report.evictions).length * j + rs.length * k :=
        Nat.add_le_add hevictions haccesses
    _ ≤ t.length * j + t.length * k :=
        Nat.add_le_add (Nat.mul_le_mul_right _ hback) (Nat.mul_le_mul_right _ hlen.le)
    _ = (k + j) * t.length := by
        rw [← Nat.mul_add, Nat.mul_comm, Nat.add_comm j]

/-- **What the accesses and the write-backs of a run are charged.** -/
theorem charges_of_run (hv : cfg.Valid t) (hrun : cfg.run detector t = .ok (c, rs)) :
    (∀ r ∈ rs, r.charge.Within cfg.numProcessors) ∧
      ∀ b ∈ rs.flatMap Report.evictions, b.cost ≤ 107 ∧ b.hops ≤ 2 := by
  refine Config.induction_of_run (I := fun _ rs _ =>
    (∀ r ∈ rs, r.charge.Within cfg.numProcessors) ∧
      ∀ b ∈ rs.flatMap Report.evictions, b.cost ≤ 107 ∧ b.hops ≤ 2) hv hrun ⟨by simp, by simp⟩ ?_
  intro w x w' rs c c' r _ hx _ htracks hI hstep
  refine ⟨List.forall_mem_append.mpr ⟨hI.1, List.forall_mem_singleton.mpr
    (Controller.step_within htracks.numProcessors hx hstep)⟩, fun b hb => ?_⟩
  rw [List.flatMap_append, List.mem_append, List.flatMap_singleton] at hb
  rcases hb with hb | hb
  · exact hI.2 b hb
  · obtain ⟨call, hcall, hbill⟩ := List.mem_filterMap.mp hb
    have hlight := Controller.light_of_step cfg.numProcessors_le htracks hx hstep call hcall
    cases call with
    | profileCacheEvict pid a cost hops =>
      cases hbill
      exact hlight
    | invalidate pid a | updateLastWriter pid a | push pid a | evict pid l way => cases hbill

/-- **All that a run is charged.** -/
theorem sums_of_run (hv : cfg.Valid t) (hrun : cfg.run detector t = .ok (c, rs)) :
    ((rs.flatMap Report.bills).map fun b => b.stat.events).sum ≤ 2 * t.length ∧
      ((rs.flatMap Report.bills).map fun b => b.stat.cycles).sum ≤ 449 * t.length ∧
      ((rs.flatMap Report.bills).map fun b => b.stat.totalHops).sum ≤ 72 * t.length := by
  have hn := cfg.numProcessors_le
  obtain ⟨hwithin, hlight⟩ := charges_of_run hv hrun
  refine ⟨?_, ?_, ?_⟩
  · exact sum_bills_le hv hrun (fun r _ => stat_sums.1.le) fun b _ => stat_sums.1.le
  · refine sum_bills_le (k := 342) (j := 107) hv hrun (fun r hr => ?_) fun b hb => ?_
    · have hcost := (hwithin r hr).cost
      rw [stat_sums.2.1, Bill.cost]
      omega
    · exact stat_sums.2.1.trans_le (hlight b hb).1
  · refine sum_bills_le (k := 70) (j := 2) hv hrun (fun r hr => ?_) fun b hb => ?_
    · have hhops := (hwithin r hr).hops
      rw [stat_sums.2.2, Bill.hops]
      omega
    · exact stat_sums.2.2.trans_le (hlight b hb).2

/-! ## The report -/

/-- A counter of a processor is part of all that is charged, -/
theorem profile_le (hv : cfg.Valid t) (hrun : cfg.run detector t = .ok (c, rs))
    (hf : Additive f) (pid : ℕ) : f (c.coherence.profiles.profiles pid) ≤
      ((rs.flatMap Report.bills).map fun b => f b.stat).sum := by
  rw [(ledgerOf_run hv hrun).2, Bill.profiles_foldl hf]
  exact account_le_sum

/-- so is one of an address, -/
theorem lineStat_le (hv : cfg.Valid t) (hrun : cfg.run detector t = .ok (c, rs))
    (hf : Additive f) (hbill : ∀ b : Bill, f b.lineStat ≤ b.stat.events) :
    f (c.coherence.profiles.lineStat a) ≤
      ((rs.flatMap Report.bills).map fun b => b.stat.events).sum := by
  rw [(ledgerOf_run hv hrun).2, Bill.lineStat_foldl hf]
  exact account_le_sum.trans (List.sum_le_sum fun b _ => hbill b)

/-- and so is a total. -/
theorem total_le {w : AccessStat → ℕ} (get : Totals → ℕ) (hv : cfg.Valid t)
    (hrun : cfg.run detector t = .ok (c, rs)) (hf : Additive f) (h0 : get .zero = 0)
    (hadd : ∀ T s, get (Totals.add T s) = get T + f s) (hle : ∀ s, f s ≤ w s) :
    get (c.coherence.profiles.statsLoop cfg.numProcessors).1 ≤
      ((rs.flatMap Report.bills).map fun b => w b.stat).sum := by
  rw [column_of_run get hv hrun hf h0 hadd]
  exact List.sum_le_sum fun b _ => hle b.stat

/-- The totals of a run. -/
theorem totals_le (hv : cfg.Valid t) (hrun : cfg.run detector t = .ok (c, rs)) {T : Totals}
    (hT : (c.coherence.profiles.statsLoop cfg.numProcessors).1 = T) :
    T.allHits + T.allMisses ≤ 2 * t.length ∧ T.allCycels ≤ 449 * t.length ∧
      T.allLoads ≤ 2 * t.length ∧ T.allLoadHops ≤ 72 * t.length ∧ T.allHops ≤ 72 * t.length := by
  obtain ⟨hevents, hcycles, hhops⟩ := sums_of_run hv hrun
  have haccesses := total_le (f := fun s => s.load.hits + s.store.hits +
    (s.load.misses + s.store.misses)) (w := events) (fun T => T.allHits + T.allMisses) hv hrun
    ⟨rfl, fun s s' => by simp only [AccessStat.add, Stat.add]; omega⟩ rfl
    (fun T s => by simp only [Totals.add]; omega) fun s => by simp only [events]; omega
  have hall := total_le (f := fun s => s.load.hitCycles + s.store.hitCycles +
    (s.load.missCycles + s.store.missCycles) + s.evict.missCycles) (w := cycles)
    Totals.allCycels hv hrun ⟨rfl, fun s s' => by simp only [AccessStat.add, Stat.add]; omega⟩ rfl
    (fun T s => by simp only [Totals.add, Totals.allCycels]; omega)
    fun s => by simp only [cycles]; omega
  have hloads := total_le (f := fun s => s.load.hits + s.load.misses) (w := events)
    Totals.allLoads hv hrun ⟨rfl, fun s s' => by simp only [AccessStat.add, Stat.add]; omega⟩ rfl
    (fun _ _ => rfl) fun s => by simp only [events]; omega
  have hloadHops := total_le (f := fun s => s.load.hops) (w := totalHops) Totals.allLoadHops hv
    hrun ⟨rfl, fun _ _ => rfl⟩ rfl (fun _ _ => rfl) fun s => by simp only [totalHops]; omega
  have hallHops := total_le (w := totalHops) Totals.allHops hv hrun additive_totalHops rfl
    (fun _ _ => rfl) fun _ => le_rfl
  rw [hT] at haccesses hall hloads hloadHops hallHops
  exact ⟨haccesses.trans hevents, hall.trans hcycles, hloads.trans hevents, hloadHops.trans hhops,
    hallHops.trans hhops⟩

/-- **No counter wraps.** In both modes, after a run of up to `2 ^ 55`
accesses every counter of the profile, by processor and by address, and
every sum the report makes of them is below `2 ^ 64`: the `uint64_t`s of
the source hold the numbers of this development. -/
theorem counters_fit (hv : cfg.Valid t) (hlen : t.length ≤ 2 ^ 55)
    (hrun : cfg.run detector t = .ok (c, rs)) :
    (∀ pid, (c.coherence.profiles.profiles pid).Fits) ∧
      (∀ a, (c.coherence.profiles.lineStat a).Fits) ∧
      (c.coherence.profiles.statsLoop cfg.numProcessors).1.Fits := by
  obtain ⟨hevents, hcycles, hhops⟩ := sums_of_run hv hrun
  refine ⟨fun pid => ?_, fun a => ?_, ?_⟩
  · have hall := profile_le hv hrun additive_events pid
    have hall' := profile_le hv hrun additive_cycles pid
    have hall'' := profile_le hv hrun additive_totalHops pid
    have hcount := profile_le hv hrun additive_count pid
    simp only [stat_count, List.map_const', List.sum_replicate_nat, Nat.mul_zero] at hcount
    exact ⟨by omega, by omega, by omega, by omega⟩
  · have hall := lineStat_le (a := a) hv hrun additive_events fun b => by
      rw [lineStat_sums.1, stat_sums.1]
    have hall' := lineStat_le (a := a) hv hrun additive_cycles fun b => by
      rw [lineStat_sums.2.1]
      exact Nat.zero_le _
    have hall'' := lineStat_le (a := a) hv hrun additive_totalHops fun b => by
      rw [lineStat_sums.2.2.1]
      exact Nat.zero_le _
    have hcount := lineStat_le (a := a) hv hrun additive_count fun b =>
      lineStat_sums.2.2.2.trans_eq stat_sums.1.symm
    exact ⟨by omega, by omega, by omega, by omega⟩
  · obtain ⟨haccesses, hall, hloads, hloadHops, hallHops⟩ := totals_le hv hrun rfl
    exact ⟨by omega, by omega, by omega, by omega, by omega⟩

/-- A push, a hit and a write-back. -/
theorem counters_fit_wide :
    let t : List Access := [⟨.store, 0, 4⟩, ⟨.load, 1, 4⟩, ⟨.store, 0, 4⟩, ⟨.load, 1, 4⟩,
      ⟨.store, 0, 4⟩, ⟨.load, 1, 4⟩, ⟨.store, 0, 12⟩, ⟨.load, 0, 20⟩]
    ∃ c rs, Config.wide.run true t = .ok (c, rs) ∧ (∃ r ∈ rs, .push 1 4 ∈ r.calls) ∧
      (∃ r ∈ rs, .profileCacheEvict 0 12 103 0 ∈ r.calls) ∧
      (∀ pid, (c.coherence.profiles.profiles pid).Fits) ∧
      (∀ a, (c.coherence.profiles.lineStat a).Fits) ∧
      (c.coherence.profiles.statsLoop 2).1.Fits := by
  obtain ⟨c, rs, hok, hpush, hback⟩ := exists_run_wide
  exact ⟨c, rs, hok, hpush, hback, counters_fit (by decide) (by simp) hok⟩

end AdaptiveMsi
