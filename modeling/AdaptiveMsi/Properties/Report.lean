import Mathlib.Algebra.Order.BigOperators.Group.List
import AdaptiveMsi.Model.Report
import AdaptiveMsi.Properties.Assertions
import AdaptiveMsi.Properties.Debts
/-!
# The report is the run's

The totals at the end of the report are sums over the processors' tables,
and each is what the accesses of the run answered and what their
write-backs cost. The table of memory lines is a selection: it shows the
lines accessed more often than the threshold, each once, with their exact
counts.
-/

namespace AdaptiveMsi

open Machine Ledger

namespace Bill

def cost : Bill → ℕ
  | access _ charge => charge.cost
  | evict _ _ cost _ => cost

def hops : Bill → ℕ
  | access _ charge => charge.hops
  | evict _ _ _ hops => hops

end Bill

/-- The write-backs an access is billed. -/
def Report.evictions (r : Report) : List Bill := r.calls.filterMap Call.bill?

/-- A charge alone, as a processor's table enters it. -/
def Charge.stat (charge : Charge) : Stat :=
  match charge.response with
  | .cacheHit => ⟨1, 0, charge.cost, 0, charge.hops⟩
  | .cacheMiss => ⟨0, 1, 0, charge.cost, charge.hops⟩

variable {cfg : Config} {detector : Bool} {t : List Access} {x : Access} {charge : Charge}
variable {rs : List Report} {c : Controller} {p : Profile} {n : ℕ} {B : List Bill} {b : Bill}
variable {f : AccessStat → ℕ} {g : Bill → ℕ} {T : Totals} {out : List Row} {keys : List Addr}

theorem stat_load (hk : x.kind = .load) :
    (Bill.access x charge).stat = { AccessStat.zero with load := charge.stat } := by
  obtain ⟨kind, pid, a⟩ := x
  cases hk
  rcases charge with ⟨_ | _, cost, hops⟩ <;>
    simp [Bill.stat, Bill.post, Bill.pid, Profile.profileCacheLoad, Profile.new, Charge.stat,
      AccessStat.zero, Stat.zero]

theorem stat_store (hk : x.kind = .store) :
    (Bill.access x charge).stat = { AccessStat.zero with store := charge.stat } := by
  obtain ⟨kind, pid, a⟩ := x
  cases hk
  rcases charge with ⟨_ | _, cost, hops⟩ <;>
    simp [Bill.stat, Bill.post, Bill.pid, Profile.profileCacheStore, Profile.new, Charge.stat,
      AccessStat.zero, Stat.zero]

theorem stat_evict {pid cost hops : ℕ} {a : Addr} : (Bill.evict pid a cost hops).stat =
    { AccessStat.zero with evict := ⟨0, 1, 0, cost, hops⟩ } := by
  simp [Bill.stat, Bill.post, Bill.pid, Profile.profileCacheEvict, Profile.new, AccessStat.zero,
    Stat.zero]

/-! ## Sums of a run -/

/-- What a run is billed: its write-backs and its accesses. -/
theorem sum_bills : ((rs.flatMap Report.bills).map g).sum =
    ((rs.flatMap Report.evictions).map g).sum +
      (rs.map fun r => g (.access r.access r.charge)).sum := by
  induction rs with
  | nil => rfl
  | cons r rs ih =>
    have hbills : r.bills = r.evictions ++ [.access r.access r.charge] := rfl
    rw [List.flatMap_cons, List.flatMap_cons, hbills]
    simp only [List.map_append, List.sum_append, List.map_cons, List.map_nil, List.sum_cons,
      List.sum_nil, ih]
    omega

/-- What is entered for accesses alone. -/
theorem sum_bills_of_access (hg : ∀ pid a cost hops, g (.evict pid a cost hops) = 0) :
    ((rs.flatMap Report.bills).map g).sum =
      (rs.map fun r => g (.access r.access r.charge)).sum := by
  have hzero : ((rs.flatMap Report.evictions).map g).sum = 0 := by
    rw [List.sum_eq_zero_iff]
    intro k hk
    obtain ⟨b, hb, rfl⟩ := List.mem_map.mp hk
    obtain ⟨r, -, hb⟩ := List.mem_flatMap.mp hb
    obtain ⟨call, -, hcall⟩ := List.mem_filterMap.mp hb
    cases call with
    | profileCacheEvict pid a cost hops =>
      cases hcall
      exact hg pid a cost hops
    | invalidate pid a | updateLastWriter pid a | push pid a | evict pid l way => cases hcall
  rw [sum_bills, hzero, Nat.zero_add]

/-- What is entered for write-backs alone. -/
theorem sum_bills_of_evict (hg : ∀ x charge, g (.access x charge) = 0) :
    ((rs.flatMap Report.bills).map g).sum = ((rs.flatMap Report.evictions).map g).sum := by
  rw [sum_bills]
  simp [hg]

/-- A sum over some of the reports. -/
theorem sum_ite {P : Report → Prop} [DecidablePred P] {v : Report → ℕ} :
    (rs.map fun r => if P r then v r else 0).sum = ((rs.filter (P ·)).map v).sum := by
  rw [List.sum_map_ite]
  simp

theorem sum_ite_one {P : Report → Prop} [DecidablePred P] :
    (rs.map fun r => if P r then 1 else 0).sum = rs.countP (P ·) := by
  rw [sum_ite, List.countP_eq_length_filter]
  simp

/-! ## The loop over the processors -/

/-- **A column of the loop** is a sum over the processors. -/
theorem statsLoop_column (get : Totals → ℕ) (h0 : get .zero = 0)
    (hadd : ∀ T s, get (Totals.add T s) = get T + f s) :
    get (p.statsLoop n).1 = ∑ i ∈ Finset.range n, f (p.profiles i) := by
  have hloop : ∀ (l : List ℕ) (st : Totals × List Row), get (l.foldl p.statsBody st).1 =
      get st.1 + (l.map fun i => f (p.profiles i)).sum := by
    intro l
    induction l with
    | nil => exact fun _ => rfl
    | cons i l ih =>
      intro st
      have hbody : get (p.statsBody st i).1 = get st.1 + f (p.profiles i) := hadd st.1 _
      rw [List.foldl_cons, ih, hbody, List.map_cons, List.sum_cons, Nat.add_assoc]
  rw [Profile.statsLoop, hloop, h0, Nat.zero_add]
  rfl

/-- The sum over the processors is the ledger's. -/
theorem sum_profiles (hf : AccessStat.Additive f) (h : LedgerOf n t B) :
    ∑ i ∈ Finset.range n, f ((B.foldl Bill.post .new).profiles i) =
      (B.map fun b => f b.stat).sum := by
  simp only [Bill.profiles_foldl hf]
  exact sum_account fun b hb => Finset.mem_range.mpr (h.pid_lt b hb)

/-- **A column of the totals of a run**. -/
theorem column_of_run (get : Totals → ℕ) (hv : cfg.Valid t)
    (hrun : cfg.run detector t = .ok (c, rs)) (hf : AccessStat.Additive f) (h0 : get .zero = 0)
    (hadd : ∀ T s, get (Totals.add T s) = get T + f s) :
    get (c.coherence.profiles.statsLoop cfg.numProcessors).1 =
      ((rs.flatMap Report.bills).map fun b => f b.stat).sum := by
  obtain ⟨hledger, hprofiles⟩ := ledgerOf_run hv hrun
  rw [statsLoop_column get h0 hadd, hprofiles, sum_profiles hf hledger]

/-! ## The totals -/

/-- **What the totals say**, from the reports of the run. -/
structure Totals.Of (rs : List Report) (T : Totals) : Prop where
  allHits : T.allHits = rs.countP (·.response = .cacheHit)
  allMisses : T.allMisses = rs.countP (·.response = .cacheMiss)
  allHitCycles : T.allHitCycles =
    ((rs.filter (·.response = .cacheHit)).map (·.charge.cost)).sum
  allMissCycles : T.allMissCycles =
    ((rs.filter (·.response = .cacheMiss)).map (·.charge.cost)).sum
  allEvictCycles : T.allEvictCycles = ((rs.flatMap Report.evictions).map Bill.cost).sum
  allLoads : T.allLoads = rs.countP (·.access.kind = .load)
  allLoadHops : T.allLoadHops = ((rs.filter (·.access.kind = .load)).map (·.charge.hops)).sum
  allHops : T.allHops = (rs.map (·.charge.hops)).sum +
    ((rs.flatMap Report.evictions).map Bill.hops).sum
  allCycels : T.allCycels = (rs.map (·.charge.cost)).sum +
    ((rs.flatMap Report.evictions).map Bill.cost).sum

/-- A charge is a hit's or a miss's. -/
theorem charge_stat : charge.stat.hits = (if charge.response = .cacheHit then 1 else 0) ∧
    charge.stat.misses = (if charge.response = .cacheMiss then 1 else 0) ∧
    charge.stat.hitCycles = (if charge.response = .cacheHit then charge.cost else 0) ∧
    charge.stat.missCycles = (if charge.response = .cacheMiss then charge.cost else 0) ∧
    charge.stat.hops = charge.hops := by
  rcases charge with ⟨_ | _, cost, hops⟩ <;> exact ⟨rfl, rfl, rfl, rfl, rfl⟩

theorem charge_stat_accesses : charge.stat.hits + charge.stat.misses = 1 := by
  rcases charge with ⟨_ | _, cost, hops⟩ <;> rfl

/-- A column over both kinds of accesses. -/
theorem column_of_accesses (get : Totals → ℕ) (h : Stat → ℕ) (hv : cfg.Valid t)
    (hrun : cfg.run detector t = .ok (c, rs)) (hzero : h .zero = 0)
    (hsum : ∀ s s', h (s.add s') = h s + h s') (h0 : get .zero = 0)
    (hadd : ∀ T s, get (Totals.add T s) = get T + (h s.load + h s.store)) :
    get (c.coherence.profiles.statsLoop cfg.numProcessors).1 =
      (rs.map fun r => h r.charge.stat).sum := by
  have hf : AccessStat.Additive fun s => h s.load + h s.store := by
    refine ⟨by simp [AccessStat.zero, hzero], fun s s' => ?_⟩
    simp only [AccessStat.add, hsum]
    omega
  have hbill : ∀ x charge, h (Bill.access x charge).stat.load +
      h (Bill.access x charge).stat.store = h charge.stat := by
    intro x charge
    cases hk : x.kind with
    | load => simp [stat_load hk, AccessStat.zero, hzero]
    | store => simp [stat_store hk, AccessStat.zero, hzero]
  rw [column_of_run get hv hrun hf h0 hadd, sum_bills_of_access]
  · simp only [hbill]
  · intro pid a cost hops
    simp [stat_evict, AccessStat.zero, hzero]

/-- A column over the loads. -/
theorem column_of_loads (get : Totals → ℕ) (h : Stat → ℕ) (hv : cfg.Valid t)
    (hrun : cfg.run detector t = .ok (c, rs)) (hzero : h .zero = 0)
    (hsum : ∀ s s', h (s.add s') = h s + h s') (h0 : get .zero = 0)
    (hadd : ∀ T s, get (Totals.add T s) = get T + h s.load) :
    get (c.coherence.profiles.statsLoop cfg.numProcessors).1 =
      ((rs.filter (·.access.kind = .load)).map fun r => h r.charge.stat).sum := by
  have hf : AccessStat.Additive fun s => h s.load := ⟨hzero, fun s s' => hsum s.load s'.load⟩
  have hbill : ∀ x charge, h (Bill.access x charge).stat.load =
      if x.kind = .load then h charge.stat else 0 := by
    intro x charge
    cases hk : x.kind with
    | load => simp [stat_load hk]
    | store => simp [stat_store hk, AccessStat.zero, hzero]
  rw [column_of_run get hv hrun hf h0 hadd, sum_bills_of_access]
  · simp only [hbill]
    exact sum_ite
  · intro pid a cost hops
    simp [stat_evict, AccessStat.zero, hzero]

/-- A column over the write-backs. -/
theorem column_of_evictions (get : Totals → ℕ) (h : Stat → ℕ) (hv : cfg.Valid t)
    (hrun : cfg.run detector t = .ok (c, rs)) (hzero : h .zero = 0)
    (hsum : ∀ s s', h (s.add s') = h s + h s') (hbill : ∀ pid a cost hops,
      h (Bill.evict pid a cost hops).stat.evict = g (.evict pid a cost hops)) (h0 : get .zero = 0)
    (hadd : ∀ T s, get (Totals.add T s) = get T + h s.evict) :
    get (c.coherence.profiles.statsLoop cfg.numProcessors).1 =
      ((rs.flatMap Report.evictions).map g).sum := by
  have hf : AccessStat.Additive fun s => h s.evict := ⟨hzero, fun s s' => hsum s.evict s'.evict⟩
  rw [column_of_run get hv hrun hf h0 hadd, sum_bills_of_evict]
  · refine congrArg List.sum (List.map_congr_left fun b hb => ?_)
    obtain ⟨r, -, hb⟩ := List.mem_flatMap.mp hb
    obtain ⟨call, -, hcall⟩ := List.mem_filterMap.mp hb
    cases call with
    | profileCacheEvict pid a cost hops =>
      cases hcall
      exact hbill pid a cost hops
    | invalidate pid a | updateLastWriter pid a | push pid a | evict pid l way => cases hcall
  · intro x charge
    cases hk : x.kind with
    | load => simp [stat_load hk, AccessStat.zero, hzero]
    | store => simp [stat_store hk, AccessStat.zero, hzero]

/-- The hops are those of the accesses and of the write-backs. -/
theorem allHops_of_run (hv : cfg.Valid t) (hrun : cfg.run detector t = .ok (c, rs)) :
    (c.coherence.profiles.statsLoop cfg.numProcessors).1.allHops = (rs.map (·.charge.hops)).sum +
      ((rs.flatMap Report.evictions).map Bill.hops).sum := by
  have hf : AccessStat.Additive fun s => s.load.hops + s.store.hops + s.evict.hops := by
    refine ⟨rfl, fun s s' => ?_⟩
    simp only [AccessStat.add, Stat.add]
    omega
  have hbill : ∀ b : Bill, b.stat.load.hops + b.stat.store.hops + b.stat.evict.hops = b.hops := by
    rintro (⟨⟨_ | _, pid, a⟩, charge⟩ | ⟨pid, a, cost, hops⟩)
    · simp [stat_load, AccessStat.zero, Stat.zero, charge_stat, Bill.hops]
    · simp [stat_store, AccessStat.zero, Stat.zero, charge_stat, Bill.hops]
    · simp [stat_evict, AccessStat.zero, Stat.zero, Bill.hops]
  rw [column_of_run Totals.allHops hv hrun hf rfl fun _ _ => rfl]
  simp only [hbill]
  rw [sum_bills, Nat.add_comm]
  rfl

/-- The cycles of the hits and of the misses are all of them. -/
theorem sum_cost : (rs.map (·.charge.cost)).sum =
    ((rs.filter (·.response = .cacheHit)).map (·.charge.cost)).sum +
      ((rs.filter (·.response = .cacheMiss)).map (·.charge.cost)).sum := by
  rw [← sum_ite, ← sum_ite, ← List.sum_map_add]
  refine congrArg List.sum (List.map_congr_left fun r _ => ?_)
  cases r.response <;> simp

/-- **The report's totals are the run's.** In both protocols every total the
report prints is the number, the cycles or the messages of the accesses
that answered so and of the write-backs they caused. -/
theorem totals_of_run (hv : cfg.Valid t) (hrun : cfg.run detector t = .ok (c, rs)) :
    (c.coherence.profiles.statsLoop cfg.numProcessors).1.Of rs := by
  have hhitCycles := column_of_accesses Totals.allHitCycles Stat.hitCycles hv hrun rfl
    (fun _ _ => rfl) rfl fun _ _ => rfl
  have hmissCycles := column_of_accesses Totals.allMissCycles Stat.missCycles hv hrun rfl
    (fun _ _ => rfl) rfl fun _ _ => rfl
  have hevict := column_of_evictions (g := Bill.cost) Totals.allEvictCycles Stat.missCycles hv hrun
    rfl (fun _ _ => rfl) (fun _ _ _ _ => by rw [stat_evict]; rfl) rfl fun _ _ => rfl
  simp only [charge_stat, sum_ite] at hhitCycles hmissCycles
  refine ⟨?_, ?_, hhitCycles, hmissCycles, hevict, ?_, ?_, allHops_of_run hv hrun, ?_⟩
  · rw [column_of_accesses Totals.allHits Stat.hits hv hrun rfl (fun _ _ => rfl) rfl
      fun _ _ => rfl]
    simp only [charge_stat]
    exact sum_ite_one
  · rw [column_of_accesses Totals.allMisses Stat.misses hv hrun rfl (fun _ _ => rfl) rfl
      fun _ _ => rfl]
    simp only [charge_stat]
    exact sum_ite_one
  · rw [column_of_loads Totals.allLoads (fun s => s.hits + s.misses) hv hrun rfl
      (fun s s' => by simp only [Stat.add]; omega) rfl fun _ _ => rfl]
    simp only [charge_stat_accesses, ← sum_ite]
    exact sum_ite_one
  · rw [column_of_loads Totals.allLoadHops Stat.hops hv hrun rfl (fun _ _ => rfl) rfl
      fun _ _ => rfl]
    simp only [charge_stat]
  · have hcost : (rs.map (·.charge.cost)).sum = _ := sum_cost
    rw [Totals.allCycels, hhitCycles, hmissCycles, hevict, hcost]
    rfl

/-- A push, a hit and a write-back on the books. -/
theorem totals_of_run_wide :
    let t : List Access := [⟨.store, 0, 4⟩, ⟨.load, 1, 4⟩, ⟨.store, 0, 4⟩, ⟨.load, 1, 4⟩,
      ⟨.store, 0, 4⟩, ⟨.load, 1, 4⟩, ⟨.store, 0, 12⟩, ⟨.load, 0, 20⟩]
    ∃ c rs, Config.wide.run true t = .ok (c, rs) ∧ (∃ r ∈ rs, .push 1 4 ∈ r.calls) ∧
      (∃ r ∈ rs, .profileCacheEvict 0 12 103 0 ∈ r.calls) ∧
      (c.coherence.profiles.statsLoop 2).1.Of rs := by
  obtain ⟨c, rs, hok, hpush, hback⟩ := exists_run_wide
  exact ⟨c, rs, hok, hpush, hback, totals_of_run (by decide) hok⟩

/-! ## The memory lines -/

/-- The reports of the accesses at `a` of one kind with one response. -/
def tally (rs : List Report) (a : Addr) (k : AccessKind) (response : AccessType) : ℕ :=
  rs.countP fun r => r.access.addr = a ∧ r.access.kind = k ∧ r.response = response

/-- A line's counters, from the ledger. -/
theorem lineStat_of_run {h : Stat → ℕ} {response : AccessType} (k : AccessKind) (a : Addr)
    (hv : cfg.Valid t) (hrun : cfg.run detector t = .ok (c, rs))
    (hf : AccessStat.Additive fun s => h (s.of k))
    (heq : ∀ b : Bill, h (b.stat.of k) = h (b.lineStat.of k))
    (hstat : ∀ charge : Charge, h charge.stat = if charge.response = response then 1 else 0)
    (hzero : h .zero = 0) :
    h ((c.coherence.profiles.lineStat a).of k) = tally rs a k response := by
  have hbill : ∀ x charge, h ((Bill.access x charge).stat.of k) =
      if x.kind = k ∧ charge.response = response then 1 else 0 := by
    intro x charge
    cases hk : x.kind with
    | load => cases k <;> simp [stat_load hk, AccessStat.of, AccessStat.zero, hzero, hstat]
    | store => cases k <;> simp [stat_store hk, AccessStat.of, AccessStat.zero, hzero, hstat]
  rw [(ledgerOf_run hv hrun).2, Bill.lineStat_foldl hf]
  simp only [← heq, account]
  rw [sum_bills_of_access]
  · simp only [hbill, ← ite_and, Bill.addr]
    exact sum_ite_one
  · intro pid b cost hops
    cases k <;> simp [stat_evict, AccessStat.of, AccessStat.zero, hzero]

/-- The accesses at different addresses are different accesses. -/
theorem sum_countP_addr_le (h : keys.Nodup) :
    (keys.map fun a => t.countP (·.addr = a)).sum ≤ t.length := by
  induction t with
  | nil => simp
  | cons x t ih =>
    have hone : (keys.map fun a => if x.addr = a then 1 else 0).sum ≤ 1 := by
      have hcount : (keys.map fun a => if x.addr = a then 1 else 0).sum = keys.count x.addr := by
        rw [List.sum_map_ite, List.count, List.countP_eq_length_filter]
        simp [eq_comm, beq_eq_decide]
      rw [hcount]
      exact List.nodup_iff_count_le_one.mp h x.addr
    have hcons : (keys.map fun a => (x :: t).countP (·.addr = a)).sum =
        (keys.map fun a => t.countP (·.addr = a)).sum +
          (keys.map fun a => if x.addr = a then 1 else 0).sum := by
      rw [← List.sum_map_add]
      refine congrArg List.sum (List.map_congr_left fun a _ => ?_)
      simp [List.countP_cons]
    rw [hcons, List.length_cons]
    omega

/-- Few lines are accessed often. -/
theorem mul_length_le {k : ℕ} (h : keys.Nodup) (hk : ∀ a ∈ keys, k ≤ t.countP (·.addr = a)) :
    k * keys.length ≤ t.length := by
  refine le_trans ?_ (sum_countP_addr_le h)
  have hsum := List.card_nsmul_le_sum (keys.map fun a => t.countP (·.addr = a)) k fun n hn => by
    obtain ⟨a, ha, rfl⟩ := List.mem_map.mp hn
    exact hk a ha
  rw [List.length_map] at hsum
  calc k * keys.length = keys.length • k := Nat.mul_comm _ _
    _ ≤ (keys.map fun a => t.countP (·.addr = a)).sum := hsum

/-- The row of a line counts the accesses of the reports. -/
theorem lineRow_of_run (hv : cfg.Valid t) (hrun : cfg.run detector t = .ok (c, rs)) (a : Addr) :
    c.coherence.profiles.lineRow a = ⟨"", [.hex a,
      .number (tally rs a .load .cacheHit), .number (tally rs a .load .cacheMiss),
      .number (tally rs a .store .cacheHit), .number (tally rs a .store .cacheMiss)]⟩ := by
  have hhits := fun k => lineStat_of_run (h := Stat.hits) k a hv hrun additive_hits
    (fun _ => stat_eq_lineStat.1) (fun _ => charge_stat.1) rfl
  have hmisses := fun k => lineStat_of_run (h := Stat.misses) k a hv hrun additive_misses
    (fun _ => stat_eq_lineStat.2.1) (fun _ => charge_stat.2.1) rfl
  rw [← hhits, ← hhits, ← hmisses, ← hmisses]
  rfl

/-- **The memory lines of the report.** Whatever the order in which the map
is traversed, a line is shown if and only if it was accessed more often
than the threshold; its row counts the hits and misses of its loads and
stores exactly; and a run of `t` accesses shows at most `t / 101` lines. -/
theorem lines_of_run (hv : cfg.Valid t) (hrun : cfg.run detector t = .ok (c, rs))
    (hnodup : keys.Nodup)
    (hkeys : ∀ a, (c.coherence.profiles.lineStat a).count ≠ 0 → a ∈ keys) :
    ∃ shown : List Addr, c.coherence.profiles.lineStatToString keys =
        [⟨"Memory Stats:", []⟩, ⟨"Addr", [.text "Load Hit", .text "Load Miss", .text "Store Hit",
          .text "Store Miss"]⟩] ++ shown.map (fun a => ⟨"", [.hex a,
            .number (tally rs a .load .cacheHit), .number (tally rs a .load .cacheMiss),
            .number (tally rs a .store .cacheHit), .number (tally rs a .store .cacheMiss)]⟩) ∧
      shown.Nodup ∧ (∀ a, a ∈ shown ↔ threshold < t.countP (·.addr = a)) ∧
      (threshold + 1) * shown.length ≤ t.length := by
  obtain ⟨hledger, hprofiles⟩ := ledgerOf_run hv hrun
  have hcount : ∀ a, (c.coherence.profiles.lineStat a).count = t.countP (·.addr = a) := fun a => by
    rw [hprofiles]
    exact hledger.balanced.count a
  have hmem : ∀ a,
      a ∈ (keys.filter fun a => ¬ (c.coherence.profiles.lineStat a).count ≤ threshold) ↔
        threshold < t.countP (·.addr = a) := fun a => by
    rw [List.mem_filter, decide_eq_true_eq, hcount, Nat.not_le]
    refine and_iff_right_of_imp fun hlt => hkeys a fun hzero => ?_
    rw [← hcount a, hzero] at hlt
    exact Nat.not_lt_zero _ hlt
  refine ⟨_, ?_, hnodup.filter _, hmem, ?_⟩
  · exact congrArg _ (List.map_congr_left fun a _ => lineRow_of_run hv hrun a)
  · exact mul_length_le (hnodup.filter _) fun a ha => (hmem a).mp ha

/-- A line that is accessed once more than the threshold is shown. -/
theorem lines_of_run_pair :
    ∃ c rs, Config.pair.run true (List.replicate 101 ⟨.load, 0, 4⟩) = .ok (c, rs) ∧
      c.coherence.profiles.lineStatToString [4] =
        [⟨"Memory Stats:", []⟩, ⟨"Addr", [.text "Load Hit", .text "Load Miss", .text "Store Hit",
          .text "Store Miss"]⟩] ++ [⟨"", [.hex 4,
            .number (tally rs 4 .load .cacheHit), .number (tally rs 4 .load .cacheMiss),
            .number (tally rs 4 .store .cacheHit), .number (tally rs 4 .store .cacheMiss)]⟩] := by
  have hv : Config.pair.Valid (List.replicate 101 ⟨.load, 0, 4⟩) := fun x hx => by
    rw [List.eq_of_mem_replicate hx]
    decide
  obtain ⟨c, rs, hok⟩ : ∃ c rs, Config.pair.run true (List.replicate 101 ⟨.load, 0, 4⟩) =
      .ok (c, rs) := exists_run hv (by simp)
  have hcount : ∀ a, (List.replicate 101 (⟨.load, 0, 4⟩ : Access)).countP (·.addr = a) =
      if 4 = a then 101 else 0 := fun a => by
    rw [List.countP_replicate]
    simp only [decide_eq_true_eq]
  obtain ⟨shown, hrows, hnodup, hshown, -⟩ := lines_of_run hv hok (List.nodup_singleton 4)
    fun a ha => by
      rw [(ledgerOf_run hv hok).2, (ledgerOf_run hv hok).1.balanced.count a, hcount] at ha
      simpa [eq_comm] using ha
  have hmem : ∀ a, a ∈ shown ↔ a ∈ [(4 : Addr)] := fun a => by
    rw [hshown, hcount, List.mem_singleton]
    split <;> simp_all [threshold, eq_comm]
  have hone : shown = [4] :=
    List.perm_singleton.mp ((List.perm_ext_iff_of_nodup hnodup (List.nodup_singleton 4)).mpr hmem)
  rw [hone] at hrows
  exact ⟨c, rs, hok, hrows⟩

end AdaptiveMsi
