import Mathlib.Data.Fintype.Basic
import AdaptiveMsi.Controller.Ledger
import AdaptiveMsi.Properties.Directory
/-!
# The accounts balance

Every access is billed once, to its processor and to its address, and
every write-back likewise; so each table counts the accesses, the two
tables have one total, and the cycles of a table go with its hits and its
misses.
-/

namespace AdaptiveMsi

open Machine Ledger

/-- The counters of one kind of access. -/
def AccessStat.of (s : AccessStat) : AccessKind → Stat
  | .load => s.load
  | .store => s.store

/-- **The accounts balance**, of `n` processors after the accesses `t`. -/
structure Balanced (n : ℕ) (t : List Access) (p : Profile) : Prop where
  accesses : ∀ k i, ((p.profiles i).of k).hits + ((p.profiles i).of k).misses =
    t.countP fun x => x.kind = k ∧ x.pid = i
  lineAccesses : ∀ k a, ((p.lineStat a).of k).hits + ((p.lineStat a).of k).misses =
    t.countP fun x => x.kind = k ∧ x.addr = a
  count : ∀ a, (p.lineStat a).count = t.countP fun x => x.addr = a
  hits : ∀ k, ∑ i ∈ Finset.range n, ((p.profiles i).of k).hits =
    ∑ j : Fin (2 ^ 64), ((p.lineStat (.ofFin j)).of k).hits
  misses : ∀ k, ∑ i ∈ Finset.range n, ((p.profiles i).of k).misses =
    ∑ j : Fin (2 ^ 64), ((p.lineStat (.ofFin j)).of k).misses
  evictions : ∑ i ∈ Finset.range n, (p.profiles i).evict.misses =
    ∑ j : Fin (2 ^ 64), (p.lineStat (.ofFin j)).evict.misses
  hitCycles : ∀ k i, 6 * ((p.profiles i).of k).hits ≤ ((p.profiles i).of k).hitCycles ∧
    ((p.profiles i).of k).hitCycles ≤ (10 + 4 * (n - 1)) * ((p.profiles i).of k).hits
  missCycles : ∀ k i, 103 * ((p.profiles i).of k).misses ≤ ((p.profiles i).of k).missCycles

/-- A ledger of the accesses `t` of `n` processors. -/
structure LedgerOf (n : ℕ) (t : List Access) (B : List Bill) : Prop where
  accesses : B.filterMap Bill.access? = t
  pid_lt : ∀ b ∈ B, b.pid < n
  fair : ∀ x charge, .access x charge ∈ B → charge.Fair n

variable {n : ℕ} {t : List Access} {B : List Bill} {b : Bill} {k : AccessKind} {i : ℕ} {a : Addr}
variable {x : Access} {charge : Charge} {m m' : DirMsi} {f : AccessStat → ℕ}

/-- The bills of one more access. -/
theorem LedgerOf.snoc (h : LedgerOf n t B) (hx : x.pid < n) (hposts : Posts n x charge m m')
    (hm : m.profiles = B.foldl Bill.post .new) :
    ∃ B', LedgerOf n (t ++ [x]) B' ∧ m'.profiles = B'.foldl Bill.post .new := by
  obtain ⟨m₁, ⟨-, E, hE, hback⟩, hbill⟩ := hposts.profiles
  have hnone : E.filterMap Bill.access? = [] := by
    rw [List.filterMap_eq_nil_iff]
    exact fun b hb => (hE b hb).1
  refine ⟨B ++ E ++ [.access x charge], ⟨?_, fun b hb => ?_, fun y charge' hb => ?_⟩, ?_⟩
  · rw [List.filterMap_append, List.filterMap_append, h.accesses, hnone]
    simp [Bill.access?]
  · simp only [List.mem_append, List.mem_singleton] at hb
    rcases hb with (hb | hb) | rfl
    · exact h.pid_lt b hb
    · exact (hE b hb).2
    · exact hx
  · simp only [List.mem_append, List.mem_singleton] at hb
    rcases hb with (hb | hb) | heq
    · exact h.fair y charge' hb
    · have hno := (hE _ hb).1
      simp [Bill.access?] at hno
    · cases heq
      exact hposts.fair
  · rw [hbill, hback, hm, List.foldl_append, List.foldl_append]
    rfl

/-! ## What one bill adds -/

theorem additive_hits : AccessStat.Additive fun s => (s.of k).hits := by
  cases k <;> exact ⟨rfl, fun _ _ => rfl⟩

theorem additive_misses : AccessStat.Additive fun s => (s.of k).misses := by
  cases k <;> exact ⟨rfl, fun _ _ => rfl⟩

theorem additive_hitCycles : AccessStat.Additive fun s => (s.of k).hitCycles := by
  cases k <;> exact ⟨rfl, fun _ _ => rfl⟩

theorem additive_missCycles : AccessStat.Additive fun s => (s.of k).missCycles := by
  cases k <;> exact ⟨rfl, fun _ _ => rfl⟩

theorem additive_evictions : AccessStat.Additive fun s => s.evict.misses :=
  ⟨rfl, fun _ _ => rfl⟩

theorem additive_count : AccessStat.Additive fun s => s.count := ⟨rfl, fun _ _ => rfl⟩

theorem AccessStat.Additive.sum {g : AccessStat → ℕ} (hf : AccessStat.Additive f)
    (hg : AccessStat.Additive g) : AccessStat.Additive fun s => f s + g s where
  zero := by rw [hf.zero, hg.zero]
  add s s' := by
    rw [hf.add, hg.add]
    omega

/-- The bill is for an access of this kind. -/
def Bill.IsOf (b : Bill) (k : AccessKind) : Prop := b.access?.any (·.kind = k) = true

instance : Decidable (b.IsOf k) := by
  unfold Bill.IsOf
  infer_instance

theorem accesses_stat : (b.stat.of k).hits + (b.stat.of k).misses = if b.IsOf k then 1 else 0 := by
  rcases b with ⟨⟨_ | _, pid, addr⟩, _ | _, cost, hops⟩ | ⟨pid, addr, cost, hops⟩ <;>
    cases k <;> simp [Bill.stat, Bill.post, Bill.IsOf, Bill.access?, Bill.pid, AccessStat.of,
      Profile.profileCacheLoad, Profile.profileCacheStore, Profile.profileCacheEvict, Profile.new,
      AccessStat.zero, Stat.zero]

/-- **One bill, two entries**: in both tables it counts the same. -/
theorem stat_eq_lineStat : (b.stat.of k).hits = (b.lineStat.of k).hits ∧
    (b.stat.of k).misses = (b.lineStat.of k).misses ∧
    b.stat.evict.misses = b.lineStat.evict.misses := by
  rcases b with ⟨⟨_ | _, pid, addr⟩, _ | _, cost, hops⟩ | ⟨pid, addr, cost, hops⟩ <;>
    cases k <;> simp [Bill.stat, Bill.lineStat, Bill.post, Bill.pid, Bill.addr, AccessStat.of,
      Profile.profileCacheLoad, Profile.profileCacheStore, Profile.profileCacheEvict, Profile.new,
      AccessStat.zero, Stat.zero]

theorem count_lineStat : b.lineStat.count = if b.access?.isSome then 1 else 0 := by
  rcases b with ⟨⟨_ | _, pid, addr⟩, _ | _, cost, hops⟩ | ⟨pid, addr, cost, hops⟩ <;>
    simp [Bill.lineStat, Bill.post, Bill.access?, Bill.addr, Profile.profileCacheLoad,
      Profile.profileCacheStore, Profile.profileCacheEvict, Profile.new, AccessStat.zero, Stat.zero]

/-- A fair charge is a fair entry. -/
theorem cycles_stat (h : ∀ x charge, b = .access x charge → charge.Fair n) :
    6 * (b.stat.of k).hits ≤ (b.stat.of k).hitCycles ∧
      (b.stat.of k).hitCycles ≤ (10 + 4 * (n - 1)) * (b.stat.of k).hits ∧
      103 * (b.stat.of k).misses ≤ (b.stat.of k).missCycles := by
  rcases b with ⟨⟨_ | _, pid, addr⟩, _ | _, cost, hops⟩ | ⟨pid, addr, cost, hops⟩ <;>
    cases k <;> simp [Bill.stat, Bill.post, Bill.pid, AccessStat.of,
      Profile.profileCacheLoad, Profile.profileCacheStore, Profile.profileCacheEvict, Profile.new,
      AccessStat.zero, Stat.zero]
  · exact (h _ _ rfl).hit rfl
  · exact (h _ _ rfl).miss rfl
  · exact (h _ _ rfl).hit rfl
  · exact (h _ _ rfl).miss rfl

/-! ## The tables -/

/-- The bills that count an access, by a key that is the access's. -/
theorem countP_isOf {κ : Type} [DecidableEq κ] {key : Bill → κ} {key' : Access → κ} {i : κ}
    (hkey : ∀ x charge, key (.access x charge) = key' x) (h : LedgerOf n t B) :
    (B.countP fun b => b.IsOf k ∧ key b = i) = t.countP fun x => x.kind = k ∧ key' x = i := by
  rw [← h.accesses, List.countP_filterMap]
  refine List.countP_congr fun b _ => ?_
  cases b with
  | access x charge => simp [Bill.IsOf, Bill.access?, hkey]
  | evict pid addr cost hops => simp [Bill.IsOf, Bill.access?]

/-- **Two tables, one total.** -/
theorem sum_profiles_eq (hf : AccessStat.Additive f) (h : LedgerOf n t B)
    (heq : ∀ b : Bill, f b.stat = f b.lineStat) :
    ∑ i ∈ Finset.range n, f ((B.foldl Bill.post .new).profiles i) =
      ∑ j : Fin (2 ^ 64), f ((B.foldl Bill.post .new).lineStat (.ofFin j)) := by
  have hpid : ∑ i ∈ Finset.range n, account Bill.pid (fun b => f b.stat) B i =
      (B.map fun b => f b.stat).sum :=
    sum_account fun b hb => Finset.mem_range.mpr (h.pid_lt b hb)
  have haddr : ∑ j : Fin (2 ^ 64), account (fun b => b.addr.toFin) (fun b => f b.lineStat) B j =
      (B.map fun b => f b.lineStat).sum := sum_account fun b _ => Finset.mem_univ _
  have hkey : ∀ j : Fin (2 ^ 64), account Bill.addr (fun b => f b.lineStat) B (.ofFin j) =
      account (fun b => b.addr.toFin) (fun b => f b.lineStat) B j := fun j => by
    refine account_key fun b => ?_
    constructor
    · rintro heq
      rw [heq]
    · rintro rfl
      rfl
  simp only [Bill.profiles_foldl hf, Bill.lineStat_foldl hf, hkey]
  rw [hpid, haddr]
  simp only [heq]

/-- **The books of a ledger balance.** -/
theorem LedgerOf.balanced (h : LedgerOf n t B) : Balanced n t (B.foldl Bill.post .new) where
  accesses k i := by
    rw [Bill.profiles_foldl (f := fun s => (s.of k).hits + (s.of k).misses)
      (additive_hits.sum additive_misses)]
    simp only [accesses_stat]
    rw [account_eq_countP]
    exact countP_isOf (fun _ _ => rfl) h
  lineAccesses k a := by
    rw [Bill.lineStat_foldl (f := fun s => (s.of k).hits + (s.of k).misses)
      (additive_hits.sum additive_misses)]
    simp only [← stat_eq_lineStat.1, ← stat_eq_lineStat.2.1, accesses_stat]
    rw [account_eq_countP]
    exact countP_isOf (fun _ _ => rfl) h
  count a := by
    rw [Bill.lineStat_foldl additive_count]
    simp only [count_lineStat]
    -- of the bills only the accesses are counted
    rw [account_eq_countP, ← h.accesses, List.countP_filterMap]
    refine List.countP_congr fun b _ => ?_
    cases b with
    | access x charge => simp [Bill.access?, Bill.addr]
    | evict pid addr cost hops => simp [Bill.access?]
  hits k := sum_profiles_eq additive_hits h fun _ => stat_eq_lineStat.1
  misses k := sum_profiles_eq additive_misses h fun _ => stat_eq_lineStat.2.1
  evictions := sum_profiles_eq additive_evictions h fun _ =>
    (stat_eq_lineStat (k := .load)).2.2
  hitCycles k i := by
    rw [Bill.profiles_foldl additive_hits, Bill.profiles_foldl additive_hitCycles]
    have hfair : ∀ b ∈ B, ∀ x charge, b = .access x charge → charge.Fair n :=
      fun b hb x charge hx => h.fair x charge (hx ▸ hb)
    exact ⟨mul_account_le fun b hb => (cycles_stat (hfair b hb)).1,
      account_le_mul fun b hb => (cycles_stat (hfair b hb)).2.1⟩
  missCycles k i := by
    rw [Bill.profiles_foldl additive_misses, Bill.profiles_foldl additive_missCycles]
    exact mul_account_le fun b hb =>
      (cycles_stat fun x charge hx => h.fair x charge (hx ▸ hb)).2.2

/-- **Accounting is exact.** After every run, with the detector or without
it, each processor's hits and misses are its accesses, each address's are
the accesses to it, the two tables have the same totals, and the cycles
lie within the bounds of their hits and misses. -/
theorem accounts_balance {cfg : Config} {detector : Bool} {c : Controller} {rs : List Report}
    (hv : cfg.Valid t) (hrun : cfg.run detector t = .ok (c, rs)) :
    Balanced cfg.numProcessors t c.coherence.profiles := by
  obtain ⟨B, hB, hp⟩ := Config.induction_of_run (I := fun u _ c => ∃ B,
      LedgerOf cfg.numProcessors u B ∧ c.coherence.profiles = B.foldl Bill.post .new) hv hrun
    ⟨[], ⟨rfl, by simp, by simp⟩, rfl⟩ fun u x v bs c c' r _ hx _ htracks hI hstep => by
      obtain ⟨B, hB, hp⟩ := hI
      exact hB.snoc hx (Controller.step_posts htracks.numProcessors hx hstep) hp
  rw [hp]
  exact hB.balanced

/-- A run with a push, the hit it is for, and a line written back on its
eviction. -/
theorem exists_run_wide :
    ∃ c rs, Config.wide.run true [⟨.store, 0, 4⟩, ⟨.load, 1, 4⟩, ⟨.store, 0, 4⟩, ⟨.load, 1, 4⟩,
        ⟨.store, 0, 4⟩, ⟨.load, 1, 4⟩, ⟨.store, 0, 12⟩, ⟨.load, 0, 20⟩] = .ok (c, rs) ∧
      (∃ r ∈ rs, .push 1 4 ∈ r.calls) ∧ ∃ r ∈ rs, .profileCacheEvict 0 12 103 0 ∈ r.calls := by
  obtain ⟨⟨c, rs⟩, hok, hpush, hback⟩ := Ensures.exists_ok
    (P := fun s => (∃ r ∈ s.2, .push 1 4 ∈ r.calls) ∧
      ∃ r ∈ s.2, .profileCacheEvict 0 12 103 0 ∈ r.calls)
    (by decide +kernel : Ensures _ _ (Config.wide.run true [⟨.store, 0, 4⟩, ⟨.load, 1, 4⟩,
      ⟨.store, 0, 4⟩, ⟨.load, 1, 4⟩, ⟨.store, 0, 4⟩, ⟨.load, 1, 4⟩, ⟨.store, 0, 12⟩,
      ⟨.load, 0, 20⟩]))
  exact ⟨c, rs, hok, hpush, hback⟩

/-- A push, the hit it is for, and a line written back on its eviction. -/
theorem accounts_balance_wide :
    let t : List Access := [⟨.store, 0, 4⟩, ⟨.load, 1, 4⟩, ⟨.store, 0, 4⟩, ⟨.load, 1, 4⟩,
      ⟨.store, 0, 4⟩, ⟨.load, 1, 4⟩, ⟨.store, 0, 12⟩, ⟨.load, 0, 20⟩]
    ∃ c rs, Config.wide.run true t = .ok (c, rs) ∧ (∃ r ∈ rs, .push 1 4 ∈ r.calls) ∧
      (∃ r ∈ rs, .profileCacheEvict 0 12 103 0 ∈ r.calls) ∧ Balanced 2 t c.coherence.profiles := by
  obtain ⟨c, rs, hok, hpush, hback⟩ := exists_run_wide
  exact ⟨c, rs, hok, hpush, hback, accounts_balance (by decide) hok⟩

end AdaptiveMsi
