import Mathlib.Data.List.Count
import Mathlib.Data.List.Perm.Subperm
import AdaptiveMsi.Controller.Books
import AdaptiveMsi.Properties.Accounting
/-!
# Write-backs answer for stores

The reports of a run are the profiler's ledger: each lists the write-backs
it caused, in order, and is billed itself. A processor writes an address
back for a store of its own that nobody has written back before, so the
write-backs of a run are some of its stores, and a line that is still
modified is a store left over.
-/

namespace AdaptiveMsi

open Machine Ledger Protocol DirMsi

/-- The profiler's part of a call. -/
def Call.bill? : Call → Option Bill
  | profileCacheEvict pid addr cost hops => some (.evict pid addr cost hops)
  | invalidate _ _ | updateLastWriter _ _ | push _ _ | evict _ _ _ => none

/-- What an access is billed: its write-backs, and itself last. -/
def Report.bills (r : Report) : List Bill :=
  r.calls.filterMap Call.bill? ++ [.access r.access r.charge]

/-- The write-back the bill is for, if it is for one. -/
def Bill.writeBack? : Bill → Option (ℕ × Addr)
  | access _ _ => none
  | evict pid addr _ _ => some (pid, addr)

/-- The store the access is, if it is one. -/
def Access.store? (x : Access) : Option (ℕ × Addr) :=
  match x.kind with
  | .load => none
  | .store => some (x.pid, x.addr)

/-- The write-backs of a run. -/
def writtenBack (rs : List Report) : List (ℕ × Addr) :=
  (rs.flatMap Report.bills).filterMap Bill.writeBack?

variable {cfg : Config} {detector : Bool} {t w w' : List Access} {rs : List Report} {r : Report}
variable {c c' : Controller} {x : Access} {m m' : DirMsi} {pre post : List (Event ℕ Addr)}
variable {calls : List Call} {p : Profile} {n pid : ℕ} {a : Addr} {B : List Bill} {b : Bill}

/-! ## The reports are the ledger -/

theorem filterMap_bill? :
    (calls.filterMap Call.bill?).filterMap Bill.writeBack? = calls.filterMap Call.writeBack? := by
  rw [List.filterMap_filterMap]
  congr 1
  funext call
  cases call <;> rfl

theorem foldl_bill? : (calls.filterMap Call.bill?).foldl Bill.post p = calls.foldl Call.post p := by
  induction calls generalizing p with
  | nil => rfl
  | cons call calls ih =>
    rw [List.foldl_cons, ← ih]
    cases call <;> rfl

theorem filterMap_bills :
    r.bills.filterMap Bill.writeBack? = r.calls.filterMap Call.writeBack? := by
  rw [Report.bills, List.filterMap_append, filterMap_bill?]
  exact List.append_nil _

theorem writtenBack_snoc :
    writtenBack (rs ++ [r]) = writtenBack rs ++ r.calls.filterMap Call.writeBack? := by
  simp [writtenBack, filterMap_bills]

/-- The bills of an access are posted in their order. -/
theorem Booked.profiles (h : Booked m x pre post m' r) :
    m'.profiles = r.bills.foldl Bill.post m.profiles := by
  rw [h.posts, Report.bills, List.foldl_append, foldl_bill?, h.stepped.access]
  rfl

/-- Write-backs are evictions. -/
theorem evict_mem_of_writeBacks {R : Rules ℕ (BitVec 64)} {D : Addr → Entry ℕ (BitVec 64)}
    {xs : List (Event ℕ Addr)} (h : (pid, a) ∈ writeBacks R D xs) : .evict pid a ∈ xs := by
  induction xs generalizing D with
  | nil => cases h
  | cons y xs ih =>
    rw [writeBacks_cons, List.mem_append] at h
    rcases h with h | h
    · refine List.mem_cons.mpr (Or.inl ?_)
      rcases y with ⟨q, b⟩ | ⟨q, b⟩ | ⟨q, b⟩
      · rw [Event.writeBack?] at h
        split at h
        · rw [Option.toList_some, List.mem_singleton, Prod.mk.injEq] at h
          rw [h.1, h.2]
        · cases h
      · cases h
      · cases h
    · exact List.mem_cons_of_mem _ (ih h)

/-- An access bills itself and the processors that give up a copy. -/
theorem Booked.ledgerOf (h : Booked m x pre post m' r) (ht : Tracks n detector t m) (hx : x.pid < n)
    (hfair : r.charge.Fair n) : LedgerOf n [x] r.bills where
  accesses := by
    have hnone : (r.calls.filterMap Call.bill?).filterMap Bill.access? = [] := by
      rw [List.filterMap_filterMap, List.filterMap_eq_nil_iff]
      intro call _
      cases call <;> rfl
    rw [Report.bills, List.filterMap_append, hnone, ← h.stepped.access]
    rfl
  pid_lt b hb := by
    rw [Report.bills, List.mem_append, List.mem_singleton] at hb
    rcases hb with hb | rfl
    · obtain ⟨call, hcall, hbill⟩ := List.mem_filterMap.mp hb
      cases call with
      | profileCacheEvict q a' cost hops =>
        cases hbill
        have hback : (q, a') ∈ r.calls.filterMap Call.writeBack? :=
          List.mem_filterMap.mpr ⟨_, hcall, rfl⟩
        rw [h.backs] at hback
        exact ht.mem_procs.mp (h.stepped.proc_mem ht hx (evict_mem_of_writeBacks hback))
      | invalidate q a' | updateLastWriter q a' | push q a' | evict q l way => cases hbill
    · rw [Bill.pid, h.stepped.access]
      exact hx
  fair y charge hb := by
    rw [Report.bills, List.mem_append, List.mem_singleton] at hb
    rcases hb with hb | hb
    · obtain ⟨call, -, hbill⟩ := List.mem_filterMap.mp hb
      cases call <;> cases hbill
    · cases hb
      exact hfair

theorem LedgerOf.append {u v : List Access} {B' : List Bill} (h : LedgerOf n u B)
    (h' : LedgerOf n v B') : LedgerOf n (u ++ v) (B ++ B') where
  accesses := by rw [List.filterMap_append, h.accesses, h'.accesses]
  pid_lt b hb := (List.mem_append.mp hb).elim (h.pid_lt b) (h'.pid_lt b)
  fair y charge hb := (List.mem_append.mp hb).elim (h.fair y charge) (h'.fair y charge)

/-- **The reports of a run are its ledger**, and the profile is that ledger
posted. -/
theorem ledgerOf_run (hv : cfg.Valid t) (hrun : cfg.run detector t = .ok (c, rs)) :
    LedgerOf cfg.numProcessors t (rs.flatMap Report.bills) ∧
      c.coherence.profiles = (rs.flatMap Report.bills).foldl Bill.post .new := by
  refine Config.induction_of_run (I := fun w rs c =>
    LedgerOf cfg.numProcessors w (rs.flatMap Report.bills) ∧
      c.coherence.profiles = (rs.flatMap Report.bills).foldl Bill.post .new) hv hrun
    ⟨⟨rfl, by simp, by simp⟩, rfl⟩ ?_
  intro w x w' rs c c' r _ hx _ htracks hI hstep
  obtain ⟨hledger, hprofiles⟩ := hI
  obtain ⟨pre, post, hbooked⟩ := (ensures_booked cfg.numProcessors_le htracks hx).of_ok hstep
  have hfair := (Controller.step_posts htracks.numProcessors hx hstep).fair
  have hone : [r].flatMap Report.bills = r.bills := List.append_nil _
  rw [List.flatMap_append, hone]
  refine ⟨hledger.append (hbooked.ledgerOf htracks hx hfair), ?_⟩
  rw [List.foldl_append, ← hprofiles]
  exact hbooked.profiles

/-! ## Debts -/

/-- The event of an access is a store there if the access is. -/
theorem storesAt_event : x.event.StoresAt pid a ↔ x.store? = some (pid, a) := by
  obtain ⟨kind, q, b⟩ := x
  cases kind
  · simp [Access.event, Event.StoresAt, Access.store?]
  · simp [Access.event, Event.StoresAt, Access.store?]

/-- **One access**: it writes back what was owed, and owes at most its own
store. -/
theorem Booked.debts (h : Booked m x pre post m' r) (ht : Tracks n detector t m) (hx : x.pid < n)
    (pid : ℕ) (a : Addr) :
    (r.calls.filterMap Call.writeBack?).count (pid, a) +
        (if Dirty m'.entries (lastStore (t ++ [x])) pid a then 1 else 0) ≤
      (if Dirty m.entries (lastStore t) pid a then 1 else 0) +
        [x].countP (·.store? = some (pid, a)) := by
  have hpre : pre.countP (·.StoresAt pid a) = 0 := by
    refine List.countP_eq_zero.mpr fun y hy => ?_
    obtain ⟨b, rfl, -⟩ := h.stepped.before y hy
    exact fun hs => Event.not_storesAt_evict (of_decide_eq_true hs)
  have hpost : post.countP (·.StoresAt pid a) = 0 := by
    refine List.countP_eq_zero.mpr fun y hy => ?_
    obtain ⟨-, -, i, b, rfl, -⟩ := h.stepped.after y hy
    exact fun hs => Event.not_storesAt_evict (of_decide_eq_true hs)
  have hall := count_writeBacks_le (p := pid) (a := a) ht.inv
    fun y hy => h.stepped.proc_mem ht hx hy
  have hstores : (pre ++ x.event :: post).countP (·.StoresAt pid a) =
      [x].countP (·.store? = some (pid, a)) := by
    rw [List.countP_append, List.countP_cons, hpre, hpost]
    simp [storesAt_event, List.countP_cons]
  rw [← h.stepped.note, h.stepped.entries, h.backs, ← hstores]
  exact hall

/-- **A run owes no more than it stored.** -/
theorem debts_of_run (hv : cfg.Valid t) (hrun : cfg.run detector t = .ok (c, rs)) (pid : ℕ)
    (a : Addr) : (writtenBack rs).count (pid, a) +
        (if Dirty c.coherence.entries (lastStore t) pid a then 1 else 0) ≤
      t.countP (·.store? = some (pid, a)) := by
  refine (booked_induction (I := fun w rs m => (writtenBack rs).count (pid, a) +
    (if Dirty m.entries (lastStore w) pid a then 1 else 0) ≤ w.countP (·.store? = some (pid, a)))
    hv hrun ?_ ?_).2
  · simp [Dirty, entries_start, writtenBack]
  · intro w x w' rs m pre post m' r hw htracks hbooked hI
    have hone := hbooked.debts htracks (hv x (by simp [hw])) pid a
    rw [writtenBack_snoc, List.count_append, List.countP_append]
    omega

/-- The write-backs of a run are some of its stores. -/
theorem subperm_writtenBack (hv : cfg.Valid t) (hrun : cfg.run detector t = .ok (c, rs)) :
    (writtenBack rs).Subperm (t.filterMap Access.store?) := by
  refine List.subperm_ext_iff.mpr fun ⟨pid, a⟩ _ => ?_
  have hle := debts_of_run hv hrun pid a
  have hcount : (t.filterMap Access.store?).count (pid, a) =
      t.countP (·.store? = some (pid, a)) := by
    rw [List.count, List.countP_filterMap]
    refine List.countP_congr fun x _ => ?_
    cases x.store? <;> simp
  rw [hcount]
  omega

/-- What the profile counts as evictions are the write-backs of the ledger. -/
theorem evictions_stat : b.stat.evict.misses = (if b.writeBack?.isSome then 1 else 0) ∧
    b.lineStat.evict.misses = if b.writeBack?.isSome then 1 else 0 := by
  have heq := (stat_eq_lineStat (b := b) (k := .load)).2.2
  rw [← heq, and_self]
  rcases b with ⟨⟨_ | _, q, a'⟩, _ | _, cost, hops⟩ | ⟨q, a', cost, hops⟩ <;>
    simp [Bill.stat, Bill.post, Bill.pid, Bill.writeBack?, Profile.profileCacheLoad,
      Profile.profileCacheStore, Profile.profileCacheEvict, Profile.new, AccessStat.zero, Stat.zero]

/-- An account of write-backs, by either key. -/
theorem account_evictions {κ : Type} [DecidableEq κ] {key : Bill → κ} {k : κ}
    (key' : ℕ × Addr → κ) (hkey : ∀ q b cost hops, key (.evict q b cost hops) = key' (q, b)) :
    account key (fun b => if b.writeBack?.isSome then 1 else 0) B k =
      (B.filterMap Bill.writeBack?).countP fun y => key' y = k := by
  rw [account_eq_countP, List.countP_filterMap]
  refine List.countP_congr fun b _ => ?_
  cases b with
  | access x charge => simp [Bill.writeBack?]
  | evict q b cost hops => simp [Bill.writeBack?, hkey]

/-- **No store is written back twice.** In both protocols, after every run,
a processor has written an address back at most as often as it stored
there, one time less while its last store there is not written back; and
the evictions the profile counts, by processor and by address, are at
most the stores. -/
theorem write_backs_le_stores (hv : cfg.Valid t) (hrun : cfg.run detector t = .ok (c, rs)) :
    (∀ pid a, (writtenBack rs).count (pid, a) +
        (if (c.line a).state = .modified ∧ lastStore t a = some pid then 1 else 0) ≤
      t.count ⟨.store, pid, a⟩) ∧
    (∀ pid, (c.coherence.profiles.profiles pid).evict.misses ≤
      t.countP fun x => x.kind = .store ∧ x.pid = pid) ∧
    ∀ a, (c.coherence.profiles.lineStat a).evict.misses ≤
      t.countP fun x => x.kind = .store ∧ x.addr = a := by
  have hprofiles := (ledgerOf_run hv hrun).2
  have hsub := subperm_writtenBack hv hrun
  refine ⟨fun pid a => ?_, fun pid => ?_, fun a => ?_⟩
  · have hstores : t.count ⟨.store, pid, a⟩ = t.countP (·.store? = some (pid, a)) := by
      refine List.countP_congr fun x _ => ?_
      obtain ⟨kind, q, b⟩ := x
      cases kind <;> simp [Access.store?]
    rw [hstores]
    exact debts_of_run hv hrun pid a
  · rw [hprofiles, Bill.profiles_foldl additive_evictions]
    simp only [evictions_stat.1]
    rw [account_evictions Prod.fst fun _ _ _ _ => rfl]
    refine (hsub.countP_le _).trans ?_
    rw [List.countP_filterMap]
    refine (List.countP_congr fun x _ => ?_).le
    obtain ⟨kind, q, b⟩ := x
    cases kind <;> simp [Access.store?]
  · rw [hprofiles, Bill.lineStat_foldl additive_evictions]
    simp only [evictions_stat.2]
    rw [account_evictions Prod.snd fun _ _ _ _ => rfl]
    refine (hsub.countP_le _).trans ?_
    rw [List.countP_filterMap]
    refine (List.countP_congr fun x _ => ?_).le
    obtain ⟨kind, q, b⟩ := x
    cases kind <;> simp [Access.store?]

/-- A store that is written back when the second way is taken. -/
theorem write_backs_le_stores_wide :
    ∃ c rs, Config.wide.run true [⟨.store, 0, 4⟩, ⟨.store, 0, 4⟩, ⟨.store, 0, 12⟩,
        ⟨.store, 0, 20⟩] = .ok (c, rs) ∧ writtenBack rs = [(0, 12)] ∧
      ∀ pid, (c.coherence.profiles.profiles pid).evict.misses ≤
        [⟨.store, 0, 4⟩, ⟨.store, 0, 4⟩, ⟨.store, 0, 12⟩, (⟨.store, 0, 20⟩ : Access)].countP
          fun x => x.kind = .store ∧ x.pid = pid := by
  have hrun : Ensures (fun _ => False) (fun r => writtenBack r.2 = [(0, 12)])
      (Config.wide.run true [⟨.store, 0, 4⟩, ⟨.store, 0, 4⟩, ⟨.store, 0, 12⟩,
        ⟨.store, 0, 20⟩]) := by
    decide
  obtain ⟨⟨c, rs⟩, hok, hback⟩ := hrun.exists_ok
  exact ⟨c, rs, hok, hback, (write_backs_le_stores (by decide) hok).2.1⟩

end AdaptiveMsi
