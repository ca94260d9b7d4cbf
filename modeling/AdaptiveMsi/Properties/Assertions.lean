import AdaptiveMsi.Properties.Filling
/-!
# No assertion fails

The directory's assertions hold in every run, so the only one that can
stop it is the cache set's, on a replacement counter that is used up. An
access raises the counters of one set by two at most, its own fetch and
perhaps a second one; so a run that is not absurdly long returns.
-/

namespace AdaptiveMsi

open Machine DirMsi

variable {k n pid home cost hops i : ℕ} {a : Addr} {tag : BitVec 64} {replace : Bool}
variable {s : CacheSet} {c c' : Controller} {m : DirMsi} {d : DirectoryLine} {x : Access}
variable {lines : List CacheLine}

/-- No counter of any cache is above `k`. -/
def Controller.Below (k : ℕ) (c : Controller) : Prop := ∀ p i, (c.cache p i).Below k

/-- A demand may raise the bound by one. -/
def raise (k : ℕ) (replace : Bool) : ℕ := if replace then k + 1 else k

theorem le_raise : k ≤ raise k replace := by
  unfold raise
  split <;> omega

/-- One more use of a counter that is not used up. -/
theorem toNat_add_one_le {b : BitVec 64} (h : b.toNat ≤ k) (hk : k + 1 < 2 ^ 64 - 1) :
    (b + 1).toNat ≤ k + 1 ∧ b + 1 ≠ allOnes := by
  have hadd : (b + 1).toNat = b.toNat + 1 := by
    rw [BitVec.toNat_add_of_lt]
    · rfl
    · change b.toNat + 1 < 2 ^ 64
      omega
  refine ⟨by omega, fun he => ?_⟩
  have hall : allOnes.toNat = 2 ^ 64 - 1 := by decide
  rw [he, hall] at hadd
  omega

namespace CacheSet

theorem Below.mono {k' : ℕ} (h : s.Below k) (hk : k ≤ k') : s.Below k' :=
  fun l hl => (h l hl).trans hk

/-- **The lookup fails on no counter that is not used up.** -/
theorem ensures_fetchLoop_raise (hk : k + 1 < 2 ^ 64 - 1) (h : ∀ l ∈ lines, l.lru.toNat ≤ k) :
    Ensures (fun _ => False) (fun r => ∀ l ∈ r.1, l.lru.toNat ≤ raise k replace)
      (fetchLoop tag replace lines) := by
  induction lines with
  | nil => simp [fetchLoop]
  | cons l lines ih =>
    obtain ⟨hl, hlines⟩ := List.forall_mem_cons.mp h
    have hrest : ∀ l ∈ lines, l.lru.toNat ≤ raise k replace :=
      fun l' hl' => (hlines l' hl').trans le_raise
    rw [fetchLoop]
    by_cases htag : l.tag = tag
    · rw [if_pos htag]
      cases replace with
      | false => exact List.forall_mem_cons.mpr ⟨hl, hlines⟩
      | true =>
        obtain ⟨hle, hne⟩ := toNat_add_one_le hl hk
        have hcheck : check (l.lru + 1 != allOnes) .lru = .ok () :=
          if_pos (bne_iff_ne.mpr hne)
        simp only [if_true, hcheck, ok_bind]
        exact List.forall_mem_cons.mpr ⟨hle, hrest⟩
    · rw [if_neg htag]
      refine (ih hlines).bind fun r _ hr => ?_
      exact List.forall_mem_cons.mpr ⟨hl.trans le_raise, hr⟩

/-- The way that takes a line. -/
theorem Below.install (hk : k + 1 < 2 ^ 64 - 1) (h : s.Below k) (index : ℕ) :
    (s.install index tag a replace).Below (raise k replace) := by
  intro l hl
  obtain ⟨j, hj, rfl⟩ := List.getElem_of_mem hl
  have hlen : j < s.lines.length := by simpa [CacheSet.install] using hj
  have hold := h s.lines[j] (List.getElem_mem hlen)
  simp only [CacheSet.install, List.getElem_modify]
  split
  · cases replace with
    | false => exact hold
    | true => exact (toNat_add_one_le hold hk).1
  · exact hold.trans le_raise

/-- **A line fetch** uses a counter twice at most: where an empty way answers
the lookup, it may be taken as well. -/
theorem ensures_fetchSingleLine_raise (hk : k + 2 < 2 ^ 64 - 1) (h : s.Below k) :
    Ensures (fun _ => False) (fun r => r.1.Below (raise (raise k replace) replace))
      (s.fetchSingleLine pid tag a m replace) := by
  have hraise : raise k replace + 1 < 2 ^ 64 - 1 := by
    unfold raise
    split <;> omega
  have hfetch : Ensures (fun _ => False) (fun r => (r.1 : CacheSet).Below (raise k replace))
      (s.fetch tag replace) :=
    (ensures_fetchLoop_raise (by omega) h).bind fun _ _ hr => hr
  refine hfetch.bind fun ⟨s', status⟩ _ hs' => ?_
  cases status with
  | uncached => exact hs'.install hraise _
  | cached => exact hs'.mono le_raise

end CacheSet

/-! ## The directory's assertions are not the cache set's -/

theorem ensures_check {E : AssertFailure → Prop} {P : Unit → Prop} {b : Bool} {e : AssertFailure} :
    Ensures E P (check b e) ↔ if b then P () else E e := by
  unfold check
  split <;> rfl

namespace DirectoryLine

theorem ensures_owner : Ensures (· ≠ .lru) (fun _ => True) (d.owner n) := by
  simp only [owner, ensures_bind, ensures_check]
  split
  · split
    · trivial
    · simp
  · simp

theorem ensures_increaseReadCount :
    Ensures (· ≠ .lru) (fun _ => True) (d.increaseReadCount pid) := by
  simp only [increaseReadCount, ensures_bind, ensures_check]
  split
  · split <;> trivial
  · simp

theorem ensures_decreaseReadCount :
    Ensures (· ≠ .lru) (fun _ => True) (d.decreaseReadCount pid) := by
  simp only [decreaseReadCount, ensures_bind, ensures_check]
  split
  · split <;> trivial
  · simp

end DirectoryLine

namespace DirMsi

theorem ensures_fetch_ne : Ensures (· ≠ .lru) (fun _ => True) (m.fetch pid home a hops) := by
  simp only [fetch, ensures_bind, ensures_check]
  split
  · split
    · trivial
    · split
      · exact DirectoryLine.ensures_owner.bind fun _ _ _ => trivial
      · trivial
  · simp

theorem ensures_fetchAndInvalidate_ne :
    Ensures (· ≠ .lru) (fun _ => True) (m.fetchAndInvalidate pid home a hops) := by
  refine ensures_fetch_ne.bind fun r _ _ => ?_
  simp only [ensures_bind, ensures_check]
  split
  · trivial
  · simp

theorem ensures_processRead_ne : Ensures (· ≠ .lru) (fun _ => True) (m.processRead pid a) := by
  have hfinish : ∀ r : DirMsi × Charge, Ensures (· ≠ .lru) (fun _ => True)
      (r.1.finishRead pid a r.2) := by
    intro r
    unfold finishRead
    split
    · exact DirectoryLine.ensures_increaseReadCount.bind fun _ _ _ => trivial
    · trivial
  rw [processRead_eq]
  cases hs : (m.directory a).state with
  | invalid =>
    simp only [readMiss_eq hs, ok_bind]
    exact hfinish (_, _)
  | shared | modified => exact ensures_fetch_ne.bind fun r _ _ => hfinish r

end DirMsi

namespace Controller

variable {st : Controller × ℕ × ℕ}

theorem Below.mono {k' : ℕ} (h : c.Below k) (hk : k ≤ k') : c.Below k' :=
  fun p i => (h p i).mono hk

theorem ensures_fetchCacheLine_raise (hk : k + 2 < 2 ^ 64 - 1) (h : c.Below k) :
    Ensures (fun _ => False) (Below (raise (raise k replace) replace))
      (c.fetchCacheLine pid a replace) := by
  refine (CacheSet.ensures_fetchSingleLine_raise hk (h _ _)).bind fun r _ hr => ?_
  intro p i
  change CacheSet.Below _ (Function.update c.cache pid (Function.update (c.cache pid) _ r.1) p i)
  have hold : (c.cache p i).Below (raise (raise k replace) replace) :=
    (h p i).mono (le_raise.trans le_raise)
  rcases eq_or_ne p pid with rfl | hp
  · rw [Function.update_self]
    rcases eq_or_ne i (c.getSetIndex a) with rfl | hi
    · rw [Function.update_self]
      exact hr
    · rw [Function.update_of_ne hi]
      exact hold
  · rw [Function.update_of_ne hp]
    exact hold

/-- A demand. -/
theorem ensures_demand_below (hk : k + 2 < 2 ^ 64 - 1) (h : c.Below k) :
    Ensures (· ≠ .lru) (Below (k + 2)) (c.fetchCacheLine pid a true) := by
  cases hf : c.fetchCacheLine pid a true with
  | error e => exact ((ensures_fetchCacheLine_raise hk h).of_error hf).elim
  | ok c' => exact (ensures_fetchCacheLine_raise hk h).of_ok hf

/-- A push. -/
theorem ensures_push_below (hk : k + 2 < 2 ^ 64 - 1) (h : c.Below k) :
    Ensures (· ≠ .lru) (Below k) (c.fetchCacheLine pid a false) := by
  cases hf : c.fetchCacheLine pid a false with
  | error e => exact ((ensures_fetchCacheLine_raise hk h).of_error hf).elim
  | ok c' => exact (ensures_fetchCacheLine_raise hk h).of_ok hf

/-- **One round of the push loop.** -/
theorem ensures_pushBody_below (hk : k + 2 < 2 ^ 64 - 1) (h : st.1.Below k) :
    Ensures (· ≠ .lru) (fun st => st.1.Below k) (pushBody pid home a st i) := by
  obtain ⟨c, cost, hops⟩ := st
  simp only [pushBody]
  split
  · split
    · refine (ensures_push_below hk (show (c.record _).Below k from h)).bind fun c' _ hc' => ?_
      split <;> exact hc'
    · split <;> exact h
  · exact h

theorem ensures_refetch_below (hk : k + 2 < 2 ^ 64 - 1) (h : c.Below k) :
    Ensures (· ≠ .lru) (fun r => r.1.Below (k + 2)) (c.refetch pid a cost) := by
  simp only [refetch]
  split
  · exact (ensures_demand_below hk h).bind fun c' _ hc' => hc'
  · exact h.mono (by omega)

/-- The last writer's branch and the handoff. -/
theorem ensures_pushAndInvalidate_below (hk : k + 4 < 2 ^ 64 - 1) (h : c.Below k) :
    Ensures (· ≠ .lru) (fun r => r.1.Below (k + 2)) (c.pushAndInvalidate pid home a hops) := by
  simp only [pushAndInvalidate]
  refine (ensures_check.mpr ?_).bind (P := fun _ => True) fun _ _ _ => ?_
  · split
    · trivial
    · simp
  split
  · refine (ensures_refetch_below (by omega) h).bind ?_
    rintro ⟨c₁, cost₁, response⟩ - hc₁
    have hloop : Ensures (· ≠ .lru) (fun st : Controller × ℕ × ℕ => st.1.Below (k + 2))
        ((List.range c₁.coherence.numProcessors).foldlM (pushBody pid home a)
          (c₁, cost₁, (getDirectoryCost pid home hops).2)) :=
      ensures_foldlM (I := fun _ (st : Controller × ℕ × ℕ) => st.1.Below (k + 2)) hc₁
        fun _ _ _ st _ hst => ensures_pushBody_below (by omega) hst
    exact hloop.bind fun _ _ hst => hst
  · have hloop : Ensures (· ≠ .lru) (fun _ : DirectoryLine => True)
        ((List.range c.coherence.numProcessors).foldlM (decreaseBody pid) (c.line a)) := by
      refine ensures_foldlM (I := fun _ _ => True) trivial fun _ i _ d _ _ => ?_
      unfold decreaseBody
      split
      · exact DirectoryLine.ensures_decreaseReadCount
      · trivial
    refine hloop.bind fun d _ _ => ?_
    exact DirMsi.ensures_fetchAndInvalidate_ne.bind fun r _ _ => h.mono (by omega)

theorem ensures_processWrite_below (hk : k + 4 < 2 ^ 64 - 1) (h : c.Below k) :
    Ensures (· ≠ .lru) (fun r => r.1.Below (k + 2)) (c.processWrite pid a) := by
  have hle : c.Below (k + 2) := h.mono (by omega)
  cases hs : (c.line a).state with
  | invalid =>
    rw [processWrite_of_invalid hs]
    exact hle
  | shared | modified =>
    simp only [processWrite, hs]
    split
    · exact (ensures_pushAndInvalidate_below hk h).bind fun r _ hr => hr
    · exact DirMsi.ensures_fetchAndInvalidate_ne.bind fun r _ _ => hle

/-- **One access** raises the bound by four. -/
theorem ensures_step_below (hk : k + 6 < 2 ^ 64 - 1) (h : c.Below k) :
    Ensures (· ≠ .lru) (fun r => r.1.Below (k + 4)) (c.step x) := by
  rw [step_eq]
  refine (ensures_demand_below (by omega) (show c.clearCalls.Below k from h)).bind
    fun c₁ _ hc₁ => ?_
  have hhandle : Ensures (· ≠ .lru) (fun r => r.1.Below (k + 4)) (c₁.handle x) := by
    unfold handle
    split
    · exact DirMsi.ensures_processRead_ne.bind fun r _ _ => hc₁.mono (by omega)
    · exact ensures_processWrite_below (by omega) hc₁
  exact hhandle.bind fun r _ hr => hr

end Controller

variable {cfg : Config} {detector : Bool} {t : List Access}

/-- Along a run. -/
theorem ensures_run_below (hshort : 4 * t.length + 2 < 2 ^ 64 - 1) :
    Ensures (· ≠ .lru) (fun r => r.1.Below (4 * t.length)) (cfg.run detector t) := by
  refine ensures_run (I := fun u _ (c : Controller) => c.Below (4 * u.length)) ?_ ?_
  · intro p i l hl
    have hempty : l = .empty := List.eq_of_mem_replicate hl
    rw [hempty]
    exact Nat.zero_le _
  · intro u x v _ c ht hc
    have hlen : t.length = u.length + (v.length + 1) := by simp [ht]
    refine (Controller.ensures_step_below (by omega) hc).mono fun r _ hr => ?_
    rw [List.length_append, List.length_singleton]
    exact hr.mono (by omega)

/-- A run reports on its accesses in their order. -/
theorem map_access_of_run {c : Controller} {rs : List Report} (hv : cfg.Valid t)
    (hrun : cfg.run detector t = .ok (c, rs)) : rs.map Report.access = t := by
  refine (run_induction (I := fun u rs _ => rs.map Report.access = u) tracks_start hv hrun rfl
    ?_).2
  intro u x v rs m pre post m' r _ _ hstepped hu
  rw [List.map_append, hu, List.map_singleton, hstepped.access]

/-- A run that is not absurdly long returns. -/
theorem exists_run (hv : cfg.Valid t) (hshort : t.length < 2 ^ 62 - 1) :
    ∃ c rs, cfg.run detector t = .ok (c, rs) := by
  cases hrun : cfg.run detector t with
  | error e =>
    have hlru : e = .lru := (ensures_tracks hv).of_error hrun
    exact absurd hlru ((ensures_run_below (by omega)).of_error hrun)
  | ok r => exact ⟨r.1, r.2, rfl⟩

/-- **No assertion fails.** In every configuration, with the detector or
without it, every run of fewer than `2 ^ 62 - 1` accesses by the simulated
processors returns: it reports on each of them in order, and none of the
simulator's nine assertions fails. -/
theorem no_assertion_fails (hv : cfg.Valid t) (hshort : t.length < 2 ^ 62 - 1) :
    ∃ c rs, cfg.run detector t = .ok (c, rs) ∧ rs.map Report.access = t := by
  obtain ⟨c, rs, hrun⟩ := exists_run hv hshort
  exact ⟨c, rs, hrun, map_access_of_run hv hrun⟩

/-- A short run of the smallest configuration. -/
theorem no_assertion_fails_pair :
    ∃ c rs, Config.pair.run true [⟨.store, 0, 4⟩, ⟨.load, 1, 4⟩] = .ok (c, rs) ∧
      rs.map Report.access = [⟨.store, 0, 4⟩, ⟨.load, 1, 4⟩] :=
  no_assertion_fails (by decide) (by decide)

end AdaptiveMsi
