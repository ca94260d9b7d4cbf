import AdaptiveMsi.Cache.Spare
import AdaptiveMsi.Cache.Stock
import AdaptiveMsi.Properties.Representation
/-!
# Runs on sets with an empty way

A processor that is pushed to has accessed the address, so in a set that
still has an empty way its line is there, and the push installs nothing.
The demands keep the stock of their sets, and with it every call of
`evict` finds the empty way.
-/

namespace AdaptiveMsi

open Machine

/-! ## The calls of `evict` -/

/-- Wherever the set had an empty way, the way returned was empty and no
`invalidate` followed. -/
def Sparing : List Call → Prop
  | [] => True
  | .evict _ lines way :: calls =>
      ((∃ l ∈ lines, l.status = .uncached) → (lines.getD way .empty).status = .uncached ∧
        ∀ q b, calls.head? ≠ some (.invalidate q b)) ∧ Sparing calls
  | _ :: calls => Sparing calls

theorem sparing_of_quiet {log : List Call} (h : ∀ call ∈ log, ¬ call.Evicting) : Sparing log := by
  induction log with
  | nil => trivial
  | cons call log ih =>
    have htail := ih fun k hk => h k (List.mem_cons_of_mem call hk)
    have hcall := h call List.mem_cons_self
    cases call with
    | evict => exact absurd trivial hcall
    | invalidate | profileCacheEvict | updateLastWriter | push => exact htail

theorem Sparing.append {log log' : List Call} (h : Sparing log) (h' : Sparing log')
    (hhead : ∀ q b, log'.head? ≠ some (.invalidate q b)) : Sparing (log ++ log') := by
  induction log with
  | nil => exact h'
  | cons call log ih =>
    cases call with
    | evict pid lines way =>
      refine ⟨fun hfree => ⟨(h.1 hfree).1, fun q b => ?_⟩, ih h.2⟩
      cases log with
      | nil => exact hhead q b
      | cons call log => exact (h.1 hfree).2 q b
    | invalidate | profileCacheEvict | updateLastWriter | push => exact ih h

theorem Sparing.of_append {pre post : List Call} {pid way : ℕ} {lines : List CacheLine}
    (h : Sparing (pre ++ .evict pid lines way :: post))
    (hfree : ∃ l ∈ lines, l.status = .uncached) :
    (lines.getD way .empty).status = .uncached ∧ ∀ q b, post.head? ≠ some (.invalidate q b) := by
  induction pre with
  | nil => exact h.1 hfree
  | cons call pre ih =>
    cases call with
    | evict => exact ih h.2
    | invalidate | profileCacheEvict | updateLastWriter | push => exact ih h

namespace CacheSet

variable {s : CacheSet} {m : DirMsi} {pid : ℕ} {tag : BitVec 64} {addr : Addr}
variable {replace : Bool} {T : Finset (BitVec 64)}

theorem sparing_evictCalls {a : Addr} : Sparing (m.evictCalls pid a) := by
  unfold DirMsi.evictCalls
  split <;> trivial

/-- **The calls of one fetch.** -/
theorem Fetched.exists_sparing {r : CacheSet × DirMsi} (h : Fetched pid tag addr replace s m r)
    (hpid : pid < 32) (hs : s.Clean) (hspares : s.Spares T) :
    ∃ log, r.2.calls = m.calls ++ log ∧ Sparing log ∧
      ∀ q b, log.head? ≠ some (.invalidate q b) := by
  cases h with
  | hit pre l post hlines hpre htag hstatus hlru =>
    exact ⟨[], by simp, trivial, by simp⟩
  | miss habsent =>
    simp only [evict]
    by_cases hst : (s.line s.victim.evict).status = .uncached
    · rw [if_neg (not_not_intro hst)]
      exact ⟨[.evict pid s.lines s.victim.evict], rfl, ⟨fun _ => ⟨hst, by simp⟩, trivial⟩, by simp⟩
    · have hfull : ¬ s.Spared := fun hfree => hst (hspares.victim_uncached hs hfree)
      rw [if_pos hst]
      refine ⟨.evict pid s.lines s.victim.evict :: .invalidate pid s.victim.evictAddr ::
        (m.record (.evict pid s.lines s.victim.evict)).evictCalls pid s.victim.evictAddr, ?_,
        ⟨fun hfree => absurd hfree hfull, sparing_evictCalls⟩, by simp⟩
      rw [(DirMsi.simulates_invalidate hpid).calls, DirMsi.record_calls, List.append_assoc]
      rfl

end CacheSet

namespace Controller

variable {cfg : Config} {c c' : Controller} {q : Request} {x : Access} {r : Report}
variable {t : List Access} {detector : Bool}

/-- **The controller of a run**, relative to the accesses so far. -/
structure Spares (cfg : Config) (t : List Access) (c : Controller) : Prop where
  represents : Represents cfg c
  sets : ∀ p i, (c.cache p i).Spares (cfg.accessed t p i)
  calls : Sparing c.coherence.calls

theorem Spares.rests (h : Spares cfg t c) (hrests : c.Rests c') : Spares cfg t c' where
  represents := h.represents.congr hrests.same
  sets p i := hrests.same.cache ▸ h.sets p i
  calls := by
    obtain ⟨log, hlog, hquiet⟩ := hrests.calls
    rw [hlog]
    refine h.calls.append (sparing_of_quiet hquiet) fun q b hhead => ?_
    exact hquiet _ (List.mem_of_mem_head? hhead) trivial

/-- **One request**, of the access itself or of a line the processor has
accessed. -/
theorem Spares.fetch {t' : List Access} (hgeo : 2 ≤ cfg.numSets * cfg.lineSize)
    (h : Spares cfg t c) (hpid : q.pid < 32)
    (hfetch : c.fetchCacheLine q.pid q.addr q.replace = .ok c')
    (hpush : q.replace = false → cfg.tag q.addr ∈ cfg.accessed t q.pid (cfg.index q.addr))
    (ht' : ∀ p i, cfg.accessed t' p i =
      if q.pid = p ∧ cfg.index q.addr = i then insert (cfg.tag q.addr) (cfg.accessed t p i)
      else cfg.accessed t p i) : Spares cfg t' c' := by
  obtain ⟨res, hr, rfl⟩ := (h.represents.ensures_fetched hgeo).of_ok hfetch
  have hset := (h.represents.sets q.pid (cfg.index q.addr)).clean
  have hspares := h.sets q.pid (cfg.index q.addr)
  refine ⟨h.represents.putSet hr, fun p i => ?_, ?_⟩
  · rw [cache_putSet, ht']
    by_cases hpi : p = q.pid ∧ i = cfg.index q.addr
    · rw [if_pos hpi, if_pos ⟨hpi.1.symm, hpi.2.symm⟩, hpi.1, hpi.2]
      -- a demand brings its tag, a push finds it
      cases hrep : q.replace with
      | true =>
        rw [hrep] at hr
        exact hr.spares hset hspares
      | false =>
        rw [hrep] at hr
        rw [Finset.insert_eq_of_mem (hpush hrep)]
        exact hr.spares_of_push hset hspares (hpush hrep)
    · rw [if_neg hpi, if_neg fun h => hpi ⟨h.1.symm, h.2.symm⟩]
      exact h.sets p i
  · obtain ⟨log, hlog, hsparing, hhead⟩ := hr.exists_sparing hpid hset hspares
    change Sparing res.2.calls
    rw [hlog]
    exact h.calls.append hsparing hhead

/-- A request for a line its processor has accessed. -/
theorem Spares.fetch_accessed (hgeo : 2 ≤ cfg.numSets * cfg.lineSize) (h : Spares cfg t c)
    (hpid : q.pid < 32) (hfetch : c.fetchCacheLine q.pid q.addr q.replace = .ok c')
    (hmem : cfg.tag q.addr ∈ cfg.accessed t q.pid (cfg.index q.addr)) : Spares cfg t c' := by
  refine h.fetch hgeo hpid hfetch (fun _ => hmem) fun p i => ?_
  split
  · rename_i hpi
    rw [← hpi.1, ← hpi.2, Finset.insert_eq_of_mem hmem]
  · rfl

/-- **The later requests of an access** are for lines that were accessed: its
own, or one a reader qualified for. -/
theorem Asked.accessed {qs : List Request} {rs : List Report} (h : c.Asked x qs)
    (hn : cfg.numProcessors ≤ 16) (hv : cfg.Valid t) (hrun : cfg.run detector t = .ok (c, rs))
    (hx : x.pid < cfg.numProcessors) (hq : q ∈ qs) : q.pid < cfg.numProcessors ∧
      cfg.tag q.addr ∈ cfg.accessed (t ++ [x]) q.pid (cfg.index q.addr) := by
  have ht : Tracks cfg.numProcessors detector t c.coherence := (ensures_tracks hv).of_ok hrun
  have haddr := h.addr q hq
  cases hrep : q.replace with
  | true =>
    have hpid := h.own q hq hrep
    rw [hpid, haddr]
    exact ⟨hx, Config.mem_accessed.mpr ⟨x, by simp, rfl, rfl, rfl⟩⟩
  | false =>
    obtain ⟨-, -, hlt, hqual⟩ := h.push q hq hrep
    rw [ht.numProcessors] at hlt
    obtain ⟨y, hy, hpid, hya⟩ := exists_access_of_qualified hn hv hrun hlt hqual
    refine ⟨hlt, Config.mem_accessed.mpr ⟨y, List.mem_append_left _ hy, hpid, ?_, ?_⟩⟩
    · rw [hya, haddr]
    · rw [hya, haddr]

/-- **One access.** -/
theorem Spares.step (hgeo : 2 ≤ cfg.numSets * cfg.lineSize) (hn : cfg.numProcessors ≤ 16)
    (h : Spares cfg t c) (hv : cfg.Valid t) {rs : List Report}
    (hrun : cfg.run detector t = .ok (c, rs)) (hx : x.pid < cfg.numProcessors)
    (hstep : c.step x = .ok (c', r)) : Spares cfg (t ++ [x]) c' ∧ Sparing r.calls := by
  have ht : Tracks cfg.numProcessors detector t c.coherence := (ensures_tracks hv).of_ok hrun
  obtain ⟨hcalls, qs, hserves, hasked⟩ := exists_serves cfg.numProcessors_le ht hx hstep
  -- after its own request the access is one of the accesses
  have hall := hserves.induction (P := fun us d =>
    Spares cfg (if us = [] then t else t ++ [x]) d) ?_ ?_ ?_
  · rw [if_neg (List.cons_ne_nil _ _)] at hall
    exact ⟨hall, hcalls ▸ hall.calls⟩
  · exact ⟨h.represents.congr ⟨rfl, rfl, rfl⟩, h.sets, trivial⟩
  · exact fun us d d' hrests hd => hd.rests hrests
  · intro us q vs d d' hqs hfetch hd
    rw [if_neg (by simp)]
    cases us with
    | nil =>
      obtain ⟨rfl, -⟩ := List.cons.inj hqs
      have h32 : x.demand.pid < 32 := by
        change x.pid < 32
        omega
      exact hd.fetch hgeo h32 hfetch (fun hrep => by cases hrep) fun p i => Config.accessed_snoc
    | cons q₀ us =>
      rw [if_neg (List.cons_ne_nil _ _)] at hd
      have hq : q ∈ qs := by
        rw [(List.cons.inj hqs).2]
        simp
      obtain ⟨hlt, hmem⟩ := hasked.accessed hn hv hrun hx hq
      exact hd.fetch_accessed hgeo (by omega) hfetch hmem

end Controller

/-- `evict` on a set with an empty way returns an empty way and calls
nobody. -/
theorem CacheSet.Spares.evict_eq {s : CacheSet} {m : DirMsi} {pid : ℕ} {T : Finset (BitVec 64)}
    (h : s.Spares T) (hs : s.Clean) (hfree : s.Spared) :
    (s.line (s.evict pid m).1).status = .uncached ∧
      (s.evict pid m).2 = m.record (.evict pid s.lines (s.evict pid m).1) := by
  have hempty := h.victim_uncached hs hfree
  rw [evict_fst]
  refine ⟨hempty, ?_⟩
  rw [evict, if_neg (not_not_intro hempty)]

/-- **No line in use is displaced while a way is free**, in any run of
either mode with up to `16` processors: whenever `evict` is called on a
set with an empty way, for an access or for a push, the way it returns is
empty, and the next call is no `invalidate`. The second half says the same
of a call in the state the run ends in. -/
theorem evict_returns_empty (cfg : Config) (detector : Bool) (hn : cfg.numProcessors ≤ 16)
    (hgeo : 2 ≤ cfg.numSets * cfg.lineSize) (t : List Access) (hv : cfg.Valid t)
    (c : Controller) (reports : List Report) (hrun : cfg.run detector t = .ok (c, reports)) :
    (∀ r ∈ reports, ∀ pre pid lines way post, r.calls = pre ++ .evict pid lines way :: post →
      (∃ l ∈ lines, l.status = .uncached) →
      (lines.getD way .empty).status = .uncached ∧
        ∀ q b, post.head? ≠ some (.invalidate q b)) ∧
    ∀ p i pid, (∃ l ∈ (c.cache p i).lines, l.status = .uncached) →
      ((c.cache p i).line ((c.cache p i).evict pid c.coherence).1).status = .uncached ∧
        ((c.cache p i).evict pid c.coherence).2 = c.coherence.record
          (.evict pid (c.cache p i).lines ((c.cache p i).evict pid c.coherence).1) := by
  have hall := Config.induction_of_run (I := fun u bs c => Controller.Spares cfg u c ∧
    ∀ r ∈ bs, Sparing r.calls) hv hrun
    ⟨⟨Controller.represents_start, fun p i => ?_, trivial⟩, by simp⟩ ?_
  · obtain ⟨hc, hrs⟩ := hall
    refine ⟨fun r hr pre pid lines way post hcalls hfree => ?_, fun p i pid hfree => ?_⟩
    · exact (hcalls ▸ hrs r hr).of_append hfree
    · exact (hc.sets p i).evict_eq (hc.represents.sets p i).clean hfree
  · exact CacheSet.spares_new
  · rintro u x v bs c c' r ht hx hrun₀ - ⟨hc, hbs⟩ hstep
    obtain ⟨hc', hr⟩ := hc.step hgeo hn (fun y hy => hv y (by simp [ht, hy])) hrun₀ hx hstep
    refine ⟨hc', fun r' hr' => ?_⟩
    rcases List.mem_append.mp hr' with hr' | hr'
    · exact hbs r' hr'
    · rw [List.mem_singleton.mp hr']
      exact hr

/-- A consumer with a way to spare is pushed to. -/
theorem evict_returns_empty_wide :
    ∃ c reports, Config.wide.run true [⟨.store, 0, 4⟩, ⟨.load, 1, 4⟩, ⟨.store, 0, 4⟩,
        ⟨.load, 1, 4⟩, ⟨.store, 0, 4⟩] = .ok (c, reports) ∧
      (∀ r ∈ reports, ∀ pre pid lines way post, r.calls = pre ++ .evict pid lines way :: post →
        (∃ l ∈ lines, l.status = .uncached) →
        (lines.getD way .empty).status = .uncached ∧
          ∀ q b, post.head? ≠ some (.invalidate q b)) ∧
      ∀ p i pid, (∃ l ∈ (c.cache p i).lines, l.status = .uncached) →
        ((c.cache p i).line ((c.cache p i).evict pid c.coherence).1).status = .uncached ∧
          ((c.cache p i).evict pid c.coherence).2 = c.coherence.record
            (.evict pid (c.cache p i).lines ((c.cache p i).evict pid c.coherence).1) := by
  have hrun : Ensures (fun _ => False) (fun _ => True)
      (Config.wide.run true [⟨.store, 0, 4⟩, ⟨.load, 1, 4⟩, ⟨.store, 0, 4⟩, ⟨.load, 1, 4⟩,
        ⟨.store, 0, 4⟩]) := by decide
  obtain ⟨⟨c, reports⟩, hok, -⟩ := hrun.exists_ok
  exact ⟨c, reports, hok,
    evict_returns_empty .wide true (by decide) (by decide) _ (by decide) c reports hok⟩

end AdaptiveMsi
