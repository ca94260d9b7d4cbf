import AdaptiveMsi.Common.Shards
import AdaptiveMsi.Controller.Books
import AdaptiveMsi.Controller.Parts
import AdaptiveMsi.Properties.Messages
/-!
# Teams that share nothing

Processors that access no address in common do not disturb each other, in
neither mode. Pushes are the one way in which a store reaches into another
processor's cache, and they go to processors that read the very address.
So the processors may be split into teams, each with addresses of its own:
every team runs as if it were alone.
-/

namespace AdaptiveMsi

open Machine Protocol DirMsi

variable {P : Part} {σ : Equiv.Perm ℕ} {T : BitVec 64 → BitVec 64 → Prop}
variable {n pid cost : ℕ} {a b : Addr} {detector : Bool} {x : Access}
variable {c c' c₀ c₁ : Controller} {t : List Access} {l : List ℕ} {last : Option ℕ}

namespace Controller

/-! ## Accesses elsewhere -/

/-- **A part is left alone.** -/
structure Leaves (P : Part) (c c' : Controller) : Prop where
  offsetNumBits : c'.offsetNumBits = c.offsetNumBits
  tagMask : c'.tagMask = c.tagMask
  rules : c'.coherence.rules = c.coherence.rules
  cache : ∀ p, P.procs p → c'.cache p = c.cache p
  entries : ∀ b, P.addrs b → c'.coherence.entries b = c.coherence.entries b

theorem Leaves.trans (h : Leaves P c c₀) (h' : Leaves P c₀ c') : Leaves P c c' where
  offsetNumBits := h'.offsetNumBits.trans h.offsetNumBits
  tagMask := h'.tagMask.trans h.tagMask
  rules := h'.rules.trans h.rules
  cache p hp := (h'.cache p hp).trans (h.cache p hp)
  entries b hb := (h'.entries b hb).trans (h.entries b hb)

/-- A part left alone matches what it matched. -/
theorem Leaves.matches (h : Leaves P c c₀) (hm : Matches P σ T n detector c c') :
    Matches P σ T n detector c₀ c' where
  offsetNumBits := hm.offsetNumBits.trans h.offsetNumBits.symm
  tagMask := hm.tagMask.trans h.tagMask.symm
  rules := h.rules.trans hm.rules
  rules' := hm.rules'
  cache p hp := (hm.cache p hp).trans (h.cache p hp).symm
  entries b hb := by
    rw [h.entries b hb]
    exact hm.entries b hb

/-- The addresses of the part are its processors' own. -/
structure Owned (P : Part) (c : Controller) : Prop where
  sharers : ∀ b, P.addrs b → ∀ i ∈ (c.coherence.entries b).sharers, P.procs i
  invalid_iff : ∀ b, P.addrs b →
    ((c.coherence.entries b).state = .invalid ↔ (c.coherence.entries b).sharers = ∅)

theorem Owned.congr (h : c.Owned P)
    (hentries : ∀ b, P.addrs b → c'.coherence.entries b = c.coherence.entries b) : c'.Owned P where
  sharers b hb := by
    rw [hentries b hb]
    exact h.sharers b hb
  invalid_iff b hb := by
    rw [hentries b hb]
    exact h.invalid_iff b hb

/-- A line of another address is stored back. -/
theorem leaves_setLine {d : DirectoryLine} (ha : ¬ P.addrs a) : Leaves P c (c.setLine a d) where
  offsetNumBits := rfl
  tagMask := rfl
  rules := rfl
  cache _ _ := rfl
  entries b hb := by
    rw [setLine_coherence, entries_setLine_of_ne]
    rintro rfl
    exact ha hb

/-- **A line fetch** for another processor. -/
theorem leaves_fetchCacheLine {replace : Bool} (howned : c.Owned P) (hp : pid < 32)
    (hpart : ¬ P.procs pid) (hok : c.fetchCacheLine pid a replace = .ok c') : Leaves P c c' := by
  obtain ⟨xs, calls, hsim, hspill⟩ := (ensures_fetchCacheLine hp).of_ok hok
  have hbeside := Beside.fetchCacheLine hok
  refine ⟨hbeside.offsetNumBits, hbeside.tagMask, hsim.rules, fun p hproc => hbeside.cache p ?_,
    fun b hb => ?_⟩
  · rintro rfl
    exact hpart hproc
  · rw [hsim.entries]
    refine foldl_evict_of_forall_notMem (howned.invalid_iff b hb) fun x hx => ?_
    obtain ⟨b', rfl, -⟩ := hspill.evicts x hx
    exact ⟨pid, b', rfl, fun hmem => hpart (howned.sharers b hb pid hmem)⟩

theorem leaves_refetch {r : Controller × ℕ × AccessType} (howned : c.Owned P) (hp : pid < 32)
    (hpart : ¬ P.procs pid) (ha : ¬ P.addrs a) (hok : c.refetch pid a cost = .ok r) :
    Leaves P c r.1 := by
  simp only [refetch] at hok
  split at hok
  · obtain ⟨c₁, hfetch, hok⟩ := bind_eq_ok.mp hok
    cases hok
    exact (leaves_fetchCacheLine howned hp hpart hfetch).trans (leaves_setLine ha)
  · cases hok
    exact ⟨rfl, rfl, rfl, fun _ _ => rfl, fun _ _ => rfl⟩

/-- **Pushes** to other processors. -/
theorem Supplied.leaves (h : Supplied c₀ a l c) (howned : c₀.Owned P) (ha : ¬ P.addrs a)
    (hl : ∀ i ∈ l, ¬ P.procs i) : Leaves P c₀ c where
  offsetNumBits := h.offsetNumBits
  tagMask := h.tagMask
  rules := h.rules
  cache p hp := by rw [h.cache, if_neg fun hmem => hl p hmem hp]
  entries b hb := by
    have hne : b ≠ a := by
      rintro rfl
      exact ha hb
    rw [h.entries b hne]
    refine foldl_evict_of_forall_notMem (howned.invalid_iff b hb) fun x hx => ?_
    obtain ⟨p, hp, hx⟩ := List.mem_flatMap.mp hx
    obtain ⟨b', -, rfl⟩ := List.mem_map.mp hx
    exact ⟨p, b', rfl, fun hmem => hl p hp (howned.sharers b hb p hmem)⟩

/-- **A store that calls back**, and pushes to other processors. -/
theorem leaves_processWrite_of_callsBack {r : Controller × Charge}
    (hn : c.coherence.numProcessors ≤ 32) (hp : pid < c.coherence.numProcessors)
    (howned : c.Owned P) (hpart : ¬ P.procs pid) (ha : ¬ P.addrs a) (hkeeps : c.KeepsTo P.others a)
    (hcalls : CallsBack c.coherence pid a)
    (hinv : (c.coherence.entries a).Inv c.coherence.rules last)
    (hok : c.processWrite pid a = .ok r) : Leaves P c r.1 := by
  have hwrites : Writes c.coherence pid a := ⟨hn, hcalls.1, hp, hcalls.2.2, hcalls.2.1⟩
  rw [processWrite_of_callsBack (by omega) hcalls] at hok
  obtain ⟨⟨c₀, cost, response⟩, hrefetch, hok⟩ := bind_eq_ok.mp hok
  obtain ⟨st, hloop, hok⟩ := bind_eq_ok.mp hok
  have h₀ : Leaves P c c₀ := leaves_refetch howned (by omega) hpart ha hrefetch
  obtain ⟨-, _, _, hpush⟩ := (ensures_refetch hwrites hinv.invalid_iff).of_ok hrefetch
  have hnum : c₀.coherence.numProcessors = c.coherence.numProcessors := hpush.numProcessors
  obtain ⟨st', hloop', hfill⟩ := exists_pushLoop (a := a) pid (c.coherence.getHomeNode a) cost
    (getDirectoryCost pid (c.coherence.getHomeNode a) 0).2 (hnum ▸ hn)
  cases hloop.symm.trans hloop'
  have hkeeps₀ : c₀.KeepsTo P.others a := hkeeps.congr h₀.rules hpush.reads
  have hl : ∀ i ∈ c₀.receivers pid a, ¬ P.procs i := fun i hi => by
    obtain ⟨hi, hq⟩ := List.mem_filter.mp hi
    refine hkeeps₀ ((congrArg Rules.adaptive h₀.rules).trans hcalls.1) i (List.mem_range.mp hi) ?_
    exact (of_decide_eq_true hq).2
  have hpushed := hfill.leaves (howned.congr h₀.entries) ha hl
  have hstored : Leaves P st.1 (st.1.setLine a { st.1.line a with state := .modified }) :=
    leaves_setLine ha
  have hall := h₀.trans (hpushed.trans hstored)
  cases hok
  exact ⟨hall.offsetNumBits, hall.tagMask, hall.rules, hall.cache, hall.entries⟩

/-- **One access** of another processor to another address. -/
theorem leaves_step {r : Report} (hn : n ≤ 32) (ht : Tracks n detector t c.coherence)
    (hx : x.pid < n) (howned : c.Owned P) (hpart : ¬ P.procs x.pid) (haddr : ¬ P.addrs x.addr)
    (hkeeps : c.KeepsTo P.others x.addr) (hstep : c.step x = .ok (c', r)) : Leaves P c c' := by
  obtain ⟨c₁, hfetch, hhandle⟩ := step_eq_ok hstep
  have hclear : c.clearCalls.Owned P := ⟨howned.sharers, howned.invalid_iff⟩
  have h₁ : Leaves P c.clearCalls c₁ := leaves_fetchCacheLine hclear (by omega) hpart hfetch
  obtain ⟨_, _, hf⟩ := (ensures_fetched hn ht hx).of_ok hfetch
  have hcleared : Leaves P c c.clearCalls := ⟨rfl, rfl, rfl, fun _ _ => rfl, fun _ _ => rfl⟩
  refine hcleared.trans (h₁.trans ?_)
  by_cases hcalls : x.kind = .store ∧ CallsBack c₁.coherence x.pid x.addr
  · obtain ⟨hk, hcalls⟩ := hcalls
    rw [handle, hk] at hhandle
    exact leaves_processWrite_of_callsBack (hf.numProcessors ▸ hn) (hf.numProcessors ▸ hx)
      (hclear.congr h₁.entries) hpart haddr (hkeeps.congr h₁.rules hf.fewer.reads) hcalls hf.inv
      hhandle
  · obtain ⟨m, charge, log, hok, hsim, -⟩ := exists_handle (not_and.mp hcalls)
      (hf.numProcessors ▸ hn) (hf.numProcessors ▸ hx) hf.inv
    cases hhandle.symm.trans hok
    refine ⟨rfl, rfl, hsim.rules, fun _ _ => rfl, fun b hb => ?_⟩
    change m.entries b = c₁.coherence.entries b
    rw [hsim.entries, List.foldl_cons, List.foldl_nil, Event.apply_of_ne]
    rw [Access.addr_event]
    rintro rfl
    exact haddr hb

end Controller

/-! ## Teams -/

variable {κ : Type} {team : ℕ → κ} {owner : Addr → κ} {k : κ} {cfg : Config}
variable {rs rs' : List Report} {d : Controller}

/-- The processors of team `k`, and its addresses. -/
def teamPart (team : ℕ → κ) (owner : Addr → κ) (k : κ) : Part :=
  ⟨fun p => team p = k, fun a => owner a = k⟩

namespace Controller

/-- **Nobody holds, or counts reads of, another team's address.** -/
structure Teamed (n : ℕ) (detector : Bool) (team : ℕ → κ) (owner : Addr → κ) (c : Controller) :
    Prop where
  tracked : ∃ t, Tracks n detector t c.coherence
  sharers : ∀ a, ∀ i ∈ (c.coherence.entries a).sharers, team i = owner a
  counts : detector = true → ∀ a, ∀ i, DirectoryLine.count (c.coherence.entries a).reads i ≠ 0 →
    team i = owner a

theorem Teamed.owned (h : Teamed n detector team owner c) : c.Owned (teamPart team owner k) where
  sharers a ha i hi := (h.sharers a i hi).trans ha
  invalid_iff a _ := by
    obtain ⟨t, ht⟩ := h.tracked
    exact (ht.inv a).invalid_iff

/-- Who is pushed to is of the team. -/
theorem Teamed.team_eq_of_qualified {i : ℕ} (h : Teamed n detector team owner c)
    (hn : detector = true → n ≤ 16) (hd : detector = true) (hi : i < n)
    (hq : c.coherence.rules.qualified (c.coherence.entries a).reads i = true) :
    team i = owner a := by
  obtain ⟨t, ht⟩ := h.tracked
  have hle := hn hd
  have hcount : 2 ≤ DirectoryLine.count (c.coherence.entries a).reads i :=
    (DirectoryLine.and_mask_ne_zero_iff_count (by omega) (ht.packed hle a)).mp (bne_iff_ne.mp hq)
  exact h.counts hd a i (by omega)

theorem Teamed.qualified (h : Teamed n detector team owner c) (hn : detector = true → n ≤ 16)
    (hd : c.coherence.detector = true) : ∀ i < c.coherence.numProcessors,
      c.coherence.rules.qualified (c.coherence.entries a).reads i = true → team i = owner a := by
  intro i hi hq
  obtain ⟨t, ht⟩ := h.tracked
  exact h.team_eq_of_qualified hn (ht.detector ▸ hd) (ht.numProcessors ▸ hi) hq

/-- **One access** of a processor to an address of its team. -/
theorem teamed_step {r : Report} (hn : detector = true → n ≤ 16) (h32 : n ≤ 32)
    (h : Teamed n detector team owner c) (hx : x.pid < n) (hteam : team x.pid = owner x.addr)
    (hstep : c.step x = .ok (c', r)) : Teamed n detector team owner c' := by
  obtain ⟨t, ht⟩ := h.tracked
  obtain ⟨pre, post, hbooked⟩ := (ensures_booked h32 ht hx).of_ok hstep
  have hstepped := hbooked.stepped
  refine ⟨⟨_, hstepped.tracks ht hx⟩, fun a i hi => ?_, fun hd a i hcount => ?_⟩
  · rcases hstepped.mem_sharers hi with hold | ⟨rfl, rfl | ⟨-, hpush⟩⟩
    · exact h.sharers a i hold
    · exact hteam
    · obtain ⟨-, -, hadapt, -, -, hproc, -, hq⟩ := hbooked.pushed _ _ hpush
      have hd : detector = true := ht.detector.symm.trans hadapt
      rw [hstepped.fewer_found.reads] at hq
      exact h.team_eq_of_qualified hn hd (ht.mem_procs.mp hproc) hq
  · have hle := hn hd
    rcases eq_or_ne a x.addr with rfl | hne
    · have hreads : (found c.coherence pre x).reads = (c.coherence.entries x.addr).reads :=
        hstepped.fewer_found.reads
      rw [hstepped.entries_self] at hcount
      rcases count_onEntry rfl rfl (by omega) (hreads ▸ ht.packed hle _) hcount with hold | rfl
      · exact h.counts hd _ i (hreads ▸ hold)
      · exact hteam
    · rw [(hstepped.fewer_of_ne hne).reads] at hcount
      exact h.counts hd a i hcount

/-- An access, with whether it hits. -/
def stepAnswered (c : Controller) (x : Access) :
    Except AssertFailure (Controller × Access × AccessType) := do
  let (c, r) ← c.step x
  return (c, r.access, r.response)

theorem run_stepAnswered {bs : List (Access × AccessType)} :
    run stepAnswered c t = .ok (c', bs) ↔
      ∃ rs, run step c t = .ok (c', rs) ∧ bs = rs.map fun r => (r.access, r.response) :=
  run_map_eq_ok (f := fun r : Report => (r.access, r.response)) fun _ _ _ _ => map_eq_ok

/-- **Two controllers with the same team `k`.** -/
def SameTeam (n : ℕ) (detector : Bool) (team : ℕ → κ) (owner : Addr → κ) (k : κ)
    (c d : Controller) : Prop :=
  Matches (teamPart team owner k) (Equiv.refl ℕ) Eq n detector c d ∧
    ∃ u, Tracks n detector u d.coherence

/-- **The teams are shards**, each with its caches and its addresses. -/
theorem teams_shards [DecidableEq κ] (hn : detector = true → n ≤ 16) (h32 : n ≤ 32)
    (team : ℕ → κ) (owner : Addr → κ) :
    Shards stepAnswered (fun x => team x.pid) (fun b => team b.1.pid)
      (Teamed n detector team owner) (fun x => x.pid < n ∧ team x.pid = owner x.addr)
      (SameTeam n detector team owner) where
  keep c x r hc hx hstep := by
    obtain ⟨⟨c', r'⟩, hok, h⟩ := bind_eq_ok.mp hstep
    cases h
    exact teamed_step hn h32 hc hx.1 hx.2 hok
  key_eq c x r hstep := by
    obtain ⟨⟨c', r'⟩, hok, h⟩ := bind_eq_ok.mp hstep
    cases h
    rw [access_of_step hok]
  near c d x hc hx hsame := by
    obtain ⟨hmatch, u, hu⟩ := hsame
    obtain ⟨t, ht⟩ := hc.tracked
    have hkeeps : c.KeepsTo (teamPart team owner (team x.pid)) x.addr := fun hd i hi hq =>
      (hc.qualified hn hd i hi hq).trans hx.2.symm
    refine (hmatch.agree_step (AdaptiveMsi.rules n detector).renames_refl h32 ht hu hx.1 rfl
      hx.2.symm hkeeps).bind fun r r' hok hok' hr => ?_
    obtain ⟨_, _, hstepped⟩ := (ensures_step h32 ht hx.1).of_ok hok
    obtain ⟨_, _, hstepped'⟩ := (ensures_step h32 hu hx.1).of_ok hok'
    refine ⟨⟨hr.1, _, hstepped'.tracks hu hx.1⟩, ?_⟩
    change (r'.2.access, r'.2.response) = (r.2.access, r.2.response)
    rw [hstepped.access, hr.2]
    exact congrArg (·, r.2.response) hstepped'.access
  far c d x r k hc hx hstep hne hsame := by
    obtain ⟨⟨c', r'⟩, hok, h⟩ := bind_eq_ok.mp hstep
    cases h
    obtain ⟨t, ht⟩ := hc.tracked
    have hkeeps : c.KeepsTo (teamPart team owner k).others x.addr := fun hd i hi hq hk => by
      have hi := hc.qualified hn hd i hi hq
      exact hne (hk.symm.trans (hi.trans hx.2.symm))
    have hpart : ¬ team x.pid = k := fun h => hne h.symm
    have haddr : ¬ owner x.addr = k := fun h => hpart (hx.2.trans h)
    exact ⟨(leaves_step h32 ht hx.1 hc.owned hpart haddr hkeeps hok).matches hsame.1, hsame.2⟩

end Controller

/-- The accesses of team `k`. -/
def ofTeam [DecidableEq κ] (team : ℕ → κ) (k : κ) (t : List Access) : List Access :=
  t.filter fun x => team x.pid = k

/-- **What team `k` does alone**: `c'` and `rs'` are the run of its accesses
by themselves. -/
structure TeamAlone [DecidableEq κ] (cfg : Config) (detector : Bool) (team : ℕ → κ)
    (owner : Addr → κ) (t : List Access) (c : Controller) (rs : List Report) (k : κ)
    (c' : Controller) (rs' : List Report) : Prop where
  run : cfg.run detector (ofTeam team k t) = .ok (c', rs')
  responses : rs'.map Report.response =
    (rs.filter fun r => team r.access.pid = k).map Report.response
  cache : ∀ p, team p = k → c'.cache p = c.cache p
  entries : ∀ a, owner a = k → c'.coherence.entries a = c.coherence.entries a

theorem teamed_start :
    Controller.Teamed cfg.numProcessors detector team owner (cfg.start detector) where
  tracked := ⟨[], tracks_start⟩
  sharers a i hi := by
    rw [entries_start] at hi
    exact absurd hi (Finset.notMem_empty i)
  counts _ a i hcount := by
    rw [entries_start] at hcount
    exact absurd DirectoryLine.count_zero hcount

theorem sameTeam_start : Controller.SameTeam cfg.numProcessors detector team owner k
    (cfg.start detector) (cfg.start detector) :=
  ⟨⟨rfl, rfl, rfl, rfl, fun _ _ => rfl, fun _ _ => Entry.renames_refl_iff.mpr rfl⟩,
    [], tracks_start⟩

/-- **Teams that share nothing run alone**, in both modes. Where every
processor accesses its team's addresses only, the run returns exactly if
every team's own accesses do, however the teams interleave. Every team
gets the hits and misses it gets by itself, and leaves its caches and the
entries of its addresses as it leaves them by itself: no store, no push
and no eviction of another team is felt. -/
theorem teams_are_alone [DecidableEq κ] (team : ℕ → κ) (owner : Addr → κ)
    (hn : detector = true → cfg.numProcessors ≤ 16) (hv : cfg.Valid t)
    (hown : ∀ x ∈ t, team x.pid = owner x.addr) :
    ((∃ s, cfg.run detector t = .ok s) ↔
        ∀ k, ∃ s, cfg.run detector (ofTeam team k t) = .ok s) ∧
      ∀ c rs, cfg.run detector t = .ok (c, rs) →
        ∀ k, ∃ c' rs', TeamAlone cfg detector team owner t c rs k c' rs' := by
  have hshards := Controller.teams_shards hn cfg.numProcessors_le team owner
  have hallowed : ∀ x ∈ t, x.pid < cfg.numProcessors ∧ team x.pid = owner x.addr := fun x hx =>
    ⟨hv x hx, hown x hx⟩
  have hall : ∀ c rs, cfg.run detector t = .ok (c, rs) →
      ∀ k, ∃ c' rs', TeamAlone cfg detector team owner t c rs k c' rs' := by
    intro c rs hrun k
    obtain ⟨c', hruns, -⟩ := hshards.exists_shards teamed_start hallowed
      (fun _ => sameTeam_start) (Controller.run_stepAnswered.mpr ⟨rs, hrun, rfl⟩)
    obtain ⟨hrun', hsame, -⟩ := hruns k
    obtain ⟨rs', hrun', hanswers⟩ := Controller.run_stepAnswered.mp hrun'
    rw [List.filter_map] at hanswers
    have hresponses := congrArg (List.map Prod.snd) hanswers
    rw [List.map_map, List.map_map] at hresponses
    exact ⟨c' k, rs', hrun', hresponses.symm, hsame.cache,
      fun a ha => Entry.renames_refl_iff.mp (hsame.entries a ha)⟩
  refine ⟨⟨fun ⟨s, hrun⟩ k => ?_, fun hruns => ?_⟩, hall⟩
  · obtain ⟨c', rs', halone⟩ := hall s.1 s.2 hrun k
    exact ⟨_, halone.run⟩
  · obtain ⟨⟨c, bs⟩, hrun⟩ := hshards.exists_run teamed_start hallowed (fun _ => sameTeam_start)
      fun k => by
        obtain ⟨⟨c, rs⟩, hrun⟩ := hruns k
        exact ⟨_, Controller.run_stepAnswered.mpr ⟨rs, hrun, rfl⟩⟩
    obtain ⟨rs, hrun, -⟩ := Controller.run_stepAnswered.mp hrun
    exact ⟨_, hrun⟩

/-- Two pairs, each with a line of its own that one writes and one reads. -/
theorem teams_are_alone_quad :
    let t : List Access := [⟨.store, 0, 4⟩, ⟨.store, 2, 8⟩, ⟨.load, 1, 4⟩, ⟨.load, 3, 8⟩,
      ⟨.store, 0, 4⟩, ⟨.load, 1, 4⟩, ⟨.store, 0, 4⟩, ⟨.load, 3, 8⟩, ⟨.load, 1, 4⟩]
    ∃ c rs, Config.quad.run true t = .ok (c, rs) ∧ ∀ k, ∃ c' rs',
      TeamAlone .quad true (· / 2) (fun a => if a = 4 then 0 else 1) t c rs k c' rs' := by
  intro t
  have hv : Config.quad.Valid t := by decide
  have hown : ∀ x ∈ t, x.pid / 2 = if x.addr = 4 then 0 else 1 := by decide
  obtain ⟨⟨c, rs⟩, hok, -⟩ := Ensures.exists_ok (P := fun _ => True) (by decide +kernel :
    Ensures _ _ (Config.quad.run true t))
  clear_value t
  exact ⟨c, rs, hok, (teams_are_alone (· / 2) (fun a => if a = 4 then 0 else 1) (by decide) hv
    hown).2 c rs hok⟩

end AdaptiveMsi
