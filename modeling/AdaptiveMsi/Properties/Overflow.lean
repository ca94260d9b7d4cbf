import AdaptiveMsi.Cache.Stock
import AdaptiveMsi.Properties.Directory
/-!
# Runs that do not overflow

Where every processor keeps to as many lines of a set as the set has
ways, no line is ever displaced. The caches of the two protocols are then
the same, a push finds the line it brings, since only a processor that
missed on an address can qualify for it, and what is left is the
directories: the adaptive one has every bit the baseline's has.
-/

namespace AdaptiveMsi

open Machine Protocol DirMsi

namespace Controller

variable {cfg : Config} {c c' c₁ d : Controller} {t : List Access} {x : Access} {a : Addr}
variable {pid i : ℕ} {last : Option ℕ}

theorem Stocked.congr (h : Stocked cfg t c) (hcache : c'.cache = c.cache)
    (hshape : c'.Shaped cfg) : Stocked cfg t c' where
  shaped := hshape
  stocks p i := by
    rw [hcache]
    exact h.stocks p i

/-! ## The push loop -/

/-- **A round of pushes into caches that have the line.** -/
theorem exists_pushBody (pid home cost hops : ℕ) (hgeo : 2 ≤ cfg.numSets * cfg.lineSize)
    (h : Stocked cfg t d)
    (hq : (d.line a).qualifiedReader i = true → ∃ y ∈ t, y.pid = i ∧ y.addr = a) :
    ∃ st, pushBody pid home a (d, cost, hops) i = .ok st ∧ st.1.cache = d.cache ∧
      st.1.Shaped cfg ∧ ∀ call ∈ st.1.coherence.calls,
        call ∈ d.coherence.calls ∨ call = .push i a := by
  have hshape : d.Shaped cfg := h.shaped
  have hrec : Stocked cfg t (d.record (.push i a)) :=
    h.congr rfl (hshape.congr rfl rfl)
  simp only [pushBody]
  by_cases hne : i = pid
  · rw [if_neg (not_not_intro hne)]
    exact ⟨_, rfl, rfl, hshape, fun call hc => Or.inl hc⟩
  rw [if_pos hne]
  by_cases hqual : (d.line a).qualifiedReader i = true
  · obtain ⟨y, hy, rfl, rfl⟩ := hq hqual
    rw [if_pos hqual, hrec.fetchCacheLine_eq hgeo hy, ok_bind]
    have hcalls : ∀ call ∈ (d.record (.push y.pid y.addr)).coherence.calls,
        call ∈ d.coherence.calls ∨ call = .push y.pid y.addr := by
      intro call hc
      simpa using hc
    split
    · exact ⟨_, rfl, rfl, hshape.congr rfl rfl, hcalls⟩
    · exact ⟨_, rfl, rfl, hshape.congr rfl rfl, hcalls⟩
  · rw [if_neg hqual]
    split
    · exact ⟨_, rfl, rfl, hshape.congr rfl rfl, fun call hc => Or.inl hc⟩
    · exact ⟨_, rfl, rfl, hshape, fun call hc => Or.inl hc⟩

/-! ## One access -/

/-- What a handler does that displaces nothing: its event. -/
structure Handled (x : Access) (c c' : Controller) (response : AccessType) : Prop where
  cache : c'.cache = c.cache
  offsetNumBits : c'.offsetNumBits = c.offsetNumBits
  tagMask : c'.tagMask = c.tagMask
  entries : c'.coherence.entries = x.event.apply c.coherence.rules c.coherence.entries
  hit : response = .cacheHit ↔ x.Hits c.coherence.rules (c.coherence.entries x.addr)

/-- **The last writer's branch**, where every qualified reader has accessed
the address and the last writer has its bit. -/
theorem exists_handled_of_callsBack (hgeo : 2 ≤ cfg.numSets * cfg.lineSize)
    (hn : c.coherence.numProcessors ≤ 32) (hp : pid < c.coherence.numProcessors)
    (hinv : (c.coherence.entries a).Inv c.coherence.rules last)
    (hcalls : CallsBack c.coherence pid a) (h : Stocked cfg t c)
    (hquiet : ∀ i b, .invalidate i b ∉ c.coherence.calls)
    (hmem : pid ∈ (c.coherence.entries a).sharers)
    (hq : ∀ i, (c.line a).qualifiedReader i = true → i < c.coherence.numProcessors →
      ∃ y ∈ t, y.pid = i ∧ y.addr = a) :
    ∃ c' charge, c.processWrite pid a = .ok (c', charge) ∧
      Handled ⟨.store, pid, a⟩ c c' charge.response := by
  have h32 : pid < 32 := by omega
  have hwrites : Writes c.coherence pid a := ⟨hn, hcalls.1, hp, hcalls.2.2, hcalls.2.1⟩
  obtain ⟨home, hhome⟩ : ∃ home, home = c.coherence.getHomeNode a := ⟨_, rfl⟩
  have hloop := ensures_foldlM (E := fun _ : AssertFailure => False)
    (I := fun done (st : Controller × ℕ × ℕ) => st.1.cache = c.cache ∧ st.1.Shaped cfg ∧
      (∀ i b, .invalidate i b ∉ st.1.coherence.calls) ∧
      ∃ xs log, Pushing c.coherence pid a done xs log st.1.coherence)
    (f := pushBody pid home a) (l := List.range c.coherence.numProcessors)
    (s := (c, (getDirectoryCost pid home 0).1 + localCacheAccess, (getDirectoryCost pid home 0).2))
    ⟨rfl, h.shaped, hquiet, [], [], pushing_enter hmem⟩ ?_
  · obtain ⟨⟨c', cost, hops⟩, hok, hcache, hshape, hcalls', xs, log, hpush⟩ := hloop.exists_ok
    -- an eviction would be a call, and there is none
    obtain rfl : xs = [] := by
      refine List.eq_nil_iff_forall_not_mem.mpr fun y hy => ?_
      obtain ⟨-, -, i, b, -, hlog⟩ := hpush.evicts y hy
      exact hcalls' i b (hpush.calls ▸ List.mem_append_right _ hlog)
    have hstores := hpush.stores hwrites hinv (iff_of_true (rfl : AccessType.cacheHit = _) hmem)
    have hwrite := processWrite_of_callsBack h32 hcalls
    rw [← hhome, refetch_of_mem h32 _ hmem, ok_bind, hok, ok_bind] at hwrite
    refine ⟨_, _, hwrite, hcache, ?_, ?_, hstores.simulates.entries, ?_⟩
    · exact hshape.offsetNumBits.trans h.shaped.offsetNumBits.symm
    · exact hshape.tagMask.trans h.shaped.tagMask.symm
    · simpa [Access.Hits] using hstores.hit
  · rintro u i v ⟨d, cost, hops⟩ hl ⟨hcache, hshape, hcalls', xs, log, hpush⟩
    have hi := lt_of_range_eq hl
    have hline : (d.line a).qualifiedReader i = (c.line a).qualifiedReader i := hpush.qualified
    obtain ⟨st, hok, hc, hs, hnew⟩ := exists_pushBody pid home cost hops hgeo
      (h.congr hcache hshape) fun hqual => hq i (hline ▸ hqual) hi
    rw [hok]
    refine ⟨hc.trans hcache, hs, fun j b hj => ?_, (ensures_pushBody hwrites hi hpush).of_ok hok⟩
    rcases hnew _ hj with hj | hj
    · exact hcalls' j b hj
    · cases hj

/-- **A handler where nothing overflows**: in the adaptive protocol the last
writer has its bit, and qualified readers have accessed the address. -/
theorem exists_handled (hgeo : 2 ≤ cfg.numSets * cfg.lineSize)
    (hn : c.coherence.numProcessors ≤ 32) (hx : x.pid < c.coherence.numProcessors)
    (hinv : (c.coherence.entries x.addr).Inv c.coherence.rules last)
    (h : Stocked cfg t c) (hquiet : ∀ i b, .invalidate i b ∉ c.coherence.calls)
    (hw : c.coherence.detector = true → ∀ w, (c.coherence.entries x.addr).writer = some w →
      w ∈ (c.coherence.entries x.addr).sharers)
    (hq : c.coherence.detector = true → ∀ i, (c.line x.addr).qualifiedReader i = true →
      i < c.coherence.numProcessors → ∃ y ∈ t, y.pid = i ∧ y.addr = x.addr) :
    ∃ c' charge, c.handle x = .ok (c', charge) ∧ Handled x c c' charge.response := by
  by_cases hcalls : x.kind = .store ∧ CallsBack c.coherence x.pid x.addr
  · obtain ⟨kind, pid, a⟩ := x
    obtain ⟨rfl, hcalls⟩ := hcalls
    exact exists_handled_of_callsBack hgeo hn hx hinv hcalls h hquiet
      (hw hcalls.1 pid hcalls.2.2) (hq hcalls.1)
  · obtain ⟨m', charge, log, hok, hsim, hhit⟩ := exists_handle (not_and.mp hcalls) hn hx hinv
    exact ⟨{ c with coherence := m' }, charge, hok, rfl, rfl, rfl, hsim.entries, hhit⟩

/-- What an access leaves where nothing overflows. -/
structure Settled (cfg : Config) (detector : Bool) (t : List Access) (x : Access)
    (c c₁ c' : Controller) (response : AccessType) : Prop where
  cache : c'.cache = c₁.cache
  stocked : Stocked cfg (t ++ [x]) c'
  tracks : Tracks cfg.numProcessors detector (t ++ [x]) c'.coherence
  entries : c'.coherence.entries = x.event.apply c.coherence.rules c.coherence.entries
  hit : response = .cacheHit ↔ x.Hits c.coherence.rules (c.coherence.entries x.addr)

/-- **One access where nothing overflows**, from the end of its line
fetch. -/
theorem exists_settled {detector : Bool} (hgeo : 2 ≤ cfg.numSets * cfg.lineSize)
    (hx : x.pid < cfg.numProcessors) (hfits : cfg.Fits (t ++ [x]))
    (ht : Tracks cfg.numProcessors detector t c.coherence) (h : Stocked cfg t c)
    (hw : detector = true → ∀ w, (c.coherence.entries x.addr).writer = some w →
      w ∈ (c.coherence.entries x.addr).sharers)
    (hq : detector = true → ∀ i < cfg.numProcessors, (c.line x.addr).qualifiedReader i = true →
      ∃ y ∈ t, y.pid = i ∧ y.addr = x.addr)
    (hfetch : c.clearCalls.fetchCacheLine x.pid x.addr true = .ok c₁) :
    ∃ c' charge, c₁.handle x = .ok (c', charge) ∧
      Settled cfg detector t x c c₁ c' charge.response := by
  have hn := cfg.numProcessors_le
  obtain ⟨hs₁, hnum, hdet, hdir, hquiet⟩ := (ensures_stocked hgeo h hfits).of_ok hfetch
  -- the fetch displaces nothing, so the directory is as before it
  have hline : c₁.line x.addr = c.line x.addr := congrFun hdir x.addr
  have hentries : c₁.coherence.entries = c.coherence.entries := by
    unfold DirMsi.entries
    rw [hdir]
  have hrules : c₁.coherence.rules = c.coherence.rules := by
    rw [DirMsi.rules, DirMsi.rules, hnum, hdet]
  have hnum' : c₁.coherence.numProcessors = cfg.numProcessors := hnum.trans ht.numProcessors
  have hdet' : c₁.coherence.detector = detector := hdet.trans ht.detector
  have hinv : (c₁.coherence.entries x.addr).Inv c₁.coherence.rules (lastStore t x.addr) := by
    rw [hentries, hrules]
    exact ht.inv x.addr
  obtain ⟨c', charge, hok, hhandled⟩ := exists_handled hgeo (hnum' ▸ hn) (hnum' ▸ hx) hinv hs₁
    hquiet (fun hd => hentries ▸ hw (hdet'.symm.trans hd)) fun hd i hi hlt => by
      obtain ⟨y, hy, hrest⟩ := hq (hdet'.symm.trans hd) i (hnum' ▸ hlt) (hline ▸ hi)
      exact ⟨y, List.mem_append_left _ hy, hrest⟩
  refine ⟨c', charge, hok, hhandled.cache, hs₁.congr hhandled.cache ?_, ?_, ?_, ?_⟩
  · exact hs₁.shaped.congr hhandled.offsetNumBits hhandled.tagMask
  · have hstep : c.step x = .ok (c', ⟨x, charge, c'.coherence.calls⟩) := by
      rw [step_eq, hfetch, ok_bind, hok, ok_bind]
    obtain ⟨pre, post, hstepped⟩ := (ensures_step hn ht hx).of_ok hstep
    exact hstepped.tracks ht hx
  · rw [hhandled.entries, hentries, hrules]
  · rw [hhandled.hit, hentries, hrules]

end Controller

/-! ## The two protocols, side by side -/

namespace Protocol

variable {P A ρ : Type*} [DecidableEq P] {R R' : Rules P ρ} {e e' : Entry P ρ} {x : Event P A}
variable {w : P}

/-- The baseline's sharers stay among the adaptive ones. -/
theorem sharers_onEntry_subset (hR : R.adaptive = false) (hx : ∀ p a, x ≠ .evict p a)
    (h : e.sharers ⊆ e'.sharers) : (x.onEntry R e).sharers ⊆ (x.onEntry R' e').sharers := by
  intro i hi
  cases x with
  | evict p a => exact absurd rfl (hx p a)
  | read p a =>
    rcases (Entry.mem_sharers_read R).mp hi with hi | hi
    · exact (Entry.mem_sharers_read R').mpr (Or.inl hi)
    · exact (Entry.mem_sharers_read R').mpr (Or.inr (h hi))
  | store p a =>
    rcases (Entry.mem_sharers_store R).mp hi with hi | hi
    · exact (Entry.mem_sharers_store R').mpr (Or.inl hi)
    · rw [hi.1] at hR
      cases hR

/-- Where nothing is evicted the adaptive last writer keeps its copy. -/
theorem writer_mem_onEntry (hR : R.adaptive = true) (hx : ∀ p a, x ≠ .evict p a)
    (h : e.writer = some w → w ∈ e.sharers) (hw : (x.onEntry R e).writer = some w) :
    w ∈ (x.onEntry R e).sharers := by
  cases x with
  | evict p a => exact absurd rfl (hx p a)
  | read p a =>
    rw [Event.onEntry, Entry.read_writer] at hw
    exact (Entry.mem_sharers_read R).mpr (Or.inr (h hw))
  | store p a =>
    rw [Event.onEntry, Entry.store_writer] at hw
    refine (Entry.mem_sharers_store R).mpr (Or.inl ?_)
    split at hw
    · exact (Option.some.inj hw).symm
    · rename_i hover
      by_contra hne
      refine hover (Or.inr ⟨hR, fun hp => hne ?_⟩)
      exact Option.some.inj (hw.symm.trans hp)

end Protocol

open Controller

variable {cfg : Config} {c d : Controller} {t : List Access} {x : Access}

/-- **The two runs, as far as they got**: one cache, and in the adaptive
directory every bit of the baseline's. -/
structure Alongside (cfg : Config) (t : List Access) (c d : Controller) : Prop where
  cache : d.cache = c.cache
  shaped : d.Shaped cfg
  stocked : Stocked cfg t c
  baseline : Tracks cfg.numProcessors false t c.coherence
  adaptive : Tracks cfg.numProcessors true t d.coherence
  readers : ∀ a i, i < cfg.numProcessors →
    DirectoryLine.count (d.coherence.entries a).reads i ≠ 0 → ∃ y ∈ t, y.pid = i ∧ y.addr = a
  writers : ∀ a w, (d.coherence.entries a).writer = some w → w ∈ (d.coherence.entries a).sharers
  sharers : ∀ a, (c.coherence.entries a).sharers ⊆ (d.coherence.entries a).sharers

theorem alongside_start : Alongside cfg [] (cfg.start false) (cfg.start true) where
  cache := rfl
  shaped := shaped_start
  stocked := stocked_start
  baseline := tracks_start
  adaptive := tracks_start
  readers a i _ hne := by
    rw [entries_start] at hne
    exact absurd DirectoryLine.count_zero hne
  writers a w hw := by
    rw [entries_start] at hw
    cases hw
  sharers a := by
    rw [entries_start, entries_start]

/-- An access's event is no eviction. -/
theorem Access.event_ne_evict (p : ℕ) (a : Addr) : x.event ≠ .evict p a := by
  unfold Access.event
  split <;> exact fun h => by cases h

/-- The event of an access, on both directories. -/
theorem Alongside.apply {c₁ d₁ c' d' : Controller} {y z : AccessType} (h : Alongside cfg t c d)
    (hn : cfg.numProcessors ≤ 16) (hx : x.pid < cfg.numProcessors) (hsame : c₁.SameCaches d₁)
    (hc : Settled cfg false t x c c₁ c' y) (hd : Settled cfg true t x d d₁ d' z) :
    Alongside cfg (t ++ [x]) c' d' := by
  have hself : ∀ (R : Rules ℕ (BitVec 64)) D,
      x.event.apply R D x.addr = x.event.onEntry R (D x.addr) := by
    intro R D
    simp [Event.apply]
  have hne : ∀ (R : Rules ℕ (BitVec 64)) D a, a ≠ x.addr → x.event.apply R D a = D a := by
    intro R D a ha
    simp [Event.apply, ha]
  refine ⟨hd.cache.trans (hsame.cache.trans hc.cache.symm), hd.stocked.shaped, hc.stocked,
    hc.tracks, hd.tracks, fun a i hi hcount => ?_, fun a w hw => ?_, fun a => ?_⟩
  · rcases eq_or_ne a x.addr with rfl | ha
    · rw [hd.entries, hself] at hcount
      rcases count_onEntry rfl rfl (by omega) (h.adaptive.packed hn _) hcount with hold | rfl
      · obtain ⟨y, hy, hrest⟩ := h.readers _ i hi hold
        exact ⟨y, List.mem_append_left _ hy, hrest⟩
      · exact ⟨x, by simp, rfl, rfl⟩
    · rw [hd.entries, hne _ _ _ ha] at hcount
      obtain ⟨y, hy, hrest⟩ := h.readers a i hi hcount
      exact ⟨y, List.mem_append_left _ hy, hrest⟩
  · rw [hd.entries] at hw ⊢
    rcases eq_or_ne a x.addr with rfl | ha
    · rw [hself] at hw ⊢
      exact writer_mem_onEntry h.adaptive.detector Access.event_ne_evict (h.writers _ w) hw
    · rw [hne _ _ _ ha] at hw ⊢
      exact h.writers a w hw
  · rw [hc.entries, hd.entries]
    rcases eq_or_ne a x.addr with rfl | ha
    · rw [hself, hself]
      exact sharers_onEntry_subset h.baseline.detector Access.event_ne_evict (h.sharers _)
    · rw [hne _ _ _ ha, hne _ _ _ ha]
      exact h.sharers a

/-- What a hit of the baseline is to the adaptive directory. -/
theorem Access.Hits.of_baseline {R R' : Rules ℕ (BitVec 64)} {e e' : Entry ℕ (BitVec 64)}
    (hx : x.Hits R e) (hR : R.adaptive = false) (h : e.sharers ⊆ e'.sharers) : x.Hits R' e' := by
  rcases hx with hmem | ⟨-, hs, hover⟩
  · exact Or.inl (h hmem)
  · rcases hover with hs' | ⟨had, -⟩
    · exact absurd hs' hs
    · rw [hR] at had
      cases had

/-- A qualified reader has read. -/
theorem Alongside.qualified (h : Alongside cfg t c d) (hn : cfg.numProcessors ≤ 16) {a : Addr}
    {i : ℕ} (hi : i < cfg.numProcessors) (hq : (d.line a).qualifiedReader i = true) :
    ∃ y ∈ t, y.pid = i ∧ y.addr = a := by
  have hcount : 2 ≤ DirectoryLine.count (d.coherence.entries a).reads i :=
    (DirectoryLine.qualifiedReader_iff (by omega) (h.adaptive.packed hn a)).mp hq
  exact h.readers a i hi (by omega)

/-- **One access, in both runs.** -/
theorem Alongside.step (h : Alongside cfg t c d) (hgeo : 2 ≤ cfg.numSets * cfg.lineSize)
    (hn : cfg.numProcessors ≤ 16) (hx : x.pid < cfg.numProcessors)
    (hfits : cfg.Fits (t ++ [x])) :
    Agree (fun r r' => Alongside cfg (t ++ [x]) r.1 r'.1 ∧
        (r.2.response = .cacheHit → r'.2.response = .cacheHit))
      (c.step x) (d.step x) := by
  have hshape := h.stocked.shaped
  have hfetch : Agree _ (c.clearCalls.fetchCacheLine x.pid x.addr true)
      (d.clearCalls.fetchCacheLine x.pid x.addr true) := SameCaches.agree_fetchCacheLine
    ⟨h.cache, h.shaped.offsetNumBits.trans hshape.offsetNumBits.symm,
      h.shaped.tagMask.trans hshape.tagMask.symm⟩
  rw [step_eq, step_eq]
  refine hfetch.bind fun c₁ d₁ hc₁ hd₁ hsame => ?_
  obtain ⟨c', charge, hc', hc⟩ := exists_settled hgeo hx hfits h.baseline h.stocked
    (fun hfalse => by cases hfalse) (fun hfalse => by cases hfalse) hc₁
  obtain ⟨d', charge', hd', hd⟩ := exists_settled hgeo hx hfits h.adaptive
    (h.stocked.congr h.cache h.shaped) (fun _ => h.writers x.addr)
    (fun _ i hi hq => h.qualified hn hi hq) hd₁
  rw [hc', hd', ok_bind, ok_bind]
  refine ⟨h.apply hn hx hsame.1 hc hd, fun hhit => hd.hit.mpr ?_⟩
  exact (hc.hit.mp hhit).of_baseline h.baseline.detector (h.sharers x.addr)

/-- **Pushing only turns misses into hits** where no set overflows: the
adaptive run stops if the baseline's does, and hits wherever the baseline
hits. -/
theorem hit_of_baseline_hit (cfg : Config) (t : List Access)
    (hgeo : 2 ≤ cfg.numSets * cfg.lineSize) (hn : cfg.numProcessors ≤ 16) (hv : cfg.Valid t)
    (hfits : cfg.Fits t) :
    Agree (List.Forall₂ fun y z => y = .cacheHit → z = .cacheHit) (cfg.responses false t)
      (cfg.responses true t) := by
  have hrun : Agree (fun r r' => Alongside cfg t r.1 r'.1 ∧ List.Forall₂
      (fun r r' : Report => r.response = .cacheHit → r'.response = .cacheHit) r.2 r'.2)
      (cfg.run false t) (cfg.run true t) := by
    refine agree_run alongside_start fun u x v c d ht h => ?_
    have ht' : t = (u ++ [x]) ++ v := by simpa using ht
    exact h.step hgeo hn (hv x (by simp [ht])) (ht' ▸ hfits).append
  refine hrun.bind fun r r' _ _ hr => ?_
  exact List.forall₂_map_left_iff.mpr (List.forall₂_map_right_iff.mpr hr.2)

/-- A consumer that misses twice and is pushed to: its third load, which
misses in the baseline, hits. -/
theorem hit_of_baseline_hit_pair :
    let t : List Access := [⟨.store, 0, 4⟩, ⟨.load, 1, 4⟩, ⟨.store, 0, 4⟩, ⟨.load, 1, 4⟩,
      ⟨.store, 0, 4⟩, ⟨.load, 1, 4⟩]
    ∃ ys zs, Config.pair.responses false t = .ok ys ∧ Config.pair.responses true t = .ok zs ∧
      ys.getLast? = some .cacheMiss ∧ zs.getLast? = some .cacheHit ∧
      List.Forall₂ (fun y z => y = .cacheHit → z = .cacheHit) ys zs := by
  intro t
  obtain ⟨ys, hok, hys⟩ := Ensures.exists_ok (P := fun ys => ys.getLast? = some .cacheMiss)
    (by decide +kernel : Ensures _ _ (Config.pair.responses false t))
  obtain ⟨zs, hok', hzs⟩ := Ensures.exists_ok (P := fun zs => zs.getLast? = some .cacheHit)
    (by decide +kernel : Ensures _ _ (Config.pair.responses true t))
  have hv : Config.pair.Valid t := by decide
  have hfits : Config.pair.Fits t := by decide
  refine ⟨ys, zs, hok, hok', hys, hzs, ?_⟩
  -- nothing of the trace is evaluated from here on
  generalize t = t' at *
  obtain ⟨zs', hzs', hhits⟩ := Agree.of_ok
    (hit_of_baseline_hit .pair t' (by decide) (by decide) hv hfits) hok
  obtain rfl := Except.ok.inj (hok'.symm.trans hzs')
  exact hhits

end AdaptiveMsi
