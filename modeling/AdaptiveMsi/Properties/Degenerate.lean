import AdaptiveMsi.Controller.Lockstep
import AdaptiveMsi.Properties.Directory
/-!
# Without sharing

Where nobody but a line's last writer qualifies as its reader there is
nothing to push, and one would have the adaptive protocol do what
write-invalidate does. It does so for plain stores; a handoff reports a
hit and pays for the request twice, and the last writer's own store
clears the other copies without a hop.
-/

namespace AdaptiveMsi

open Machine Protocol DirMsi Controller

variable {cfg : Config} {t : List Access} {x : Access} {c d : Controller}

/-- Nobody but the last writer qualifies as a reader. -/
def Unshared (cfg : Config) (c : Controller) : Prop :=
  ∀ a, ∀ p < cfg.numProcessors, (c.line a).isLastWriter p = false →
    (c.line a).qualifiedReader p = false

/-- A store is plain in the state its handler is called in. -/
def PlainStore (c : Controller) (x : Access) : Prop :=
  x.kind = .store → Ensures (fun _ => True) (fun c₁ => c₁.Plain x.pid x.addr)
    (c.clearCalls.fetchCacheLine x.pid x.addr true)

instance (c : Controller) (x : Access) : Decidable (PlainStore c x) := by
  unfold PlainStore
  infer_instance

/-- **The two runs, in lockstep.** -/
structure Lockstep (cfg : Config) (t : List Access) (c d : Controller) : Prop where
  same : c.SameCaches d
  alike : c.coherence.Alike d.coherence
  baseline : Tracks cfg.numProcessors false t c.coherence
  adaptive : Tracks cfg.numProcessors true t d.coherence

theorem lockstep_start : Lockstep cfg [] (cfg.start false) (cfg.start true) where
  same := ⟨rfl, rfl, rfl⟩
  alike := ⟨rfl, fun _ => ⟨rfl, rfl⟩⟩
  baseline := tracks_start
  adaptive := tracks_start

/-- The line fetch of the last writer leaves who qualifies. -/
theorem Unshared.fetched {c₁ : Controller} {pre : List (Event ℕ Addr)} {calls : List Call}
    {n : ℕ} {detector : Bool} (h : Unshared cfg c) (hn : cfg.numProcessors ≤ 32)
    (hx : x.pid < cfg.numProcessors)
    (hf : Fetched n detector t x c.coherence pre calls c₁.coherence)
    (hw : (c₁.line x.addr).isLastWriter x.pid = true) {i : ℕ} (hi : i < cfg.numProcessors)
    (hne : i ≠ x.pid) : (c₁.line x.addr).qualifiedReader i = false := by
  have hreads : (c₁.line x.addr).readCountVector = (c.line x.addr).readCountVector := hf.fewer.reads
  have hwriter : (c.line x.addr).writer = some x.pid :=
    hf.fewer.writer.symm.trans ((DirectoryLine.writer_eq_some (by omega)).mpr hw)
  have hother : (c.line x.addr).isLastWriter i = false := by
    rw [Bool.eq_false_iff]
    intro hlast
    have hi' := (DirectoryLine.writer_eq_some (by omega)).mpr hlast
    exact hne (Option.some.inj (hi'.symm.trans hwriter))
  rw [DirectoryLine.qualifiedReader, hreads]
  exact h x.addr i hi hother

/-- **One access, in both runs.** -/
theorem Lockstep.step (h : Lockstep cfg t c d) (hx : x.pid < cfg.numProcessors)
    (hun : Unshared cfg d) (hplain : PlainStore d x) :
    Agree (fun r r' => Lockstep cfg (t ++ [x]) r.1 r'.1 ∧ r'.2.charge = r.2.charge)
      (c.step x) (d.step x) := by
  have hn := cfg.numProcessors_le
  have h32 : x.pid < 32 := by omega
  have hcstep := ensures_step hn h.baseline hx
  have hdstep := ensures_step hn h.adaptive hx
  -- each run is tracked by itself; what is left is how the two compare
  suffices hcharge : Agree (fun r r' => (r.1.SameCaches r'.1 ∧ r.1.coherence.Alike r'.1.coherence) ∧
      r'.2.charge = r.2.charge) (c.step x) (d.step x) by
    refine hcharge.mono fun r r' hr hr' hrel => ⟨⟨hrel.1.1, hrel.1.2, ?_, ?_⟩, hrel.2⟩
    · obtain ⟨pre, post, hstepped⟩ := hcstep.of_ok hr
      exact hstepped.tracks h.baseline hx
    · obtain ⟨pre, post, hstepped⟩ := hdstep.of_ok hr'
      exact hstepped.tracks h.adaptive hx
  have hclear : c.clearCalls.SameCaches d.clearCalls :=
    ⟨h.same.cache, h.same.offsetNumBits, h.same.tagMask⟩
  have hfetch : Agree _ (c.clearCalls.fetchCacheLine x.pid x.addr true)
      (d.clearCalls.fetchCacheLine x.pid x.addr true) := agree_fetchCacheLine_alike hclear
    ⟨h.alike.numProcessors, h.alike.lines⟩ h32 h.baseline.detector h.baseline.inv
  rw [step_eq, step_eq]
  refine hfetch.bind fun c₁ d₁ hc₁ hd₁ hrel => ?_
  obtain ⟨pre, calls, hcf⟩ := (ensures_fetched hn h.baseline hx).of_ok hc₁
  obtain ⟨pre', calls', hdf⟩ := (ensures_fetched hn h.adaptive hx).of_ok hd₁
  have hhandle : Agree (fun r r' => r.1.SameCaches r'.1 ∧ r.1.coherence.Alike r'.1.coherence ∧
      r'.2 = r.2) (c₁.handle x) (d₁.handle x) := by
    have hq := fun hw i => hun.fetched (i := i) hn hx hdf hw
    obtain ⟨kind, pid, a⟩ := x
    cases kind with
    | load =>
      refine hrel.2.agree_processRead.bind fun r r' _ _ hr => ?_
      exact ⟨⟨hrel.1.cache, hrel.1.offsetNumBits, hrel.1.tagMask⟩, hr.1, hr.2⟩
    | store =>
      -- nobody else qualifies, and the store is plain
      exact agree_processWrite hrel.1 hrel.2 hcf.detector hdf.detector (hdf.numProcessors ▸ hn)
        (hdf.numProcessors ▸ hx) hdf.inv ((hplain rfl).of_ok hd₁)
        (hdf.numProcessors ▸ hq)
  refine hhandle.bind fun r r' _ _ hr => ⟨⟨hr.1, hr.2.1⟩, hr.2.2⟩

/-- **Without sharing the two protocols agree on plain stores**: access by
access in response, cost and hops, and in the state and the sharers of
every line. -/
theorem degenerates (cfg : Config) (t : List Access) (hv : cfg.Valid t)
    (hun : cfg.Throughout true t (Unshared cfg)) (hplain : cfg.Respects true t PlainStore)
    (u v : List Access) (ht : t = u ++ v) :
    Agree (fun r r' => r'.2.map Report.charge = r.2.map Report.charge ∧ ∀ a,
        (r'.1.line a).state = (r.1.line a).state ∧
        (r'.1.line a).sharerVector = (r.1.line a).sharerVector)
      (cfg.run false u) (cfg.run true u) := by
  have hrun : Agree (fun r r' => ((∃ rs, cfg.run true u = .ok (r'.1, rs)) ∧
      Lockstep cfg u r.1 r'.1) ∧ List.Forall₂ (fun y z : Report => z.charge = y.charge) r.2 r'.2)
      (cfg.run false u) (cfg.run true u) := by
    refine agree_run (R := fun w c d => (∃ rs, cfg.run true w = .ok (d, rs)) ∧ Lockstep cfg w c d)
      ⟨⟨[], rfl⟩, lockstep_start⟩ fun w x w' c d hu hcd => ?_
    obtain ⟨⟨rs, hd⟩, hlock⟩ := hcd
    have htw : t = w ++ x :: (w' ++ v) := by simp [ht, hu]
    have hx : x.pid < cfg.numProcessors := hv x (by simp [htw])
    refine (hlock.step hx (hun w _ d rs htw hd) (hplain w x _ d rs htw hd)).mono
      fun r r' _ hr' hrel => ⟨⟨⟨rs ++ [r'.2], ?_⟩, hrel.1⟩, hrel.2⟩
    exact run_snoc_eq_ok.mpr ⟨d, rs, r'.2, hd, hr', rfl⟩
  refine hrun.mono fun r r' _ _ hrel => ⟨?_, fun a => ?_⟩
  · have hcharges := hrel.2
    generalize r.2 = ys, r'.2 = zs at hcharges
    induction hcharges with
    | nil => rfl
    | cons hyz _ ih => simp [hyz, ih]
  · have hline := hrel.1.2.alike.lines a
    exact ⟨hline.state, hline.sharerVector⟩

/-- Only addresses that were accessed can have a qualified reader. -/
theorem unshared_of_accessed {u : List Access} {rs : List Report} (hv : cfg.Valid u)
    (hrun : cfg.run true u = .ok (c, rs))
    (h : ∀ x ∈ u, ∀ p < cfg.numProcessors, (c.line x.addr).isLastWriter p = false →
      (c.line x.addr).qualifiedReader p = false) : Unshared cfg c := by
  intro a p hp hw
  by_cases ha : ∃ x ∈ u, x.addr = a
  · obtain ⟨x, hx, rfl⟩ := ha
    exact h x hx p hp hw
  · have hzero : (c.line a).readCountVector = 0 :=
      reads_eq_zero hv hrun fun x hx hxa => ha ⟨x, hx, hxa⟩
    simp [DirectoryLine.qualifiedReader, hzero]

/-- A finite trace can be checked. -/
theorem throughout_unshared (hv : cfg.Valid t)
    (h : ∀ u ∈ t.inits, Ensures (fun _ => True)
      (fun s => ∀ x ∈ u, ∀ p < cfg.numProcessors, (s.1.line x.addr).isLastWriter p = false →
        (s.1.line x.addr).qualifiedReader p = false) (cfg.run true u)) :
    cfg.Throughout true t (Unshared cfg) := by
  intro u v c rs ht hrun
  have hu : u ∈ t.inits := (List.mem_inits u t).mpr ⟨v, ht.symm⟩
  exact unshared_of_accessed (fun x hx => hv x (by simp [ht, hx])) hrun ((h u hu).of_ok hrun)

/-- A last writer's stores with a reader at home. -/
theorem degenerates_pair :
    Agree (fun r r' => r'.2.map Report.charge = r.2.map Report.charge ∧ ∀ a,
        (r'.1.line a).state = (r.1.line a).state ∧
        (r'.1.line a).sharerVector = (r.1.line a).sharerVector)
      (Config.pair.run false [⟨.store, 0, 5⟩, ⟨.load, 1, 5⟩, ⟨.store, 0, 5⟩])
      (Config.pair.run true [⟨.store, 0, 5⟩, ⟨.load, 1, 5⟩, ⟨.store, 0, 5⟩]) := by
  refine degenerates .pair [⟨.store, 0, 5⟩, ⟨.load, 1, 5⟩, ⟨.store, 0, 5⟩] (by decide)
    (throughout_unshared (by decide) (by decide +kernel)) ?_ _ [] rfl
  have hfirst : Ensures (fun _ => False) (fun s => PlainStore s.1 ⟨.store, 0, 5⟩)
      (Config.pair.run true []) := by decide
  have hlast : Ensures (fun _ => False) (fun s => PlainStore s.1 ⟨.store, 0, 5⟩)
      (Config.pair.run true [⟨.store, 0, 5⟩, ⟨.load, 1, 5⟩]) := by decide
  have hone : Config.pair.Respects true [⟨.store, 0, 5⟩] PlainStore :=
    respects_nil.snoc (t := []) fun c rs hrun => by
      have hplain := hfirst.of_ok hrun
      exact hplain
  have htwo : Config.pair.Respects true [⟨.store, 0, 5⟩, ⟨.load, 1, 5⟩] PlainStore :=
    hone.snoc fun c rs _ hk => by cases hk
  refine htwo.snoc fun c rs hrun => ?_
  have hplain := hlast.of_ok hrun
  exact hplain

/-- **A handoff without a reader in sight is a hit.** Two processors store
to one address; nobody reads, and the second store misses in the baseline
alone. -/
theorem handoff_hits :
    Config.pair.Throughout true [⟨.store, 0, 4⟩, ⟨.store, 1, 4⟩] (Unshared .pair) ∧
      Config.pair.responses false [⟨.store, 0, 4⟩, ⟨.store, 1, 4⟩] = .ok [.cacheMiss, .cacheMiss] ∧
      Config.pair.responses true [⟨.store, 0, 4⟩, ⟨.store, 1, 4⟩] = .ok [.cacheMiss, .cacheHit] :=
  ⟨throughout_unshared (by decide) (by decide +kernel), rfl, rfl⟩

end AdaptiveMsi
