import AdaptiveMsi.Common.Shards
import AdaptiveMsi.Properties.Commute
/-!
# The sets of the caches are machines of their own

An access works on one set of every cache and on the entries of that
set's addresses, so a trace can be cut by the set index and each part
simulated alone: the parts give the whole run's reports, its caches and
its directory, and their counters add up to its counters.
-/

namespace AdaptiveMsi

open Machine

namespace Config

variable {cfg : Config} {a : Addr}

/-- The accesses to set `i`. -/
def shard (cfg : Config) (i : ℕ) (t : List Access) : List Access :=
  t.filter fun x => cfg.index x.addr = i

/-- An index is one of the sets'. -/
theorem index_lt : cfg.index a < cfg.numSets := by
  have hlt : cfg.index a < 2 ^ Nat.log2 cfg.numSets := splits_start.getSetIndex_lt
  have hle := Nat.log2_self_le (Nat.ne_of_gt cfg.numSets_pos)
  omega

end Config

namespace Controller

variable {cfg : Config} {c d p : Controller} {i j : ℕ} {x : Access} {r r' : Controller × Report}

/-- The same part, laid over two controllers. -/
theorem Laid.sameAt {c' d' : Controller} (hc : Laid cfg i c p c') (hd : Laid cfg i d p d')
    (hrules : d.coherence.numProcessors = c.coherence.numProcessors ∧
      d.coherence.detector = c.coherence.detector) (hzero : d.line 0 = .empty) :
    SameAt cfg i c' d' where
  cache q := by rw [hd.eq, hc.eq, overlay_cache, overlay_cache, if_pos rfl, if_pos rfl]
  line a ha := by rw [hd.eq, hc.eq, overlay_line, overlay_line, if_pos ha, if_pos ha]
  zero := by
    rw [hd.eq, overlay_line]
    split
    · exact hd.zero
    · exact hzero
  rules := by
    rw [hd.eq, hc.eq]
    exact hrules
  shaped := by
    rw [hd.eq]
    exact hd.baseShaped.congr rfl rfl

/-- The other sets are those of the controller beneath. -/
theorem Laid.sameAt_of_ne {c' : Controller} (hc : Laid cfg i c p c') (hij : j ≠ i)
    (h : SameAt cfg j c d) : SameAt cfg j c' d where
  cache q := by
    rw [hc.eq, overlay_cache, if_neg hij]
    exact h.cache q
  line a ha := by
    rw [hc.eq, overlay_line, if_neg fun hi => hij (ha.symm.trans hi)]
    exact h.line a ha
  zero := h.zero
  rules := by
    rw [hc.eq]
    exact h.rules
  shaped := h.shaped

/-- An access, in two controllers that have its set in common: one part is
laid over both. -/
theorem SameAt.agree_laid (h : Housed cfg c) (hd : SameAt cfg (cfg.index x.addr) c d)
    (hx : x.addr ≠ 0) :
    Agree (fun r r' => r'.2 = r.2 ∧ ∃ p, Laid cfg (cfg.index x.addr) c p r.1 ∧
      Laid cfg (cfg.index x.addr) d p r'.1) (c.step x) (d.step x) := by
  have hself := (SameAt.refl h).agree_step h hx
  have hother := hd.agree_step h hx
  cases hp : c.closed.step x with
  | error e =>
    rw [hp] at hself hother
    rw [hself.error_left, hother.error_left]
    exact agree_error
  | ok p =>
    obtain ⟨r, hr, hlaid, hreport⟩ := hself.of_ok hp
    obtain ⟨r', hr', hlaid', hreport'⟩ := hother.of_ok hp
    rw [hr, hr']
    exact ⟨hreport'.trans hreport.symm, p.1, hlaid, hlaid'⟩

/-- **The simulator falls apart into its sets.** -/
theorem shards (cfg : Config) : Shards Controller.step (fun x => cfg.index x.addr)
    (fun r => cfg.index r.access.addr) (Housed cfg) (fun x => x.addr ≠ 0) (SameAt cfg) where
  keep _ _ _ hs hx hstep := housed_step hs hx hstep
  key_eq c x r hstep := by rw [access_of_step hstep]
  near c d x hc hx hd := (hd.agree_laid hc hx).mono fun r r' _ _ ⟨hreport, p, hlaid, hlaid'⟩ =>
    ⟨hlaid.sameAt hlaid' hd.rules hd.zero, hreport⟩
  far c d x r j hc hx hstep hj hd := by
    obtain ⟨r', hr', -, p, hlaid, -⟩ := ((SameAt.refl hc).agree_laid hc hx).of_ok hstep
    exact hlaid.sameAt_of_ne hj hd

/-- Counters of the profile add up. -/
theorem adds_counter (cfg : Config) {w : Profile → ℕ}
    (hw : ∀ p q : Profile, w (p.add q) = w p + w q) :
    Shards.Adds Controller.step (fun x => cfg.index x.addr) (Housed cfg) (fun x => x.addr ≠ 0)
      (SameAt cfg) fun c => w c.coherence.profiles := by
  intro c d x r r' hc hx hd hstep hstep'
  obtain ⟨r₁, hr₁, -, p, hlaid, hlaid'⟩ := (hd.agree_laid hc hx).of_ok hstep
  cases hstep'.symm.trans hr₁
  have hprofiles : r.1.coherence.profiles = p.coherence.profiles.add c.coherence.profiles := by
    rw [hlaid.eq]
    rfl
  have hprofiles' : r'.1.coherence.profiles = p.coherence.profiles.add d.coherence.profiles := by
    rw [hlaid'.eq]
    rfl
  beta_reduce
  rw [hprofiles, hprofiles', hw, hw]
  omega

end Controller

variable {cfg : Config} {detector : Bool} {t : List Access}

/-- **What the shards of a run have to do with it**: `shard i` is what the
accesses to set `i` lead to alone. -/
structure FromShards (cfg : Config) (detector : Bool) (t : List Access) (shard : ℕ → Controller)
    (c : Controller) (rs : List Report) : Prop where
  runs : ∀ i, cfg.run detector (cfg.shard i t) =
    .ok (shard i, rs.filter fun r => cfg.index r.access.addr = i)
  cache : ∀ p i, c.cache p i = (shard i).cache p i
  line : ∀ a, c.line a = (shard (cfg.index a)).line a
  profiles : ∀ f, AccessStat.Additive f → ∀ p, f (c.coherence.profiles.profiles p) =
    ∑ i ∈ Finset.range cfg.numSets, f ((shard i).coherence.profiles.profiles p)
  lineStat : ∀ f, AccessStat.Additive f → ∀ a, f (c.coherence.profiles.lineStat a) =
    ∑ i ∈ Finset.range cfg.numSets, f ((shard i).coherence.profiles.lineStat a)

/-- **A trace may be simulated set by set.** Of accesses to addresses other
than `0`, in either mode and in whatever order the sets are interleaved,
the run returns exactly if the run of every set's accesses does; each
access then answers as it does among the accesses to its own set, the
caches and the directory are the sets', and every counter is the sum of
the sets' counters. -/
theorem runs_in_shards (h0 : ∀ x ∈ t, x.addr ≠ 0) :
    ((∃ s, cfg.run detector t = .ok s) ↔ ∀ i, ∃ s, cfg.run detector (cfg.shard i t) = .ok s) ∧
      ∀ c rs, cfg.run detector t = .ok (c, rs) → ∃ shard, FromShards cfg detector t shard c rs := by
  have hshards := Controller.shards cfg
  have hstart : Housed cfg (cfg.start detector) := Controller.housed_start
  have hsame : ∀ i, Controller.SameAt cfg i (cfg.start detector) (cfg.start detector) :=
    fun i => .refl hstart
  have hall : ∀ c rs, cfg.run detector t = .ok (c, rs) →
      ∃ shard, FromShards cfg detector t shard c rs := by
    intro c rs hrun
    obtain ⟨shard, hruns, hsums⟩ := hshards.exists_shards hstart h0 hsame hrun
    have hsum : ∀ w : Profile → ℕ, (∀ p q : Profile, w (p.add q) = w p + w q) → w .new = 0 →
        w c.coherence.profiles =
          ∑ i ∈ Finset.range cfg.numSets, w (shard i).coherence.profiles := by
      intro w hw hzero
      have hadds := hsums _ (Controller.adds_counter cfg hw)
        (Finset.range cfg.numSets) fun x _ => Finset.mem_range.mpr Config.index_lt
      have hnew : w (cfg.start detector).coherence.profiles = 0 := hzero
      simpa [hnew] using hadds
    refine ⟨shard, fun i => (hruns i).1, fun p i => ((hruns i).2.cache p).symm,
      fun a => ((hruns _).2.line a rfl).symm, fun f hf p => ?_, fun f hf a => ?_⟩
    · exact hsum (fun q => f (q.profiles p)) (fun q q' => hf.add _ _) hf.zero
    · exact hsum (fun q => f (q.lineStat a)) (fun q q' => hf.add _ _) hf.zero
  refine ⟨⟨fun ⟨s, hrun⟩ i => ?_, hshards.exists_run hstart h0 hsame⟩, hall⟩
  obtain ⟨shard, h⟩ := hall s.1 s.2 hrun
  exact ⟨_, h.runs i⟩

/-- Two sets, a push to the one and an eviction from the other. -/
theorem runs_in_shards_halves :
    let t : List Access := [⟨.store, 0, 4⟩, ⟨.load, 1, 3⟩, ⟨.load, 1, 4⟩, ⟨.store, 1, 7⟩,
      ⟨.load, 1, 5⟩, ⟨.load, 1, 4⟩, ⟨.store, 0, 4⟩]
    ∃ c rs, Config.halves.run true t = .ok (c, rs) ∧
      ∃ shard, FromShards .halves true t shard c rs := by
  intro t
  have hrun : Ensures (fun _ => False) (fun _ => True) (Config.halves.run true t) := by decide
  obtain ⟨⟨c, rs⟩, hok, -⟩ := hrun.exists_ok
  exact ⟨c, rs, hok, (runs_in_shards (by decide)).2 c rs hok⟩

end AdaptiveMsi
