import AdaptiveMsi.Controller.Overlay
import AdaptiveMsi.Properties.Directory
/-!
# Accesses to different sets commute

With the accounts closed, what an access does is a matter of its own set
and of the entries of that set's addresses; and it does the same to every
controller with that set and these entries. Two accesses to different
sets leave each other's alone, so either order lays both results over
what was there.
-/

namespace AdaptiveMsi

open Machine

/-- Every line in use is in the set of its address, and nobody has touched
address `0`. -/
structure Housed (cfg : Config) (c : Controller) : Prop where
  zero : c.line 0 = .empty
  shaped : c.Shaped cfg
  within : ∀ p i, (c.cache p i).Within (cfg.index · = i)

/-- **The outcomes of two orders**: one state, up to the log of the last
access, and the reports the other way round. -/
structure Exchanged (r r' : Controller × List Report) : Prop where
  cache : r'.1.cache = r.1.cache
  directory : r'.1.coherence.directory = r.1.coherence.directory
  profiles : r'.1.coherence.profiles = r.1.coherence.profiles
  reports : r'.2 = r.2.reverse

namespace Controller

variable {cfg : Config} {c d p q : Controller} {i j : ℕ} {x y : Access} {r : Report}

/-- The controller with its accounts closed and no log. -/
def closed (c : Controller) : Controller :=
  { c with coherence := { c.coherence with profiles := .new, calls := [] } }

/-- `d` is `c` at set `i`. -/
structure SameAt (cfg : Config) (i : ℕ) (c d : Controller) : Prop where
  cache : ∀ p, d.cache p i = c.cache p i
  line : ∀ a, cfg.index a = i → d.line a = c.line a
  zero : d.line 0 = .empty
  rules : d.coherence.numProcessors = c.coherence.numProcessors ∧
    d.coherence.detector = c.coherence.detector
  shaped : d.Shaped cfg

theorem SameAt.refl (h : Housed cfg c) : SameAt cfg i c c :=
  ⟨fun _ => rfl, fun _ _ => rfl, h.zero, ⟨rfl, rfl⟩, h.shaped⟩

/-- Laying a set over a controller leaves its other sets alone. -/
theorem SameAt.laid_overlay (h : Housed cfg c) (hp : p.line 0 = .empty) (hij : i ≠ j) :
    SameAt cfg j c (p.overlay cfg i c) where
  cache _ := by
    rw [overlay_cache, if_neg hij.symm]
  line a ha := by
    rw [overlay_line, if_neg fun hai => hij (hai.symm.trans ha)]
  zero := by
    rw [overlay_line]
    split
    · exact hp
    · exact h.zero
  rules := ⟨rfl, rfl⟩
  shaped := h.shaped.congr rfl rfl

/-- A controller is its own closed copy, laid over it. -/
theorem SameAt.laid (h : Housed cfg c) (hd : SameAt cfg i c d) :
    Laid cfg i d c.closed d.clearCalls where
  eq := by
    have hcache : d.cache = fun p j => if j = i then c.cache p j else d.cache p j := by
      funext p j
      split
      · rename_i hj
        rw [hj]
        exact hd.cache p
      · rfl
    have hline : d.coherence.directory =
        fun a => if cfg.index a = i then c.coherence.directory a else d.coherence.directory a := by
      funext a
      split
      · rename_i ha
        exact hd.line a ha
      · rfl
    simp only [overlay, clearCalls, closed, DirMsi.overlay, Profile.new_add, ← hcache, ← hline]
  zero := h.zero
  rules := ⟨hd.rules.1.symm, hd.rules.2.symm⟩
  shaped := h.shaped.congr rfl rfl
  baseShaped := hd.shaped
  within p := h.within p i

/-- **An access is local to its set.** -/
theorem SameAt.agree_step (h : Housed cfg c) (hd : SameAt cfg (cfg.index x.addr) c d)
    (hx : x.addr ≠ 0) :
    Lays cfg (cfg.index x.addr) d (c.closed.step x) (d.step x) :=
  (hd.laid h).agree_step hd.zero rfl hx

/-- What is laid over a housed controller leaves it housed. -/
theorem Laid.housed (h : Laid cfg i c p d) (hc : Housed cfg c) : Housed cfg d where
  zero := by
    rw [h.eq, overlay_line]
    split
    · exact h.zero
    · exact hc.zero
  shaped := by
    rw [h.eq]
    exact hc.shaped.congr rfl rfl
  within q j := by
    rw [h.eq, overlay_cache]
    split
    · rename_i hj
      rw [hj]
      exact h.within q
    · exact hc.within q j

theorem housed_start {detector : Bool} : Housed cfg (cfg.start detector) where
  zero := rfl
  shaped := shaped_start
  within p i l hl hst := by
    have hempty : l = .empty := List.eq_of_mem_replicate hl
    simp [hempty, CacheLine.empty] at hst

theorem housed_step (h : Housed cfg c) (hx : x.addr ≠ 0) (hstep : c.step x = .ok (d, r)) :
    Housed cfg d := by
  have hlocal := (SameAt.refl h).agree_step h hx
  rw [hstep] at hlocal
  cases hclosed : c.closed.step x with
  | error e =>
    rw [hclosed] at hlocal
    exact hlocal.elim
  | ok p =>
    rw [hclosed] at hlocal
    exact hlocal.1.housed h

/-- Both results, in either order. -/
theorem exchanged_overlay {rx ry : Report} (hij : i ≠ j) :
    Exchanged (q.overlay cfg j (p.overlay cfg i c), [rx, ry])
      (p.overlay cfg i (q.overlay cfg j c), [ry, rx]) where
  cache := by
    funext k l
    simp only [overlay_cache]
    rcases eq_or_ne l i with rfl | hli
    · rw [if_pos rfl, if_neg hij, if_pos rfl]
    · rw [if_neg hli, if_neg hli]
  directory := by
    funext a
    have hline : ∀ d : Controller, d.coherence.directory a = d.line a := fun _ => rfl
    simp only [hline, overlay_line]
    rcases eq_or_ne (cfg.index a) i with hai | hai
    · rw [if_pos hai, if_neg fun haj => hij (hai.symm.trans haj), if_pos hai]
    · rw [if_neg hai, if_neg hai]
  profiles := Profile.add_left_comm
  reports := rfl

end Controller

variable {cfg : Config} {detector : Bool} {t : List Access} {c : Controller} {rs : List Report}
variable {x y : Access}

theorem housed_of_run (hv : cfg.Valid t) (h0 : ∀ x ∈ t, x.addr ≠ 0)
    (hrun : cfg.run detector t = .ok (c, rs)) : Housed cfg c := by
  refine Config.induction_of_run (I := fun _ _ c => Housed cfg c) hv hrun
    Controller.housed_start ?_
  intro u x v bs c c' r ht hx _ _ hI hstep
  exact Controller.housed_step hI (h0 x (by simp [ht])) hstep

/-- **Accesses to different sets commute.** In every state that accesses to
addresses other than `0` lead to, and in either mode, two accesses to
different sets do the same in both orders: each answers with the same
charge, and the caches, the directory and the counters end up the same. -/
theorem exchanged_of_index_ne (hv : cfg.Valid t) (h0 : ∀ x ∈ t, x.addr ≠ 0)
    (hrun : cfg.run detector t = .ok (c, rs))
    (hx : x.pid < cfg.numProcessors) (hy : y.pid < cfg.numProcessors)
    (hx0 : x.addr ≠ 0) (hy0 : y.addr ≠ 0)
    (hne : c.getSetIndex x.addr ≠ c.getSetIndex y.addr) :
    Agree Exchanged (Machine.run Controller.step c [x, y])
      (Machine.run Controller.step c [y, x]) := by
  have hs := housed_of_run hv h0 hrun
  have htracks : Tracks cfg.numProcessors detector t c.coherence := (ensures_tracks hv).of_ok hrun
  rw [hs.shaped.getSetIndex, hs.shaped.getSetIndex] at hne
  -- a step reads its set alone, and lays its part over the rest
  have hlay : ∀ {z : Access} {d : Controller}, z.addr ≠ 0 →
      Controller.SameAt cfg (cfg.index z.addr) c d → Agree (fun p r =>
        r.1 = p.1.overlay cfg (cfg.index z.addr) d ∧ r.2 = p.2) (c.closed.step z) (d.step z) := by
    intro z d hz hd
    exact (hd.agree_step hs hz).mono fun _ _ _ _ h => ⟨h.1.eq, h.2⟩
  have hzero : ∀ {z : Access} {p : Controller × Report}, z.addr ≠ 0 → c.closed.step z = .ok p →
      p.1.line 0 = .empty := by
    intro z p hz hp
    obtain ⟨r, -, hr⟩ := ((Controller.SameAt.refl hs).agree_step hs hz).of_ok hp
    exact hr.1.zero
  -- only the assertion on the counters can fail
  have herror : ∀ {z : Access} {e : AssertFailure}, z.pid < cfg.numProcessors → z.addr ≠ 0 →
      c.closed.step z = .error e → e = .lru := by
    intro z e hz hz0 he
    have hc := hlay hz0 (Controller.SameAt.refl hs)
    rw [he] at hc
    exact (ensures_step cfg.numProcessors_le htracks hz).of_error hc.error_left
  refine (agree_run_swap (f := fun p d => p.overlay cfg (cfg.index x.addr) d)
    (g := fun q d => q.overlay cfg (cfg.index y.addr) d)
    (hlay hx0 (.refl hs)) (hlay hy0 (.refl hs))
    (fun p hp => hlay hy0 (.laid_overlay hs (hzero hx0 hp) hne))
    (fun q hq => hlay hx0 (.laid_overlay hs (hzero hy0 hq) hne.symm))
    fun e e' he he' => (herror hx hx0 he).trans (herror hy hy0 he').symm).mono ?_
  rintro r r' - - ⟨p, q, -, -, rfl, rfl⟩
  exact Controller.exchanged_overlay hne

/-- A push to the one set and an eviction from the other. -/
theorem exchanged_halves :
    ∃ c rs, Config.halves.run true
        [⟨.store, 0, 4⟩, ⟨.load, 1, 4⟩, ⟨.load, 1, 5⟩, ⟨.load, 1, 4⟩, ⟨.store, 1, 2⟩] =
          .ok (c, rs) ∧
      Agree Exchanged (Machine.run Controller.step c [⟨.store, 0, 4⟩, ⟨.load, 1, 3⟩])
        (Machine.run Controller.step c [⟨.load, 1, 3⟩, ⟨.store, 0, 4⟩]) := by
  have hrun : Ensures (fun _ => False) (fun r => r.1.getSetIndex 4 ≠ r.1.getSetIndex 3)
      (Config.halves.run true
        [⟨.store, 0, 4⟩, ⟨.load, 1, 4⟩, ⟨.load, 1, 5⟩, ⟨.load, 1, 4⟩, ⟨.store, 1, 2⟩]) := by decide
  obtain ⟨⟨c, rs⟩, hok, hne⟩ := hrun.exists_ok
  exact ⟨c, rs, hok, exchanged_of_index_ne (by decide) (by decide) hok (by decide) (by decide)
    (by decide) (by decide) hne⟩

end AdaptiveMsi
