import AdaptiveMsi.Controller.Step
/-!
# Every state the routines reach

Runs of accesses are not the only way to the handlers: an access calls
its handler after the line fetch, and the routines are public. `Reached`
closes the start under all of them, each by a simulated processor, and
the directory's invariant holds throughout.
-/

namespace AdaptiveMsi

open Machine Protocol DirMsi

/-- **A state the public routines reach**, in any order. -/
inductive Reached (cfg : Config) (detector : Bool) : Controller → Prop
  | start : Reached cfg detector (cfg.start detector)
  | clearCalls {c : Controller} (h : Reached cfg detector c) : Reached cfg detector c.clearCalls
  | fetch {c c' : Controller} {pid : ℕ} {a : Addr} {replace : Bool} (h : Reached cfg detector c)
      (hpid : pid < cfg.numProcessors) (hfetch : c.fetchCacheLine pid a replace = .ok c') :
      Reached cfg detector c'
  | handle {c c' : Controller} {x : Access} {charge : Charge} (h : Reached cfg detector c)
      (hpid : x.pid < cfg.numProcessors) (hhandle : c.handle x = .ok (c', charge)) :
      Reached cfg detector c'
  | invalidate {c : Controller} {pid : ℕ} {a : Addr} (h : Reached cfg detector c)
      (hpid : pid < cfg.numProcessors) :
      Reached cfg detector { c with coherence := c.coherence.invalidate pid a }

/-- The directory of a reached state. -/
structure Keeps (n : ℕ) (detector : Bool) (m : DirMsi) : Prop where
  numProcessors : m.numProcessors = n
  detector : m.detector = detector
  inv : ∃ last, Protocol.Inv m.rules last m.entries

variable {cfg : Config} {detector : Bool} {c c' : Controller} {m m' : DirMsi} {n : ℕ}
variable {xs : List (Event ℕ Addr)} {calls : List Call} {x : Access} {charge : Charge}

/-- Events of the processors keep it. -/
theorem Keeps.simulates (h : Keeps n detector m) (hsim : Simulates xs calls m m')
    (hxs : ∀ y ∈ xs, y.proc < n) : Keeps n detector m' where
  numProcessors := hsim.numProcessors.trans h.numProcessors
  detector := hsim.detector.trans h.detector
  inv := by
    obtain ⟨last, hinv⟩ := h.inv
    refine ⟨xs.foldl Event.note last, ?_⟩
    rw [hsim.rules, hsim.entries]
    refine hinv.foldl fun y hy => ?_
    rw [DirMsi.rules, h.numProcessors]
    exact mem_procs.mpr (hxs y hy)

/-- A handler performs events of the processors, and answers a hit where the
access finds its copy. -/
theorem Keeps.exists_simulates (hn : n ≤ 32) (h : Keeps n detector c.coherence) (hx : x.pid < n)
    (hhandle : c.handle x = .ok (c', charge)) :
    ∃ xs calls, Simulates xs calls c.coherence c'.coherence ∧ (∀ y ∈ xs, y.proc < n) ∧
      (charge.response = .cacheHit ↔
        x.Hits c.coherence.rules (c.coherence.entries x.addr)) := by
  obtain ⟨last, hinv⟩ := h.inv
  have hn' : c.coherence.numProcessors ≤ 32 := h.numProcessors ▸ hn
  have hx' : x.pid < c.coherence.numProcessors := h.numProcessors ▸ hx
  cases hk : x.kind with
  | load =>
    simp only [Controller.handle, hk] at hhandle
    obtain ⟨⟨m', charge'⟩, hread, hhandle⟩ := bind_eq_ok.mp hhandle
    cases hhandle
    obtain ⟨m'', charge'', hok, hsim, hhit⟩ := simulates_processRead hn' hx' (hinv x.addr)
    cases hok.symm.trans hread
    refine ⟨_, _, hsim, by simpa [Event.proc] using hx, hhit.trans ?_⟩
    simp [Access.Hits, hk, entries]
  | store =>
    simp only [Controller.handle, hk] at hhandle
    obtain ⟨xs, log, hstores⟩ :=
      (Controller.ensures_processWrite hn' hx' (hinv x.addr)).of_ok hhandle
    refine ⟨_, _, hstores.simulates, fun y hy => ?_, hstores.hit.trans ?_⟩
    · rcases List.mem_cons.mp hy with rfl | hy
      · exact hx
      · exact h.numProcessors ▸ (hstores.evicts y hy).2.1
    · simp [Access.Hits, hk]

/-- What a handler keeps, and what it answers. -/
theorem Keeps.handle (hn : n ≤ 32) (h : Keeps n detector c.coherence) (hx : x.pid < n)
    (hhandle : c.handle x = .ok (c', charge)) : Keeps n detector c'.coherence ∧
      (charge.response = .cacheHit ↔
        x.Hits c.coherence.rules (c.coherence.entries x.addr)) := by
  obtain ⟨xs, calls, hsim, hxs, hhit⟩ := h.exists_simulates hn hx hhandle
  exact ⟨h.simulates hsim hxs, hhit⟩

/-- **Every state reached is a run of events.** A property of the entries
that the processors' events preserve holds in all of them, and so does
the directory's invariant. -/
theorem Reached.induction {P : (Addr → Entry ℕ (BitVec 64)) → Prop} (h : Reached cfg detector c)
    (h0 : P (cfg.start detector).coherence.entries)
    (hstep : ∀ (xs : List (Event ℕ Addr)) D, (∀ y ∈ xs, y.proc < cfg.numProcessors) → P D →
      P (xs.foldl (Event.apply (AdaptiveMsi.rules cfg.numProcessors detector)) D)) :
    Keeps cfg.numProcessors detector c.coherence ∧ P c.coherence.entries := by
  have hn := cfg.numProcessors_le
  have hsimulates : ∀ {m m' : DirMsi} {xs : List (Event ℕ Addr)} {calls : List Call},
      Keeps cfg.numProcessors detector m ∧ P m.entries → Simulates xs calls m m' →
      (∀ y ∈ xs, y.proc < cfg.numProcessors) → Keeps cfg.numProcessors detector m' ∧
        P m'.entries := by
    rintro m m' xs calls ⟨hkeeps, hP⟩ hsim hxs
    refine ⟨hkeeps.simulates hsim hxs, ?_⟩
    rw [hsim.entries, DirMsi.rules, hkeeps.numProcessors, hkeeps.detector]
    exact hstep xs _ hxs hP
  induction h with
  | start => exact ⟨⟨rfl, rfl, _, tracks_start.inv⟩, h0⟩
  | clearCalls _ ih => exact ⟨⟨ih.1.numProcessors, ih.1.detector, ih.1.inv⟩, ih.2⟩
  | fetch _ hpid hfetch ih =>
    obtain ⟨xs, calls, hsim, hspill⟩ :=
      (Controller.ensures_fetchCacheLine (by omega)).of_ok hfetch
    refine hsimulates ih hsim fun y hy => ?_
    obtain ⟨b, rfl, -⟩ := hspill.evicts y hy
    exact hpid
  | handle _ hpid hhandle ih =>
    obtain ⟨xs, calls, hsim, hxs, -⟩ := ih.1.exists_simulates hn hpid hhandle
    exact hsimulates ih hsim hxs
  | invalidate _ hpid ih =>
    exact hsimulates ih (simulates_invalidate (by omega)) (by simpa [Event.proc] using hpid)

/-- **The directory's invariant holds in every state reached.** -/
theorem Reached.keeps (h : Reached cfg detector c) :
    Keeps cfg.numProcessors detector c.coherence :=
  (h.induction (P := fun _ => True) trivial fun _ _ _ _ => trivial).1

/-- Below processor `16` the counters stay within their fields. -/
theorem Reached.packed (h : Reached cfg detector c) (hn : cfg.numProcessors ≤ 16) (a : Addr) :
    DirectoryLine.Packed (c.line a).readCountVector := by
  refine (h.induction (P := fun D => ∀ a, DirectoryLine.Packed (D a).reads) (fun a => ?_) ?_).2 a
  · rw [entries_start]
    exact DirectoryLine.Packed.zero
  · intro xs D hxs hD b
    refine reads_foldl DirectoryLine.Packed.zero (fun p hp v hv => ?_) hD
      (fun y hy => mem_procs.mpr (hxs y hy)) b
    have hp' := mem_procs.mp hp
    exact hv.missVector (by omega)

/-- A step, by its two halves. -/
theorem Reached.step {r : Report} (h : Reached cfg detector c) (hx : x.pid < cfg.numProcessors)
    (hstep : c.step x = .ok (c', r)) : Reached cfg detector c' := by
  obtain ⟨c₁, hfetch, hhandle⟩ := Controller.step_eq_ok hstep
  exact (h.clearCalls.fetch hx hfetch).handle hx hhandle

/-- **Runs reach their states.** -/
theorem reached_of_run {t : List Access} {rs : List Report} (hv : cfg.Valid t)
    (hrun : cfg.run detector t = .ok (c, rs)) : Reached cfg detector c :=
  Config.induction_of_run (I := fun _ _ c => Reached cfg detector c) hv hrun .start
    fun _ _ _ _ _ _ _ _ hx _ _ hc hstep => hc.step hx hstep

end AdaptiveMsi
