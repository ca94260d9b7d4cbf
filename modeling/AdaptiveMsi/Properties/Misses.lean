import AdaptiveMsi.Properties.Consumer
/-!
# Misses are paid for

The detector bounds a reader's misses whatever the others do. Two misses
qualify it; from then on every store of the last writer pushes to it, so
it misses again only after a call of `invalidate` for its copy or of
`update_last_writer`. The bound is kept by a potential: the misses a
reader still has free before it must be pushed to.
-/

namespace AdaptiveMsi

open Machine Protocol

/-- The calls of `update_last_writer` on `a` among the reports: another
processor's store makes one, and any store to an `INVALID` line. -/
def handoffs (a : Addr) (rs : List Report) : ℕ :=
  (rs.flatMap Report.calls).countP (Call.NotesWriter a ·)

/-- The calls of `invalidate` for the copy that `i` has of `a`. -/
def givenUp (i : ℕ) (a : Addr) (rs : List Report) : ℕ :=
  (rs.flatMap Report.calls).count (.invalidate i a)

/-- **The misses `i` has free**: those it lacks to qualify, and one more if it
qualifies but has no copy. -/
def slack (e : Entry ℕ (BitVec 64)) (i : ℕ) : ℕ :=
  if DirectoryLine.count e.reads i < 2 then 2 - DirectoryLine.count e.reads i
  else if i ∈ e.sharers then 0 else 1

variable {n i k : ℕ} {a : Addr} {m m' : DirMsi} {x : Access} {r : Report} {t : List Access}
variable {pre post : List (Event ℕ Addr)} {rs : List Report} {e e' : Entry ℕ (BitVec 64)}
variable {cfg : Config} {c : Controller}

theorem slack_le_two : slack e i ≤ 2 := by
  unfold slack
  split
  · omega
  · split <;> omega

/-- A qualified sharer has none. -/
theorem slack_of_mem (hmem : i ∈ e.sharers) : slack e i = 2 - DirectoryLine.count e.reads i := by
  rw [slack, if_pos hmem]
  split <;> omega

/-- With its count unchanged a reader gains a free miss only with its copy
lost. -/
theorem slack_le_add (hcount : DirectoryLine.count e'.reads i = DirectoryLine.count e.reads i)
    (hmem : i ∈ e.sharers → i ∉ e'.sharers → 1 ≤ k) : slack e' i ≤ slack e i + k := by
  unfold slack
  rw [hcount]
  by_cases htwo : DirectoryLine.count e.reads i < 2
  · rw [if_pos htwo, if_pos htwo]
    omega
  · rw [if_neg htwo, if_neg htwo]
    by_cases he' : i ∈ e'.sharers
    · rw [if_pos he']
      exact Nat.zero_le _
    · by_cases he : i ∈ e.sharers
      · have hone := hmem he he'
        rw [if_neg he', if_pos he]
        omega
      · rw [if_neg he, if_neg he']
        omega

theorem one_le_givenUp (h : .invalidate i a ∈ r.calls) : 1 ≤ givenUp i a [r] := by
  rw [givenUp, List.flatMap_singleton]
  exact List.count_pos_iff.mpr h

theorem one_le_handoffs {w : ℕ} (h : .updateLastWriter w a ∈ r.calls) : 1 ≤ handoffs a [r] := by
  rw [handoffs, List.flatMap_singleton]
  exact List.countP_pos_iff.mpr ⟨_, h, decide_eq_true rfl⟩

/-- The misses in one report. -/
theorem loadMisses_singleton (h : r.access = x) :
    loadMisses i a [r] = if x = ⟨.load, i, a⟩ ∧ r.response = .cacheMiss then 1 else 0 := by
  rw [loadMisses, List.countP_singleton, h]
  simp

/-- **A store**: the last writer's pushes to those that qualify, and another
writer's is a handoff. -/
theorem Stepped.slack_of_store (h : Stepped m x pre post m' r) (ht : Tracks n true t m)
    (hn : n ≤ 16) (hi : i < n) (hk : x.kind = .store) :
    slack (m'.entries x.addr) i ≤ slack (m.entries x.addr) i + 2 * handoffs x.addr [r] := by
  by_cases hover : (found m pre x).StartsOver m.rules x.pid
  · have hnote := one_le_handoffs ((h.updates x.pid x.addr).mpr ⟨rfl, rfl, hk, hover⟩)
    have htwo : slack (m'.entries x.addr) i ≤ 2 := slack_le_two
    omega
  · have hreads : (m'.entries x.addr).reads = (m.entries x.addr).reads := by
      rw [h.entries_self]
      simp only [Access.event, hk, Event.onEntry]
      rw [Entry.store_reads, if_neg hover, h.fewer_found.reads]
    by_cases htwo : DirectoryLine.count (m.entries x.addr).reads i < 2
    · rw [slack, slack, hreads, if_pos htwo, if_pos htwo]
      omega
    · -- `i` is the writer, or qualifies and is pushed to
      have hmem : i ∈ (m'.entries x.addr).sharers := by
        rw [h.entries_self]
        simp only [Access.event, hk, Event.onEntry]
        refine (Entry.mem_sharers_store m.rules).mpr ?_
        by_cases hix : i = x.pid
        · exact Or.inl hix
        have hadapt : m.rules.adaptive = true := by
          rw [ht.rules]
          rfl
        have hq : m.rules.qualified (found m pre x).reads i = true := by
          rw [h.fewer_found.reads, ht.rules]
          exact bne_iff_ne.mpr ((DirectoryLine.and_mask_ne_zero_iff_count (by omega)
            (ht.packed hn _)).mpr (by omega))
        simp only [Entry.StartsOver, hadapt, true_and, not_or, not_not] at hover
        exact Or.inr ⟨hadapt, hover.1, hover.2, ht.mem_procs.mpr hi, hix, hq⟩
      rw [slack_of_mem hmem, hreads]
      omega

/-- **A load**: a miss uses a free miss up. -/
theorem Stepped.slack_of_load (h : Stepped m x pre post m' r) (ht : Tracks n true t m)
    (hn : n ≤ 16) (hx : x.pid < n) (hk : x.kind = .load) :
    loadMisses i x.addr [r] + slack (m'.entries x.addr) i ≤
      slack (m.entries x.addr) i + givenUp i x.addr [r] := by
  have hcount := h.count_of_load (i := i) ht hn hx hk
  have hself : m'.entries x.addr = (found m pre x).read m.rules x.pid := by
    rw [h.entries_self]
    simp [Access.event, hk, Event.onEntry]
  have hkept : i ∈ (m.entries x.addr).sharers → i ∉ (found m pre x).sharers →
      1 ≤ givenUp i x.addr [r] := by
    intro hmem hgone
    by_contra hnone
    refine hgone (h.fewer_found.kept i hmem fun hi => hnone (one_le_givenUp hi))
  rw [loadMisses_singleton h.access]
  by_cases hmiss : i = x.pid ∧ r.response = .cacheMiss
  · obtain ⟨rfl, hr⟩ := hmiss
    have hx' : x = ⟨.load, x.pid, x.addr⟩ := by
      rw [← hk]
    have hmem : x.pid ∈ (m'.entries x.addr).sharers := by
      rw [hself]
      exact (Entry.mem_sharers_read m.rules).mpr (Or.inl rfl)
    have hgone : x.pid ∉ (found m pre x).sharers := fun hin => by
      have hhit := h.hit.mpr (Or.inl hin)
      rw [hr] at hhit
      cases hhit
    rw [if_pos ⟨hx', hr⟩, slack_of_mem hmem, hcount, if_pos ⟨rfl, hr⟩]
    unfold slack
    split
    · omega
    · split
      · rename_i hin
        have hone := hkept hin hgone
        omega
      · omega
  · have hx' : ¬ (x = ⟨.load, i, x.addr⟩ ∧ r.response = .cacheMiss) := by
      rintro ⟨he, hr⟩
      exact hmiss ⟨(congrArg Access.pid he).symm, hr⟩
    rw [if_neg hx', Nat.zero_add]
    rw [if_neg hmiss] at hcount
    refine slack_le_add hcount fun hmem hgone => hkept hmem fun hin => hgone ?_
    rw [hself]
    exact (Entry.mem_sharers_read m.rules).mpr (Or.inr hin)

/-- **One access.** -/
theorem Stepped.slack_le (h : Stepped m x pre post m' r) (ht : Tracks n true t m) (hn : n ≤ 16)
    (hx : x.pid < n) (hi : i < n) : loadMisses i a [r] + slack (m'.entries a) i ≤
      slack (m.entries a) i + 2 * handoffs a [r] + givenUp i a [r] := by
  rcases eq_or_ne a x.addr with rfl | hne
  · cases hk : x.kind with
    | load =>
      have hload := h.slack_of_load (i := i) ht hn hx hk
      omega
    | store =>
      have hstore := h.slack_of_store ht hn hi hk
      have hno : loadMisses i x.addr [r] = 0 := by
        rw [loadMisses_singleton h.access, if_neg]
        rintro ⟨he, -⟩
        rw [he] at hk
        cases hk
      omega
  · have hno : loadMisses i a [r] = 0 := by
      rw [loadMisses_singleton h.access, if_neg]
      rintro ⟨rfl, -⟩
      exact hne rfl
    have hfewer := h.fewer_of_ne hne
    have hle : slack (m'.entries a) i ≤ slack (m.entries a) i + givenUp i a [r] := by
      refine slack_le_add (by rw [hfewer.reads]) fun hmem hgone => ?_
      by_contra hnone
      exact hgone (hfewer.kept i hmem fun hi => hnone (one_le_givenUp hi))
    omega

/-- **A reader's misses are paid for.** In the adaptive protocol, along every
run, a processor's load misses on an address are at most two for each call
of `update_last_writer` on it, two before the first, and one for each call
of `invalidate` for the processor's copy. -/
theorem load_misses_le (hn : cfg.numProcessors ≤ 16) (hv : cfg.Valid t)
    (hi : i < cfg.numProcessors) (hrun : cfg.run true t = .ok (c, rs)) (a : Addr) :
    loadMisses i a rs ≤ 2 * (handoffs a rs + 1) + givenUp i a rs := by
  have hall : loadMisses i a rs + slack (c.coherence.entries a) i ≤
      2 * (handoffs a rs + 1) + givenUp i a rs := by
    refine (run_induction (I := fun _ rs m => loadMisses i a rs + slack (m.entries a) i ≤
      2 * (handoffs a rs + 1) + givenUp i a rs) tracks_start hv hrun ?_ ?_).2
    · have htwo : slack ((cfg.start true).coherence.entries a) i ≤ 2 := slack_le_two
      simpa [loadMisses, handoffs, givenUp] using htwo
    · intro w x w' rs m pre post m' r hw htracks hstepped hI
      have hone := hstepped.slack_le (a := a) htracks hn (hv x (by simp [hw])) hi
      simp only [loadMisses, handoffs, givenUp, List.countP_append, List.flatMap_append,
        List.count_append] at hone hI ⊢
      omega
  omega

/-- A consumer that misses twice after the first store. -/
theorem load_misses_le_pair :
    ∃ c rs, Config.pair.run true [⟨.store, 0, 4⟩, ⟨.load, 1, 4⟩, ⟨.store, 0, 4⟩, ⟨.load, 1, 4⟩,
        ⟨.store, 0, 4⟩, ⟨.load, 1, 4⟩] = .ok (c, rs) ∧ handoffs 4 rs = 1 ∧ givenUp 1 4 rs = 0 ∧
      loadMisses 1 4 rs ≤ 4 := by
  have hrun : Ensures (fun _ => False) (fun r => handoffs 4 r.2 = 1 ∧ givenUp 1 4 r.2 = 0)
      (Config.pair.run true [⟨.store, 0, 4⟩, ⟨.load, 1, 4⟩, ⟨.store, 0, 4⟩, ⟨.load, 1, 4⟩,
        ⟨.store, 0, 4⟩, ⟨.load, 1, 4⟩]) := by decide
  obtain ⟨⟨c, rs⟩, hok, hhand, hgiven⟩ := hrun.exists_ok
  have hle := load_misses_le (i := 1) (by decide) (by decide) (by decide) hok 4
  rw [hhand, hgiven] at hle
  exact ⟨c, rs, hok, hhand, hgiven, hle⟩

end AdaptiveMsi
