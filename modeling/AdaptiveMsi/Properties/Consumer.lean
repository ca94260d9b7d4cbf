import AdaptiveMsi.Properties.Directory
/-!
# A detected consumer keeps hitting

While the last writer of an address does not change, its counters only
grow: a load miss raises the reader's, up to three, and neither
evictions nor the last writer's stores touch them. After two misses a
reader qualifies, every store of the last writer sets its bit, and only
its own eviction clears it.
-/

namespace AdaptiveMsi

open Machine Protocol

variable {n i w : ℕ} {a : Addr} {m m' : DirMsi} {x : Access} {r : Report} {t : List Access}
variable {pre post : List (Event ℕ Addr)} {rs : List Report}

/-- The call makes a processor the last writer of `a`. -/
def Call.NotesWriter (a : Addr) : Call → Prop
  | .updateLastWriter _ b => b = a
  | .invalidate _ _ | .profileCacheEvict _ _ _ _ | .push _ _ | .evict _ _ _ => False

instance : DecidablePred (Call.NotesWriter a) := fun call => by
  cases call <;> unfold Call.NotesWriter <;> infer_instance

/-- The load misses of `i` on `a` among the reports. -/
def loadMisses (i : ℕ) (a : Addr) (rs : List Report) : ℕ :=
  rs.countP fun r => r.access = ⟨.load, i, a⟩ ∧ r.response = .cacheMiss

/-- What a load leaves in the counters. -/
theorem Stepped.count_of_load (h : Stepped m x pre post m' r) (ht : Tracks n true t m)
    (hn : n ≤ 16) (hx : x.pid < n) (hk : x.kind = .load) :
    DirectoryLine.count (m'.entries x.addr).reads i =
      if i = x.pid ∧ r.response = .cacheMiss then
        min 3 (DirectoryLine.count (m.entries x.addr).reads i + 1)
      else DirectoryLine.count (m.entries x.addr).reads i := by
  have hreads : (found m pre x).reads = (m.entries x.addr).reads := h.fewer_found.reads
  have hhit : r.response = .cacheHit ↔ x.pid ∈ (found m pre x).sharers := by
    rw [h.hit]
    simp [Access.Hits, hk]
  rw [h.entries_self]
  simp only [Access.event, hk, Event.onEntry]
  rw [Entry.read_reads, hreads]
  by_cases hmem : x.pid ∈ (found m pre x).sharers
  · have hne : r.response ≠ .cacheMiss := by simp [hhit.mpr hmem]
    rw [if_pos hmem, if_neg fun hc => hne hc.2]
  · have hmiss : r.response = .cacheMiss := by
      cases hr : r.response with
      | cacheHit => exact absurd (hhit.mp hr) hmem
      | cacheMiss => rfl
    rw [if_neg hmem]
    change DirectoryLine.count (DirectoryLine.missVector _ _) _ = _
    rw [DirectoryLine.count_missVector (by omega) (ht.packed hn _)]
    simp only [hmiss, and_true]
    by_cases hi : i = x.pid
    · rw [if_pos hi, if_pos hi, hi]
    · rw [if_neg hi, if_neg hi]

/-- **While nobody takes over, counters grow**, and a load miss of `i` is
counted. -/
theorem Stepped.grows (h : Stepped m x pre post m' r) (ht : Tracks n true t m) (hn : n ≤ 16)
    (hx : x.pid < n) (hquiet : ∀ call ∈ r.calls, ¬ call.NotesWriter a)
    (hw : (m.entries a).writer = some w) {k : ℕ}
    (hk : min 2 k ≤ DirectoryLine.count (m.entries a).reads i) :
    (m'.entries a).writer = some w ∧
      min 2 (k + loadMisses i a [r]) ≤ DirectoryLine.count (m'.entries a).reads i := by
  have hmisses : loadMisses i a [r] =
      if x = ⟨.load, i, a⟩ ∧ r.response = .cacheMiss then 1 else 0 := by
    rw [loadMisses, List.countP_singleton, h.access]
    simp
  rw [hmisses]
  rcases eq_or_ne a x.addr with rfl | hne
  · have hwf : (found m pre x).writer = some w := h.fewer_found.writer.trans hw
    cases hkind : x.kind with
    | load =>
      rw [h.count_of_load ht hn hx hkind]
      constructor
      · rw [h.entries_self]
        simp [Access.event, hkind, Event.onEntry, hwf]
      · obtain ⟨kind, pid, b⟩ := x
        cases hkind
        simp only [Access.mk.injEq, true_and, and_true]
        split_ifs <;> grind
    | store =>
      have hover : ¬ (found m pre x).StartsOver m.rules x.pid := fun ho =>
        hquiet _ ((h.updates _ _).mpr ⟨rfl, rfl, hkind, ho⟩) rfl
      have hx' : ¬ (x = ⟨.load, i, x.addr⟩ ∧ r.response = .cacheMiss) := by
        rintro ⟨he, -⟩
        rw [he] at hkind
        cases hkind
      rw [if_neg hx', h.entries_self]
      simp only [Access.event, hkind, Event.onEntry]
      rw [Entry.store_reads, if_neg hover, h.fewer_found.reads, Entry.store_writer, if_neg hover]
      exact ⟨hwf, hk⟩
  · have hx' : ¬ (x = ⟨.load, i, a⟩ ∧ r.response = .cacheMiss) := by
      rintro ⟨rfl, -⟩
      exact hne rfl
    have hfewer := h.fewer_of_ne hne
    rw [if_neg hx', hfewer.writer, hfewer.reads]
    exact ⟨hw, hk⟩

/-- A store of the last writer sets the bit of a reader with two misses. -/
theorem Stepped.mem_of_store (h : Stepped m x pre post m' r) (ht : Tracks n true t m)
    (hn : n ≤ 16) (hi : i < n) (hiw : i ≠ w) (hk : x.kind = .store)
    (hquiet : ∀ call ∈ r.calls, ¬ call.NotesWriter x.addr)
    (hw : (m.entries x.addr).writer = some w)
    (hcount : 2 ≤ DirectoryLine.count (m.entries x.addr).reads i) :
    i ∈ (m'.entries x.addr).sharers := by
  have hover : ¬ (found m pre x).StartsOver m.rules x.pid := fun ho =>
    hquiet _ ((h.updates _ _).mpr ⟨rfl, rfl, hk, ho⟩) rfl
  have hadapt : m.rules.adaptive = true := by
    rw [ht.rules]
    rfl
  have hwf : (found m pre x).writer = some w := h.fewer_found.writer.trans hw
  simp only [Entry.StartsOver, hadapt, hwf, true_and, not_or, not_not, Option.some.injEq] at hover
  obtain ⟨hs, hpid⟩ := hover
  have hq : m.rules.qualified (found m pre x).reads i = true := by
    rw [h.fewer_found.reads, ht.rules]
    exact bne_iff_ne.mpr ((DirectoryLine.and_mask_ne_zero_iff_count (by omega)
      (ht.packed hn _)).mpr hcount)
  rw [h.entries_self]
  simp only [Access.event, hk, Event.onEntry]
  exact (Entry.mem_sharers_store m.rules).mpr
    (Or.inr ⟨hadapt, hs, hpid ▸ hwf, ht.mem_procs.mpr hi, hpid ▸ hiw, hq⟩)

/-- **And only its own eviction clears it.** -/
theorem Stepped.mem_of_quiet (h : Stepped m x pre post m' r) (ht : Tracks n true t m)
    (hn : n ≤ 16) (hi : i < n) (hiw : i ≠ w) (hquiet : ∀ call ∈ r.calls, ¬ call.NotesWriter a)
    (hw : (m.entries a).writer = some w)
    (hcount : 2 ≤ DirectoryLine.count (m.entries a).reads i)
    (hkept : .invalidate i a ∉ r.calls) (hmem : i ∈ (m.entries a).sharers) :
    i ∈ (m'.entries a).sharers := by
  rcases eq_or_ne a x.addr with rfl | hne
  · cases hk : x.kind with
    | load =>
      rw [h.entries_self]
      simp only [Access.event, hk, Event.onEntry]
      exact (Entry.mem_sharers_read m.rules).mpr (Or.inr (h.fewer_found.kept i hmem hkept))
    | store => exact h.mem_of_store ht hn hi hiw hk hquiet hw hcount
  · exact (h.fewer_of_ne hne).kept i hmem hkept

variable {cfg : Config} {q : ℕ} {u v v' : List Access} {c₀ c₁ c₂ c₃ c₄ : Controller}
variable {rs₀ rs₁ rs₂ : List Report} {r₀ r₁ : Report}

/-- A store that notes a new writer leaves it as the last writer. -/
theorem Stepped.writer_of_update (h : Stepped m x pre post m' r)
    (hupdate : .updateLastWriter w a ∈ r.calls) : (m'.entries a).writer = some w := by
  obtain ⟨rfl, rfl, hk, hover⟩ := (h.updates w a).mp hupdate
  rw [h.entries_self]
  simp only [Access.event, hk, Event.onEntry]
  rw [Entry.store_writer, if_pos hover]

/-- **Counters along a stretch without a new writer.** -/
theorem count_of_stretch (hn : cfg.numProcessors ≤ 16) (hv : cfg.Valid v)
    (ht : Tracks cfg.numProcessors true u c₁.coherence)
    (hrun : Machine.run Controller.step c₁ v = .ok (c₂, rs₁))
    (hw : (c₁.coherence.entries a).writer = some w)
    (hquiet : ∀ r ∈ rs₁, ∀ call ∈ r.calls, ¬ call.NotesWriter a) :
    (c₂.coherence.entries a).writer = some w ∧
      min 2 (loadMisses i a rs₁) ≤ DirectoryLine.count (c₂.coherence.entries a).reads i := by
  refine (run_induction (I := fun _ rs m => (∀ r ∈ rs, ∀ call ∈ r.calls, ¬ call.NotesWriter a) →
    (m.entries a).writer = some w ∧
      min 2 (loadMisses i a rs) ≤ DirectoryLine.count (m.entries a).reads i)
    ht hv hrun (fun _ => ⟨hw, by simp [loadMisses]⟩) ?_).2 hquiet
  intro v₁ x v₂ rs m pre post m' r hv' htracks hstepped ih hall
  obtain ⟨hw', hk⟩ := ih fun r hr => hall r (List.mem_append_left _ hr)
  rw [loadMisses, List.countP_append]
  exact hstepped.grows htracks hn (hv x (by simp [hv'])) (hall r (by simp)) hw' hk

/-- **The bit along a stretch without the reader's eviction.** -/
theorem mem_of_stretch (hn : cfg.numProcessors ≤ 16) (hv : cfg.Valid v)
    (ht : Tracks cfg.numProcessors true u c₁.coherence)
    (hrun : Machine.run Controller.step c₁ v = .ok (c₂, rs₁)) (hi : i < cfg.numProcessors)
    (hiw : i ≠ w) (hw : (c₁.coherence.entries a).writer = some w)
    (hcount : 2 ≤ DirectoryLine.count (c₁.coherence.entries a).reads i)
    (hmem : i ∈ (c₁.coherence.entries a).sharers)
    (hquiet : ∀ r ∈ rs₁, ∀ call ∈ r.calls, ¬ call.NotesWriter a)
    (hkept : ∀ r ∈ rs₁, .invalidate i a ∉ r.calls) : i ∈ (c₂.coherence.entries a).sharers := by
  refine ((run_induction (I := fun _ rs m => (∀ r ∈ rs, ∀ call ∈ r.calls, ¬ call.NotesWriter a) →
    (∀ r ∈ rs, .invalidate i a ∉ r.calls) →
    (m.entries a).writer = some w ∧ 2 ≤ DirectoryLine.count (m.entries a).reads i ∧
      i ∈ (m.entries a).sharers)
    ht hv hrun (fun _ _ => ⟨hw, hcount, hmem⟩) ?_).2 hquiet hkept).2.2
  intro v₁ x v₂ rs m pre post m' r hv' htracks hstepped ih hq hk
  obtain ⟨hw', hcount', hmem'⟩ := ih (fun r hr => hq r (List.mem_append_left _ hr))
    fun r hr => hk r (List.mem_append_left _ hr)
  have hq' : ∀ call ∈ r.calls, ¬ call.NotesWriter a := hq r (by simp)
  obtain ⟨hw'', hgrow⟩ := hstepped.grows (i := i) (k := 2) htracks hn (hv x (by simp [hv'])) hq' hw'
    (by omega)
  exact ⟨hw'', by omega, hstepped.mem_of_quiet htracks hn hi hiw hq' hw' hcount' (hk r (by simp))
    hmem'⟩

/-- **A detected consumer keeps hitting.** In a stretch that starts with
the `update_last_writer` of `w` on `a` and contains no later call of it on
`a`, not even by `w` itself, a reader `i` with two load misses has its bit
set after every later store, and its loads hit until `invalidate` is
called for its copy. -/
theorem consumer_hits (hn : cfg.numProcessors ≤ 16)
    (hv : cfg.Valid (u ++ ⟨.store, w, a⟩ :: v ++ ⟨.store, q, a⟩ :: v'))
    (hi : i < cfg.numProcessors) (hiw : i ≠ w)
    (hrun₀ : cfg.run true u = .ok (c₀, rs₀))
    (hstore : c₀.step ⟨.store, w, a⟩ = .ok (c₁, r₀)) (hstart : .updateLastWriter w a ∈ r₀.calls)
    (hrun₁ : Machine.run Controller.step c₁ v = .ok (c₂, rs₁))
    (hstore' : c₂.step ⟨.store, q, a⟩ = .ok (c₃, r₁))
    (hrun₂ : Machine.run Controller.step c₃ v' = .ok (c₄, rs₂))
    (hquiet : ∀ r ∈ rs₁ ++ r₁ :: rs₂, ∀ call ∈ r.calls, ¬ call.NotesWriter a)
    (hmisses : 2 ≤ loadMisses i a rs₁) :
    (c₃.line a).isSet i = true ∧
      ∀ rs r rs', rs₂ = rs ++ r :: rs' → r.access = ⟨.load, i, a⟩ →
        (∀ r' ∈ rs ++ [r], .invalidate i a ∉ r'.calls) → r.response = .cacheHit := by
  have hle := cfg.numProcessors_le
  have hw : w < cfg.numProcessors := hv ⟨.store, w, a⟩ (by simp)
  have hq : q < cfg.numProcessors := hv ⟨.store, q, a⟩ (by simp)
  have hv₁ : cfg.Valid v := fun x hx => hv x (by simp [hx])
  have hv₂ : cfg.Valid v' := fun x hx => hv x (by simp [hx])
  -- the store that makes `w` the last writer
  have ht₀ : Tracks cfg.numProcessors true u c₀.coherence :=
    (ensures_tracks fun x hx => hv x (by simp [hx])).of_ok hrun₀
  obtain ⟨_, _, hstep₀⟩ := (ensures_step hle ht₀ hw).of_ok hstore
  have ht₁ := hstep₀.tracks ht₀ hw
  -- the misses
  have ht₂ := ht₁.run hv₁ hrun₁
  obtain ⟨hw₂, hcount₂⟩ := count_of_stretch (i := i) hn hv₁ ht₁ hrun₁
    (hstep₀.writer_of_update hstart) fun r hr => hquiet r (by simp [hr])
  have htwo : 2 ≤ DirectoryLine.count (c₂.coherence.entries a).reads i := by omega
  -- the later store
  obtain ⟨_, _, hstep₁⟩ := (ensures_step hle ht₂ hq).of_ok hstore'
  have ht₃ := hstep₁.tracks ht₂ hq
  have hq₁ : ∀ call ∈ r₁.calls, ¬ call.NotesWriter a := hquiet r₁ (by simp)
  have hmem₃ : i ∈ (c₃.coherence.entries a).sharers :=
    hstep₁.mem_of_store ht₂ hn hi hiw rfl hq₁ hw₂ htwo
  obtain ⟨hw₃, hcount₃⟩ := hstep₁.grows ht₂ hn hq hq₁ hw₂ hcount₂
  refine ⟨(DirectoryLine.isSet_iff (by omega)).mpr hmem₃, ?_⟩
  -- the loads after it
  rintro rs r rs' rfl haccess hkept
  obtain ⟨w₁, x, w₂, d₁, d₂, rfl, hrun, hstep, -⟩ := run_cut hrun₂
  have hvw : cfg.Valid w₁ := fun y hy => hv₂ y (by simp [hy])
  have hmem := mem_of_stretch hn hvw ht₃ hrun hi hiw hw₃ (by omega) hmem₃
    (fun r' hr' => hquiet r' (by simp [hr'])) fun r' hr' => hkept r' (by simp [hr'])
  have htx := ht₃.run hvw hrun
  obtain ⟨_, _, hstepped⟩ := (ensures_step hle htx (hv₂ x (by simp))).of_ok hstep
  obtain rfl : ⟨.load, i, a⟩ = x := haccess.symm.trans hstepped.access
  exact hstepped.hit.mpr (Or.inl (hstepped.fewer_found.kept i hmem (hkept r (by simp))))

/-- The consumer of the second processor: two misses, a push, a hit. -/
theorem consumer_hits_pair :
    ∃ c₁ r₀ c₂ rs₁ c₃ r₁ c₄ rs₂,
      (Config.pair.start true).step ⟨.store, 0, 4⟩ = .ok (c₁, r₀) ∧
      Machine.run Controller.step c₁ [⟨.load, 1, 4⟩, ⟨.store, 0, 4⟩, ⟨.load, 1, 4⟩] =
        .ok (c₂, rs₁) ∧
      c₂.step ⟨.store, 0, 4⟩ = .ok (c₃, r₁) ∧
      Machine.run Controller.step c₃ [⟨.load, 1, 4⟩] = .ok (c₄, rs₂) ∧
      (c₃.line 4).isSet 1 = true ∧
      ∀ rs r rs', rs₂ = rs ++ r :: rs' → r.access = ⟨.load, 1, 4⟩ →
        (∀ r' ∈ rs ++ [r], .invalidate 1 4 ∉ r'.calls) → r.response = .cacheHit := by
  have hruns : Ensures (fun _ => False) (fun s₁ => .updateLastWriter 0 4 ∈ s₁.2.calls ∧
      Ensures (fun _ => False) (fun s₂ => 2 ≤ loadMisses 1 4 s₂.2 ∧
        Ensures (fun _ => False) (fun s₃ =>
          Ensures (fun _ => False) (fun s₄ =>
            ∀ r ∈ s₂.2 ++ s₃.2 :: s₄.2, ∀ call ∈ r.calls, ¬ call.NotesWriter 4)
            (Machine.run Controller.step s₃.1 [⟨.load, 1, 4⟩]))
          (s₂.1.step ⟨.store, 0, 4⟩))
        (Machine.run Controller.step s₁.1 [⟨.load, 1, 4⟩, ⟨.store, 0, 4⟩, ⟨.load, 1, 4⟩]))
      ((Config.pair.start true).step ⟨.store, 0, 4⟩) := by decide
  obtain ⟨⟨c₁, r₀⟩, hstore, hstart, hruns⟩ := hruns.exists_ok
  obtain ⟨⟨c₂, rs₁⟩, hrun₁, hmisses, hruns⟩ := hruns.exists_ok
  obtain ⟨⟨c₃, r₁⟩, hstore', hruns⟩ := hruns.exists_ok
  obtain ⟨⟨c₄, rs₂⟩, hrun₂, hquiet⟩ := hruns.exists_ok
  exact ⟨c₁, r₀, c₂, rs₁, c₃, r₁, c₄, rs₂, hstore, hrun₁, hstore', hrun₂,
    consumer_hits (u := []) (by decide) (by decide) (by decide) (by decide)
      (show Config.pair.run true [] = .ok (Config.pair.start true, []) from rfl) hstore hstart hrun₁
      hstore' hrun₂ hquiet hmisses⟩

end AdaptiveMsi
