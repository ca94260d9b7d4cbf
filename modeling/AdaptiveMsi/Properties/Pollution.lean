import AdaptiveMsi.Properties.Representation
/-!
# What pushes do to a set

A push leaves every counter as it is, and the counters alone choose the
victim. So the pushes between two accesses of its own processor all go to
one way of a set, and displace at most the line that was there.
-/

namespace AdaptiveMsi

open Machine Recency

/-- At most one element is missing from a list that differs at one
position. -/
theorem countP_notMem_le_one {α : Type*} [DecidableEq α] {l l' : List α} {v : ℕ} (q : α → Prop)
    [DecidablePred q] (h : ∀ j ≠ v, l'[j]? = l[j]?) :
    l.countP (fun a => q a ∧ a ∉ l') ≤ 1 := by
  have hmem : ∀ j ≠ v, ∀ a, l[j]? = some a → a ∈ l' := fun j hj a ha =>
    List.mem_of_getElem? ((h j hj).trans ha)
  have hnone : ∀ k : List α, (∀ a ∈ k, a ∈ l') → k.countP (fun a => q a ∧ a ∉ l') = 0 := by
    intro k hk
    rw [List.countP_eq_zero]
    intro a ha
    simp [hk a ha]
  rw [← List.take_append_drop v l, List.countP_append, hnone, Nat.zero_add]
  · rw [← List.take_append_drop 1 (l.drop v), List.countP_append, List.drop_drop,
      hnone (l.drop _), Nat.add_zero]
    · exact List.countP_le_length.trans (List.length_take_le 1 _)
    · intro a ha
      obtain ⟨j, hj⟩ := List.mem_iff_getElem?.mp ha
      rw [List.getElem?_drop] at hj
      exact hmem _ (by omega) a hj
  · intro a ha
    obtain ⟨j, hj⟩ := List.mem_iff_getElem?.mp ha
    rw [List.getElem?_take] at hj
    split at hj
    · exact hmem j (by omega) a hj
    · cases hj

namespace CacheSet

variable {s s' s'' : CacheSet} {m : DirMsi} {pid : ℕ} {tag : BitVec 64} {addr : Addr}

/-- The set after pushes: the counters are those of `s`, and so is every
way but the victim. -/
structure Polluted (s s' : CacheSet) : Prop where
  counters : s'.lines.map (·.lru) = s.lines.map (·.lru)
  others : ∀ j ≠ s.victim.evict, s'.lines[j]? = s.lines[j]?

theorem Polluted.refl : s.Polluted s := ⟨rfl, fun _ _ => rfl⟩

/-- The victim is still the same way. -/
theorem Polluted.victim (h : s.Polluted s') : s'.victim.evict = s.victim.evict := by
  have hcounters := congrArg (List.map BitVec.toNat) h.counters
  rw [List.map_map, List.map_map] at hcounters
  rw [victim_eq_firstMin, victim_eq_firstMin]
  exact congrArg firstMin hcounters

theorem Polluted.trans (h : s.Polluted s') (h' : s'.Polluted s'') : s.Polluted s'' where
  counters := h'.counters.trans h.counters
  others j hj := (h'.others j (by rwa [h.victim])).trans (h.others j hj)

/-- **One push**, whether it finds its line or not. -/
theorem exists_polluted (s : CacheSet) (m : DirMsi) (pid : ℕ) (tag : BitVec 64) (addr : Addr) :
    ∃ r, s.fetchSingleLine pid tag addr m false = .ok r ∧ s.Polluted r.1 := by
  refine ⟨_, fetchSingleLine_push, ?_⟩
  cases s.status tag with
  | cached => exact .refl
  | uncached =>
    refine ⟨List.ext_getElem? fun j => ?_, fun j hj => ?_⟩
    · rw [List.getElem?_map, List.getElem?_map, getElem?_install]
      split
      · rw [Option.map_map]
        rfl
      · rfl
    · rw [getElem?_install, if_neg (Ne.symm hj)]

/-- A push of a line into a set, and what the rest of the simulator does to
the directory before it. -/
structure Push where
  pid : ℕ
  tag : BitVec 64
  addr : Addr
  meanwhile : DirMsi → DirMsi

/-- `fetch_single_line` without replacement. -/
def push (st : CacheSet × DirMsi) (p : Push) : Except AssertFailure (CacheSet × DirMsi) :=
  st.1.fetchSingleLine p.pid p.tag p.addr (p.meanwhile st.2) false

/-- **Pushes pollute one way.** Whatever a set holds and whatever is pushed
into it, nothing fails, every counter stays as it was, and so does every
way but the first of those with the least counter. At most one of the
lines in use is displaced. -/
theorem pushes_pollute_one_way (s : CacheSet) (m : DirMsi) (ps : List Push) :
    ∃ s' m', ps.foldlM push (s, m) = .ok (s', m') ∧
      s'.lines.map (·.lru) = s.lines.map (·.lru) ∧
      (∀ j ≠ firstMin (s.lines.map (·.lru.toNat)), s'.lines[j]? = s.lines[j]?) ∧
      s.lines.countP (fun l => l.status = .cached ∧ l ∉ s'.lines) ≤ 1 := by
  have hall : Ensures (fun _ => False) (fun st : CacheSet × DirMsi => s.Polluted st.1)
      (ps.foldlM push (s, m)) := by
    refine ensures_foldlM (I := fun _ (st : CacheSet × DirMsi) => s.Polluted st.1) .refl ?_
    intro u p v st _ hst
    obtain ⟨r, hr, hpolluted⟩ := exists_polluted st.1 (p.meanwhile st.2) p.pid p.tag p.addr
    rw [push, hr]
    exact hst.trans hpolluted
  obtain ⟨⟨s', m'⟩, hok, hpolluted⟩ := hall.exists_ok
  refine ⟨s', m', hok, hpolluted.counters, ?_, countP_notMem_le_one _ hpolluted.others⟩
  rw [← victim_eq_firstMin]
  exact hpolluted.others

end CacheSet

/-! ## Between two accesses of a processor -/

variable {cfg : Config} {detector : Bool} {c c' : Controller} {x : Access} {r : Report}
variable {t u v : List Access} {rs : List Report} {p i : ℕ}

/-- An access of another processor, or to another set, only pushes into the
set. -/
theorem Controller.Shaped.polluted_step (hn : cfg.numProcessors ≤ 32) (h : c.Shaped cfg)
    (ht : Tracks cfg.numProcessors detector t c.coherence) (hx : x.pid < cfg.numProcessors)
    (hstep : c.step x = .ok (c', r)) : c'.Shaped cfg ∧
      ((x.pid = p → cfg.index x.addr ≠ i) → (c.cache p i).Polluted (c'.cache p i)) := by
  obtain ⟨-, qs, hserves, hasked⟩ := Controller.exists_serves hn ht hx hstep
  refine hserves.induction (P := fun _ d => d.Shaped cfg ∧
    ((x.pid = p → cfg.index x.addr ≠ i) → (c.cache p i).Polluted (d.cache p i)))
    ⟨h.congr rfl rfl, fun _ => .refl⟩ ?_ ?_
  · rintro us d d' hrests ⟨hd, hpolluted⟩
    refine ⟨hd.congr hrests.same.offsetNumBits hrests.same.tagMask, ?_⟩
    rw [hrests.same.cache]
    exact hpolluted
  · rintro us q vs d d' hqs hfetch ⟨hd, hpolluted⟩
    obtain ⟨res, hres, hput⟩ := bind_eq_ok.mp hfetch
    cases hput
    refine ⟨hd.congr rfl rfl, fun hother => ?_⟩
    change (c.cache p i).Polluted ((d.putSet q.pid (d.getSetIndex q.addr) res).cache p i)
    rw [cache_putSet]
    split
    · rename_i hpi
      obtain ⟨rfl, rfl⟩ := hpi
      -- the request is a push, for a demand is of `x` itself
      have hpush : q.replace = false := by
        by_contra hreplace
        have hq : q ∈ x.demand :: qs := hqs ▸ by simp
        rcases List.mem_cons.mp hq with rfl | hq
        · exact hother rfl hd.getSetIndex.symm
        · refine hother (hasked.own q hq (by simpa using hreplace)).symm ?_
          rw [← hasked.addr q hq, hd.getSetIndex]
      rw [hpush] at hres
      obtain ⟨res', hres', hpolluted'⟩ := (d.cache q.pid (d.getSetIndex q.addr)).exists_polluted
        d.coherence q.pid (d.getTag q.addr) q.addr
      cases hres.symm.trans hres'
      exact (hpolluted hother).trans hpolluted'
    · exact hpolluted hother

/-- **Between two accesses of a processor to a set** at most one way of the
set changes, whatever the other processors do and wherever the processor
itself goes meanwhile. -/
theorem polluted_of_stretch {rs' : List Report} (hv : cfg.Valid (u ++ v))
    (hrun : cfg.run detector u = .ok (c, rs)) (hrun' : cfg.run detector (u ++ v) = .ok (c', rs'))
    (hquiet : ∀ x ∈ v, x.pid = p → cfg.index x.addr ≠ i) :
    (c.cache p i).Polluted (c'.cache p i) := by
  refine (Config.induction_of_run (I := fun w _ d => d.Shaped cfg ∧ ∀ w', w = u ++ w' →
    (c.cache p i).Polluted (d.cache p i)) hv hrun' ⟨Controller.shaped_start, ?_⟩ ?_).2 v rfl
  · rintro w' hw
    obtain ⟨rfl, -⟩ := List.append_eq_nil_iff.mp hw.symm
    cases hrun
    exact .refl
  · rintro w x v' bs d d' r hw hx hrun₀ ht ⟨hd, hpolluted⟩ hstep
    obtain ⟨hd', hnext⟩ := hd.polluted_step (p := p) (i := i) cfg.numProcessors_le ht hx hstep
    refine ⟨hd', fun w' hw' => ?_⟩
    rcases List.eq_nil_or_concat w' with rfl | ⟨w', y, rfl⟩
    · -- the stretch starts here
      have hu : u = w ++ [x] := by simpa using hw'.symm
      have hlast := run_snoc_eq_ok.mpr ⟨d, bs, r, hrun₀, hstep, rfl⟩
      rw [← hu] at hlast
      cases hrun.symm.trans hlast
      exact .refl
    · rw [List.concat_eq_append, ← List.append_assoc] at hw'
      obtain ⟨rfl, hxy⟩ := List.append_inj' hw' rfl
      have hmem : x ∈ v := by
        have hsplit : v = w' ++ x :: v' := by simpa using hw
        simp [hsplit]
      exact (hpolluted w' rfl).trans (hnext (hquiet x hmem))

/-- Two stores push to a reader that does not access its cache. -/
theorem polluted_of_stretch_pair :
    ∃ c c', Ensures (fun _ => False) (fun r => r.1 = c) (Config.pair.run true [⟨.store, 0, 4⟩,
        ⟨.load, 1, 4⟩, ⟨.store, 0, 4⟩, ⟨.load, 1, 4⟩]) ∧
      Ensures (fun _ => False) (fun r => r.1 = c') (Config.pair.run true ([⟨.store, 0, 4⟩,
        ⟨.load, 1, 4⟩, ⟨.store, 0, 4⟩, ⟨.load, 1, 4⟩] ++ [⟨.store, 0, 4⟩, ⟨.store, 0, 4⟩])) ∧
      (c.cache 1 0).Polluted (c'.cache 1 0) := by
  have hrun : Ensures (fun _ => False) (fun _ => True) (Config.pair.run true [⟨.store, 0, 4⟩,
      ⟨.load, 1, 4⟩, ⟨.store, 0, 4⟩, ⟨.load, 1, 4⟩]) := by decide
  have hrun' : Ensures (fun _ => False) (fun _ => True) (Config.pair.run true ([⟨.store, 0, 4⟩,
      ⟨.load, 1, 4⟩, ⟨.store, 0, 4⟩, ⟨.load, 1, 4⟩] ++ [⟨.store, 0, 4⟩, ⟨.store, 0, 4⟩])) := by
    decide
  obtain ⟨⟨c, rs⟩, hok, -⟩ := hrun.exists_ok
  obtain ⟨⟨c', rs'⟩, hok', -⟩ := hrun'.exists_ok
  refine ⟨c, c', by rw [hok]; rfl, by rw [hok']; rfl, ?_⟩
  exact polluted_of_stretch (by decide) hok hok' (by decide)

end AdaptiveMsi
