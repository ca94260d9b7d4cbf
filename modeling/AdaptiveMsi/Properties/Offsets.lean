import AdaptiveMsi.Properties.FalseSharing
import AdaptiveMsi.Properties.Filling
/-!
# What the offsets decide

The caches look at the line of an address, but the directory is keyed by
the whole address. So the offsets of a trace may be changed without a hit
or a miss changing if, and only if, no two addresses are made one and no
address is made two, and the address `0` stays what it is to `evict`. A
configuration in which that is no restriction has lines of one byte.
-/

namespace AdaptiveMsi

open Machine Protocol DirMsi

/-- **The offsets do not count**: two traces whose accesses differ in their
addresses only, and in these as `ρ` allows, are answered alike. -/
def OffsetBlind (cfg : Config) (ρ : Addr → Addr → Prop) : Prop :=
  ∀ t t', cfg.Valid t → List.Forall₂ (Access.Mirrors ρ) t t' →
    cfg.responses false t' = cfg.responses false t

/-- **The offsets are kept apart**: an address has one partner, and `0` has
no other than itself, unless too few lines are at hand to displace any. -/
structure KeepsApart (cfg : Config) (ρ : Addr → Addr → Prop) : Prop where
  biUnique : Relator.BiUnique ρ
  zero : (∀ a b, ρ a b → (a = 0 ↔ b = 0)) ∨ ∀ t, (∀ x ∈ t, ∃ b, ρ x.addr b) → cfg.Fits t

variable {cfg : Config} {ρ σ : Addr → Addr → Prop} {t t' u u' : List Access} {x y : Access}
variable {c c' d d' : Controller} {r r' : Report} {rs rs' : List Report} {a b : Addr}

/-! ## Lines -/

/-- Two addresses of a line of one byte are one. -/
theorem Config.SameLine.eq_of_lineSize (h : cfg.lineSize = 1) (hab : cfg.SameLine a b) :
    a = b := by
  have hbits := Config.tag_eq_and_index_eq_iff.mp hab
  rw [h] at hbits
  exact BitVec.eq_of_getLsbD_eq fun j hj => hbits j hj (Nat.zero_le j)

/-- A line of two bytes has two addresses. -/
theorem sameLine_zero_one (h : cfg.lineSize ≠ 1) : cfg.SameLine 0 1 := by
  have hpos := cfg.lineSize_pos
  refine Config.tag_eq_and_index_eq_iff.mpr fun j _ hle => ?_
  have hone : 1 ≤ Nat.log2 cfg.lineSize := (Nat.le_log2 (by omega)).mpr (by omega)
  have hj : j ≠ 0 := by omega
  simp [BitVec.getLsbD_one, hj]

theorem Config.SameLine.two_le (h : cfg.SameLine a b) (hne : a ≠ b) :
    2 ≤ cfg.numSets * cfg.lineSize := by
  have hsets := cfg.numSets_pos
  have hline : 2 ≤ cfg.lineSize := by
    have := cfg.lineSize_pos
    have hone : cfg.lineSize ≠ 1 := fun h1 => hne (h.eq_of_lineSize h1)
    omega
  exact hline.trans (Nat.le_mul_of_pos_left _ hsets)

/-- Paired accesses of one line each are to one line. -/
theorem Access.Mirrors.lineOf_eq (h : x.Mirrors ρ y) (hρ : ∀ a b, ρ a b → cfg.SameLine a b) :
    cfg.lineOf y = cfg.lineOf x := by
  obtain ⟨htag, hindex⟩ := hρ _ _ h.addr
  simp only [Config.lineOf, h.pid, Config.tag, Config.index, htag, hindex]

theorem map_lineOf_eq (h : List.Forall₂ (Access.Mirrors ρ) t t')
    (hρ : ∀ a b, ρ a b → cfg.SameLine a b) : t'.map cfg.lineOf = t.map cfg.lineOf := by
  induction h with
  | nil => rfl
  | cons hxy _ ih => rw [List.map_cons, List.map_cons, hxy.lineOf_eq hρ, ih]

theorem valid_of_mirrors (h : List.Forall₂ (Access.Mirrors ρ) t t') (hv : cfg.Valid t) :
    cfg.Valid t' := by
  induction h with
  | nil => exact hv
  | @cons x y t t' hxy _ ih =>
    obtain ⟨hx, ht⟩ := List.forall_mem_cons.mp hv
    exact List.forall_mem_cons.mpr ⟨hxy.pid ▸ hx, ih ht⟩

/-- Every access of an address with a partner has one. -/
theorem exists_mirrors (h : ∀ x ∈ t, ∃ b, ρ x.addr b) :
    ∃ t', List.Forall₂ (Access.Mirrors ρ) t t' := by
  induction t with
  | nil => exact ⟨[], .nil⟩
  | cons x t ih =>
    obtain ⟨⟨b, hb⟩, ht⟩ := List.forall_mem_cons.mp h
    obtain ⟨t', ht'⟩ := ih ht
    exact ⟨⟨x.kind, x.pid, b⟩ :: t', .cons ⟨rfl, rfl, hb⟩ ht'⟩

/-! ## Two runs in step -/

/-- A fetch that displaces nothing. -/
theorem Controller.Filled.quiet (hgeo : 2 ≤ cfg.numSets * cfg.lineSize)
    (h : Controller.Filled cfg t c) (hfits : cfg.Fits (t ++ [x])) : c.Quiet x := by
  intro c₁ hfetch
  obtain ⟨-, -, -, hdir, -⟩ := (Controller.ensures_stocked hgeo h.stocked hfits).of_ok hfetch
  unfold DirMsi.entries
  rw [hdir]

/-- **Two runs in step**, over the accesses so far. -/
structure InStep (cfg : Config) (σ : Addr → Addr → Prop) (u u' : List Access)
    (c c' : Controller) : Prop where
  tracks : Tracks cfg.numProcessors false u c.coherence
  tracks' : Tracks cfg.numProcessors false u' c'.coherence
  mirrors : Controller.Mirrors cfg σ c c'
  filled : σ 0 0 ∨ Controller.Filled cfg u c ∧ Controller.Filled cfg u' c'

theorem inStep_start : InStep cfg σ [] [] (cfg.start false) (cfg.start false) where
  tracks := tracks_start
  tracks' := tracks_start
  mirrors := by
    refine ⟨Controller.shaped_start, Controller.shaped_start, fun p i => ?_, rfl, fun a b _ => ?_⟩
    · refine List.forall₂_same.mpr fun l hl => ?_
      rw [List.eq_of_mem_replicate hl]
      exact CacheLine.twin_empty
    · rw [entries_start, entries_start]
  filled := Or.inr ⟨Controller.filled_start, Controller.filled_start⟩

/-- **One access of each.** -/
theorem InStep.agree_step (h : InStep cfg σ u u' c c') (hσ : Relator.BiUnique σ)
    (hline : ∀ a b, σ a b → cfg.SameLine a b) (hx : x.pid < cfg.numProcessors)
    (hxy : x.Mirrors σ y) (hsafe : σ 0 0 ∨ 2 ≤ cfg.numSets * cfg.lineSize ∧
      cfg.Fits (u ++ [x]) ∧ cfg.Fits (u' ++ [y])) :
    Agree (fun r r' => InStep cfg σ (u ++ [x]) (u' ++ [y]) r.1 r'.1 ∧
      r.2.response = r'.2.response) (c.step x) (c'.step y) := by
  have hn := cfg.numProcessors_le
  have hy : y.pid < cfg.numProcessors := hxy.pid ▸ hx
  obtain ⟨htag, hindex⟩ := hline _ _ hxy.addr
  refine (h.mirrors.agree_step hσ h.tracks h.tracks' hx hxy htag hindex ?_).mono ?_
  · rcases hsafe with hzero | ⟨hgeo, hf, hf'⟩
    · exact Or.inl hzero
    · exact h.filled.imp_right fun h => ⟨h.1.quiet hgeo hf, h.2.quiet hgeo hf'⟩
  · rintro ⟨d, r⟩ ⟨d', r'⟩ hstep hstep' ⟨hnext, hresponse⟩
    obtain ⟨pre, post, hstepped⟩ := (ensures_step hn h.tracks hx).of_ok hstep
    obtain ⟨pre', post', hstepped'⟩ := (ensures_step hn h.tracks' hy).of_ok hstep'
    refine ⟨⟨hstepped.tracks h.tracks hx, hstepped'.tracks h.tracks' hy, hnext, ?_⟩,
      hresponse.symm⟩
    rcases hsafe with hzero | ⟨hgeo, hf, hf'⟩
    · exact Or.inl hzero
    · exact h.filled.imp_right fun h => ⟨(h.1.step hgeo hx hf hstep).1,
        (h.2.step hgeo hy hf' hstep').1⟩

/-- Runs whose reports agree on the responses have the same responses. -/
theorem responses_eq_of_agree {R : Controller → Controller → Prop} {detector : Bool}
    (h : Agree (fun r r' => R r.1 r'.1 ∧
        List.Forall₂ (fun y y' : Report => y.response = y'.response) r.2 r'.2)
      (cfg.run detector t) (cfg.run detector t')) :
    cfg.responses detector t' = cfg.responses detector t := by
  unfold Config.responses
  generalize cfg.run detector t = z at h ⊢
  generalize cfg.run detector t' = z' at h ⊢
  cases z <;> cases z'
  case error.error => exact congrArg _ (Eq.symm h)
  case ok.ok r r' =>
    have heq : r.2.map Report.response = r'.2.map Report.response := by
      rw [← List.forall₂_eq_eq_eq, List.forall₂_map_left_iff, List.forall₂_map_right_iff]
      exact h.2
    exact congrArg _ heq.symm
  all_goals exact h.elim

/-- **Addresses kept apart are answered alike.** -/
theorem responses_eq (hσ : Relator.BiUnique σ) (hline : ∀ a b, σ a b → cfg.SameLine a b)
    (hv : cfg.Valid t) (h : List.Forall₂ (Access.Mirrors σ) t t')
    (hsafe : σ 0 0 ∨ 2 ≤ cfg.numSets * cfg.lineSize ∧ cfg.Fits t ∧ cfg.Fits t') :
    cfg.responses false t' = cfg.responses false t := by
  refine responses_eq_of_agree (agree_runs (R := InStep cfg σ) inStep_start h ?_)
  rintro u x v u' y v' c c' hl hl' hxy hc
  refine hc.agree_step hσ hline (hv x (by simp [hl])) hxy (hsafe.imp_right ?_)
  -- the prefixes fit as the traces do
  rintro ⟨hgeo, hf, hf'⟩
  exact ⟨hgeo, Config.Fits.append (u := v) (by simpa [hl] using hf),
    Config.Fits.append (u := v') (by simpa [hl'] using hf')⟩

/-- `0` may be paired with itself. -/
theorem biUnique_or_zero (h : Relator.BiUnique ρ) (hzero : ∀ a b, ρ a b → (a = 0 ↔ b = 0)) :
    Relator.BiUnique fun a b => ρ a b ∨ a = 0 ∧ b = 0 := by
  constructor
  · rintro a a' b (hab | ⟨rfl, rfl⟩) (hab' | ⟨rfl, hb⟩)
    · exact h.1 hab hab'
    · exact (hzero a b hab).mpr hb
    · exact ((hzero a' 0 hab').mpr rfl).symm
    · rfl
  · rintro a b b' (hab | ⟨rfl, rfl⟩) (hab' | ⟨ha, rfl⟩)
    · exact h.2 hab hab'
    · exact (hzero a b hab).mp ha
    · exact ((hzero 0 b' hab').mp rfl).symm
    · rfl

/-- With lines of one byte two traces of the same lines are one. -/
theorem eq_of_mirrors (hgeo : ¬ 2 ≤ cfg.numSets * cfg.lineSize)
    (hρ : ∀ a b, ρ a b → cfg.SameLine a b) (h : List.Forall₂ (Access.Mirrors ρ) t t') : t = t' := by
  have heq : ∀ x y, Access.Mirrors ρ x y → x = y := by
    rintro ⟨kind, pid, a⟩ ⟨kind', pid', b⟩ ⟨rfl, rfl, hab⟩
    have haddr : a = b := by
      by_contra hne
      exact hgeo ((hρ a b hab).two_le hne)
    rw [haddr]
  have hall : List.Forall₂ Eq t t' := h.imp heq
  rwa [List.forall₂_eq_eq_eq] at hall

/-- **Kept apart, the offsets do not count.** -/
theorem KeepsApart.offsetBlind (h : KeepsApart cfg ρ) (hρ : ∀ a b, ρ a b → cfg.SameLine a b) :
    OffsetBlind cfg ρ := by
  intro t t' hv hm
  rcases h.zero with hzero | hfits
  · refine responses_eq (biUnique_or_zero h.biUnique hzero) ?_ hv (hm.imp fun x y hxy =>
      ⟨hxy.kind, hxy.pid, Or.inl hxy.addr⟩) (Or.inl (Or.inr ⟨rfl, rfl⟩))
    rintro a b (hab | ⟨rfl, rfl⟩)
    · exact hρ a b hab
    · exact ⟨rfl, rfl⟩
  · by_cases hgeo : 2 ≤ cfg.numSets * cfg.lineSize
    · have ht : cfg.Fits t := hfits t fun x hx => by
        obtain ⟨i, hi, rfl⟩ := List.mem_iff_getElem.mp hx
        exact ⟨_, (hm.get hi (hm.length_eq ▸ hi)).addr⟩
      exact responses_eq h.biUnique hρ hv hm (Or.inr ⟨hgeo, ht, ht.congr (map_lineOf_eq hm hρ)⟩)
    · rw [eq_of_mirrors hgeo hρ hm]

/-! ## What breaks them -/

/-- A load of the first processor. -/
def loadOf (a : Addr) : Access := ⟨.load, 0, a⟩

@[simp] theorem addr_loadOf : (loadOf a).addr = a := rfl

theorem valid_loadOf (as : List Addr) : cfg.Valid (as.map loadOf) := by
  intro x hx
  obtain ⟨a, -, rfl⟩ := List.mem_map.mp hx
  exact cfg.numProcessors_pos

theorem OffsetBlind.flip (h : OffsetBlind cfg ρ) : OffsetBlind cfg (flip ρ) := by
  intro t t' hv hm
  have hflip : List.Forall₂ (fun x y => Access.Mirrors ρ y x) t t' :=
    hm.imp fun x y hxy => ⟨hxy.kind.symm, hxy.pid.symm, hxy.addr⟩
  have hm' : List.Forall₂ (Access.Mirrors ρ) t' t := hflip.flip
  exact (h t' t (valid_of_mirrors hm hv) hm').symm

/-- The last answers of two traces that only differ as `ρ` allows. -/
theorem OffsetBlind.response_eq (h : OffsetBlind cfg ρ) (hv : cfg.Valid (u ++ [x]))
    (hm : List.Forall₂ (Access.Mirrors ρ) (u ++ [x]) (u' ++ [y]))
    (hrun : cfg.run false u = .ok (c, rs)) (hrun' : cfg.run false u' = .ok (c', rs'))
    (hstep : c.step x = .ok (d, r)) (hstep' : c'.step y = .ok (d', r')) :
    r'.response = r.response := by
  have hlast : cfg.responses false (u ++ [x]) = .ok ((rs ++ [r]).map Report.response) := by
    have hok : cfg.run false (u ++ [x]) = .ok (d, rs ++ [r]) :=
      run_snoc_eq_ok.mpr ⟨c, rs, r, hrun, hstep, rfl⟩
    simp only [Config.responses, hok, ok_bind, pure_eq_ok]
  have hlast' : cfg.responses false (u' ++ [y]) = .ok ((rs' ++ [r']).map Report.response) := by
    have hok : cfg.run false (u' ++ [y]) = .ok (d', rs' ++ [r']) :=
      run_snoc_eq_ok.mpr ⟨c', rs', r', hrun', hstep', rfl⟩
    simp only [Config.responses, hok, ok_bind, pure_eq_ok]
  have heq := h _ _ hv hm
  rw [hlast, hlast', Except.ok.injEq, List.map_append, List.map_append] at heq
  exact List.singleton_inj.mp (List.append_inj' heq rfl).2

/-- A load hits an address that its processor loaded just before, and
misses another. -/
theorem exists_load_load (hgeo : 2 ≤ cfg.numSets * cfg.lineSize) (hab : cfg.SameLine a b) :
    ∃ c rs d r, cfg.run false [loadOf a] = .ok (c, rs) ∧ c.step (loadOf b) = .ok (d, r) ∧
      (r.response = .cacheHit ↔ a = b) := by
  have hx : (loadOf a).pid < cfg.numProcessors := cfg.numProcessors_pos
  have hfits : ∀ t : List Access, (∀ x ∈ t, x = loadOf a ∨ x = loadOf b) → cfg.Fits t := by
    intro t ht
    refine Config.fits_of_tag (cfg.tag a) fun x hx => ?_
    rcases ht x hx with rfl | rfl
    · rfl
    · exact hab.1.symm
  have hdistinct : cfg.Distinct [loadOf a] := List.nodup_singleton _
  obtain ⟨c, rs, hrun, hfilled⟩ := Controller.exists_filled hgeo (t := [loadOf a])
    (valid_loadOf [a]) hdistinct (hfits _ (by simp))
  obtain ⟨d, r, hstep, -⟩ := Controller.exists_step (x := loadOf b) hfilled.tracks hx
    (hfilled.below hdistinct) (by omega)
  obtain ⟨-, hhit⟩ := hfilled.step hgeo (x := loadOf b) hx (hfits _ (by simp)) hstep
  refine ⟨c, rs, d, r, hrun, hstep, hhit.trans ?_⟩
  have hentry : 0 ∈ (c.coherence.entries b).sharers ↔ a = b := by
    rw [hfilled.entries]
    simp only [List.map_cons, List.map_nil, List.foldl_cons, List.foldl_nil, Event.apply,
      Access.addr_event, addr_loadOf]
    rcases eq_or_ne b a with rfl | hne
    · rw [Function.update_self]
      exact iff_of_true ((Entry.mem_sharers_read _).mpr (Or.inl rfl)) rfl
    · rw [Function.update_of_ne hne, entries_start]
      exact iff_of_false (Finset.notMem_empty 0) hne.symm
  rw [← hentry]
  simp [Access.Hits, loadOf]

/-- **An address has one partner**, if the offsets do not count. -/
theorem OffsetBlind.rightUnique (h : OffsetBlind cfg ρ) (hρ : ∀ a b, ρ a b → cfg.SameLine a b) :
    Relator.RightUnique ρ := by
  intro a b b' hab hab'
  by_contra hne
  have hline : cfg.SameLine b b' :=
    ⟨(hρ a b hab).1.symm.trans (hρ a b' hab').1, (hρ a b hab).2.symm.trans (hρ a b' hab').2⟩
  have hgeo := hline.two_le hne
  obtain ⟨c, rs, d, r, hrun, hstep, hhit⟩ := exists_load_load hgeo (a := a) (b := a) ⟨rfl, rfl⟩
  obtain ⟨c', rs', d', r', hrun', hstep', hhit'⟩ := exists_load_load hgeo hline
  have heq := h.response_eq (x := loadOf a) (y := loadOf b') (valid_loadOf [a, a])
    (.cons ⟨rfl, rfl, hab⟩ (.cons ⟨rfl, rfl, hab'⟩ .nil)) hrun hrun' hstep hstep'
  exact hne (hhit'.mp (heq.trans (hhit.mpr rfl)))

/-! ## Address zero -/

variable {as bs : List Addr} {z : Addr}

/-- Addresses of different lines. -/
theorem ne_of_distinct (h : cfg.Distinct ((as ++ bs).map loadOf)) (ha : a ∈ as) (hb : b ∈ bs) :
    a ≠ b := by
  rintro rfl
  rw [Config.Distinct, List.map_map, List.map_append, List.nodup_append'] at h
  exact h.2.2 (List.mem_map_of_mem ha) (List.mem_map_of_mem hb)

/-- An address for each line of a set that a trace accesses. -/
theorem exists_addrs (cfg : Config) (t : List Access) (p i : ℕ) : ∃ as : List Addr,
    (as.map cfg.tag).Nodup ∧ (∀ a ∈ as, cfg.index a = i ∧ ∃ x ∈ t, x.addr = a) ∧
      ∀ tag ∈ cfg.accessed t p i, ∃ a ∈ as, cfg.tag a = tag := by
  have hsource : ∀ tag ∈ cfg.accessed t p i, ∃ a, (∃ x ∈ t, x.addr = a) ∧
      cfg.index a = i ∧ cfg.tag a = tag := by
    intro tag htag
    obtain ⟨x, hx, -, hindex, htag⟩ := Config.mem_accessed.mp htag
    exact ⟨x.addr, ⟨x, hx, rfl⟩, hindex, htag⟩
  choose! f hmem hindex htag using hsource
  have htags : ((cfg.accessed t p i).toList.map f).map cfg.tag = (cfg.accessed t p i).toList := by
    rw [List.map_map]
    exact (List.map_congr_left fun tag h => htag tag (Finset.mem_toList.mp h)).trans
      (List.map_id _)
  refine ⟨(cfg.accessed t p i).toList.map f, ?_, fun a ha => ?_, fun tag h => ?_⟩
  · rw [htags]
    exact Finset.nodup_toList _
  · obtain ⟨tag, h, rfl⟩ := List.mem_map.mp ha
    have hin := Finset.mem_toList.mp h
    exact ⟨hindex tag hin, hmem tag hin⟩
  · exact ⟨f tag, List.mem_map_of_mem (Finset.mem_toList.mpr h), htag tag h⟩

/-- **Too many lines for a set**, after address `0`. -/
theorem exists_overfull (hover : ¬ cfg.Fits t) : ∃ as,
    cfg.Distinct ((0 :: as).map loadOf) ∧ ¬ cfg.Fits ((0 :: as).map loadOf) ∧
      ∀ a ∈ as, ∃ x ∈ t, x.addr = a := by
  simp only [Config.Fits, not_forall, not_le] at hover
  obtain ⟨p, i, hpi⟩ := hover
  obtain ⟨as, hnodup, hmem, htags⟩ := exists_addrs cfg t p i
  -- without an address of the line of `0`
  let rest := as.filter fun a => cfg.lineOf (loadOf a) ≠ cfg.lineOf (loadOf 0)
  have hrest : ∀ a, a ∈ rest ↔ a ∈ as ∧ cfg.lineOf (loadOf a) ≠ cfg.lineOf (loadOf 0) := by
    intro a
    rw [List.mem_filter, decide_eq_true_eq]
  refine ⟨rest, ?_, fun hfits => ?_, fun a ha => (hmem a ((hrest a).mp ha).1).2⟩
  · have hsnd : ((rest.map loadOf).map cfg.lineOf).map (fun l => l.2.2) = rest.map cfg.tag := by
      rw [List.map_map, List.map_map]
      rfl
    have hlines : ((rest.map loadOf).map cfg.lineOf).Nodup := by
      refine List.Nodup.of_map (fun l => l.2.2) ?_
      rw [hsnd]
      exact hnodup.sublist (List.filter_sublist.map cfg.tag)
    rw [Config.Distinct, List.map_cons, List.map_cons, List.nodup_cons]
    refine ⟨fun hin => ?_, hlines⟩
    rw [List.map_map] at hin
    obtain ⟨a, ha, heq⟩ := List.mem_map.mp hin
    exact ((hrest a).mp ha).2 heq
  · -- the tags of the full set are all there, that of `0` too
    have hsub : cfg.accessed t p i ⊆ cfg.accessed ((0 :: rest).map loadOf) 0 i := by
      intro tag hin
      obtain ⟨a, ha, rfl⟩ := htags tag hin
      have hindex := (hmem a ha).1
      rw [Config.mem_accessed_iff_lineOf, List.map_map, List.mem_map]
      by_cases hzero : cfg.lineOf (loadOf a) = cfg.lineOf (loadOf 0)
      · exact ⟨0, List.mem_cons_self, hzero.symm.trans (hindex ▸ rfl)⟩
      · exact ⟨a, List.mem_cons_of_mem _ ((hrest a).mpr ⟨ha, hzero⟩), hindex ▸ rfl⟩
    have hle := (Finset.card_le_card hsub).trans (hfits 0 i)
    omega

/-- **The first line too many**: loads that fit, of different lines from
that of address `0` on, and one more. -/
theorem exists_crowd (hover : ¬ cfg.Fits t) : ∃ as z,
    cfg.Distinct ((0 :: as ++ [z]).map loadOf) ∧ cfg.Fits ((0 :: as).map loadOf) ∧
      ¬ cfg.Fits ((0 :: as ++ [z]).map loadOf) ∧ ∀ a ∈ as ++ [z], ∃ x ∈ t, x.addr = a := by
  obtain ⟨addrs, hdistinct, hmany, hmem⟩ := exists_overfull hover
  obtain ⟨u, x, v, hsplit, hfits, hover⟩ := Config.exists_first hmany
  obtain ⟨l₁, l₂, hl, rfl, hl₂⟩ := List.map_eq_append_iff.mp hsplit
  obtain ⟨z, w, rfl, rfl, -⟩ := List.map_eq_cons_iff.mp hl₂
  cases l₁ with
  | nil => exact absurd (Config.fits_of_tag (cfg.tag z) (by simp)) hover
  | cons a as =>
    obtain ⟨rfl, hrest⟩ := List.cons.inj hl
    replace hrest : addrs = as ++ z :: w := hrest
    have hall : (0 :: addrs).map loadOf = (0 :: as ++ [z]).map loadOf ++ w.map loadOf := by
      rw [hrest]
      simp
    refine ⟨as, z, ?_, hfits, by simpa using hover, fun a ha => hmem a ?_⟩
    · rw [hall] at hdistinct
      exact hdistinct.append
    · rw [List.mem_append, List.mem_singleton] at ha
      rw [hrest, List.mem_append, List.mem_cons]
      tauto

/-- **The run of a crowd**, and one load more. -/
theorem exists_overflow (hgeo : 2 ≤ cfg.numSets * cfg.lineSize)
    (hd : cfg.Distinct ((as ++ [z]).map loadOf)) (hfits : cfg.Fits (as.map loadOf))
    (hover : ¬ cfg.Fits ((as ++ [z]).map loadOf)) (a : Addr) :
    ∃ c d rs e r, Controller.Filled cfg (as.map loadOf) c ∧
      cfg.run false ((as ++ [z]).map loadOf) = .ok (d, rs) ∧
      Tracks cfg.numProcessors false ((as ++ [z]).map loadOf) d.coherence ∧
      d.coherence.entries = [.evict 0 0, .read 0 z].foldl
        (Event.apply (rules cfg.numProcessors false)) c.coherence.entries ∧
      d.step (loadOf a) = .ok (e, r) := by
  have hpos := cfg.numProcessors_pos
  rw [List.map_append] at hd hover ⊢
  obtain ⟨c, rs, hrun, hfilled⟩ := Controller.exists_filled hgeo (valid_loadOf as) hd.append hfits
  obtain ⟨d, r, hstep, ht, hbelow⟩ := Controller.exists_step (x := loadOf z) hfilled.tracks hpos
    (hfilled.below hd.append) (by omega)
  obtain ⟨e, r', hlast, -⟩ := Controller.exists_step (x := loadOf a) ht hpos hbelow (by omega)
  exact ⟨c, d, rs ++ [r], e, r', hfilled, run_snoc_eq_ok.mpr ⟨c, rs, r, hrun, hstep, rfl⟩, ht,
    hfilled.overflow hgeo hd.append hfits hpos hover hstep, hlast⟩

/-- **A load does not evict its own address**, unless that is `0`. -/
theorem hit_of_mem (hgeo : 2 ≤ cfg.numSets * cfg.lineSize)
    (hrep : Controller.Represents cfg c) (ht : Tracks cfg.numProcessors false t c.coherence)
    (ha : a ≠ 0) (hmem : 0 ∈ (c.coherence.entries a).sharers)
    (hstep : c.step (loadOf a) = .ok (d, r)) : r.response = .cacheHit := by
  have hn := cfg.numProcessors_le
  have hpos := cfg.numProcessors_pos
  obtain ⟨c₁, hfetch, hhandle⟩ := Controller.step_eq_ok hstep
  have hclear : Controller.Represents cfg c.clearCalls := hrep.congr ⟨rfl, rfl, rfl⟩
  have h32 : (loadOf a).pid < 32 := Nat.zero_lt_succ 31
  -- what the set displaces is of another address
  have hentries : c₁.coherence.entries a = c.coherence.entries a :=
    (hclear.entries_fetched hgeo h32 hfetch).trans (if_neg (hclear.not_givesUp ha))
  obtain ⟨pre, calls', hf⟩ := (ensures_fetched hn ht hpos).of_ok hfetch
  obtain ⟨m, charge, log, hok, -, hhit⟩ := Controller.exists_handle
    (fun _ => Controller.not_callsBack hf.detector) (hf.numProcessors ▸ hn)
    (hf.numProcessors ▸ hpos) hf.inv
  cases hok.symm.trans hhandle
  exact hhit.mpr (Or.inl (hentries ▸ hmem))

/-- Addresses that all have partners. -/
theorem exists_partners (h : ∀ a ∈ as, ∃ b, ρ a b) :
    ∃ bs, List.Forall₂ ρ as bs ∧
      List.Forall₂ (Access.Mirrors ρ) (as.map loadOf) (bs.map loadOf) := by
  induction as with
  | nil => exact ⟨[], .nil, .nil⟩
  | cons a as ih =>
    obtain ⟨⟨b, hb⟩, has⟩ := List.forall_mem_cons.mp h
    obtain ⟨bs, hbs, hm⟩ := ih has
    exact ⟨b :: bs, .cons hb hbs, .cons ⟨rfl, rfl, hb⟩ hm⟩

/-- The entry of the first address of a crowd, after the crowd. -/
theorem sharers_of_overflow (hd : cfg.Distinct ((a :: as ++ [z]).map loadOf))
    (h : Controller.Filled cfg ((a :: as).map loadOf) c)
    (hentries : d.coherence.entries = [.evict 0 0, .read 0 z].foldl
      (Event.apply (rules cfg.numProcessors false)) c.coherence.entries) :
    0 ∈ (d.coherence.entries a).sharers ↔ a ≠ 0 := by
  have haz : a ≠ z := ne_of_distinct hd (by simp) (by simp)
  have hrest : ∀ y ∈ (as.map loadOf).map Access.event, y.addr ≠ a := by
    intro y hy
    obtain ⟨x, hx, rfl⟩ := List.mem_map.mp hy
    obtain ⟨b, hb, rfl⟩ := List.mem_map.mp hx
    rw [Access.addr_event, addr_loadOf]
    have hd' : cfg.Distinct (([a] ++ as).map loadOf ++ [z].map loadOf) := by
      simpa using hd
    exact (ne_of_distinct hd'.append (by simp) hb).symm
  have hmem : 0 ∈ (c.coherence.entries a).sharers := by
    rw [h.entries, List.map_cons, List.map_cons, List.foldl_cons, foldl_apply_of_ne hrest,
      Event.apply, Access.addr_event, addr_loadOf, Function.update_self]
    exact (Entry.mem_sharers_read _).mpr (Or.inl rfl)
  rw [hentries]
  simp only [List.foldl_cons, List.foldl_nil, Event.apply, Event.addr]
  rw [Function.update_of_ne haz]
  rcases eq_or_ne a 0 with rfl | hne
  · rw [Function.update_self]
    simp [Event.onEntry]
  · rw [Function.update_of_ne hne]
    exact iff_of_true hmem hne

/-- **Address `0` has no other partner**, if the offsets do not count and
there are lines to displace it: the crowd takes the copy of address `0`
and leaves its partner's. -/
theorem OffsetBlind.eq_zero (h : OffsetBlind cfg ρ) (hρ : ∀ a b, ρ a b → cfg.SameLine a b)
    (hdom : ∀ x ∈ t, ∃ b, ρ x.addr b) (hmany : ¬ cfg.Fits t) (hb : ρ 0 b) : b = 0 := by
  by_contra hne
  have hn := cfg.numProcessors_le
  have hpos := cfg.numProcessors_pos
  have hgeo := (hρ 0 b hb).two_le (Ne.symm hne)
  obtain ⟨as, z, hd, hfits, hover, hsource⟩ := exists_crowd hmany
  have hpartner : ∀ a ∈ as ++ [z], ∃ b, ρ a b := by
    intro a ha
    obtain ⟨x, hx, rfl⟩ := hsource a ha
    exact hdom x hx
  obtain ⟨bs, -, hm⟩ := exists_partners fun a ha => hpartner a (List.mem_append_left _ ha)
  obtain ⟨z', hz'⟩ := hpartner z (by simp)
  have hmirrors : List.Forall₂ (Access.Mirrors ρ) ((0 :: as).map loadOf) ((b :: bs).map loadOf) :=
    .cons ⟨rfl, rfl, hb⟩ hm
  have hall : List.Forall₂ (Access.Mirrors ρ) ((0 :: as ++ [z]).map loadOf)
      ((b :: bs ++ [z']).map loadOf) := by
    rw [List.map_append, List.map_append]
    exact List.rel_append hmirrors (.cons ⟨rfl, rfl, hz'⟩ .nil)
  -- the partners are a crowd of the same lines
  have hlines := map_lineOf_eq hall hρ
  have hd' : cfg.Distinct ((b :: bs ++ [z']).map loadOf) := by
    rw [Config.Distinct, hlines]
    exact hd
  have hover' : ¬ cfg.Fits ((b :: bs ++ [z']).map loadOf) := fun hf => hover (hf.congr hlines.symm)
  obtain ⟨c, d, rs, e, r, hfilled, hrun, ht, hentries, hlast⟩ :=
    exists_overflow hgeo hd hfits hover 0
  obtain ⟨c', d', rs', e', r', hfilled', hrun', ht', hentries', hlast'⟩ :=
    exists_overflow hgeo hd' (hfits.congr (map_lineOf_eq hmirrors hρ)) hover' b
  -- address `0` lost its copy to the crowd
  have hmiss : r.response ≠ .cacheHit := fun hhit => by
    obtain ⟨pre, post, hstepped⟩ := (ensures_step hn ht hpos).of_ok hlast
    exact (sharers_of_overflow hd hfilled hentries).mp (hstepped.mem_sharers_of_hit rfl hhit) rfl
  -- its partner did not
  have hrep := (Controller.represents_of_run hgeo (valid_loadOf _) hrun').1
  have hhit := hit_of_mem hgeo hrep ht' hne
    ((sharers_of_overflow hd' hfilled' hentries').mpr hne) hlast'
  have hv : cfg.Valid ((0 :: as ++ [z]).map loadOf ++ [loadOf 0]) := by
    rw [← List.map_singleton, ← List.map_append]
    exact valid_loadOf _
  have hboth : List.Forall₂ (Access.Mirrors ρ) ((0 :: as ++ [z]).map loadOf ++ [loadOf 0])
      ((b :: bs ++ [z']).map loadOf ++ [loadOf b]) :=
    List.rel_append hall (.cons ⟨rfl, rfl, hb⟩ .nil)
  exact hmiss ((h.response_eq hv hboth hrun hrun' hlast hlast').symm.trans hhit)

/-! ## Exactly which offsets count -/

/-- **Offsets may be changed exactly if they are kept apart.** Of every set
`ρ` of pairs of addresses of one line: all traces whose accesses pair off
by `ρ` are answered alike if and only if `ρ` gives no address two
partners, and `0` none but itself where lines can be displaced. -/
theorem offsetBlind_iff (hρ : ∀ a b, ρ a b → cfg.SameLine a b) :
    OffsetBlind cfg ρ ↔ KeepsApart cfg ρ := by
  refine ⟨fun h => ?_, fun h => h.offsetBlind hρ⟩
  have hρ' : ∀ a b, flip ρ a b → cfg.SameLine a b := fun a b hab => (hρ b a hab).symm
  refine ⟨⟨fun a a' b hab hab' => h.flip.rightUnique hρ' hab hab', h.rightUnique hρ⟩, ?_⟩
  by_cases hfits : ∀ t, (∀ x ∈ t, ∃ b, ρ x.addr b) → cfg.Fits t
  · exact Or.inr hfits
  · left
    simp only [not_forall] at hfits
    obtain ⟨t, hdom, hmany⟩ := hfits
    obtain ⟨t', hm⟩ := exists_mirrors hdom
    have hdom' : ∀ y ∈ t', ∃ a, flip ρ y.addr a := by
      intro y hy
      obtain ⟨i, hi, rfl⟩ := List.mem_iff_getElem.mp hy
      exact ⟨_, (hm.get (hm.length_eq ▸ hi) hi).addr⟩
    have hmany' : ¬ cfg.Fits t' := fun hf => hmany (hf.congr (map_lineOf_eq hm hρ).symm)
    intro a b hab
    constructor
    · rintro rfl
      exact h.eq_zero hρ hdom hmany hab
    · rintro rfl
      exact h.flip.eq_zero hρ' hdom' hmany' hab

/-- One address moved within its line. -/
theorem offsetBlind_iff_pair :
    OffsetBlind .pair (fun a b => a = 4 ∧ b = 5) ↔ KeepsApart .pair fun a b => a = 4 ∧ b = 5 := by
  refine offsetBlind_iff ?_
  rintro a b ⟨rfl, rfl⟩
  exact ⟨by decide, by decide⟩

/-- **The second load of a line misses at another offset** and hits at its
own. -/
theorem offset_misses :
    Config.pair.Valid [loadOf 4, loadOf 4] ∧
      List.Forall₂ (Access.Mirrors Config.pair.SameLine) [loadOf 4, loadOf 4]
        [loadOf 4, loadOf 5] ∧
      Config.pair.responses false [loadOf 4, loadOf 4] = .ok [.cacheMiss, .cacheHit] ∧
      Config.pair.responses false [loadOf 4, loadOf 5] = .ok [.cacheMiss, .cacheMiss] ∧
      ¬ OffsetBlind .pair Config.pair.SameLine := by
  have hv : Config.pair.Valid [loadOf 4, loadOf 4] := by decide
  have hm : List.Forall₂ (Access.Mirrors Config.pair.SameLine) [loadOf 4, loadOf 4]
      [loadOf 4, loadOf 5] :=
    .cons ⟨rfl, rfl, by decide, by decide⟩ (.cons ⟨rfl, rfl, by decide, by decide⟩ .nil)
  have hhit : Config.pair.responses false [loadOf 4, loadOf 4] = .ok [.cacheMiss, .cacheHit] := rfl
  have hmiss : Config.pair.responses false [loadOf 4, loadOf 5] = .ok [.cacheMiss, .cacheMiss] :=
    rfl
  refine ⟨hv, hm, hhit, hmiss, fun h => ?_⟩
  have heq := h _ _ hv hm
  rw [hhit, hmiss] at heq
  simp at heq

/-! ## Lines of one byte -/

/-- **No line has two offsets**: that is when they do not count at all. -/
theorem offsetBlind_sameLine_iff : OffsetBlind cfg cfg.SameLine ↔ cfg.lineSize = 1 := by
  constructor
  · intro h
    by_contra hne
    have heq := h.rightUnique (fun _ _ hab => hab) (a := 0) ⟨rfl, rfl⟩ (sameLine_zero_one hne)
    exact absurd heq (by decide)
  · intro h
    have heq : ∀ a b, cfg.SameLine a b → a = b := fun a b hab => hab.eq_of_lineSize h
    refine KeepsApart.offsetBlind ⟨⟨?_, ?_⟩, Or.inl fun a b hab => ?_⟩ fun _ _ hab => hab
    · intro a a' b hab hab'
      rw [heq a b hab, heq a' b hab']
    · intro a b b' hab hab'
      rw [← heq a b hab, ← heq a b' hab']
    · rw [heq a b hab]

end AdaptiveMsi
