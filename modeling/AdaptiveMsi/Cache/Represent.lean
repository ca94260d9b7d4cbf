import AdaptiveMsi.Cache.Contents
/-!
# What a set represents

A set is a map from tags to lines as long as no two ways in use have one
tag and an empty way keeps the tag and the counter of its constructor.
Whatever fetches a line, one way changes: it is touched, or the line is
installed over it. `Replaces` is that, and the invariant and the counters
are read off it.
-/

namespace AdaptiveMsi

open Machine Protocol

namespace CacheSet

variable {cfg : Config} {s s' : CacheSet} {m : DirMsi} {pid i : ℕ} {tag : BitVec 64} {addr : Addr}
variable {replace : Bool} {pre post lines : List CacheLine} {l l' : CacheLine}

/-! ## One way changes -/

/-- The line a fetch leaves in the way that answered it. -/
structure Replaces (tag : BitVec 64) (addr : Addr) (replace : Bool) (s : CacheSet)
    (l l' : CacheLine) : Prop where
  tag_eq : l'.tag = tag
  status_eq : l'.status = .cached
  lru_eq : l'.lru = if replace then l.lru + 1 else l.lru
  outcome : l.tag = tag ∧ l.status = .cached ∧ l'.addr = l.addr ∨
    (∀ k ∈ s.lines, k.tag ≠ tag) ∧ l = s.line s.victim.evict ∧ l'.addr = addr

/-- **A fetch changes one way.** -/
theorem Fetched.exists_replaces {r : CacheSet × DirMsi}
    (h : Fetched pid tag addr replace s m r) (hpos : 0 < s.lines.length) :
    ∃ pre l post l', s.lines = pre ++ l :: post ∧ r.1.lines = pre ++ l' :: post ∧
      Replaces tag addr replace s l l' := by
  cases h with
  | hit pre l post hlines hpre htag hstatus hlru =>
    refine ⟨pre, l, post, touch replace l, hlines, rfl, by simpa using htag, by simpa using hstatus,
      ?_, Or.inl ⟨htag, hstatus, ?_⟩⟩
    · unfold touch
      split <;> rfl
    · unfold touch
      split <;> rfl
  | miss habsent =>
    obtain ⟨pre, l, post, hlines, hline, hmodify⟩ := List.exists_of_modify
      (installed tag addr replace) (isVictim hpos).lt
    have hl : l = s.line s.victim.evict := by simp [line, hlines, ← hline]
    refine ⟨pre, l, post, installed tag addr replace l, hlines, hmodify, rfl, rfl, rfl, ?_⟩
    exact Or.inr ⟨habsent, hl, rfl⟩

/-! ## The invariant -/

/-- An empty way is as constructed. -/
structure Clean (s : CacheSet) : Prop where
  pos : 0 < s.lines.length
  uncached : ∀ l ∈ s.lines, l.status = .uncached → l.tag = allOnes ∧ l.lru = 0

theorem Clean.tidy (h : s.Clean) : s.Tidy where
  pos := h.pos
  uncached l hl hst := (h.uncached l hl hst).1

theorem clean_new {ways : ℕ} (h : 0 < ways) : (new ways).Clean where
  pos := by simpa [new] using h
  uncached l hl _ := by
    rw [List.eq_of_mem_replicate hl]
    exact ⟨rfl, rfl⟩

theorem Fetched.clean {r : CacheSet × DirMsi} (h : Fetched pid tag addr replace s m r)
    (hs : s.Clean) : r.1.Clean := by
  obtain ⟨pre, l, post, l', hlines, hlines', hl'⟩ := h.exists_replaces hs.pos
  refine ⟨by simp [hlines'], fun k hk hst => ?_⟩
  rw [hlines'] at hk
  simp only [List.mem_append, List.mem_cons] at hk
  rcases hk with hk | rfl | hk
  · exact hs.uncached k (by simp [hlines, hk]) hst
  · rw [hl'.status_eq] at hst
    cases hst
  · exact hs.uncached k (by simp [hlines, hk]) hst

/-- **The set `i` of a cache**: the lines in use are of this set and have
different tags, and the other ways are as constructed. -/
structure Represents (cfg : Config) (i : ℕ) (s : CacheSet) : Prop where
  clean : s.Clean
  cached : ∀ l ∈ s.lines, l.status = .cached → l.tag = cfg.tag l.addr ∧ cfg.index l.addr = i
  distinct : s.lines.Pairwise fun l l' =>
    l.status = .cached → l'.status = .cached → l.tag ≠ l'.tag

theorem represents_new : (new cfg.associativity).Represents cfg i where
  clean := clean_new cfg.associativity_pos
  cached l hl hst := by
    rw [List.eq_of_mem_replicate hl] at hst
    cases hst
  distinct := by
    simp only [new, List.pairwise_replicate]
    refine Or.inr fun h => ?_
    simp [CacheLine.empty] at h

/-- The tag is in no other way that is in use. -/
theorem Replaces.ne_tag (h : Replaces tag addr replace s l l') (hs : s.Represents cfg i)
    (hlines : s.lines = pre ++ l :: post) {k : CacheLine} (hk : k ∈ pre ++ post)
    (hst : k.status = .cached) : k.tag ≠ tag := by
  have hmem : k ∈ s.lines := by
    rw [hlines]
    simp only [List.mem_append, List.mem_cons] at hk ⊢
    tauto
  rcases h.outcome with ⟨rfl, hcached, -⟩ | ⟨habsent, -⟩
  · have hdistinct := hs.distinct
    rw [hlines] at hdistinct
    obtain ⟨-, hpost, hpre⟩ := List.pairwise_append.mp hdistinct
    rcases List.mem_append.mp hk with hk | hk
    · exact hpre k hk l List.mem_cons_self hst hcached
    · exact ((List.pairwise_cons.mp hpost).1 k hk hcached hst).symm
  · exact habsent k hmem

/-- **A fetch keeps the invariant.** -/
theorem Fetched.represents {r : CacheSet × DirMsi}
    (h : Fetched pid (cfg.tag addr) addr replace s m r) (hs : s.Represents cfg (cfg.index addr)) :
    r.1.Represents cfg (cfg.index addr) := by
  obtain ⟨pre, l, post, l', hlines, hlines', hl'⟩ := h.exists_replaces hs.clean.pos
  have hne := fun k hk hst => hl'.ne_tag hs hlines (k := k) hk hst
  have hmem : ∀ k ∈ pre ++ post, k ∈ s.lines := fun k hk => by
    rw [hlines]
    simp only [List.mem_append, List.mem_cons] at hk ⊢
    tauto
  have hcases : ∀ k ∈ r.1.lines, k ∈ pre ++ post ∨ k = l' := fun k hk => by
    rw [hlines'] at hk
    simp only [List.mem_append, List.mem_cons] at hk ⊢
    tauto
  refine ⟨h.clean hs.clean, fun k hk hst => ?_, ?_⟩
  · rcases hcases k hk with hk | rfl
    · exact hs.cached k (hmem k hk) hst
    · -- a hit keeps tag and address, a miss installs both
      rcases hl'.outcome with ⟨htag, hcached, haddr⟩ | ⟨-, -, haddr⟩
      · rw [hl'.tag_eq, haddr, ← htag]
        exact hs.cached l (by simp [hlines]) hcached
      · rw [hl'.tag_eq, haddr]
        exact ⟨rfl, rfl⟩
  · have hdistinct := hs.distinct
    rw [hlines] at hdistinct
    obtain ⟨hpre, hpost, hcross⟩ := List.pairwise_append.mp hdistinct
    rw [hlines', List.pairwise_append]
    refine ⟨hpre,
      List.pairwise_cons.mpr ⟨fun k hk _ hst => ?_, (List.pairwise_cons.mp hpost).2⟩, ?_⟩
    · rw [hl'.tag_eq]
      exact (hne k (List.mem_append_right _ hk) hst).symm
    · intro k hk k' hk' hst hst'
      rcases List.mem_cons.mp hk' with rfl | hk'
      · rw [hl'.tag_eq]
        exact hne k (List.mem_append_left _ hk) hst
      · exact hcross k hk k' (List.mem_cons_of_mem l hk') hst hst'

/-- **A line does not make way for an address of its own**, unless that
is `0`. -/
theorem Represents.displaced_ne (h : s.Represents cfg i) (haddr : addr ≠ 0) {x : Addr}
    (hl : s.displaced (cfg.tag addr) = some (l, x)) : x ≠ addr := by
  rintro rfl
  rw [displaced_eq] at hl
  split at hl
  · cases hl
  · rename_i habsent
    split at hl
    · rename_i hst
      obtain ⟨-, hx⟩ := Prod.mk.inj (Option.some.inj hl)
      have hmem := victim_mem h.clean.pos
      rw [evictAddr_of_cached hst] at hx
      split at hx
      · exact haddr hx.symm
      · refine habsent (List.any_eq_true.mpr ⟨_, hmem, ?_⟩)
        rw [decide_eq_true_eq, (h.cached _ hmem hst).1, hx]
    · cases hl

/-- **A tag is held once or not at all.** -/
theorem Represents.countP_eq_one (h : s.Represents cfg i) (hholds : s.Holds tag) :
    s.lines.countP (fun l => l.tag = tag ∧ l.status = .cached) = 1 := by
  obtain ⟨l, hl, htag, hst⟩ := hholds
  obtain ⟨pre, post, hlines⟩ := List.append_of_mem hl
  have hdistinct := h.distinct
  rw [hlines] at hdistinct
  obtain ⟨-, hpost, hcross⟩ := List.pairwise_append.mp hdistinct
  have hpre : pre.countP (fun l => l.tag = tag ∧ l.status = .cached) = 0 := by
    rw [List.countP_eq_zero]
    rintro k hk
    simp only [decide_eq_true_eq, not_and]
    rintro hk' hst'
    exact hcross k hk l List.mem_cons_self hst' hst (hk'.trans htag.symm)
  have hpost' : post.countP (fun l => l.tag = tag ∧ l.status = .cached) = 0 := by
    rw [List.countP_eq_zero]
    rintro k hk
    simp only [decide_eq_true_eq, not_and]
    rintro hk' hst'
    exact (List.pairwise_cons.mp hpost).1 k hk hst hst' (htag.trans hk'.symm)
  rw [hlines, List.countP_append, List.countP_cons, hpre, hpost', if_pos (by simp [htag, hst])]

end CacheSet

namespace Controller

variable {cfg : Config} {c c' : Controller} {pid i : ℕ} {a : Addr} {replace : Bool}

/-- **Every set represents its lines.** -/
structure Represents (cfg : Config) (c : Controller) : Prop where
  shaped : c.Shaped cfg
  sets : ∀ p i, (c.cache p i).Represents cfg i

theorem represents_start {detector : Bool} : Represents cfg (cfg.start detector) where
  shaped := shaped_start
  sets _ _ := CacheSet.represents_new

theorem Represents.congr (h : Represents cfg c) (hsame : c.SameCaches c') : Represents cfg c' where
  shaped := h.shaped.congr hsame.offsetNumBits hsame.tagMask
  sets p i := hsame.cache ▸ h.sets p i

/-- A line fetch touches the line's set, or installs the line in it. -/
theorem Represents.ensures_fetched (hgeo : 2 ≤ cfg.numSets * cfg.lineSize) (h : Represents cfg c) :
    Ensures (· = .lru) (fun c' => ∃ r, CacheSet.Fetched pid (cfg.tag a) a replace
        (c.cache pid (cfg.index a)) c.coherence r ∧ c' = c.putSet pid (cfg.index a) r)
      (c.fetchCacheLine pid a replace) :=
  h.shaped.ensures_fetched hgeo (h.sets pid (cfg.index a)).clean.tidy

/-- The other sets stay. -/
theorem Represents.putSet (h : Represents cfg c) {r : CacheSet × DirMsi}
    (hr : CacheSet.Fetched pid (cfg.tag a) a replace (c.cache pid (cfg.index a)) c.coherence r) :
    Represents cfg (c.putSet pid (cfg.index a) r) where
  shaped := h.shaped.congr rfl rfl
  sets q j := by
    rw [cache_putSet]
    split
    · rename_i hq
      rw [hq.2]
      exact hr.represents (h.sets pid (cfg.index a))
    · exact h.sets q j

/-- The line fetch of `pid` at `a` hands over `a` itself. -/
def GivesUp (c : Controller) (pid : ℕ) (a : Addr) : Prop :=
  ((c.cache pid (c.getSetIndex a)).displaced (c.getTag a)).map Prod.snd = some a

instance : Decidable (c.GivesUp pid a) := by
  unfold GivesUp
  infer_instance

/-- **The entry of `a` after its line fetch.** -/
theorem Represents.entries_fetched (hgeo : 2 ≤ cfg.numSets * cfg.lineSize) (h : Represents cfg c)
    (h32 : pid < 32) (hfetch : c.fetchCacheLine pid a replace = .ok c') :
    c'.coherence.entries a = if c.GivesUp pid a then
      (c.coherence.entries a).evict c.coherence.rules pid else c.coherence.entries a := by
  obtain ⟨res, hres, rfl⟩ := (h.ensures_fetched hgeo).of_ok hfetch
  obtain ⟨calls, hsim⟩ := hres.simulates h32
  have hgives : c.GivesUp pid a ↔
      ((c.cache pid (cfg.index a)).displaced (cfg.tag a)).map Prod.snd = some a := by
    rw [GivesUp, h.shaped.getSetIndex, h.shaped.getTag]
  change res.2.entries a = _
  simp only [hsim.entries, hgives]
  cases (c.cache pid (cfg.index a)).displaced (cfg.tag a) with
  | none => rfl
  | some d =>
    obtain ⟨l, b⟩ := d
    simp only [Option.map_some, Option.toList_some, List.foldl_cons, List.foldl_nil, Event.apply,
      Event.addr, Option.some.injEq]
    rcases eq_or_ne b a with rfl | hne
    · rw [Function.update_self, if_pos rfl]
      rfl
    · rw [Function.update_of_ne hne.symm, if_neg hne]

/-- **A line does not give up its own address**, unless that is `0`. -/
theorem Represents.not_givesUp (h : Represents cfg c) (ha : a ≠ 0) : ¬ c.GivesUp pid a := by
  intro hgives
  rw [GivesUp, h.shaped.getSetIndex, h.shaped.getTag] at hgives
  obtain ⟨⟨l, b⟩, hl, rfl⟩ := Option.map_eq_some_iff.mp hgives
  exact (h.sets pid (cfg.index b)).displaced_ne ha hl rfl

end Controller

end AdaptiveMsi
