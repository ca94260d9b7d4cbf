import AdaptiveMsi.Cache.Geometry
import AdaptiveMsi.Cache.Lookup
import AdaptiveMsi.Common.Recency
/-!
# What a cache set holds

The selection loop picks the first way with the least counter, but the
address it carries along starts at `0` and not at the first way's:
`Victim.addr`. `fetch_single_line` then has two outcomes, a touch of the
way that holds the line or an installation over the victim.
-/

namespace AdaptiveMsi

open Machine Protocol

namespace CacheSet

variable {s s' : CacheSet} {m m' : DirMsi} {pid : ℕ} {tag t : BitVec 64} {addr : Addr}
variable {replace : Bool} {lines pre post : List CacheLine} {v : Victim} {i j : ℕ}

/-! ## The victim -/

/-- `v` is the first of the ways with the least counter; the address is
its stored one, unless it is the first way. -/
structure IsVictim (lines : List CacheLine) (v : Victim) : Prop where
  lt : v.evict < lines.length
  min : (lines.getD v.evict .empty).lru = v.min
  le : ∀ l ∈ lines, v.min.toNat ≤ l.lru.toNat
  first : ∀ j < v.evict, v.min.toNat < (lines.getD j .empty).lru.toNat
  addr : v.evictAddr = if v.evict = 0 then 0 else (lines.getD v.evict .empty).addr

theorem getD_append_of_lt (h : i < pre.length) (d : CacheLine) :
    (pre ++ post).getD i d = pre.getD i d := by
  simp [List.getD_eq_getElem?_getD, List.getElem?_append_left h]

theorem getD_mem (h : i < lines.length) (d : CacheLine) : lines.getD i d ∈ lines := by
  simp [List.getD_eq_getElem?_getD, h]

/-- One round of the selection loop. -/
theorem IsVictim.snoc (h : IsVictim pre v) (l : CacheLine) :
    IsVictim (pre ++ [l]) (if l.lru < v.min then ⟨l.lru, l.addr, pre.length⟩ else v) := by
  have hlt := h.lt
  by_cases hl : l.lru.toNat < v.min.toNat
  · rw [if_pos (BitVec.lt_def.mpr hl)]
    have hself : (pre ++ [l]).getD pre.length .empty = l := by simp
    refine ⟨by simp, by rw [hself], ?_, ?_, ?_⟩
    · intro l' hl'
      rcases List.mem_append.mp hl' with hl' | hl'
      · have := h.le l' hl'
        simp only
        omega
      · rw [List.mem_singleton.mp hl']
    · intro j hj
      have := h.le _ (getD_mem hj .empty)
      rw [getD_append_of_lt hj]
      simp only
      omega
    · have hne : pre.length ≠ 0 := by omega
      rw [hself, if_neg hne]
  · rw [if_neg fun h => hl (BitVec.lt_def.mp h)]
    refine ⟨by simp; omega, ?_, ?_, ?_, ?_⟩
    · rw [getD_append_of_lt hlt, h.min]
    · intro l' hl'
      rcases List.mem_append.mp hl' with hl' | hl'
      · exact h.le l' hl'
      · rw [List.mem_singleton.mp hl']
        omega
    · intro j hj
      rw [getD_append_of_lt (by omega)]
      exact h.first j hj
    · rw [getD_append_of_lt hlt, h.addr]

theorem isVictim_loop (h : IsVictim pre v) :
    IsVictim (pre ++ lines) (victimLoop lines pre.length v) := by
  induction lines generalizing pre v with
  | nil => simpa [victimLoop] using h
  | cons l lines ih =>
    have hnext := ih (h.snoc l)
    simpa [victimLoop] using hnext

/-- **The selection loop finds the first way with the least counter.** -/
theorem isVictim (h : 0 < s.lines.length) : IsVictim s.lines s.victim := by
  obtain ⟨lines⟩ := s
  cases lines with
  | nil => cases h
  | cons l lines =>
    have hone : IsVictim [l] ⟨l.lru, 0, 0⟩ := ⟨by simp, rfl, by simp, by simp, rfl⟩
    exact isVictim_loop hone

/-- The first way with the least counter. -/
def leastWay (s : CacheSet) : ℕ := Recency.firstMin (s.lines.map (·.lru.toNat))

/-- **The counters alone choose the victim.** -/
theorem victim_eq_firstMin : s.victim.evict = Recency.firstMin (s.lines.map (·.lru.toNat)) := by
  rcases Nat.eq_zero_or_pos s.lines.length with hempty | hpos
  · have hnil : s.lines = [] := List.length_eq_zero_iff.mp hempty
    simp [victim, victimLoop, hnil, Recency.firstMin]
  · have hv := isVictim hpos
    have hlt := hv.lt
    have hget : ∀ j (hj : j < (s.lines.map (·.lru.toNat)).length),
        (s.lines.map (·.lru.toNat))[j] = (s.lines.getD j .empty).lru.toNat := fun j hj => by
      rw [List.length_map] at hj
      simp [List.getD_eq_getElem?_getD, hj]
    rw [eq_comm, Recency.firstMin_eq_iff (by simpa using hlt), hget, hv.min]
    refine ⟨fun a ha => ?_, fun j hj => ?_⟩
    · obtain ⟨l, hl, rfl⟩ := List.mem_map.mp ha
      exact hv.le l hl
    · rw [hget]
      exact hv.first j hj

theorem victim_eq_leastWay : s.victim.evict = s.leastWay := victim_eq_firstMin

/-- The line that gives way is one of the set's. -/
theorem victim_mem (h : 0 < s.lines.length) : s.line s.victim.evict ∈ s.lines :=
  getD_mem (isVictim h).lt .empty

/-- A set with a line in use has a way. -/
theorem length_pos_of_cached (h : (s.line i).status = .cached) : 0 < s.lines.length := by
  by_contra hempty
  have hnil : s.lines = [] := List.length_eq_zero_iff.mp (by omega)
  simp [line, hnil, CacheLine.empty] at h

/-- The address handed over for a line in use. -/
theorem evictAddr_of_cached (h : (s.line s.victim.evict).status = .cached) :
    s.victim.evictAddr =
      if s.victim.evict = 0 then 0 else (s.line s.victim.evict).addr :=
  (isVictim (length_pos_of_cached h)).addr

/-! ## Contents -/

/-- The set holds a line with this tag. -/
def Holds (s : CacheSet) (tag : BitVec 64) : Prop :=
  ∃ l ∈ s.lines, l.tag = tag ∧ l.status = .cached

instance : Decidable (s.Holds tag) := by
  unfold Holds
  infer_instance

/-- A way that holds no line keeps the tag of the constructor. -/
structure Tidy (s : CacheSet) : Prop where
  pos : 0 < s.lines.length
  uncached : ∀ l ∈ s.lines, l.status = .uncached → l.tag = allOnes

theorem Tidy.new {associativity : ℕ} (h : 0 < associativity) : (new associativity).Tidy where
  pos := by simpa [CacheSet.new] using h
  uncached l hl _ := by
    rw [List.eq_of_mem_replicate hl]
    rfl

/-- The line a fetch of `tag` displaces and the address handed to
`invalidate` for it: `0` for a line in the first way, the line's own
otherwise. -/
def displaced (s : CacheSet) (tag : BitVec 64) : Option (CacheLine × Addr) :=
  let l := s.line s.leastWay
  if s.lines.any (·.tag = tag) then none
  else if l.status = .cached then some (l, if s.leastWay = 0 then 0 else l.addr)
  else none

/-- It is the loop's victim that is displaced. -/
theorem displaced_eq : s.displaced tag =
    if s.lines.any (·.tag = tag) then none
    else if (s.line s.victim.evict).status = .cached then
      some (s.line s.victim.evict, s.victim.evictAddr)
    else none := by
  have hway : s.leastWay = s.victim.evict := victim_eq_leastWay.symm
  simp only [displaced, hway]
  split
  · rfl
  · split
    · rename_i hst
      rw [evictAddr_of_cached hst]
    · rfl

theorem evict_of_cached (h : (s.line s.victim.evict).status = .cached) : s.evict pid m =
    (s.victim.evict,
      (m.record (.evict pid s.lines s.victim.evict)).invalidate pid s.victim.evictAddr) := by
  rw [evict, if_pos (by simp [h])]

theorem evict_of_uncached (h : (s.line s.victim.evict).status = .uncached) : s.evict pid m =
    (s.victim.evict, m.record (.evict pid s.lines s.victim.evict)) := by
  rw [evict, if_neg (not_not_intro h)]

theorem evict_fst : (s.evict pid m).1 = s.victim.evict := by
  simp only [evict]
  split <;> rfl

/-- The two outcomes of `fetch_single_line`. -/
inductive Fetched (pid : ℕ) (tag : BitVec 64) (addr : Addr) (replace : Bool) (s : CacheSet)
    (m : DirMsi) : CacheSet × DirMsi → Prop
  | hit (pre : List CacheLine) (l : CacheLine) (post : List CacheLine)
      (hlines : s.lines = pre ++ l :: post) (hpre : ∀ l ∈ pre, l.tag ≠ tag) (htag : l.tag = tag)
      (hstatus : l.status = .cached) (hlru : replace = true → l.lru + 1 ≠ allOnes) :
      Fetched pid tag addr replace s m (⟨pre ++ touch replace l :: post⟩, m)
  | miss (habsent : ∀ l ∈ s.lines, l.tag ≠ tag) :
      Fetched pid tag addr replace s m
        (s.install s.victim.evict tag addr replace, (s.evict pid m).2)

/-- The status a lookup returns. -/
def status (s : CacheSet) (tag : BitVec 64) : LocalStatus :=
  (s.lines.find? (·.tag = tag)).elim .uncached CacheLine.status

/-- Without replacement a lookup changes nothing, and nothing fails. -/
theorem fetchLoop_push : fetchLoop tag false lines =
    .ok (lines, (lines.find? (·.tag = tag)).elim .uncached CacheLine.status) := by
  induction lines with
  | nil => rfl
  | cons l lines ih =>
    rw [fetchLoop]
    by_cases htag : l.tag = tag
    · rw [if_pos htag, List.find?_cons_of_pos (by simpa using htag)]
      rfl
    · rw [if_neg htag, ih, List.find?_cons_of_neg (by simpa using htag)]
      rfl

/-- **A push** leaves the set alone or installs its line over the victim. -/
theorem fetchSingleLine_push : s.fetchSingleLine pid tag addr m false =
    .ok (match s.status tag with
      | .uncached => (s.install s.victim.evict tag addr false, (s.evict pid m).2)
      | .cached => (s, m)) := by
  have hfetch : s.fetch tag false = .ok (s, s.status tag) := by
    rw [fetch, fetchLoop_push]
    rfl
  rw [fetchSingleLine, hfetch, ok_bind]
  cases s.status tag with
  | cached => rfl
  | uncached =>
    have hway : (s.evict pid m).1 = s.victim.evict := evict_fst
    dsimp only
    rw [← hway]
    rfl

/-- **`fetch_single_line` touches the line or installs it.** -/
theorem ensures_fetchSingleLine_fetched (hs : s.Tidy) (htag : tag ≠ allOnes) :
    Ensures (· = .lru) (Fetched pid tag addr replace s m)
      (s.fetchSingleLine pid tag addr m replace) := by
  refine ensures_fetch.bind ?_
  rintro ⟨⟨lines'⟩, status⟩ hok hlooked
  generalize hr : (lines', status) = r at hlooked
  cases hlooked with
  | absent h =>
    obtain ⟨rfl, rfl⟩ := Prod.mk.inj hr
    change Fetched pid tag addr replace s m
      (s.install (s.evict pid m).1 tag addr replace, (s.evict pid m).2)
    rw [evict_fst]
    exact .miss h
  | found pre l post hlines hpre htag' hlru =>
    obtain ⟨rfl, rfl⟩ := Prod.mk.inj hr
    have hcached : l.status = .cached := by
      cases hst : l.status with
      | cached => rfl
      | uncached =>
        have hl : l ∈ s.lines := by simp [hlines]
        exact absurd (htag'.symm.trans (hs.uncached l hl hst)) htag
    rw [hcached]
    exact .hit pre l post hlines hpre htag' hcached hlru

/-- **The directory has no part in what a set does**: two fetches of one
set agree on the set, and hand the same eviction to their directories. -/
theorem agree_fetchSingleLine {m m' : DirMsi} :
    Agree (fun r r' => r.1 = r'.1 ∧ (r.2 = m ∧ r'.2 = m' ∨
        ∃ s : CacheSet, r.2 = (s.evict pid m).2 ∧ r'.2 = (s.evict pid m').2))
      (s.fetchSingleLine pid tag addr m replace) (s.fetchSingleLine pid tag addr m' replace) := by
  simp only [fetchSingleLine]
  cases s.fetch tag replace with
  | error e => exact agree_error
  | ok r =>
    obtain ⟨s', status⟩ := r
    cases status with
    | cached => exact ⟨rfl, Or.inl ⟨rfl, rfl⟩⟩
    | uncached =>
      refine ⟨?_, Or.inr ⟨s', rfl, rfl⟩⟩
      simp only [evict_fst]

/-- The line `fetch_single_line` installs over `l`. -/
def installed (tag : BitVec 64) (addr : Addr) (replace : Bool) (l : CacheLine) : CacheLine where
  lru := if replace then l.lru + 1 else l.lru
  tag := tag
  addr := addr
  status := .cached

theorem getElem?_install : (s.install i tag addr replace).lines[j]? =
    if i = j then s.lines[j]?.map (installed tag addr replace) else s.lines[j]? := by
  rw [install, List.getElem?_modify]
  split
  · rfl
  · simp

@[simp] theorem length_install :
    (s.install i tag addr replace).lines.length = s.lines.length := by
  simp [install]

theorem mem_install {l : CacheLine} (hl : l ∈ (s.install i tag addr replace).lines) :
    l ∈ s.lines ∨ l = installed tag addr replace (s.line i) := by
  obtain ⟨j, hj⟩ := List.mem_iff_getElem?.mp hl
  rw [getElem?_install] at hj
  split at hj
  · rename_i hij
    subst hij
    obtain ⟨l', hl', rfl⟩ := Option.map_eq_some_iff.mp hj
    exact Or.inr (by simp [line, hl'])
  · exact Or.inl (List.mem_of_getElem? hj)

/-- The other ways stay. -/
theorem mem_install_of_ne {l : CacheLine} (hl : l ∈ s.lines) (hne : l ≠ s.line i) :
    l ∈ (s.install i tag addr replace).lines := by
  obtain ⟨j, hj⟩ := List.mem_iff_getElem?.mp hl
  refine List.mem_iff_getElem?.mpr ⟨j, ?_⟩
  rw [getElem?_install, if_neg, hj]
  rintro rfl
  exact hne (by simp [line, hj])

theorem mem_install_self (h : i < s.lines.length) :
    installed tag addr replace (s.line i) ∈ (s.install i tag addr replace).lines := by
  refine List.mem_iff_getElem?.mpr ⟨i, ?_⟩
  rw [getElem?_install, if_pos rfl]
  simp [line, h]

theorem displaced_of_absent (h : ∀ l ∈ s.lines, l.tag ≠ tag)
    (hst : (s.line s.victim.evict).status = .cached) :
    s.displaced tag = some (s.line s.victim.evict, s.victim.evictAddr) := by
  rw [displaced_eq, if_neg (by simpa using h), if_pos hst]

/-- **What a fetch does to the directory**: a displaced line's processor
gives up the copy of the address handed over. -/
theorem Fetched.simulates {r : CacheSet × DirMsi} (h : Fetched pid tag addr replace s m r)
    (hpid : pid < 32) :
    ∃ calls, m.Simulates ((s.displaced tag).map fun d => .evict pid d.2).toList calls r.2 := by
  cases h with
  | hit pre l post hlines hpre htag hstatus _ =>
    have hnone : s.displaced tag = none := by
      rw [displaced_eq, if_pos (by simp [hlines, htag])]
    rw [hnone]
    exact ⟨[], .refl⟩
  | miss habsent =>
    by_cases hst : (s.line s.victim.evict).status = .cached
    · rw [displaced_of_absent habsent hst]
      simp only [evict, hst]
      exact ⟨_, DirMsi.Simulates.record.trans (DirMsi.simulates_invalidate hpid)⟩
    · have hnone : s.displaced tag = none := by
        rw [displaced_eq, if_neg (by simpa using habsent), if_neg hst]
      have hun : (s.line s.victim.evict).status = .uncached := by
        cases hu : (s.line s.victim.evict).status with
        | cached => exact absurd hu hst
        | uncached => rfl
      rw [hnone]
      simp only [evict, hun, ne_eq, not_true_eq_false, if_false]
      exact ⟨_, .record⟩

/-- **What a fetch leaves in the set**: the line itself, and every other
line but the one it displaces. -/
theorem Fetched.holds {r : CacheSet × DirMsi} (h : Fetched pid tag addr replace s m r)
    (hs : s.Tidy) : r.1.Tidy ∧ r.1.Holds tag ∧
      ∀ t, s.Holds t → (∀ l x, s.displaced tag = some (l, x) → l.tag ≠ t) →
        r.1.Holds t := by
  cases h with
  | hit pre l post hlines hpre htag hstatus _ =>
    have hmem : ∀ t, s.Holds t → (⟨pre ++ touch replace l :: post⟩ : CacheSet).Holds t := by
      rintro t ⟨l', hl', ht, hst⟩
      rw [hlines] at hl'
      rcases List.mem_append.mp hl' with hl' | hl'
      · exact ⟨l', by simp [hl'], ht, hst⟩
      · rcases List.mem_cons.mp hl' with rfl | hl'
        · exact ⟨touch replace l', by simp, by simpa using ht, by simpa using hst⟩
        · exact ⟨l', by simp [hl'], ht, hst⟩
    refine ⟨⟨by simp, ?_⟩, hmem tag ⟨l, by simp [hlines], htag, hstatus⟩, fun t ht _ => hmem t ht⟩
    intro l' hl' hst
    rcases List.mem_append.mp hl' with hl' | hl'
    · exact hs.uncached l' (by simp [hlines, hl']) hst
    · rcases List.mem_cons.mp hl' with rfl | hl'
      · rw [touch_status, hstatus] at hst
        cases hst
      · exact hs.uncached l' (by simp [hlines, hl']) hst
  | miss habsent =>
    have hlt := (isVictim hs.pos).lt
    refine ⟨⟨by simpa using hs.pos, ?_⟩, ⟨_, mem_install_self hlt, rfl, rfl⟩, ?_⟩
    · intro l hl hst
      rcases mem_install hl with hl | rfl
      · exact hs.uncached l hl hst
      · cases hst
    · rintro t ⟨l, hl, ht, hst⟩ hdisplaced
      refine ⟨l, mem_install_of_ne hl ?_, ht, hst⟩
      rintro rfl
      exact hdisplaced _ _ (displaced_of_absent habsent hst) ht

end CacheSet

namespace Controller

variable {cfg : Config} {c : Controller} {pid q i : ℕ} {addr : Addr} {replace : Bool}

/-- The controller with one set and the directory replaced. -/
def putSet (c : Controller) (pid i : ℕ) (r : CacheSet × DirMsi) : Controller :=
  { c with
    coherence := r.2
    cache := Function.update c.cache pid (Function.update (c.cache pid) i r.1) }

theorem cache_putSet {r : CacheSet × DirMsi} {j : ℕ} :
    (c.putSet pid i r).cache q j = if q = pid ∧ j = i then r.1 else c.cache q j := by
  unfold putSet
  rcases eq_or_ne q pid with rfl | hq
  · rcases eq_or_ne j i with rfl | hj
    · simp
    · simp [hj]
  · simp [hq]

/-- **A line fetch** replaces one set of one cache. -/
theorem Shaped.ensures_fetched (h : c.Shaped cfg) (hgeo : 2 ≤ cfg.numSets * cfg.lineSize)
    (hs : (c.cache pid (cfg.index addr)).Tidy) :
    Ensures (· = .lru) (fun c' => ∃ r, CacheSet.Fetched pid (cfg.tag addr) addr replace
        (c.cache pid (cfg.index addr)) c.coherence r ∧ c' = c.putSet pid (cfg.index addr) r)
      (c.fetchCacheLine pid addr replace) := by
  have htag : c.getTag addr ≠ allOnes := by
    rw [h.getTag]
    exact Config.tag_ne_allOnes hgeo
  rw [← h.getSetIndex] at hs ⊢
  rw [← h.getTag]
  exact (CacheSet.ensures_fetchSingleLine_fetched hs htag).bind fun r _ hr => ⟨r, hr, rfl⟩

/-- Two controllers with one cache. -/
structure SameCaches (c d : Controller) : Prop where
  cache : d.cache = c.cache
  offsetNumBits : d.offsetNumBits = c.offsetNumBits
  tagMask : d.tagMask = c.tagMask

/-- **Two controllers with one cache** keep it over a line fetch, and hand
the same eviction to their directories. -/
theorem SameCaches.agree_fetchCacheLine {d : Controller} (h : c.SameCaches d) :
    Agree (fun c' d' => c'.SameCaches d' ∧
        (c'.coherence = c.coherence ∧ d'.coherence = d.coherence ∨
        ∃ s : CacheSet, c'.coherence = (s.evict pid c.coherence).2 ∧
          d'.coherence = (s.evict pid d.coherence).2))
      (c.fetchCacheLine pid addr replace) (d.fetchCacheLine pid addr replace) := by
  have htag : d.getTag addr = c.getTag addr := by rw [getTag, getTag, h.tagMask]
  have hindex : d.getSetIndex addr = c.getSetIndex addr := by
    rw [getSetIndex, getSetIndex, h.tagMask, h.offsetNumBits]
  simp only [fetchCacheLine, htag, hindex, h.cache]
  refine CacheSet.agree_fetchSingleLine.bind fun r r' _ _ hr => ?_
  exact ⟨⟨by simp only [hr.1], h.offsetNumBits, h.tagMask⟩, hr.2⟩

end Controller

end AdaptiveMsi
