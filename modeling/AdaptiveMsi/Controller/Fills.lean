import AdaptiveMsi.Cache.Contents
import AdaptiveMsi.Controller.Step
/-!
# What the pushes of a store fill

A push reads one set of one cache and counts no use there, so it cannot
fail. The pushes of a store go to different caches: what the loop leaves
of a cache is what the cache makes of its own push, and the copies given
up for it are the caches' own, whatever the order of the loop.
-/

namespace AdaptiveMsi

open Machine Protocol DirMsi

variable {s : CacheSet} {m : DirMsi} {tag : BitVec 64} {pid home cost hops i n : ℕ} {a b : Addr}
variable {c c₀ : Controller} {l : List ℕ}

namespace CacheSet

/-- What a push leaves of the set, -/
def filled (s : CacheSet) (tag : BitVec 64) (addr : Addr) : CacheSet :=
  match s.status tag with
  | .uncached => s.install s.victim.evict tag addr false
  | .cached => s

/-- and the address the set hands over for it. -/
def spilled (s : CacheSet) (tag : BitVec 64) : Option Addr :=
  match s.status tag with
  | .uncached =>
      if (s.line s.victim.evict).status ≠ .uncached then some s.victim.evictAddr else none
  | .cached => none

theorem rules_evict (h : pid < 32) : (s.evict pid m).2.rules = m.rules := by
  obtain ⟨xs, calls, hsim, -⟩ := simulates_evict (s := s) (m := m) h
  exact hsim.rules

/-- An eviction clears the processor's bit at one address, chosen by the set
alone. -/
theorem entries_evict (h : pid < 32) : (s.evict pid m).2.entries =
    if (s.line s.victim.evict).status ≠ .uncached then
      (Event.evict pid s.victim.evictAddr).apply m.rules m.entries
    else m.entries := by
  simp only [evict]
  split
  · rw [entries_invalidate h]
    rfl
  · rfl

end CacheSet

namespace Controller

/-- The copies given up for a push to `p`. -/
def spills (c : Controller) (a : Addr) (p : ℕ) : List (Event ℕ Addr) :=
  ((c.cache p (c.getSetIndex a)).spilled (c.getTag a)).toList.map (.evict p)

/-- The cache of `p` after a push. -/
def filledCache (c : Controller) (a : Addr) (p : ℕ) : ℕ → CacheSet :=
  Function.update (c.cache p) (c.getSetIndex a)
    ((c.cache p (c.getSetIndex a)).filled (c.getTag a) a)

/-- **One push** fills its own cache, and hands its copy to the directory. -/
theorem exists_push (hi : i < 32) : ∃ c', c.fetchCacheLine i a false = .ok c' ∧
    c'.offsetNumBits = c.offsetNumBits ∧ c'.tagMask = c.tagMask ∧
    c'.cache = Function.update c.cache i (c.filledCache a i) ∧
    c'.coherence.rules = c.coherence.rules ∧
    c'.coherence.entries =
      (c.spills a i).foldl (Event.apply c.coherence.rules) c.coherence.entries := by
  simp only [fetchCacheLine, CacheSet.fetchSingleLine_push, filledCache, spills, CacheSet.filled,
    CacheSet.spilled]
  cases (c.cache i (c.getSetIndex a)).status (c.getTag a) with
  | cached => exact ⟨_, rfl, rfl, rfl, rfl, rfl, rfl⟩
  | uncached =>
    refine ⟨_, rfl, rfl, rfl, rfl, CacheSet.rules_evict hi, ?_⟩
    refine (CacheSet.entries_evict hi).trans ?_
    simp only
    split <;> rfl

/-- **The invariant of the push loop** on the caches: those of `l` are
filled, and gave up their copies in that order. -/
structure Supplied (c₀ : Controller) (a : Addr) (l : List ℕ) (c : Controller) : Prop where
  offsetNumBits : c.offsetNumBits = c₀.offsetNumBits
  tagMask : c.tagMask = c₀.tagMask
  rules : c.coherence.rules = c₀.coherence.rules
  cache : ∀ p, c.cache p = if p ∈ l then c₀.filledCache a p else c₀.cache p
  reads : (c.coherence.entries a).reads = (c₀.coherence.entries a).reads
  entries : ∀ b ≠ a, c.coherence.entries b =
    (l.flatMap (c₀.spills a)).foldl (Event.apply c₀.coherence.rules) c₀.coherence.entries b

theorem supplied_start : Supplied c₀ a [] c₀ where
  offsetNumBits := rfl
  tagMask := rfl
  rules := rfl
  cache _ := by simp
  reads := rfl
  entries _ _ := rfl

/-- A change of sharers of the line is not seen. -/
theorem Supplied.setLine (h : Supplied c₀ a l c) {d : DirectoryLine}
    (hd : d.readCountVector = (c.line a).readCountVector) : Supplied c₀ a l (c.setLine a d) where
  offsetNumBits := h.offsetNumBits
  tagMask := h.tagMask
  rules := h.rules
  cache := h.cache
  reads := by
    rw [setLine_coherence, entries_setLine_self]
    exact hd.trans h.reads
  entries b hb := by rw [setLine_coherence, entries_setLine_of_ne hb, h.entries b hb]

theorem Supplied.record (h : Supplied c₀ a l c) (call : Call) : Supplied c₀ a l (c.record call) :=
  ⟨h.offsetNumBits, h.tagMask, h.rules, h.cache, h.reads, h.entries⟩

/-- **One more push**, to a cache that was not pushed to. -/
theorem Supplied.push (h : Supplied c₀ a l c) (hi : i < 32) (hnot : i ∉ l) :
    ∃ c', c.fetchCacheLine i a false = .ok c' ∧ Supplied c₀ a (l ++ [i]) c' := by
  obtain ⟨c', hok, hoffset, hmask, hcache, hrules, hentries⟩ := exists_push (c := c) (a := a) hi
  have hindex : c.getSetIndex a = c₀.getSetIndex a := by
    rw [getSetIndex, getSetIndex, h.tagMask, h.offsetNumBits]
  have htag : c.getTag a = c₀.getTag a := by rw [getTag, getTag, h.tagMask]
  have hown : c.cache i = c₀.cache i := (h.cache i).trans (if_neg hnot)
  have hspills : c.spills a i = c₀.spills a i := by rw [spills, spills, hindex, htag, hown]
  rw [hspills] at hentries
  refine ⟨c', hok, hoffset.trans h.offsetNumBits, hmask.trans h.tagMask, hrules.trans h.rules,
    fun p => ?_, ?_, fun b hb => ?_⟩
  · rw [hcache]
    rcases eq_or_ne p i with rfl | hne
    · rw [Function.update_self, filledCache, filledCache, hindex, htag, hown, if_pos (by simp)]
    · rw [Function.update_of_ne hne, h.cache p]
      simp [hne]
  · have hkept : ∀ x ∈ c₀.spills a i, ∃ p b, x = .evict p b ∧ (b = a → True) := fun x hx => by
      obtain ⟨b, -, rfl⟩ := List.mem_map.mp hx
      exact ⟨i, b, rfl, fun _ => trivial⟩
    rw [hentries, (fewer_foldl hkept).reads, h.reads]
  · rw [hentries, h.rules, List.flatMap_append, List.foldl_append, List.flatMap_singleton]
    exact foldl_apply_congr (h.entries b hb)

/-- **One round of the loop.** -/
theorem Supplied.pushBody (pid home cost hops : ℕ) (h : Supplied c₀ a l c) (hi : i < 32)
    (hnot : i ∉ l) :
    ∃ st, pushBody pid home a (c, cost, hops) i = .ok st ∧
      Supplied c₀ a
        (l ++ if i ≠ pid ∧ (c₀.line a).qualifiedReader i = true then [i] else []) st.1 := by
  have hqualified : (c.line a).qualifiedReader i = (c₀.line a).qualifiedReader i := by
    have hreads : (c.line a).readCountVector = (c₀.line a).readCountVector := h.reads
    rw [DirectoryLine.qualifiedReader, DirectoryLine.qualifiedReader, hreads]
  simp only [Controller.pushBody, hqualified]
  by_cases hne : i = pid
  · rw [if_neg (not_not_intro hne), if_neg fun hc => hc.1 hne, List.append_nil]
    exact ⟨_, rfl, h⟩
  rw [if_pos hne]
  by_cases hq : (c₀.line a).qualifiedReader i = true
  · rw [if_pos hq, if_pos ⟨hne, hq⟩]
    obtain ⟨c', hok, h'⟩ := (h.record (.push i a)).push hi hnot
    rw [hok, ok_bind]
    split
    · exact ⟨_, rfl, h'.setLine rfl⟩
    · exact ⟨_, rfl, h'⟩
  · have hnone : ¬ (i ≠ pid ∧ (c₀.line a).qualifiedReader i = true) := fun hc => hq hc.2
    rw [if_neg hq, if_neg hnone, List.append_nil]
    split
    · exact ⟨_, rfl, h.setLine rfl⟩
    · exact ⟨_, rfl, h⟩

/-- The processors a last writer pushes to, in the order of the loop. -/
def receivers (c : Controller) (pid : ℕ) (a : Addr) : List ℕ :=
  (List.range c.coherence.numProcessors).filter fun i =>
    i ≠ pid ∧ (c.line a).qualifiedReader i = true

/-- **The whole loop** returns, and has filled the caches it pushed to. -/
theorem exists_pushLoop (pid home cost hops : ℕ) (hn : c₀.coherence.numProcessors ≤ 32) :
    ∃ st, (List.range c₀.coherence.numProcessors).foldlM (Controller.pushBody pid home a)
        (c₀, cost, hops) = .ok st ∧ Supplied c₀ a (c₀.receivers pid a) st.1 := by
  refine Ensures.exists_ok (ensures_foldlM (I := fun done (st : Controller × ℕ × ℕ) =>
    Supplied c₀ a (done.filter fun i => i ≠ pid ∧ (c₀.line a).qualifiedReader i = true) st.1)
    supplied_start ?_)
  rintro u i v ⟨c, cost, hops⟩ hl h
  have hi : i < c₀.coherence.numProcessors := lt_of_range_eq hl
  have hnot : i ∉ u.filter fun i => i ≠ pid ∧ (c₀.line a).qualifiedReader i = true := fun hmem =>
    notMem_of_range_eq hl (List.mem_filter.mp hmem).1
  obtain ⟨st, hok, h'⟩ := h.pushBody pid home cost hops (by omega) hnot
  rw [hok, List.filter_append]
  change Supplied c₀ a _ st.1
  convert h' using 2
  by_cases hq : i ≠ pid ∧ (c₀.line a).qualifiedReader i = true
  · rw [if_pos hq]
    simp [hq]
  · rw [if_neg hq]
    simp only [List.filter_cons, List.filter_nil, hq, decide_false, Bool.false_eq_true, if_false]

end Controller

end AdaptiveMsi
