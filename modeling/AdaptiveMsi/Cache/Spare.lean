import AdaptiveMsi.Cache.Represent
import Mathlib.Data.Finset.Card
/-!
# Sets with an empty way

`evict` looks at counters and not at the status, so it spares the lines in
use only if an empty way has the least counter. In a set that still has
one, every line in use was counted, and nothing was ever displaced.
-/

namespace AdaptiveMsi

open Machine

namespace CacheSet

variable {s : CacheSet} {m : DirMsi} {pid : ℕ} {tag : BitVec 64} {addr : Addr}
variable {replace : Bool} {l : CacheLine} {T : Finset (BitVec 64)}

/-- The set has an empty way. -/
def Spared (s : CacheSet) : Prop := ∃ l ∈ s.lines, l.status = .uncached

/-- **As long as there is an empty way** the lines in use were counted, and
those of the tags `T` are there. -/
structure Spares (T : Finset (BitVec 64)) (s : CacheSet) : Prop where
  counted : s.Spared → ∀ l ∈ s.lines, l.status = .cached → l.lru ≠ 0 ∧ l.lru ≠ allOnes
  holds : s.Spared → ∀ t ∈ T, s.Holds t

theorem spares_new {ways : ℕ} : (new ways).Spares ∅ where
  counted _ l hl hst := by
    rw [List.eq_of_mem_replicate hl] at hst
    cases hst
  holds _ t ht := absurd ht (Finset.notMem_empty t)

/-- **The victim is an empty way**: only those have the counter `0`. -/
theorem Spares.victim_uncached (h : s.Spares T) (hs : s.Clean) (hfree : s.Spared) :
    (s.line s.victim.evict).status = .uncached := by
  have hv := isVictim hs.pos
  have hmem := victim_mem hs.pos
  cases hst : (s.line s.victim.evict).status with
  | uncached => rfl
  | cached =>
    obtain ⟨l, hl, hu⟩ := hfree
    have hle := hv.le l hl
    rw [← hv.min, (hs.uncached l hl hu).2] at hle
    have hzero : (s.line s.victim.evict).lru = 0 := BitVec.eq_of_toNat_eq (Nat.le_zero.mp hle)
    exact absurd hzero (h.counted ⟨l, hl, hu⟩ _ hmem hst).1

theorem Spares.displaced_eq_none (h : s.Spares T) (hs : s.Clean) (hfree : s.Spared) :
    s.displaced tag = none := by
  rw [displaced_eq]
  split
  · rfl
  · rw [if_neg (by simp [h.victim_uncached hs hfree])]

/-- A way that is in use stays in use. -/
theorem Fetched.spared {r : CacheSet × DirMsi} (h : Fetched pid tag addr replace s m r)
    (hpos : 0 < s.lines.length) (hfree : r.1.Spared) : s.Spared := by
  obtain ⟨pre, l, post, l', hlines, hlines', hl'⟩ := h.exists_replaces hpos
  obtain ⟨k, hk, hu⟩ := hfree
  refine ⟨k, ?_, hu⟩
  rw [hlines'] at hk
  rw [hlines]
  simp only [List.mem_append, List.mem_cons] at hk ⊢
  rcases hk with hk | rfl | hk
  · exact Or.inl hk
  · rw [hl'.status_eq] at hu
    cases hu
  · exact Or.inr (Or.inr hk)

/-- **A demand keeps the stock**, and its own tag joins it. -/
theorem Fetched.spares {r : CacheSet × DirMsi} (h : Fetched pid tag addr true s m r)
    (hs : s.Clean) (hspares : s.Spares T) : r.1.Spares (insert tag T) where
  counted hfree k hk hst := by
    have hfree' := h.spared hs.pos hfree
    cases h with
    | hit pre l post hlines hpre htag hstatus hlru =>
      have hcounted := hspares.counted hfree'
      simp only [List.mem_append, List.mem_cons] at hk
      rcases hk with hk | rfl | hk
      · exact hcounted k (by simp [hlines, hk]) hst
      · have hl := (hcounted l (by simp [hlines]) hstatus).2
        -- a counter that wraps to `0` was all ones
        refine ⟨fun h0 => hl ?_, hlru rfl⟩
        have h0 : l.lru + 1 = 0 := h0
        unfold allOnes
        bv_omega
      · exact hcounted k (by simp [hlines, hk]) hst
    | miss habsent =>
      have hempty := hspares.victim_uncached hs hfree'
      have hzero := (hs.uncached _ (victim_mem hs.pos) hempty).2
      rcases mem_install hk with hk | rfl
      · exact hspares.counted hfree' k hk hst
      · have hone : (s.line s.victim.evict).lru = 0 := hzero
        simp [installed, hone, allOnes]
  holds hfree t ht := by
    have hfree' := h.spared hs.pos hfree
    obtain ⟨-, hself, hkeeps⟩ := h.holds hs.tidy
    rcases Finset.mem_insert.mp ht with rfl | ht
    · exact hself
    · refine hkeeps t (hspares.holds hfree' t ht) fun l x hl => ?_
      rw [hspares.displaced_eq_none hs hfree'] at hl
      cases hl

/-- **A push into a set with an empty way finds its line**, and changes
nothing. -/
theorem Fetched.eq_of_push {r : CacheSet × DirMsi} (h : Fetched pid tag addr false s m r)
    (hspares : s.Spares T) (htag : tag ∈ T) (hfree : s.Spared) : r = (s, m) := by
  cases h with
  | hit pre l post hlines hpre htag' hstatus hlru =>
    simp only [touch, Bool.false_eq_true, if_false, ← hlines]
  | miss habsent =>
    obtain ⟨l, hl, ht, -⟩ := hspares.holds hfree tag htag
    exact absurd ht (habsent l hl)

theorem Fetched.spares_of_push {r : CacheSet × DirMsi} (h : Fetched pid tag addr false s m r)
    (hs : s.Clean) (hspares : s.Spares T) (htag : tag ∈ T) : r.1.Spares T where
  counted hfree := by
    have hfree' := h.spared hs.pos hfree
    rw [h.eq_of_push hspares htag hfree']
    exact hspares.counted hfree'
  holds hfree := by
    have hfree' := h.spared hs.pos hfree
    rw [h.eq_of_push hspares htag hfree']
    exact hspares.holds hfree'

end CacheSet

end AdaptiveMsi
