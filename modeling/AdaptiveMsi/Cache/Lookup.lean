import AdaptiveMsi.Directory.Handlers
import AdaptiveMsi.Model.CacheSet
/-!
# The cache set and the directory

A lookup either finds the first way with the tag or none, and only its
counter can stop the simulator. What a cache set does to the directory is
to give up copies of its own processor: whatever way it picks and
whatever address it hands over, `Spills` is all the protocol sees of it.
-/

namespace AdaptiveMsi

open Machine Protocol

/-- The calls an eviction makes. -/
def Call.Evicting : Call → Prop
  | .invalidate _ _ | .profileCacheEvict _ _ _ _ | .evict _ _ _ => True
  | .updateLastWriter _ _ | .push _ _ => False

/-- The events of a cache of `pid` on the directory: it gives up copies,
each by a call of `invalidate`. -/
structure Spills (pid : ℕ) (xs : List (Event ℕ Addr)) (calls : List Call) : Prop where
  evicts : ∀ x ∈ xs, ∃ b, x = .evict pid b ∧ .invalidate pid b ∈ calls
  quiet : ∀ c ∈ calls, c.Evicting

namespace CacheSet

variable {s s' : CacheSet} {m : DirMsi} {pid : ℕ} {tag : BitVec 64} {addr : Addr} {replace : Bool}
variable {lines : List CacheLine}

/-- The way a lookup hit. -/
def touch (replace : Bool) (l : CacheLine) : CacheLine :=
  if replace then { l with lru := l.lru + 1 } else l

@[simp] theorem touch_tag {l : CacheLine} : (touch replace l).tag = l.tag := by
  unfold touch
  split <;> rfl

@[simp] theorem touch_status {l : CacheLine} : (touch replace l).status = l.status := by
  unfold touch
  split <;> rfl

/-- The two outcomes of a lookup. -/
inductive Looked (tag : BitVec 64) (replace : Bool) (lines : List CacheLine) :
    List CacheLine × LocalStatus → Prop
  | absent (h : ∀ l ∈ lines, l.tag ≠ tag) : Looked tag replace lines (lines, .uncached)
  | found (pre : List CacheLine) (l : CacheLine) (post : List CacheLine)
      (hlines : lines = pre ++ l :: post) (hpre : ∀ l ∈ pre, l.tag ≠ tag) (htag : l.tag = tag)
      (hlru : replace = true → l.lru + 1 ≠ allOnes) :
      Looked tag replace lines (pre ++ touch replace l :: post, l.status)

/-- **The lookup stops at the first way with the tag**, and nothing but the
counter of that way can fail. -/
theorem ensures_fetchLoop :
    Ensures (· = .lru) (Looked tag replace lines) (fetchLoop tag replace lines) := by
  induction lines with
  | nil => exact .absent (by simp)
  | cons l lines ih =>
    rw [fetchLoop]
    by_cases htag : l.tag = tag
    · rw [if_pos htag]
      cases replace with
      | false => exact .found [] l lines rfl (by simp) htag (by simp)
      | true =>
        simp only [if_true, check]
        split
        · rename_i hlru
          exact .found [] l lines rfl (by simp) htag fun _ => bne_iff_ne.mp hlru
        · rfl
    · rw [if_neg htag]
      refine ih.bind fun r _ hr => ?_
      cases hr with
      | absent h => exact .absent (List.forall_mem_cons.mpr ⟨htag, h⟩)
      | found pre l' post hlines hpre htag' hlru =>
        subst hlines
        exact .found (l :: pre) l' post rfl (List.forall_mem_cons.mpr ⟨htag, hpre⟩) htag' hlru

theorem ensures_fetch :
    Ensures (· = .lru) (fun r => Looked tag replace s.lines (r.1.lines, r.2))
      (s.fetch tag replace) :=
  ensures_fetchLoop.bind fun _ _ hr => hr

/-- `evict` gives up at most one copy. -/
theorem simulates_evict (h : pid < 32) :
    ∃ xs calls, (m.Simulates xs calls (s.evict pid m).2) ∧ Spills pid xs calls := by
  simp only [evict]
  split
  · refine ⟨_, _, DirMsi.Simulates.record.trans (DirMsi.simulates_invalidate h), ?_, ?_⟩
    · simp
    · simp only [DirMsi.evictCalls]
      split <;> simp [Call.Evicting]
  · exact ⟨_, _, .record, by simp, by simp [Call.Evicting]⟩

/-- **What a cache set does to the directory.** -/
theorem ensures_fetchSingleLine (h : pid < 32) :
    Ensures (· = .lru) (fun r => ∃ xs calls, m.Simulates xs calls r.2 ∧ Spills pid xs calls)
      (s.fetchSingleLine pid tag addr m replace) := by
  refine ensures_fetch.bind fun ⟨s', status⟩ _ _ => ?_
  cases status with
  | uncached => exact simulates_evict h
  | cached => exact ⟨[], [], .refl, by simp, by simp⟩

end CacheSet

end AdaptiveMsi
