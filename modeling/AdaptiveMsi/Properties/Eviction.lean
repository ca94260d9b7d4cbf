import AdaptiveMsi.Cache.Contents
import AdaptiveMsi.Properties.Directory
/-!
# What an eviction tells the directory

`evict` carries an address along with the way it picks. The address
starts at `0` and follows the way from the second one on, so a victim in
the first way is reported under the address `0`. The statements are about
every set with a way and every directory, and so about every call.
-/

namespace AdaptiveMsi

open Machine DirMsi

variable {s : CacheSet} {m : DirMsi} {pid : ℕ} {a x : Addr}

/-- The processor answers for the data of the address: it owns it, and in
the adaptive mode it is the last writer. -/
def DirMsi.Answers (m : DirMsi) (pid : ℕ) (a : Addr) : Prop :=
  (m.directory a).isOwner pid = true ∧
    (m.detector = true → (m.directory a).isLastWriter pid = true)

instance : Decidable (m.Answers pid a) := by
  unfold Answers
  infer_instance

/-- **The eviction of `x` has been told**: the processor's bit in the entry
of `x` is clear, a write-back is charged for `x` if the processor answered
for it, and no other entry changes. -/
structure Told (pid : ℕ) (x : Addr) (m m' : DirMsi) : Prop where
  bit : (m'.directory x).isSet pid = false
  charge : (m'.profiles.lineStat x).evict.misses =
    (m.profiles.lineStat x).evict.misses + if m.Answers pid x then 1 else 0
  frame : ∀ b ≠ x, m'.directory b = m.directory b

/-- `evict` tells the directory of the line in the way it returns; of an
empty way it tells nothing. -/
def EvictsRight (s : CacheSet) (m : DirMsi) (pid : ℕ) : Prop :=
  let (way, m') := s.evict pid m
  match (s.line way).status with
  | .cached => Told pid (s.line way).addr m m'
  | .uncached => m'.directory = m.directory ∧ m'.profiles = m.profiles

/-- The first way with the least counter is empty; or it is not the first
way of all; or its line is of address `0`; or the processor has no bit in
the entry of its line or in that of address `0`, and the entry of `0` is
not one without sharers that is in use. -/
def HandsOver (s : CacheSet) (m : DirMsi) (pid : ℕ) : Prop :=
  let l := s.line s.leastWay
  l.status = .uncached ∨ s.leastWay ≠ 0 ∨ l.addr = 0 ∨
    (m.directory l.addr).isSet pid = false ∧ (m.directory 0).isSet pid = false ∧
      ((m.directory 0).sharerVector = 0 → (m.directory 0).state = .invalid)

theorem ownership_iff_answers : m.ownership pid a = true ↔ m.Answers pid a := by
  unfold DirMsi.ownership DirMsi.Answers
  cases m.detector <;> simp [and_comm]

/-- The write-backs charged for an address. -/
theorem misses_invalidate : ((m.invalidate pid a).profiles.lineStat x).evict.misses =
    (m.profiles.lineStat x).evict.misses + if x = a ∧ m.Answers pid a then 1 else 0 := by
  rw [invalidate_profiles]
  by_cases ho : m.ownership pid a = true
  · rw [if_pos ho]
    have hanswers := ownership_iff_answers.mp ho
    rcases eq_or_ne x a with rfl | hne
    · simp [Profile.profileCacheEvict, Profile.onLine, Profile.onProfile, hanswers]
    · simp [Profile.profileCacheEvict, Profile.onLine, Profile.onProfile, hne]
  · have hno : ¬ m.Answers pid a := fun h => ho (ownership_iff_answers.mpr h)
    rw [if_neg ho, if_neg fun h => hno h.2]
    rfl

theorem told_record {m' : DirMsi} {call : Call} :
    Told pid x (m.record call) m' ↔ Told pid x m m' :=
  ⟨fun h => ⟨h.bit, h.charge, h.frame⟩, fun h => ⟨h.bit, h.charge, h.frame⟩⟩

/-- **What `invalidate` tells of `x`** when it is called for `y`. -/
theorem told_invalidate_iff {y : Addr} (hpid : pid < 32) :
    Told pid x m (m.invalidate pid y) ↔ y = x ∨
      (m.directory x).isSet pid = false ∧ (m.directory y).isSet pid = false ∧
        ((m.directory y).sharerVector = 0 → (m.directory y).state = .invalid) := by
  rw [← evictedLine_eq_self_iff hpid]
  rcases eq_or_ne y x with rfl | hne
  · refine ⟨fun _ => Or.inl rfl, fun _ => ⟨?_, ?_, fun b hb => invalidate_directory_of_ne hb⟩⟩
    · rw [invalidate_directory, Function.update_self]
      exact isSet_evictedLine hpid
    · rw [misses_invalidate]
      simp
  · have hx : (m.invalidate pid y).directory x = m.directory x :=
      invalidate_directory_of_ne hne.symm
    constructor
    · intro h
      have hy := h.frame y hne
      rw [invalidate_directory, Function.update_self] at hy
      exact Or.inr ⟨hx ▸ h.bit, hy⟩
    · rintro (heq | ⟨hbit, hy⟩)
      · exact absurd heq hne
      · -- without its bit nobody answers for the line
        have hno : ¬ m.Answers pid x := fun h => by
          have howner := h.1
          rw [DirectoryLine.isOwner, hbit] at howner
          cases howner
        refine ⟨hx ▸ hbit, ?_, fun b _ => ?_⟩
        · rw [misses_invalidate, if_neg fun h => hne h.1.symm, if_neg hno]
        · rw [invalidate_directory, hy, Function.update_eq_self]

/-- **An eviction is told right exactly when the loop moves on from the
first way**, or that way's line is of address `0`, or there is nothing to
tell. -/
theorem evictsRight_iff (s : CacheSet) (m : DirMsi) (pid : ℕ) (hpid : pid < 32) :
    EvictsRight s m pid ↔ HandsOver s m pid := by
  have hway : s.leastWay = s.victim.evict := CacheSet.victim_eq_leastWay.symm
  cases hst : (s.line s.victim.evict).status with
  | uncached =>
    simp only [EvictsRight, CacheSet.evict_of_uncached hst, hst, HandsOver, hway, true_or, iff_true]
    exact ⟨rfl, rfl⟩
  | cached =>
    -- the address starts at `0` and is the line's from the second way on
    have haddr := CacheSet.evictAddr_of_cached hst
    simp only [EvictsRight, CacheSet.evict_of_cached hst, hst, HandsOver, hway, reduceCtorEq,
      false_or]
    rw [← told_record (m := m) (x := (s.line s.victim.evict).addr), told_invalidate_iff hpid, haddr]
    by_cases hfirst : s.victim.evict = 0
    · simp only [hfirst, if_true, ne_eq, not_true_eq_false, false_or, eq_comm (a := (0 : Addr))]
      exact Iff.rfl
    · simp only [hfirst, if_false, ne_eq, not_false_eq_true, true_or]

/-- The line in the second of two ways. -/
theorem evictsRight_iff_wide :
    ∃ c reports, Config.wide.run false [⟨.load, 0, 2⟩, ⟨.load, 0, 4⟩, ⟨.load, 0, 2⟩] =
        .ok (c, reports) ∧
      (EvictsRight (c.cache 0 0) c.coherence 0 ↔ HandsOver (c.cache 0 0) c.coherence 0) := by
  have hrun : Ensures (fun _ => False) (fun _ => True)
      (Config.wide.run false [⟨.load, 0, 2⟩, ⟨.load, 0, 4⟩, ⟨.load, 0, 2⟩]) := by decide
  obtain ⟨⟨c, reports⟩, hok, -⟩ := hrun.exists_ok
  exact ⟨c, reports, hok, evictsRight_iff _ _ 0 (by decide)⟩

/-- **A line in the first way is not told of**: it was of address `2`, and
the bit in its entry stays. -/
theorem first_way_untold :
    ∃ c reports, Config.pair.run false [⟨.load, 0, 2⟩] = .ok (c, reports) ∧
      ¬ EvictsRight (c.cache 0 0) c.coherence 0 := by
  have hrun : Ensures (fun _ => False) (fun s => ((s.1.cache 0 0).line 0).status = .cached ∧
      ((s.1.cache 0 0).line 0).addr = 2 ∧ ((s.1.cache 0 0).evict 0 s.1.coherence).1 = 0 ∧
      (((s.1.cache 0 0).evict 0 s.1.coherence).2.directory 2).isSet 0 = true)
      (Config.pair.run false [⟨.load, 0, 2⟩]) := by decide
  obtain ⟨⟨c, reports⟩, hok, hst, haddr, hway, hset⟩ := hrun.exists_ok
  refine ⟨c, reports, hok, fun h => ?_⟩
  simp only [EvictsRight, hway, hst] at h
  have hbit := h.bit
  rw [haddr, hset] at hbit
  cases hbit

end AdaptiveMsi
