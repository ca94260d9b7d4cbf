import AdaptiveMsi.Controller.Reached
import AdaptiveMsi.Properties.Directory
/-!
# Hits and sharer bits

A handler tests the processor's bit and sets it along the way. The read
path, the baseline's write path and the last writer's branch test it
before they set it; the handoff sets it first, so that a writer without a
copy hits.
-/

namespace AdaptiveMsi

open Machine

/-- A store that takes over a line somebody holds, by a processor without
a copy of it. -/
def TakesOverUnshared (c : Controller) (x : Access) : Prop :=
  x.kind = .store ∧ c.coherence.detector = true ∧ (c.line x.addr).state ≠ .invalid ∧
    (c.line x.addr).isLastWriter x.pid = false ∧ (c.line x.addr).isSet x.pid = false

instance (c : Controller) (x : Access) : Decidable (TakesOverUnshared c x) := by
  unfold TakesOverUnshared
  infer_instance

variable {cfg : Config} {detector : Bool} {c c' : Controller} {x : Access} {charge : Charge}

/-- A hit of the protocol, in the words of the code. -/
theorem hits_iff (h : x.pid < 32) : x.Hits c.coherence.rules (c.coherence.entries x.addr) ↔
    (c.line x.addr).isSet x.pid = true ∨ TakesOverUnshared c x := by
  have hset : (c.line x.addr).isSet x.pid = true ↔ x.pid ∈ (c.coherence.entries x.addr).sharers :=
    DirectoryLine.isSet_iff h
  have hw : (c.line x.addr).isLastWriter x.pid = true ↔
      (c.coherence.entries x.addr).writer = some x.pid := (DirectoryLine.writer_eq_some h).symm
  have hs : (c.line x.addr).state = (c.coherence.entries x.addr).state := rfl
  have hd : c.coherence.detector = c.coherence.rules.adaptive := rfl
  simp only [TakesOverUnshared, ← Bool.not_eq_true, hset, hw, hs, hd, Access.Hits,
    Protocol.Entry.StartsOver]
  grind

/-- **Hits follow the directory, but for the handoff.** In every state
reached, a read or a write is a hit exactly for a sharer, unless it is an
adaptive store that takes over a line of which its processor has no copy. -/
theorem hit_iff_isSet_iff (hc : Reached cfg detector c) (hx : x.pid < cfg.numProcessors)
    (hhandle : c.handle x = .ok (c', charge)) :
    (charge.response = .cacheHit ↔ (c.line x.addr).isSet x.pid = true) ↔
      ¬ TakesOverUnshared c x := by
  have hn := cfg.numProcessors_le
  have hhit := (hc.keeps.handle hn hx hhandle).2
  rw [hits_iff (by omega)] at hhit
  rw [hhit]
  constructor
  · intro h htakes
    have hset := h.mp (Or.inr htakes)
    rw [htakes.2.2.2.2] at hset
    cases hset
  · exact fun hno => or_iff_left hno

/-- The last writer stores again. -/
theorem hit_iff_isSet_iff_pair :
    ∃ c reports c' charge, Config.pair.run true [⟨.store, 0, 4⟩] = .ok (c, reports) ∧
      c.handle ⟨.store, 0, 4⟩ = .ok (c', charge) ∧
      ((charge.response = .cacheHit ↔ (c.line 4).isSet 0 = true) ↔
        ¬ TakesOverUnshared c ⟨.store, 0, 4⟩) := by
  have hrun : Ensures (fun _ => False) (fun s => Ensures (fun _ => False) (fun _ => True)
      (s.1.handle ⟨.store, 0, 4⟩)) (Config.pair.run true [⟨.store, 0, 4⟩]) := by decide
  obtain ⟨⟨c, reports⟩, hok, hnext⟩ := hrun.exists_ok
  obtain ⟨⟨c', charge⟩, hhandle, -⟩ := hnext.exists_ok
  exact ⟨c, reports, c', charge, hok, hhandle,
    hit_iff_isSet_iff (x := ⟨.store, 0, 4⟩) (reached_of_run (by decide) hok) (by decide) hhandle⟩

/-- **A writer without a copy hits.** -/
theorem handoff_hits_unshared :
    ∃ c reports c' charge, Config.pair.run true [⟨.store, 0, 4⟩] = .ok (c, reports) ∧
      (c.line 4).isSet 1 = false ∧ c.handle ⟨.store, 1, 4⟩ = .ok (c', charge) ∧
      charge.response = .cacheHit := by
  have hrun : Ensures (fun _ => False) (fun s => (s.1.line 4).isSet 1 = false ∧
      Ensures (fun _ => False) (fun r => r.2.response = .cacheHit) (s.1.handle ⟨.store, 1, 4⟩))
      (Config.pair.run true [⟨.store, 0, 4⟩]) := by decide
  obtain ⟨⟨c, reports⟩, hok, hset, hnext⟩ := hrun.exists_ok
  obtain ⟨⟨c', charge⟩, hhandle, hhit⟩ := hnext.exists_ok
  exact ⟨c, reports, c', charge, hok, hset, hhandle, hhit⟩

end AdaptiveMsi
