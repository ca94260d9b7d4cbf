import AdaptiveMsi.Controller.Parts
import AdaptiveMsi.Properties.Directory
/-!
# The names of the processors do not matter

The processors are numbered in the order in which the threads start. With
other numbers the push loop visits the caches in another order, the owner
loop finds another sharer, and the read counters sit elsewhere in their
word; the caches, the directory and the responses are the same up to the
numbers.
-/

namespace AdaptiveMsi

open Machine Protocol DirMsi

variable {σ : Equiv.Perm ℕ} {n : ℕ} {detector : Bool} {cfg : Config} {t : List Access}

/-! ## The rules -/

/-- The read counters under other names, of as many processors as have
counters of their own. More of them share counters, which only the
baseline allows for, where nothing reads them. -/
def SameCounts (n : ℕ) (σ : Equiv.Perm ℕ) (v v' : BitVec 64) : Prop :=
  n ≤ 16 → DirectoryLine.Packed v ∧ DirectoryLine.Packed v' ∧
    ∀ i < n, DirectoryLine.count v' (σ i) = DirectoryLine.count v i

/-- **The rules of the code** do not depend on the names. -/
theorem renames_rules (hn : detector = true → n ≤ 16) (hσ : ∀ i, σ i < n ↔ i < n) :
    (rules n detector).Renames σ (SameCounts n σ) (rules n detector) where
  adaptive := rfl
  procs p := by rw [mem_procs, mem_procs, hσ]
  start _ := ⟨.zero, .zero, fun _ _ => by
    rw [show (rules n detector).start = 0 from rfl, DirectoryLine.count_zero,
      DirectoryLine.count_zero]⟩
  miss p hp v v' h hle := by
    obtain ⟨hv, hv', hcount⟩ := h hle
    have hp' : p < n := mem_procs.mp hp
    have hσp : σ p < n := (hσ p).mpr hp'
    refine ⟨hv.missVector (by omega), hv'.missVector (by omega), fun i hi => ?_⟩
    change DirectoryLine.count (DirectoryLine.missVector _ _) _ =
      DirectoryLine.count (DirectoryLine.missVector _ _) _
    rw [DirectoryLine.count_missVector (by omega) hv', DirectoryLine.count_missVector (by omega) hv,
      hcount i hi, hcount p hp']
    simp only [EmbeddingLike.apply_eq_iff_eq]
  qualified hd p hp v v' h := by
    have hle := hn hd
    obtain ⟨hv, hv', hcount⟩ := h hle
    have hp' : p < n := mem_procs.mp hp
    have hσp : σ p < n := (hσ p).mpr hp'
    rw [Bool.eq_iff_iff]
    refine bne_iff_ne.trans (Iff.trans ?_ bne_iff_ne.symm)
    rw [DirectoryLine.and_mask_ne_zero_iff_count (by omega) hv',
      DirectoryLine.and_mask_ne_zero_iff_count (by omega) hv, hcount p hp']

open Controller

/-- One controller under other names. -/
abbrev Renamed (σ : Equiv.Perm ℕ) (n : ℕ) (detector : Bool) (c c' : Controller) : Prop :=
  Matches .whole σ (SameCounts n σ) n detector c c'

/-- **Access by access** the renamed run does the same. -/
theorem agree_renamed (hn : detector = true → cfg.numProcessors ≤ 16)
    (hσ : ∀ i, σ i < cfg.numProcessors ↔ i < cfg.numProcessors) (hv : cfg.Valid t) :
    Agree (fun r r' => Renamed σ cfg.numProcessors detector r.1 r'.1 ∧
        List.Forall₂ (fun r r' : Report => r'.response = r.response) r.2 r'.2)
      (cfg.run detector t) (cfg.run detector (t.map (Access.rename σ))) := by
  have hR := renames_rules hn hσ
  have hstart : Renamed σ cfg.numProcessors detector (cfg.start detector) (cfg.start detector) :=
    ⟨rfl, rfl, rfl, rfl, fun _ _ => rfl, fun b _ => by
      rw [entries_start]
      exact ⟨rfl, by simp, rfl, hR.start⟩⟩
  have hpaired : List.Forall₂ (fun x y => x.pid < cfg.numProcessors ∧ y = Access.rename σ x) t
      (t.map (Access.rename σ)) := by
    rw [List.forall₂_map_right_iff, List.forall₂_same]
    exact fun x hx => ⟨hv x hx, rfl⟩
  refine (agree_runs (R := fun u u' c c' => Renamed σ cfg.numProcessors detector c c' ∧
      Tracks cfg.numProcessors detector u c.coherence ∧
      Tracks cfg.numProcessors detector u' c'.coherence)
    (O := fun r r' : Report => r'.response = r.response)
    ⟨hstart, tracks_start, tracks_start⟩ hpaired ?_).mono fun _ _ _ _ h => ⟨h.1.1, h.2⟩
  rintro u x v u' _ v' c c' - - ⟨hx, rfl⟩ ⟨h, ht, ht'⟩
  have hσx : (x.rename σ).pid < cfg.numProcessors := (hσ x.pid).mpr hx
  refine (h.agree_step hR cfg.numProcessors_le ht ht' hx trivial trivial
    keepsTo_whole).mono fun r r' hok hok' hr => ?_
  obtain ⟨_, _, hstepped⟩ := (ensures_step cfg.numProcessors_le ht hx).of_ok hok
  obtain ⟨_, _, hstepped'⟩ := (ensures_step cfg.numProcessors_le ht' hσx).of_ok hok'
  exact ⟨⟨hr.1, hstepped.tracks ht hx, hstepped'.tracks ht' hσx⟩, hr.2⟩

theorem map_response_eq {rs rs' : List Report}
    (h : List.Forall₂ (fun r r' : Report => r'.response = r.response) rs rs') :
    rs'.map Report.response = rs.map Report.response := by
  rw [← List.forall₂_eq_eq_eq, List.forall₂_map_left_iff, List.forall₂_map_right_iff]
  exact h.flip

/-- **The names of the processors do not matter.** In both modes, with at
most `16` processors if the detector is on, if the processors are renamed,
every run does the same under the new names: it returns or stops as
before, every access hits or misses as before, and it ends in the same
caches and the same directory up to the names, although the push loop
visits the caches in another order. Of the directory the read counters are
left out where there are more than `16` processors. -/
theorem run_rename (hn : detector = true → cfg.numProcessors ≤ 16)
    (hσ : ∀ i, σ i < cfg.numProcessors ↔ i < cfg.numProcessors) (hv : cfg.Valid t) :
    Agree (fun r r' => Renamed σ cfg.numProcessors detector r.1 r'.1 ∧
        r'.2.map Report.response = r.2.map Report.response)
      (cfg.run detector t) (cfg.run detector (t.map (Access.rename σ))) :=
  (agree_renamed hn hσ hv).mono fun _ _ _ _ h => ⟨h.1, map_response_eq h.2⟩

/-- Two readers that are pushed to change places. -/
theorem run_rename_quad :
    let t : List Access := [⟨.store, 0, 4⟩, ⟨.load, 1, 4⟩, ⟨.load, 2, 4⟩, ⟨.store, 0, 4⟩,
      ⟨.load, 1, 4⟩, ⟨.load, 2, 4⟩, ⟨.store, 0, 4⟩, ⟨.load, 2, 4⟩]
    ∃ r r', Config.quad.run true t = .ok r ∧
      Config.quad.run true (t.map (Access.rename (Equiv.swap 1 2))) = .ok r' ∧
      Renamed (Equiv.swap 1 2) Config.quad.numProcessors true r.1 r'.1 ∧
      r'.2.map Report.response = r.2.map Report.response := by
  intro t
  have hn : true = true → Config.quad.numProcessors ≤ 16 := by decide
  have hv : Config.quad.Valid t := by decide
  have hσ : ∀ i, Equiv.swap 1 2 i < Config.quad.numProcessors ↔ i < Config.quad.numProcessors := by
    intro i
    rw [show Config.quad.numProcessors = 4 from rfl, Equiv.swap_apply_def]
    split_ifs <;> omega
  obtain ⟨r, hok, -⟩ := Ensures.exists_ok (P := fun _ => True) (by decide +kernel :
    Ensures _ _ (Config.quad.run true t))
  clear_value t
  obtain ⟨r', hok', hrenamed⟩ := (run_rename hn hσ hv).of_ok hok
  exact ⟨r, r', hok, hok', hrenamed⟩

end AdaptiveMsi
