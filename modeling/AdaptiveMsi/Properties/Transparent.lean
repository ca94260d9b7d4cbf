import AdaptiveMsi.Properties.Overflow
import AdaptiveMsi.Protocol.WriteBacks
/-!
# Caches that do not overflow

Where no processor accesses more lines of a set than the set has ways, the
caches do nothing: the directory is what the protocol alone makes of the
accesses, in either mode, and the accesses hit and miss as the protocol
says.
-/

namespace AdaptiveMsi

open Machine Protocol DirMsi Controller

variable {cfg : Config} {detector : Bool} {c c' : Controller} {t : List Access} {x : Access}
variable {rs : List Report} {r : Report} {R : Rules ℕ (BitVec 64)}
variable {D : Addr → Entry ℕ (BitVec 64)}

/-! ## The protocol alone -/

/-- The directory no access was made to. -/
def untouched : Addr → Entry ℕ (BitVec 64) := fun _ => ⟨.invalid, ∅, none, 0⟩

/-- The directory after the accesses `t`, without caches. -/
def afterwards (R : Rules ℕ (BitVec 64)) (t : List Access) : Addr → Entry ℕ (BitVec 64) :=
  (t.map Access.event).foldl (Event.apply R) untouched

theorem afterwards_snoc :
    afterwards R (t ++ [x]) = x.event.apply R (afterwards R t) := by
  simp [afterwards]

theorem afterwards_append {u v : List Access} : afterwards R (u ++ v) =
    (v.map Access.event).foldl (Event.apply R) (afterwards R u) := by
  simp [afterwards]

instance (R : Rules ℕ (BitVec 64)) (e : Entry ℕ (BitVec 64)) (x : Access) :
    Decidable (x.Hits R e) := by
  unfold Access.Hits
  infer_instance

/-- What the protocol replies to an access in the directory `D`. -/
def reply (R : Rules ℕ (BitVec 64)) (D : Addr → Entry ℕ (BitVec 64)) (x : Access) : AccessType :=
  if x.Hits R (D x.addr) then .cacheHit else .cacheMiss

/-- What it replies to a list of them. -/
def replies (R : Rules ℕ (BitVec 64)) (D : Addr → Entry ℕ (BitVec 64)) :
    List Access → List AccessType
  | [] => []
  | x :: t => reply R D x :: replies R (x.event.apply R D) t

theorem replies_append {u v : List Access} : replies R D (u ++ v) =
    replies R D u ++ replies R ((u.map Access.event).foldl (Event.apply R) D) v := by
  induction u generalizing D with
  | nil => rfl
  | cons x u ih =>
    rw [List.cons_append, replies, replies, ih, List.cons_append, List.map_cons, List.foldl_cons]

theorem length_replies : (replies R D t).length = t.length := by
  induction t generalizing D with
  | nil => rfl
  | cons x t ih => rw [replies, List.length_cons, ih, List.length_cons]

/-! ## The simulator -/

/-- **A run, as far as it got**, in caches that do not overflow. -/
structure Within (cfg : Config) (detector : Bool) (t : List Access) (c : Controller) : Prop where
  stocked : Stocked cfg t c
  tracks : Tracks cfg.numProcessors detector t c.coherence
  entries : c.coherence.entries = afterwards (AdaptiveMsi.rules cfg.numProcessors detector) t
  readers : ∀ a i, i < cfg.numProcessors →
    DirectoryLine.count (c.coherence.entries a).reads i ≠ 0 → ∃ y ∈ t, y.pid = i ∧ y.addr = a
  writers : detector = true → ∀ a w, (c.coherence.entries a).writer = some w →
    w ∈ (c.coherence.entries a).sharers

theorem within_start : Within cfg detector [] (cfg.start detector) where
  stocked := stocked_start
  tracks := tracks_start
  entries := by
    funext a
    exact entries_start
  readers a i _ hne := by
    rw [entries_start] at hne
    exact absurd DirectoryLine.count_zero hne
  writers _ a w hw := by
    rw [entries_start] at hw
    cases hw

/-- Only a processor that accessed the address qualifies for it. -/
theorem Within.accessed_of_qualified {a : Addr} {i : ℕ} (h : Within cfg detector t c)
    (hn : cfg.numProcessors ≤ 16) (hi : i < cfg.numProcessors)
    (hq : (c.line a).qualifiedReader i = true) : ∃ y ∈ t, y.pid = i ∧ y.addr = a := by
  have hcount : 2 ≤ DirectoryLine.count (c.coherence.entries a).reads i :=
    (DirectoryLine.qualifiedReader_iff (by omega) (h.tracks.packed hn a)).mp hq
  exact h.readers a i hi (by omega)

/-- **One access** is its event, and replies as the protocol does. -/
theorem Within.step (h : Within cfg detector t c) (hgeo : 2 ≤ cfg.numSets * cfg.lineSize)
    (hn : cfg.numProcessors ≤ 16) (hx : x.pid < cfg.numProcessors) (hfits : cfg.Fits (t ++ [x]))
    (hstep : c.step x = .ok (c', r)) : Within cfg detector (t ++ [x]) c' ∧
      r.response = reply (AdaptiveMsi.rules cfg.numProcessors detector)
        (afterwards (AdaptiveMsi.rules cfg.numProcessors detector) t) x := by
  obtain ⟨c₁, hfetch, hhandle⟩ := step_eq_ok hstep
  obtain ⟨c₂, charge, hok, hsettled⟩ := exists_settled hgeo hx hfits h.tracks h.stocked
    (fun hd => h.writers hd x.addr) (fun _ _ hi hq => h.accessed_of_qualified hn hi hq) hfetch
  cases hhandle.symm.trans hok
  have hentries := hsettled.entries
  have hhit := hsettled.hit
  rw [h.tracks.rules] at hentries hhit
  refine ⟨⟨hsettled.stocked, hsettled.tracks, ?_, fun a i hi hcount => ?_, fun hd a w hw => ?_⟩, ?_⟩
  · rw [hentries, h.entries, afterwards_snoc]
  · rw [hentries] at hcount
    rcases eq_or_ne a x.event.addr with rfl | ha
    · rw [Event.apply_self] at hcount
      rcases count_onEntry rfl rfl (by omega) (h.tracks.packed hn _) hcount with hold | rfl
      · obtain ⟨y, hy, hrest⟩ := h.readers _ i hi hold
        exact ⟨y, List.mem_append_left _ hy, hrest⟩
      · exact ⟨x, by simp, rfl, (Access.addr_event).symm⟩
    · rw [Event.apply_of_ne ha] at hcount
      obtain ⟨y, hy, hrest⟩ := h.readers a i hi hcount
      exact ⟨y, List.mem_append_left _ hy, hrest⟩
  · rw [hentries] at hw ⊢
    rcases eq_or_ne a x.event.addr with rfl | ha
    · rw [Event.apply_self] at hw ⊢
      exact writer_mem_onEntry hd Access.event_ne_evict (h.writers hd _ w) hw
    · rw [Event.apply_of_ne ha] at hw ⊢
      exact h.writers hd a w hw
  · rw [reply, ← h.entries]
    split
    · rename_i hits
      exact hhit.mpr hits
    · rename_i hits
      cases hr : r.response with
      | cacheHit => exact absurd (hhit.mp hr) hits
      | cacheMiss => rfl

/-- **A run where nothing overflows.** -/
theorem within_of_run (hgeo : 2 ≤ cfg.numSets * cfg.lineSize) (hn : cfg.numProcessors ≤ 16)
    (hv : cfg.Valid t) (hfits : cfg.Fits t) (hrun : cfg.run detector t = .ok (c, rs)) :
    Within cfg detector t c ∧ rs.map Report.access = t ∧
      rs.map Report.response =
        replies (AdaptiveMsi.rules cfg.numProcessors detector) untouched t := by
  refine Config.induction_of_run (I := fun u rs c => cfg.Fits u → Within cfg detector u c ∧
    rs.map Report.access = u ∧ rs.map Report.response =
      replies (AdaptiveMsi.rules cfg.numProcessors detector) untouched u) hv hrun
    (fun _ => ⟨within_start, rfl, rfl⟩) ?_ hfits
  intro u x v rs c c' r _ hx _ ht hI hstep hfits'
  obtain ⟨hwithin, haccess, hresponses⟩ := hI hfits'.append
  obtain ⟨hwithin', hresponse⟩ := hwithin.step hgeo hn hx hfits' hstep
  obtain ⟨pre, post, hstepped⟩ := (ensures_step cfg.numProcessors_le ht hx).of_ok hstep
  refine ⟨hwithin', ?_, ?_⟩
  · rw [List.map_append, haccess, List.map_singleton, hstepped.access]
  · rw [List.map_append, hresponses, List.map_singleton, hresponse, replies_append]
    rfl

/-- **Where no set overflows the caches are transparent.** In both modes, if
no processor accesses more lines of a set than the set has ways, there are
at most `16` processors, and the number of sets times the line size is at
least two, the directory after a run is what the protocol alone makes of
the accesses, in their order, and every access hits or misses as the
protocol alone says: the geometry of the caches, the replacement and the
pushes' fills do not matter. -/
theorem transparent_of_fits (hgeo : 2 ≤ cfg.numSets * cfg.lineSize) (hn : cfg.numProcessors ≤ 16)
    (hv : cfg.Valid t) (hfits : cfg.Fits t) (hrun : cfg.run detector t = .ok (c, rs)) :
    c.coherence.entries = afterwards (AdaptiveMsi.rules cfg.numProcessors detector) t ∧
      rs.map Report.response =
        replies (AdaptiveMsi.rules cfg.numProcessors detector) untouched t :=
  have h := within_of_run hgeo hn hv hfits hrun
  ⟨h.1.entries, h.2.2⟩

/-- A consumer that misses twice, is pushed to and hits. -/
theorem transparent_of_fits_pair :
    let t : List Access := [⟨.store, 0, 4⟩, ⟨.load, 1, 4⟩, ⟨.store, 0, 4⟩, ⟨.load, 1, 4⟩,
      ⟨.store, 0, 4⟩, ⟨.load, 1, 4⟩]
    ∃ c rs, Config.pair.run true t = .ok (c, rs) ∧ (∃ r ∈ rs, .push 1 4 ∈ r.calls) ∧
      c.coherence.entries = afterwards (rules Config.pair.numProcessors true) t ∧
      rs.map Report.response = replies (rules Config.pair.numProcessors true) untouched t := by
  intro t
  obtain ⟨⟨c, rs⟩, hok, hpush⟩ := Ensures.exists_ok (P := fun s => ∃ r ∈ s.2, .push 1 4 ∈ r.calls)
    (by decide +kernel : Ensures _ _ (Config.pair.run true t))
  exact ⟨c, rs, hok, hpush,
    transparent_of_fits (by decide) (by decide) (by decide) (by decide) hok⟩

end AdaptiveMsi
