import AdaptiveMsi.Controller.Books
import AdaptiveMsi.Properties.Consumer
/-!
# Who is pushed to

The pushes of a store can be read off the reports before it: the data go
to the processors with two load misses since the last call of
`update_last_writer` on the address. Nothing else weighs in — not what a
reader did with what it was pushed, nor whether it still reads.
-/

namespace AdaptiveMsi

open Machine Protocol

variable {cfg : Config} {n i w : ℕ} {a b : Addr} {m m' : DirMsi} {x : Access} {r : Report}
variable {t : List Access} {pre post : List (Event ℕ Addr)} {rs : List Report} {c : Controller}

/-- A report of a call of `update_last_writer` forgets the misses before
it. -/
def missesAfter (i : ℕ) (a : Addr) (k : ℕ) (r : Report) : ℕ :=
  if ∃ call ∈ r.calls, call.NotesWriter a then 0 else k + loadMisses i a [r]

/-- The load misses of `i` on `a` since the last `update_last_writer` on
`a`. -/
def missesSince (i : ℕ) (a : Addr) (rs : List Report) : ℕ := rs.foldl (missesAfter i a) 0

theorem missesSince_snoc :
    missesSince i a (rs ++ [r]) = missesAfter i a (missesSince i a rs) r := by
  rw [missesSince, List.foldl_append, List.foldl_cons, List.foldl_nil, ← missesSince]

/-- `update_last_writer` is called where a store starts over. -/
theorem Stepped.notesWriter_iff (h : Stepped m x pre post m' r) :
    (∃ call ∈ r.calls, call.NotesWriter a) ↔
      a = x.addr ∧ x.kind = .store ∧ (found m pre x).StartsOver m.rules x.pid := by
  constructor
  · rintro ⟨call, hcall, hnotes⟩
    cases call with
    | updateLastWriter p b =>
      obtain rfl : b = a := hnotes
      obtain ⟨-, hb, hk, hover⟩ := (h.updates p b).mp hcall
      exact ⟨hb, hk, hover⟩
    | invalidate p b | profileCacheEvict p b cost hops | push p b | evict p lines way =>
      exact hnotes.elim
  · rintro ⟨rfl, hk, hover⟩
    exact ⟨_, (h.updates _ _).mpr ⟨rfl, rfl, hk, hover⟩, rfl⟩

/-- **One access**: the counters count load misses, up to three. -/
theorem Stepped.count_eq (h : Stepped m x pre post m' r) (ht : Tracks n true t m) (hn : n ≤ 16)
    (hx : x.pid < n) {k : ℕ} (hk : DirectoryLine.count (m.entries a).reads i = min 3 k) :
    DirectoryLine.count (m'.entries a).reads i = min 3 (missesAfter i a k r) := by
  have hmisses : loadMisses i a [r] =
      if x = ⟨.load, i, a⟩ ∧ r.response = .cacheMiss then 1 else 0 := by
    rw [loadMisses, List.countP_singleton, h.access]
    simp
  rw [missesAfter, hmisses]
  rcases eq_or_ne a x.addr with rfl | hne
  · cases hkind : x.kind with
    | load =>
      have hquiet : ¬ ∃ call ∈ r.calls, call.NotesWriter x.addr := fun hnotes => by
        have hstore := (h.notesWriter_iff.mp hnotes).2.1
        rw [hkind] at hstore
        cases hstore
      rw [if_neg hquiet, h.count_of_load ht hn hx hkind, hk]
      obtain ⟨kind, pid, b⟩ := x
      cases hkind
      simp only [Access.mk.injEq, true_and, and_true]
      by_cases hi : i = pid ∧ r.response = .cacheMiss
      · rw [if_pos hi, if_pos ⟨hi.1.symm, hi.2⟩]
        omega
      · rw [if_neg hi, if_neg fun hc => hi ⟨hc.1.symm, hc.2⟩, Nat.add_zero]
    | store =>
      have hno : ¬ (x = ⟨.load, i, x.addr⟩ ∧ r.response = .cacheMiss) := by
        rintro ⟨he, -⟩
        rw [he] at hkind
        cases hkind
      rw [if_neg hno, h.entries_self]
      simp only [Access.event, hkind, Event.onEntry]
      rw [Entry.store_reads]
      by_cases hover : (found m pre x).StartsOver m.rules x.pid
      · rw [if_pos hover, if_pos (h.notesWriter_iff.mpr ⟨rfl, hkind, hover⟩), ht.rules]
        exact DirectoryLine.count_zero
      · rw [if_neg hover, if_neg fun hnotes => hover (h.notesWriter_iff.mp hnotes).2.2,
          h.fewer_found.reads, hk, Nat.add_zero]
  · have hquiet : ¬ ∃ call ∈ r.calls, call.NotesWriter a := fun hnotes =>
      hne (h.notesWriter_iff.mp hnotes).1
    have hno : ¬ (x = ⟨.load, i, a⟩ ∧ r.response = .cacheMiss) := by
      rintro ⟨rfl, -⟩
      exact hne rfl
    rw [if_neg hquiet, if_neg hno, (h.fewer_of_ne hne).reads, hk, Nat.add_zero]

/-- **Along a run** a counter is the number of load misses since the last
`update_last_writer`, up to three. -/
theorem count_of_run (hn : cfg.numProcessors ≤ 16) (hv : cfg.Valid t)
    (hrun : cfg.run true t = .ok (c, rs)) :
    DirectoryLine.count (c.coherence.entries a).reads i = min 3 (missesSince i a rs) := by
  refine (run_induction (I := fun _ rs m =>
    DirectoryLine.count (m.entries a).reads i = min 3 (missesSince i a rs))
    tracks_start hv hrun ?_ ?_).2
  · rw [entries_start]
    exact DirectoryLine.count_zero
  · intro v x v' rs m pre post m' r hv' htracks hstepped hI
    rw [missesSince_snoc]
    exact hstepped.count_eq htracks hn (hv x (by simp [hv'])) hI

/-- **Who is pushed to**, from the reports: in the adaptive protocol a store
by `w` pushes exactly its own address, and exactly to the processors other
than `w` that missed it in at least two loads since the last call of
`update_last_writer` on it — unless the store itself makes this call,
and pushes to nobody. So a reader that stopped reading is pushed to until
the next call, which another processor's store makes, or the last writer's
own to an `INVALID` line. -/
theorem pushes_iff (hn : cfg.numProcessors ≤ 16) (hv : cfg.Valid (t ++ [⟨.store, w, a⟩]))
    (hrun : cfg.run true (t ++ [⟨.store, w, a⟩]) = .ok (c, rs ++ [r])) (i : ℕ) (b : Addr) :
    .push i b ∈ r.calls ↔ b = a ∧ i ≠ w ∧ i < cfg.numProcessors ∧
      .updateLastWriter w a ∉ r.calls ∧ 2 ≤ missesSince i a rs := by
  obtain ⟨c₀, rs₀, r₀, hrun₀, hstep, hrs⟩ := run_snoc_eq_ok.mp hrun
  obtain ⟨rfl, hr⟩ := List.append_inj' hrs rfl
  cases hr
  have hv₀ : cfg.Valid t := fun x hx => hv x (List.mem_append_left _ hx)
  have hw : w < cfg.numProcessors := hv ⟨.store, w, a⟩ (by simp)
  have ht : Tracks cfg.numProcessors true t c₀.coherence := (ensures_tracks hv₀).of_ok hrun₀
  obtain ⟨pre, post, hbooked⟩ := (ensures_booked cfg.numProcessors_le ht hw).of_ok hstep
  have h := hbooked.stepped
  have hadapt : c₀.coherence.rules.adaptive = true := by
    rw [ht.rules]
    rfl
  -- the counter the store tests is the history's
  have hqualified : i < cfg.numProcessors →
      (c₀.coherence.rules.qualified (found c₀.coherence pre ⟨.store, w, a⟩).reads i = true ↔
        2 ≤ missesSince i a rs) := fun hi => by
    have hcount := count_of_run (i := i) (a := a) hn hv₀ hrun₀
    have htwo : (c₀.coherence.entries a).reads &&& intShl64 1 (2 * i + 1) ≠ 0 ↔
        2 ≤ DirectoryLine.count (c₀.coherence.entries a).reads i :=
      DirectoryLine.and_mask_ne_zero_iff_count (by omega) (ht.packed hn a)
    rw [h.fewer_found.reads, ht.rules]
    refine bne_iff_ne.trans (htwo.trans ?_)
    rw [hcount]
    omega
  have hover : .updateLastWriter w a ∈ r.calls ↔
      (found c₀.coherence pre ⟨.store, w, a⟩).StartsOver c₀.coherence.rules w := by
    rw [h.updates]
    simp
  constructor
  · intro hpush
    obtain ⟨rfl, -, had, hs, hwriter, hprocs, hne, hq⟩ := hbooked.pushed i b hpush
    have hi := ht.mem_procs.mp hprocs
    refine ⟨rfl, hne, hi, fun hupdate => ?_, (hqualified hi).mp hq⟩
    rcases hover.mp hupdate with hinvalid | ⟨-, hwriter'⟩
    · exact hs hinvalid
    · exact hwriter' hwriter
  · rintro ⟨rfl, hne, hi, hupdate, hmisses⟩
    rw [hover] at hupdate
    simp only [Entry.StartsOver, hadapt, true_and, not_or, not_not] at hupdate
    exact h.pushes rfl i ⟨hadapt, hupdate.1, hupdate.2, ht.mem_procs.mpr hi, hne,
      (hqualified hi).mpr hmisses⟩

/-- A reader that qualifies and reads no more. -/
theorem pushes_iff_pair :
    ∃ c rs r, Config.pair.run true ([⟨.store, 0, 4⟩, ⟨.load, 1, 4⟩, ⟨.store, 0, 4⟩, ⟨.load, 1, 4⟩,
        ⟨.store, 0, 4⟩] ++ [⟨.store, 0, 4⟩]) = .ok (c, rs ++ [r]) ∧ 2 ≤ missesSince 1 4 rs ∧
      .push 1 4 ∈ r.calls := by
  have hrun : Ensures (fun _ => False) (fun s => 2 ≤ missesSince 1 4 s.2.dropLast ∧
      ∃ r ∈ s.2.getLast?, .updateLastWriter 0 4 ∉ r.calls)
      (Config.pair.run true ([⟨.store, 0, 4⟩, ⟨.load, 1, 4⟩, ⟨.store, 0, 4⟩, ⟨.load, 1, 4⟩,
        ⟨.store, 0, 4⟩] ++ [⟨.store, 0, 4⟩])) := by decide
  obtain ⟨⟨c, all⟩, hok, hmisses, r, hlast, hquiet⟩ := hrun.exists_ok
  have hall : all.dropLast ++ [r] = all := List.dropLast_append_getLast? r hlast
  rw [← hall] at hok
  exact ⟨c, _, r, hok, hmisses,
    (pushes_iff (by decide) (by decide) hok 1 4).mpr ⟨rfl, by decide, by decide, hquiet, hmisses⟩⟩

end AdaptiveMsi
