import AdaptiveMsi.Controller.Books
import AdaptiveMsi.Properties.Transparent
import AdaptiveMsi.Protocol.Prefetch
/-!
# What a push is worth

Where the caches do not overflow, a push does what a load by the pushed
processor would do right after the store, and nothing else: the adaptive
simulator is the baseline, told to prefetch.
-/

namespace AdaptiveMsi

open Machine Protocol DirMsi Controller

variable {cfg : Config} {c c' : Controller} {t u : List Access} {x : Access} {n : ℕ}
variable {rs rs' : List Report} {r : Report}
variable {m m' : DirMsi} {pre post : List (Event ℕ Addr)}
variable {R R' : Rules ℕ (BitVec 64)} {D D' : Addr → Entry ℕ (BitVec 64)}

/-- The loads that stand for the pushes of an access. -/
def Report.prefetches (r : Report) : List Access :=
  r.calls.filterMap fun
    | .push p a => some ⟨.load, p, a⟩
    | _ => none

/-- The accesses of a run, each with loads behind it in place of its
pushes. -/
def prefetched (rs : List Report) : List Access :=
  rs.flatMap fun r => r.access :: r.prefetches

/-- `b` is `r` in a run of the prefetched accesses: a report on the same
access and reports on the prefetches. A load is answered alike; a store
that misses in the adaptive protocol misses. -/
structure StandsFor (b : Report × List Report) (r : Report) : Prop where
  access : b.1.access = r.access
  prefetches : b.2.map Report.access = r.prefetches
  load : r.access.kind = .load → b.1.response = r.response
  store : r.response = .cacheMiss → b.1.response = .cacheMiss

/-! ## Prefetches -/

theorem prefetched_snoc :
    prefetched (rs ++ [r]) = prefetched rs ++ r.access :: r.prefetches := by
  simp [prefetched]

theorem mem_prefetches : x ∈ r.prefetches ↔ x.kind = .load ∧ .push x.pid x.addr ∈ r.calls := by
  rw [Report.prefetches, List.mem_filterMap]
  constructor
  · rintro ⟨call, hcall, hx⟩
    cases call with
    | push p a =>
      cases hx
      exact ⟨rfl, hcall⟩
    | invalidate p a | profileCacheEvict p a cost hops | updateLastWriter p a
    | evict p lines way => cases hx
  · obtain ⟨kind, p, a⟩ := x
    rintro ⟨rfl, hcall⟩
    exact ⟨_, hcall, rfl⟩

/-! ## One access -/

/-- With the same sharers, loads hit alike in both protocols, and a store
hits where it hits in the baseline. -/
theorem reply_of_sameSharers (h : SameSharers D D') (hR' : R'.adaptive = false) :
    (x.kind = .load → reply R' D' x = reply R D x) ∧
      (reply R D x = .cacheMiss → reply R' D' x = .cacheMiss) := by
  have hhits' : x.Hits R' (D' x.addr) ↔ x.pid ∈ (D x.addr).sharers := by
    rw [Access.Hits, ← h x.addr, Entry.StartsOver, hR']
    simp only [Bool.false_eq_true, false_and, or_false]
    tauto
  have hhits : x.pid ∈ (D x.addr).sharers → x.Hits R (D x.addr) := Or.inl
  simp only [reply, hhits']
  constructor
  · intro hk
    have hiff : x.Hits R (D x.addr) ↔ x.pid ∈ (D x.addr).sharers := by
      simp [Access.Hits, hk]
    simp only [hiff]
  · split_ifs <;> simp_all

/-- **Whom an access feeds**, from its report, where its event is all that
happens to the directory. -/
theorem Booked.feeds_iff (h : Booked m x pre post m' r)
    (hentries : m'.entries = x.event.apply m.rules m.entries) :
    (∀ y ∈ r.prefetches, y = ⟨.load, y.pid, x.addr⟩) ∧
      ∀ i, i ∈ r.prefetches.map Access.pid ↔ x.event.Feeds m.rules m.entries i := by
  have hstepped := h.stepped
  -- the fetch takes nothing from the store's readers
  have hself : x.kind = .store → ∀ i, (found m pre x).Pushes m.rules x.pid i ↔
      x.event.Feeds m.rules m.entries i := by
    intro hk i
    have hstore : (found m pre x).store m.rules x.pid =
        (m.entries x.addr).store m.rules x.pid := by
      have hfound := hstepped.entries_self
      rw [hentries, ← Access.addr_event, Event.apply_self] at hfound
      simpa [Access.event, hk, Event.onEntry, Event.addr] using hfound.symm
    simp only [Access.event, hk, Event.Feeds]
    rw [Entry.pushes_iff_mem_store, Entry.pushes_iff_mem_store, hstore]
  refine ⟨fun y hy => ?_, fun i => ⟨fun hi => ?_, fun hi => ?_⟩⟩
  · obtain ⟨hk, hpush⟩ := mem_prefetches.mp hy
    obtain ⟨ha, -⟩ := h.pushed _ _ hpush
    rw [← hk, ← ha]
  · obtain ⟨y, hy, rfl⟩ := List.mem_map.mp hi
    obtain ⟨-, hpush⟩ := mem_prefetches.mp hy
    obtain ⟨-, hk, hp⟩ := h.pushed _ _ hpush
    exact (hself hk _).mp hp
  · cases hk : x.kind with
    | load =>
      simp only [Access.event, hk, Event.Feeds] at hi
    | store =>
      have hpush := hstepped.pushes hk i ((hself hk i).mpr hi)
      exact List.mem_map.mpr ⟨⟨.load, i, x.addr⟩, mem_prefetches.mpr ⟨rfl, hpush⟩, rfl⟩

/-- The events of an access and its prefetches. -/
theorem map_event_cons_prefetches (h : ∀ y ∈ r.prefetches, y = ⟨.load, y.pid, x.addr⟩) :
    (x :: r.prefetches).map Access.event = x.event.withReads (r.prefetches.map Access.pid) := by
  rw [List.map_cons, Event.withReads, List.map_map]
  congr 1
  refine List.map_congr_left fun y hy => ?_
  rw [h y hy, Access.addr_event]
  rfl

/-! ## Runs -/

/-- Whatever reports on the prefetched accesses as the baseline alone does
stands for `rs`, report by report. -/
def Replaceable (n : ℕ) (rs : List Report) : Prop :=
  ∀ rs' : List Report, rs'.map Report.access = prefetched rs →
    rs'.map Report.response = replies (rules n false) untouched (prefetched rs) →
      ∃ bs : List (Report × List Report),
        rs' = (bs.flatMap fun b => b.1 :: b.2) ∧ List.Forall₂ StandsFor bs rs

theorem replaceable_nil : Replaceable n [] := fun _ haccess _ =>
  ⟨[], List.map_eq_nil_iff.mp haccess, .nil⟩

theorem Replaceable.snoc (h : Replaceable n rs)
    (hsame : SameSharers D (afterwards (rules n false) (prefetched rs)))
    (hresponse : r.response = reply (rules n true) D r.access) : Replaceable n (rs ++ [r]) := by
  intro rs' haccess hreplies
  rw [prefetched_snoc] at haccess hreplies
  obtain ⟨old, new, rfl, hold, hnew⟩ := List.map_eq_append_iff.mp haccess
  obtain ⟨b, news, rfl, hb, hnews⟩ := List.map_eq_cons_iff.mp hnew
  -- the responses split where the accesses do
  rw [List.map_append, replies_append] at hreplies
  obtain ⟨holds, hsecond⟩ := List.append_inj hreplies (by
    rw [List.length_map, length_replies, ← hold, List.length_map])
  rw [List.map_cons, replies] at hsecond
  obtain ⟨hanswer, -⟩ := List.cons.inj hsecond
  obtain ⟨bs, rfl, hbs⟩ := h old hold holds
  obtain ⟨hload, hstore⟩ := reply_of_sameSharers (x := r.access) (R := rules n true) hsame
    (rfl : (rules n false).adaptive = false)
  have hlast : StandsFor (b, news) r := ⟨hb, hnews,
    fun hk => hanswer.trans ((hload hk).trans hresponse.symm),
    fun hmiss => hanswer.trans (hstore (hresponse.symm.trans hmiss))⟩
  exact ⟨bs ++ [(b, news)], by simp, List.rel_append hbs (.cons hlast .nil)⟩

/-- **A run of the adaptive simulator, as far as it got**, beside the
baseline on its accesses with prefetches. -/
structure Replaced (cfg : Config) (t : List Access) (rs : List Report) (c : Controller) :
    Prop where
  within : Within cfg true t c
  repeats : ∀ y ∈ prefetched rs, ∃ z ∈ t, z.pid = y.pid ∧ z.addr = y.addr
  same : SameSharers c.coherence.entries
    (afterwards (rules cfg.numProcessors false) (prefetched rs))
  replaceable : Replaceable cfg.numProcessors rs

theorem replaced_start : Replaced cfg [] [] (cfg.start true) where
  within := within_start
  repeats y hy := absurd hy (List.not_mem_nil)
  same a := by
    rw [entries_start]
    rfl
  replaceable := replaceable_nil

/-- **One access**, and its prefetches. -/
theorem Replaced.step (h : Replaced cfg t rs c) (hgeo : 2 ≤ cfg.numSets * cfg.lineSize)
    (hn : cfg.numProcessors ≤ 16) (hx : x.pid < cfg.numProcessors) (hfits : cfg.Fits (t ++ [x]))
    (hstep : c.step x = .ok (c', r)) : Replaced cfg (t ++ [x]) (rs ++ [r]) c' := by
  have ht := h.within.tracks
  obtain ⟨hwithin, hresponse⟩ := h.within.step hgeo hn hx hfits hstep
  obtain ⟨pre, post, hbooked⟩ := (ensures_booked cfg.numProcessors_le ht hx).of_ok hstep
  have haccess : r.access = x := hbooked.stepped.access
  have hentries : c'.coherence.entries = x.event.apply c.coherence.rules c.coherence.entries := by
    rw [hwithin.entries, afterwards_snoc, ht.rules, h.within.entries]
  obtain ⟨hloads, hfeeds⟩ := hbooked.feeds_iff hentries
  refine ⟨hwithin, fun y hy => ?_, ?_, ?_⟩
  · rw [prefetched_snoc] at hy
    rcases List.mem_append.mp hy with hy | hy
    · obtain ⟨z, hz, hrest⟩ := h.repeats y hy
      exact ⟨z, List.mem_append_left _ hz, hrest⟩
    · rcases List.mem_cons.mp hy with rfl | hy
      · exact ⟨x, by simp, by rw [haccess], by rw [haccess]⟩
      · -- only who missed before is pushed to
        obtain ⟨-, hpush⟩ := mem_prefetches.mp hy
        obtain ⟨ha, -, -, -, -, hproc, -, hq⟩ := hbooked.pushed _ _ hpush
        rw [hbooked.stepped.fewer_found.reads] at hq
        obtain ⟨z, hz, hpid, haddr⟩ :=
          h.within.accessed_of_qualified hn (ht.mem_procs.mp hproc) hq
        exact ⟨z, List.mem_append_left _ hz, hpid, haddr.trans ha.symm⟩
  · rw [prefetched_snoc, afterwards_append, haccess, map_event_cons_prefetches hloads, hentries]
    exact h.same.apply rfl hfeeds
  · refine h.replaceable.snoc h.same ?_
    rw [hresponse, haccess, h.within.entries]

/-- **Pushes are prefetches.** Let there be at most `16` processors, of which
none accesses more lines of a set than the set has ways, and give the
baseline the accesses of an adaptive run, each followed by loads by the
processors it pushed to. The baseline then ends with the same lines in
every cache and the same sharers of every address, and answers in step
with the adaptive run: the loads of the program hit and miss alike, and of
its stores the baseline misses at least as many. -/
theorem pushes_are_prefetches (hgeo : 2 ≤ cfg.numSets * cfg.lineSize)
    (hn : cfg.numProcessors ≤ 16) (hv : cfg.Valid t) (hfits : cfg.Fits t)
    (hrun : cfg.run true t = .ok (c, rs)) (hrun' : cfg.run false (prefetched rs) = .ok (c', rs')) :
    (∀ p i tag, (c'.cache p i).Holds tag ↔ (c.cache p i).Holds tag) ∧
      (∀ a, (c'.coherence.entries a).sharers = (c.coherence.entries a).sharers) ∧
      ∃ bs : List (Report × List Report),
        rs' = (bs.flatMap fun b => b.1 :: b.2) ∧ List.Forall₂ StandsFor bs rs := by
  have h : cfg.Fits t → Replaced cfg t rs c := by
    refine Config.induction_of_run (I := fun u rs c => cfg.Fits u → Replaced cfg u rs c) hv hrun
      (fun _ => replaced_start) fun u x v rs c c' r _ hx _ _ hI hstep hfits' => ?_
    exact (hI hfits'.append).step hgeo hn hx hfits' hstep
  obtain ⟨hwithin, hrepeats, hsame, hreplaceable⟩ := h hfits
  have hv' : cfg.Valid (prefetched rs) := fun y hy => by
    obtain ⟨z, hz, hpid, -⟩ := hrepeats y hy
    exact hpid ▸ hv z hz
  have hfits' : cfg.Fits (prefetched rs) := fun p i =>
    (Finset.card_le_card (Config.accessed_subset hrepeats)).trans (hfits p i)
  obtain ⟨hwithin', haccess', hresponse'⟩ := within_of_run hgeo hn hv' hfits' hrun'
  have hasked : ∀ y ∈ t, ∃ z ∈ prefetched rs, z.pid = y.pid ∧ z.addr = y.addr := fun y hy => by
    rw [← (within_of_run hgeo hn hv hfits hrun).2.1] at hy
    obtain ⟨r, hr, rfl⟩ := List.mem_map.mp hy
    exact ⟨r.access, List.mem_flatMap.mpr ⟨r, hr, List.mem_cons_self⟩, rfl, rfl⟩
  refine ⟨fun p i tag => ?_, fun a => ?_, hreplaceable rs' haccess' hresponse'⟩
  · have heq : cfg.accessed (prefetched rs) p i = cfg.accessed t p i :=
      (Config.accessed_subset hrepeats).antisymm (Config.accessed_subset hasked)
    rw [(hwithin'.stocked.stocks p i).holds_iff, (hwithin.stocked.stocks p i).holds_iff, heq]
  · rw [hwithin'.entries]
    exact (hsame a).symm

/-- A consumer that misses twice and is fed twice. -/
theorem pushes_are_prefetches_pair :
    let t : List Access := [⟨.store, 0, 4⟩, ⟨.load, 1, 4⟩, ⟨.store, 0, 4⟩, ⟨.load, 1, 4⟩,
      ⟨.store, 0, 4⟩, ⟨.store, 0, 4⟩]
    let t' : List Access := [⟨.store, 0, 4⟩, ⟨.load, 1, 4⟩, ⟨.store, 0, 4⟩, ⟨.load, 1, 4⟩,
      ⟨.store, 0, 4⟩, ⟨.load, 1, 4⟩, ⟨.store, 0, 4⟩, ⟨.load, 1, 4⟩]
    ∃ c rs c' rs', Config.pair.run true t = .ok (c, rs) ∧ prefetched rs = t' ∧
      Config.pair.run false t' = .ok (c', rs') ∧
      ∀ a, (c'.coherence.entries a).sharers = (c.coherence.entries a).sharers := by
  intro t t'
  obtain ⟨⟨c, rs⟩, hok, hlist⟩ := Ensures.exists_ok (P := fun s => prefetched s.2 = t')
    (by decide +kernel : Ensures _ _ (Config.pair.run true t))
  obtain ⟨⟨c', rs'⟩, hok', -⟩ := Ensures.exists_ok (P := fun _ => True)
    (by decide +kernel : Ensures _ _ (Config.pair.run false t'))
  obtain ⟨-, hsharers, -⟩ := pushes_are_prefetches (by decide) (by decide) (by decide)
    (by decide) hok (hlist ▸ hok')
  exact ⟨c, rs, c', rs', hok, hlist, hok', hsharers⟩

end AdaptiveMsi
