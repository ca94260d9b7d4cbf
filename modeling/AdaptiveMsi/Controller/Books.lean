import AdaptiveMsi.Controller.Ledger
import AdaptiveMsi.Protocol.WriteBacks
/-!
# The books of an access

The calls an access records are its books: its write-backs are exactly the
evictions of owners among its events, in order, the profiler is charged
for these and for the access itself, a push is recorded for a processor
that the store pushes to and for no other, and so is a copy given up for
an eviction, unless the access gives the copy back. `Booked` adds this
to what `Stepped` says.
-/

namespace AdaptiveMsi

open Machine Protocol

namespace Call

/-- The write-back the call charges. -/
def writeBack? : Call → Option (ℕ × Addr)
  | profileCacheEvict pid addr _ _ => some (pid, addr)
  | invalidate _ _ | updateLastWriter _ _ | push _ _ | evict _ _ _ => none

/-- What the call does to the profile. -/
def post (p : Profile) : Call → Profile
  | profileCacheEvict pid addr cost hops => p.profileCacheEvict pid addr cost hops
  | invalidate _ _ | updateLastWriter _ _ | push _ _ | evict _ _ _ => p

end Call

namespace DirMsi

variable {m m' m'' : DirMsi} {pid i : ℕ} {a b : Addr} {d : DirectoryLine}
variable {xs ys : List (Event ℕ Addr)} {log log' : List Call}

/-- **The log `log` keeps the books** of the events `xs`. -/
structure Books (xs : List (Event ℕ Addr)) (log : List Call) (m m' : DirMsi) : Prop where
  simulates : Simulates xs log m m'
  backs : log.filterMap Call.writeBack? = writeBacks m.rules m.entries xs
  posts : m'.profiles = log.foldl Call.post m.profiles
  evicts : ∀ i b, .invalidate i b ∈ log → .evict i b ∈ xs

theorem Books.refl : Books [] [] m m := ⟨.refl, rfl, rfl, by simp⟩

theorem Books.trans (h : Books xs log m m') (h' : Books ys log' m' m'') :
    Books (xs ++ ys) (log ++ log') m m'' where
  simulates := h.simulates.trans h'.simulates
  backs := by
    rw [List.filterMap_append, h.backs, h'.backs, writeBacks_append, h.simulates.rules,
      h.simulates.entries]
  posts := by rw [h'.posts, h.posts, List.foldl_append]
  evicts i b hi := by
    rcases List.mem_append.mp hi with hi | hi
    · exact List.mem_append_left _ (h.evicts i b hi)
    · exact List.mem_append_right _ (h'.evicts i b hi)

/-- A call that charges nothing and evicts nothing. -/
theorem books_record {call : Call} (hcall : call.writeBack? = none)
    (hevict : ∀ i b, call ≠ .invalidate i b) : Books [] [call] m (m.record call) where
  simulates := .record
  backs := by simp [hcall]
  posts := by cases call <;> first | rfl | cases hcall
  evicts i b hi := absurd (List.mem_singleton.mp hi).symm (hevict i b)

/-- **An eviction is booked if the owner makes it.** -/
theorem books_invalidate (h : pid < 32) :
    Books [.evict pid a] (.invalidate pid a :: m.evictCalls pid a) m (m.invalidate pid a) where
  simulates := simulates_invalidate h
  backs := by
    have howns : m.Owns pid a ↔ (m.entries a).Owns m.rules pid := Iff.rfl
    rw [writeBacks_cons, Event.writeBack?, evictCalls]
    by_cases ho : m.Owns pid a
    · rw [if_pos ho, if_pos (howns.mp ho)]
      rfl
    · rw [if_neg ho, if_neg fun h => ho (howns.mpr h)]
      rfl
  posts := by
    rw [invalidate_profiles, evictCalls]
    by_cases ho : m.Owns pid a
    · rw [if_pos ((ownership_iff h).mpr ho), if_pos ho]
      rfl
    · rw [if_neg fun hi => ho ((ownership_iff h).mp hi), if_neg ho]
      rfl
  evicts i b hi := by
    rcases List.mem_cons.mp hi with hi | hi
    · cases hi
      exact List.mem_singleton_self _
    · rw [evictCalls] at hi
      split at hi
      · cases List.mem_singleton.mp hi
      · cases hi

end DirMsi

open DirMsi

namespace CacheSet

variable {s : CacheSet} {m : DirMsi} {pid : ℕ} {tag : BitVec 64} {addr : Addr} {replace : Bool}

theorem books_evict (h : pid < 32) :
    ∃ xs log, Books xs log m (s.evict pid m).2 ∧ Spills pid xs log := by
  simp only [evict]
  split
  · refine ⟨_, _, (books_record rfl (by simp)).trans (books_invalidate h), ?_, ?_⟩
    · simp
    · simp only [DirMsi.evictCalls]
      split <;> simp [Call.Evicting]
  · exact ⟨_, _, books_record rfl (by simp), by simp, by simp [Call.Evicting]⟩

theorem ensures_books (h : pid < 32) :
    Ensures (· = .lru) (fun r => ∃ xs log, Books xs log m r.2 ∧ Spills pid xs log)
      (s.fetchSingleLine pid tag addr m replace) := by
  refine ensures_fetch.bind fun ⟨s', status⟩ _ _ => ?_
  cases status with
  | uncached => exact books_evict h
  | cached => exact ⟨[], [], .refl, by simp, by simp⟩

end CacheSet

namespace Controller

variable {c c' : Controller} {m m₀ m₁ m₂ : DirMsi} {pid home cost hops i : ℕ} {a : Addr}
variable {replace : Bool} {done : List ℕ} {xs ys : List (Event ℕ Addr)} {log log' : List Call}
variable {last : Option ℕ} {charge : Charge}

theorem ensures_books (h : pid < 32) :
    Ensures (· = .lru)
      (fun c' => ∃ xs log, Books xs log c.coherence c'.coherence ∧ Spills pid xs log)
      (c.fetchCacheLine pid a replace) :=
  (CacheSet.ensures_books h).bind fun _ _ hr => hr

/-! ## The push loop -/

/-- **The books of the push loop** of `pid` at `a`, entered at `m₀`. -/
structure LoopBooks (m₀ : DirMsi) (pid : ℕ) (a : Addr) (xs : List (Event ℕ Addr))
    (log : List Call) (m : DirMsi) : Prop where
  backs : log.filterMap Call.writeBack? = writeBacks m₀.rules m₀.entries xs
  posts : m.profiles = log.foldl Call.post m₀.profiles
  pushed : ∀ i b, .push i b ∈ log → b = a ∧ i ≠ pid ∧ i < m₀.numProcessors ∧
    m₀.rules.qualified (m₀.entries a).reads i = true
  evicts : ∀ i b, .invalidate i b ∈ log → .evict i b ∈ xs ∨ b = a ∧ (i = pid ∨ .push i a ∈ log)

/-- A line is stored back. -/
theorem LoopBooks.setLine {d : DirectoryLine} (h : LoopBooks m₀ pid a xs log m) :
    LoopBooks m₀ pid a xs log (m.setLine a d) :=
  ⟨h.backs, h.posts, h.pushed, h.evicts⟩

/-- **A push is booked**, and what its fetch writes back is of other lines: the
reader does not answer for this one. -/
theorem LoopBooks.push (h : LoopBooks m₀ pid a xs log m) (hpush : Pushing m₀ pid a done xs log m)
    (hw : Writes m₀ pid a) (hi : i < m₀.numProcessors) (hne : i ≠ pid)
    (hq : m₀.rules.qualified (m₀.entries a).reads i = true)
    (hbooks : Books ys log' (m.record (.push i a)) m₁) (hspill : Spills i ys log') :
    LoopBooks m₀ pid a (xs ++ ys.filter (·.addr ≠ a)) (log ++ (.push i a :: log')) m₁ where
  backs := by
    have hquiet : ∀ e : Entry ℕ (BitVec 64), e.writer = some pid →
        ¬ e.Owns m₀.rules i ∧ (e.evict m₀.rules i).writer = some pid := by
      refine fun e he => ⟨fun ho => ?_, he⟩
      have hwriter := ho.2.2 hw.detector
      rw [he, Option.some.injEq] at hwriter
      exact hne hwriter.symm
    have hwriter : (m.entries a).writer = some pid := hpush.writer.trans hw.writer
    have hevict : ∀ x ∈ ys, ∃ b, x = .evict i b := fun x hx =>
      (hspill.evicts x hx).imp fun _ hb => hb.1
    have hfilter := writeBacks_filter_ne hquiet (fun b hb => (hpush.elsewhere b hb).symm) hwriter
      hevict
    have hlog' : log'.filterMap Call.writeBack? = writeBacks m.rules m.entries ys := hbooks.backs
    have hnone : (Call.push i a).writeBack? = none := rfl
    rw [List.filterMap_append, List.filterMap_cons_none hnone, h.backs, hlog', hpush.rules,
      writeBacks_append, hfilter]
  posts := by
    have hposts : m₁.profiles = log'.foldl Call.post m.profiles := hbooks.posts
    rw [hposts, h.posts, List.foldl_append, List.foldl_cons]
    rfl
  pushed j b hj := by
    rcases List.mem_append.mp hj with hj | hj
    · exact h.pushed j b hj
    rcases List.mem_cons.mp hj with hj | hj
    · cases hj
      exact ⟨rfl, hne, hi, hq⟩
    · exact (hspill.quiet _ hj).elim
  evicts j b hj := by
    rcases List.mem_append.mp hj with hj | hj
    · refine (h.evicts j b hj).imp (List.mem_append_left _) fun ⟨hb, hwho⟩ => ⟨hb, ?_⟩
      exact hwho.imp_right (List.mem_append_left _)
    · -- what the reader's own fetch gives up of this line comes back with the push
      have hj' : .invalidate j b ∈ log' := (List.mem_cons.mp hj).resolve_left (by simp)
      have hevict := hbooks.evicts j b hj'
      obtain ⟨b', heq, -⟩ := hspill.evicts _ hevict
      cases heq
      rcases eq_or_ne b a with rfl | hb
      · exact Or.inr ⟨rfl, Or.inr (by simp)⟩
      · exact Or.inl (List.mem_append_right _ (List.mem_filter.mpr ⟨hevict, decide_eq_true hb⟩))

/-- **One round of the loop.** -/
theorem ensures_pushBody_books (hw : Writes m₀ pid a) (hi : i < m₀.numProcessors)
    (h : Pushing m₀ pid a done xs log c.coherence)
    (hbooks : LoopBooks m₀ pid a xs log c.coherence) :
    Ensures (· = .lru) (fun st => ∃ xs log, Pushing m₀ pid a (done ++ [i]) xs log st.1.coherence ∧
      LoopBooks m₀ pid a xs log st.1.coherence) (pushBody pid home a (c, cost, hops) i) := by
  have hle := hw.numProcessors
  have h32 : i < 32 := by omega
  have hqr : (c.line a).qualifiedReader i = _ := h.qualified
  simp only [pushBody]
  by_cases hne : i = pid
  · rw [if_neg (not_not_intro hne)]
    exact ⟨xs, log, h.skip (Or.inl hne), hbooks⟩
  rw [if_pos hne]
  by_cases hq : (c.line a).qualifiedReader i = true
  · rw [if_pos hq]
    refine (ensures_books h32).bind fun c' _ hc' => ?_
    obtain ⟨ys, log', hfetch, hspill⟩ := hc'
    have hq' : m₀.rules.qualified (m₀.entries a).reads i = true := hqr ▸ hq
    have hnext := hbooks.push h hw hi hne hq' hfetch hspill
    have hpush : ∀ {m₂}, Adds i a c'.coherence m₂ → Pushing m₀ pid a (done ++ [i])
        (xs ++ ys.filter (·.addr ≠ a)) (log ++ (.push i a :: log')) m₂ := fun hadds =>
      h.push hi hne hw.detector hw.writer hq' hfetch.simulates hspill hadds
    split
    · exact ⟨_, _, hpush (adds_setSharer h32), hnext.setLine⟩
    · rename_i hset
      rw [Bool.not_eq_true', Bool.not_eq_false] at hset
      exact ⟨_, _, hpush (adds_of_isSet h32 hset), hnext⟩
  · rw [if_neg hq]
    by_cases hset : (c.line a).isSet i = true
    · rw [if_pos hset]
      exact ⟨xs, log, h.clear h32 hne (hqr ▸ hq), hbooks.setLine⟩
    · rw [if_neg hset]
      exact ⟨xs, log, h.skip (Or.inr ⟨hqr ▸ hq, fun hmem =>
        hset ((DirectoryLine.isSet_iff h32).mpr hmem)⟩), hbooks⟩

/-- **The whole loop.** -/
theorem ensures_pushLoop_books (home : ℕ) (hw : Writes m₀ pid a) (st : Controller × ℕ × ℕ)
    (h : Pushing m₀ pid a [] xs log st.1.coherence)
    (hbooks : LoopBooks m₀ pid a xs log st.1.coherence) :
    Ensures (· = .lru) (fun st => ∃ xs log,
        Pushing m₀ pid a (List.range m₀.numProcessors) xs log st.1.coherence ∧
          LoopBooks m₀ pid a xs log st.1.coherence)
      ((List.range m₀.numProcessors).foldlM (pushBody pid home a) st) := by
  refine ensures_foldlM (I := fun done (st : Controller × ℕ × ℕ) => ∃ xs log,
    Pushing m₀ pid a done xs log st.1.coherence ∧ LoopBooks m₀ pid a xs log st.1.coherence)
    ⟨xs, log, h, hbooks⟩ ?_
  rintro u i v ⟨c, cost, hops⟩ hl ⟨xs', log', h', hbooks'⟩
  exact ensures_pushBody_books hw (lt_of_range_eq hl) h' hbooks'

/-- The second line fetch enters the loop with its books. -/
theorem ensures_refetch_books (hw : Writes c.coherence pid a)
    (hinv : (c.coherence.entries a).state = .invalid ↔ (c.coherence.entries a).sharers = ∅) :
    Ensures (· = .lru)
      (fun r => (r.2.2 = .cacheHit ↔ pid ∈ (c.coherence.entries a).sharers) ∧
        ∃ xs log, Pushing c.coherence pid a [] xs log r.1.coherence ∧
          LoopBooks c.coherence pid a xs log r.1.coherence)
      (c.refetch pid a cost) := by
  have hlt := hw.proc
  have hle := hw.numProcessors
  have h32 : pid < 32 := by omega
  have hset : (c.line a).isSet pid = true ↔ pid ∈ (c.coherence.entries a).sharers :=
    DirectoryLine.isSet_iff h32
  by_cases hmem : pid ∈ (c.coherence.entries a).sharers
  · rw [refetch_of_mem h32 cost hmem]
    exact ⟨by simpa using hmem, [], [], pushing_enter hmem, rfl, rfl, by simp, by simp⟩
  · rw [refetch, if_pos (by simpa using fun hs => hmem (hset.mp hs))]
    refine (ensures_books h32).bind fun c' _ hc' => ?_
    obtain ⟨ys, log', hfetch, hspill⟩ := hc'
    refine ⟨by simpa using hmem, _, log',
      pushing_refetch hw hinv hmem hfetch.simulates hspill (adds_setSharer h32), ?_, hfetch.posts,
      fun i b hi => (hspill.quiet _ hi).elim, fun i b hi => ?_⟩
    · -- the processor has no copy of this line to give up
      have hquiet : ∀ e : Entry ℕ (BitVec 64), pid ∉ e.sharers →
          ¬ e.Owns c.coherence.rules pid ∧ pid ∉ (e.evict c.coherence.rules pid).sharers :=
        fun e he => ⟨fun ho => he ho.1, fun hi => he (Finset.mem_of_mem_erase hi)⟩
      rw [hfetch.backs]
      exact (writeBacks_filter_ne hquiet (fun b _ => rfl) hmem fun x hx =>
        (hspill.evicts x hx).imp fun _ hb => hb.1).symm
    · have hevict := hfetch.evicts i b hi
      obtain ⟨b', heq, -⟩ := hspill.evicts _ hevict
      cases heq
      rcases eq_or_ne b a with rfl | hb
      · exact Or.inr ⟨rfl, Or.inl rfl⟩
      · exact Or.inl (List.mem_filter.mpr ⟨hevict, decide_eq_true hb⟩)

/-! ## The handlers -/

/-- **The books of a handler** for the access `x`, which performs the events
`x.event :: xs`. -/
structure HandlerBooks (x : Access) (charge : Charge) (xs : List (Event ℕ Addr)) (log : List Call)
    (m m' : DirMsi) : Prop where
  backs : log.filterMap Call.writeBack? = writeBacks m.rules m.entries (x.event :: xs)
  posts : m'.profiles = Bill.post (log.foldl Call.post m.profiles) (.access x charge)
  pushed : ∀ i b, .push i b ∈ log → b = x.addr ∧ x.kind = .store ∧
    (m.entries x.addr).Pushes m.rules x.pid i
  evicts : ∀ i b, .invalidate i b ∈ log →
    .evict i b ∈ xs ∨ x.kind = .store ∧ b = x.addr ∧ (i = x.pid ∨ .push i x.addr ∈ log)

/-- A store that calls no cache books itself. -/
theorem handlerBooks_of_quiet {m' : DirMsi} (hbacks : log.filterMap Call.writeBack? = [])
    (hposts : m'.profiles = m.profiles) (hlog : log.foldl Call.post m.profiles = m.profiles)
    (hpush : ∀ i b, .push i b ∉ log) (hevict : ∀ i b, .invalidate i b ∉ log) :
    HandlerBooks ⟨.store, pid, a⟩ charge [] log m (m'.profileStore pid a charge) where
  backs := hbacks
  posts := by
    rw [hlog, ← hposts]
    rfl
  pushed i b hi := absurd hi (hpush i b)
  evicts i b hi := absurd hi (hevict i b)

/-- The loop's books, closed by the store's own bill. -/
theorem LoopBooks.handlerBooks {d : DirectoryLine} (hw : Writes m₀ pid a)
    (hpush : Pushing m₀ pid a done xs log m) (h : LoopBooks m₀ pid a xs log m) :
    HandlerBooks ⟨.store, pid, a⟩ charge xs log m₀ ((m.setLine a d).profileStore pid a charge) where
  backs := by
    have hoff : ∀ b ≠ a, (Event.store pid a).apply m₀.rules m₀.entries b = m₀.entries b :=
      fun b hb => Event.apply_of_ne hb
    have hcons : writeBacks m₀.rules m₀.entries (Event.store pid a :: xs) =
        writeBacks m₀.rules ((Event.store pid a).apply m₀.rules m₀.entries) xs := rfl
    rw [h.backs]
    change _ = writeBacks m₀.rules m₀.entries (Event.store pid a :: xs)
    rw [hcons, writeBacks_congr_off hoff fun x hx => (hpush.evicts x hx).1]
  posts := by
    rw [← h.posts]
    rfl
  pushed i b hi := by
    obtain ⟨rfl, hne, hlt, hq⟩ := h.pushed i b hi
    exact ⟨rfl, rfl, hw.detector, hw.state, hw.writer, mem_procs.mpr hlt, hne, hq⟩
  evicts i b hi := (h.evicts i b hi).imp_right fun hback => ⟨rfl, hback⟩

/-- **`process_write` keeps its books.** -/
theorem ensures_processWrite_books (hn : c.coherence.numProcessors ≤ 32)
    (hp : pid < c.coherence.numProcessors)
    (hinv : (c.coherence.entries a).Inv c.coherence.rules last) :
    Ensures (· = .lru)
      (fun r => ∃ xs log, Stores pid a xs log c.coherence r.1.coherence r.2.response ∧
        HandlerBooks ⟨.store, pid, a⟩ r.2 xs log c.coherence r.1.coherence)
      (c.processWrite pid a) := by
  have h32 : pid < 32 := by omega
  by_cases hs : (c.coherence.entries a).state = .invalid
  · rw [processWrite_of_invalid hs]
    refine ⟨_, _, (stores_of_startsOver hinv (Or.inl hs) (entry_filledLine h32 hs hinv)
      (by simp [writeMissCharge, hs])).profileStore, ?_⟩
    exact handlerBooks_of_quiet rfl rfl rfl (by simp) (by simp)
  cases hd : c.coherence.detector with
  | false =>
    obtain ⟨m', charge, hf, hm', hn', hclaim, hhit⟩ := exists_fetch_claim
      (c.coherence.getHomeNode a) 0 h32 hn hinv hs
    rw [processWrite_of_baseline hd hs hf hm' hn', hclaim]
    exact ⟨_, [], (stores_claim h32 hd hs hhit).profileStore,
      handlerBooks_of_quiet rfl rfl rfl (by simp) (by simp)⟩
  | true =>
    by_cases hw : (c.coherence.entries a).writer = some pid
    · have hwrites : Writes c.coherence pid a := ⟨hn, hd, hp, hw, hs⟩
      rw [processWrite_of_callsBack h32 ⟨hd, hs, hw⟩]
      refine (ensures_refetch_books hwrites hinv.invalid_iff).bind ?_
      rintro ⟨c', cost, response⟩ - ⟨hhit, xs, log, hpush, hbooks⟩
      have hloop := ensures_pushLoop_books (c.coherence.getHomeNode a) hwrites
        (c', cost, (getDirectoryCost pid (c.coherence.getHomeNode a) 0).2) hpush hbooks
      rw [← hpush.numProcessors] at hloop
      refine hloop.bind ?_
      rintro ⟨c'', cost', hops'⟩ - ⟨xs', log', hpush', hbooks'⟩
      rw [hpush.numProcessors] at hpush'
      exact ⟨_, _, (hpush'.stores hwrites hinv hhit).profileStore,
        hbooks'.handlerBooks hwrites hpush'⟩
    · have hover : (c.coherence.entries a).StartsOver c.coherence.rules pid := Or.inr ⟨hd, hw⟩
      have hw' : ¬ (c.line a).isLastWriter pid = true := fun h =>
        hw ((DirectoryLine.writer_eq_some h32).mpr h)
      rw [processWrite_of_detector hd hs, pushAndInvalidate_of_handoff h32 hn hs hw', noted_claim]
      refine ⟨_, _, (stores_of_startsOver hinv hover (entry_handedLine h32 hover)
        (by simp [hs])).profileStore, ?_⟩
      exact handlerBooks_of_quiet rfl rfl rfl (by simp) (by simp)

/-- A read charges itself and nothing else. -/
theorem processRead_profiles (hn : m.numProcessors ≤ 32) (hp : pid < m.numProcessors)
    (hinv : (m.entries a).Inv m.rules last) (h : m.processRead pid a = .ok (m₁, charge)) :
    m₁.profiles = Bill.post m.profiles (.access ⟨.load, pid, a⟩ charge) := by
  have h32 : pid < 32 := by omega
  have h64 : pid < 64 := by omega
  by_cases hmem : pid ∈ (m.directory a).sharers
  · have hs := ne_invalid_of_mem hinv hmem
    rw [processRead_of_hit hs rfl (fetch_of_mem _ _ h32 hs hmem)] at h
    cases h
    rfl
  · by_cases hs : (m.directory a).state = .invalid
    · rw [processRead_of_invalid h64 hs] at h
      cases h
      rfl
    · obtain ⟨cost, hops', hf⟩ := fetch_of_not_mem (m.getHomeNode a) 0 h32 hn hinv hs hmem
      rw [processRead_of_miss h64 hs rfl hf] at h
      cases h
      rfl

theorem handlerBooks_processRead (hn : m.numProcessors ≤ 32) (hp : pid < m.numProcessors)
    (hinv : (m.entries a).Inv m.rules last) (h : m.processRead pid a = .ok (m₁, charge)) :
    HandlerBooks ⟨.load, pid, a⟩ charge [] [] m m₁ where
  backs := rfl
  posts := processRead_profiles hn hp hinv h
  pushed := by simp
  evicts := by simp

end Controller

/-! ## One access -/

variable {n : ℕ} {detector : Bool} {t : List Access} {x : Access} {r : Report} {c : Controller}
variable {m m' : DirMsi} {pre post : List (Event ℕ Addr)}

/-- **What one access does**, with its books. -/
structure Booked (m : DirMsi) (x : Access) (pre post : List (Event ℕ Addr)) (m' : DirMsi)
    (r : Report) : Prop where
  stepped : Stepped m x pre post m' r
  backs : r.calls.filterMap Call.writeBack? = writeBacks m.rules m.entries (pre ++ x.event :: post)
  posts : m'.profiles = Bill.post (r.calls.foldl Call.post m.profiles) (.access x r.charge)
  pushed : ∀ i b, .push i b ∈ r.calls → b = x.addr ∧ x.kind = .store ∧
    (found m pre x).Pushes m.rules x.pid i
  evicts : ∀ i b, .invalidate i b ∈ r.calls → .evict i b ∈ pre ∨ .evict i b ∈ post ∨
    x.kind = .store ∧ b = x.addr ∧ (i = x.pid ∨ .push i x.addr ∈ r.calls)

/-- The line fetch of an access, with its books. -/
theorem ensures_fetched_books (hn : n ≤ 32) (ht : Tracks n detector t c.coherence)
    (hx : x.pid < n) :
    Ensures (· = .lru) (fun c₁ => ∃ pre calls,
        Fetched n detector t x c.coherence pre calls c₁.coherence ∧
          Books pre calls { c.coherence with calls := [] } c₁.coherence)
      (c.clearCalls.fetchCacheLine x.pid x.addr true) := by
  have h32 : x.pid < 32 := by omega
  refine (Controller.ensures_books h32).mono ?_
  rintro c₁ - ⟨pre, calls, hbooks, hspill⟩
  have hsim := hbooks.simulates
  have hpre : ∀ y ∈ pre, ∃ b, y = .evict x.pid b := fun y hy =>
    (hspill.evicts y hy).imp fun _ h => h.1
  have hfound : c₁.coherence.entries x.addr = found c.coherence pre x := by
    rw [hsim.entries]
    rfl
  refine ⟨pre, calls, ⟨hsim, hspill, hsim.numProcessors.trans ht.numProcessors,
    hsim.detector.trans ht.detector, hfound, ?_⟩, hbooks⟩
  rw [hfound, hsim.rules]
  exact ht.inv_found hx hpre

/-- The books of the two halves. -/
theorem Fetched.booked {m₁ : DirMsi} {calls log : List Call} {charge : Charge}
    (h : Fetched n detector t x m pre calls m₁) (hbooks : Books pre calls { m with calls := [] } m₁)
    (hhandler : Controller.HandlerBooks x charge post log m₁ m') (hlog : m'.calls = calls ++ log)
    (hstepped : Stepped m x pre post m' ⟨x, charge, m'.calls⟩) :
    Booked m x pre post m' ⟨x, charge, m'.calls⟩ where
  stepped := hstepped
  backs := by
    have hfirst : calls.filterMap Call.writeBack? = writeBacks m.rules m.entries pre := hbooks.backs
    have hentries : m₁.entries = pre.foldl (Event.apply m.rules) m.entries := h.simulates.entries
    have hrules : m₁.rules = m.rules := h.simulates.rules
    change m'.calls.filterMap _ = _
    rw [hlog, List.filterMap_append, hfirst, hhandler.backs, writeBacks_append, hentries, hrules]
  posts := by
    have hfirst : m₁.profiles = calls.foldl Call.post m.profiles := hbooks.posts
    change _ = Bill.post (m'.calls.foldl _ _) _
    rw [hhandler.posts, hfirst, hlog, List.foldl_append]
  pushed i b hi := by
    change _ ∈ m'.calls at hi
    rw [hlog] at hi
    rcases List.mem_append.mp hi with hi | hi
    · exact (h.spills.quiet _ hi).elim
    · have hrules : m₁.rules = m.rules := h.simulates.rules
      rw [← h.entries, ← hrules]
      exact hhandler.pushed i b hi
  evicts i b hi := by
    change _ ∈ m'.calls at hi
    rw [hlog] at hi
    rcases List.mem_append.mp hi with hi | hi
    · exact Or.inl (hbooks.evicts i b hi)
    · refine Or.inr ((hhandler.evicts i b hi).imp_right fun ⟨hk, hb, hwho⟩ => ⟨hk, hb, ?_⟩)
      exact hwho.imp_right fun hpush => hlog ▸ List.mem_append_right _ hpush

/-- **One access, with its books.** -/
theorem ensures_booked (hn : n ≤ 32) (ht : Tracks n detector t c.coherence) (hx : x.pid < n) :
    Ensures (· = .lru) (fun s => ∃ pre post, Booked c.coherence x pre post s.1.coherence s.2)
      (c.step x) := by
  rw [Controller.step_eq]
  refine (ensures_fetched_books hn ht hx).bind ?_
  rintro c₁ - ⟨pre, calls, hf, hbooks⟩
  have hn₁ : c₁.coherence.numProcessors ≤ 32 := hf.numProcessors ▸ hn
  have hx₁ : x.pid < c₁.coherence.numProcessors := hf.numProcessors ▸ hx
  have hcalls : c₁.coherence.calls = calls := by simpa using hf.simulates.calls
  obtain ⟨kind, pid, a⟩ := x
  cases kind with
  | load =>
    obtain ⟨m', charge, hm', hread, hhit⟩ := simulates_processRead hn₁ hx₁ hf.inv
    have hhandler := Controller.handlerBooks_processRead hn₁ hx₁ hf.inv hm'
    simp only [Controller.handle, hm', ok_bind]
    have hlog : m'.calls = calls ++ [] := by rw [hread.calls, hcalls]
    exact ⟨pre, [], hf.booked hbooks hhandler hlog (hf.stepped_read hread hhit)⟩
  | store =>
    refine (Controller.ensures_processWrite_books hn₁ hx₁ hf.inv).bind ?_
    rintro ⟨c₂, charge⟩ - ⟨post, log, hstores, hhandler⟩
    have hlog : c₂.coherence.calls = calls ++ log := by rw [hstores.simulates.calls, hcalls]
    exact ⟨pre, post, hf.booked hbooks hhandler hlog (hf.stepped_store hstores)⟩

variable {cfg : Config} {u v : List Access} {c₀ : Controller} {rs : List Report}

/-- **The rule of runs, with the books.** -/
theorem booked_induction {I : List Access → List Report → DirMsi → Prop} (hv : cfg.Valid t)
    (hrun : cfg.run detector t = .ok (c, rs)) (h0 : I [] [] (cfg.start detector).coherence)
    (hstep : ∀ w x w' rs m pre post m' r, t = w ++ x :: w' →
      Tracks cfg.numProcessors detector w m → Booked m x pre post m' r →
      I w rs m → I (w ++ [x]) (rs ++ [r]) m') :
    Tracks cfg.numProcessors detector t c.coherence ∧ I t rs c.coherence := by
  refine (ensures_run (E := (· = .lru)) (I := fun w rs (c : Controller) =>
    Tracks cfg.numProcessors detector w c.coherence ∧ I w rs c.coherence)
    ⟨tracks_start, h0⟩ ?_).of_ok hrun
  rintro w x w' rs c hw ⟨htracks, hI⟩
  have hx : x.pid < cfg.numProcessors := hv x (by simp [hw])
  refine (ensures_booked cfg.numProcessors_le htracks hx).mono ?_
  rintro s - ⟨pre, post, hbooked⟩
  exact ⟨hbooked.stepped.tracks htracks hx, hstep w x w' rs _ pre post _ _ hw htracks hbooked hI⟩

end AdaptiveMsi
