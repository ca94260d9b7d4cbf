import AdaptiveMsi.Cache.Contents
import AdaptiveMsi.Controller.Step
/-!
# What an access asks of the caches

An access fetches its own line, perhaps a second time, and then the lines
of the readers it pushes to; between the fetches only the directory
changes. `Serves` is that, as a relation along a list of requests, and
`Serves.induction` is how a property of the caches is carried over an
access.
-/

namespace AdaptiveMsi

open Machine Protocol DirMsi

/-- A call of `fetch_cache_line`. -/
structure Request where
  pid : ℕ
  addr : Addr
  replace : Bool
deriving DecidableEq, Repr

/-- An access's first request. -/
def Access.demand (x : Access) : Request := ⟨x.pid, x.addr, true⟩

namespace Controller

variable {c c' c'' c₁ : Controller} {q : Request} {qs qs' us : List Request}
variable {pid home cost hops i n : ℕ} {a : Addr} {last : Option ℕ} {x : Access} {r : Report}

/-- The caches are left alone, and no eviction is recorded. -/
structure Rests (c c' : Controller) : Prop where
  same : c.SameCaches c'
  calls : ∃ log, c'.coherence.calls = c.coherence.calls ++ log ∧ ∀ call ∈ log, ¬ call.Evicting

theorem Rests.refl : c.Rests c := ⟨⟨rfl, rfl, rfl⟩, [], by simp, by simp⟩

theorem Rests.trans (h : c.Rests c') (h' : c'.Rests c'') : c.Rests c'' where
  same := ⟨h'.same.cache.trans h.same.cache, h'.same.offsetNumBits.trans h.same.offsetNumBits,
    h'.same.tagMask.trans h.same.tagMask⟩
  calls := by
    obtain ⟨log, hlog, hquiet⟩ := h.calls
    obtain ⟨log', hlog', hquiet'⟩ := h'.calls
    refine ⟨log ++ log', by rw [hlog', hlog, List.append_assoc], fun call hcall => ?_⟩
    rcases List.mem_append.mp hcall with hcall | hcall
    · exact hquiet call hcall
    · exact hquiet' call hcall

theorem rests_setLine {d : DirectoryLine} : c.Rests (c.setLine a d) :=
  ⟨⟨rfl, rfl, rfl⟩, [], by simp, by simp⟩

theorem rests_record (call : Call) (h : ¬ call.Evicting) : c.Rests (c.record call) :=
  ⟨⟨rfl, rfl, rfl⟩, [call], rfl, by simpa using h⟩

/-- A new directory with the calls of the old one. -/
theorem rests_coherence {m : DirMsi} (h : m.calls = c.coherence.calls) :
    c.Rests { c with coherence := m } :=
  ⟨⟨rfl, rfl, rfl⟩, [], by simp [h], by simp⟩

/-- **`c'` is `c` after the requests**, in their order. -/
inductive Serves : Controller → List Request → Controller → Prop
  | nil {c c' : Controller} (h : c.Rests c') : Serves c [] c'
  | cons {c c₁ c₂ c' : Controller} {q : Request} {qs : List Request} (hrests : c.Rests c₁)
      (hfetch : c₁.fetchCacheLine q.pid q.addr q.replace = .ok c₂) (hserves : Serves c₂ qs c') :
      Serves c (q :: qs) c'

theorem Rests.serves (h : c.Rests c') (h' : Serves c' qs c'') : Serves c qs c'' := by
  cases h' with
  | nil hrests => exact .nil (h.trans hrests)
  | cons hrests hfetch hserves => exact .cons (h.trans hrests) hfetch hserves

theorem Serves.append (h : Serves c qs c') (h' : Serves c' qs' c'') :
    Serves c (qs ++ qs') c'' := by
  induction h with
  | nil hrests => exact hrests.serves h'
  | cons hrests hfetch _ ih => exact .cons hrests hfetch (ih h')

theorem Serves.rests (h : Serves c qs c') (h' : c'.Rests c'') : Serves c qs c'' := by
  have happend := h.append (.nil h')
  rwa [List.append_nil] at happend

theorem serves_fetch (h : c.fetchCacheLine q.pid q.addr q.replace = .ok c') : Serves c [q] c' :=
  .cons .refl h (.nil .refl)

/-- **The rule of requests.** -/
theorem Serves.induction {P : List Request → Controller → Prop} (h : Serves c qs c')
    (h0 : P [] c) (hrests : ∀ us d d', d.Rests d' → P us d → P us d')
    (hfetch : ∀ us q vs d d', qs = us ++ q :: vs →
      d.fetchCacheLine q.pid q.addr q.replace = .ok d' → P us d → P (us ++ [q]) d') : P qs c' := by
  suffices hall : ∀ vs us d, Serves d vs c' → qs = us ++ vs → P us d → P qs c' from
    hall qs [] c h rfl h0
  intro vs
  induction vs with
  | nil =>
    intro us d hs hqs hP
    cases hs with
    | nil hr =>
      rw [hqs, List.append_nil]
      exact hrests us d c' hr hP
  | cons q vs ih =>
    intro us d hs hqs hP
    cases hs with
    | cons hr hf hs' =>
      exact ih (us ++ [q]) _ hs' (by simp [hqs])
        (hfetch us q vs _ _ hqs hf (hrests us d _ hr hP))

/-! ## The push loop -/

variable {m₀ : DirMsi} {done : List ℕ} {xs : List (Event ℕ Addr)} {log : List Call}

/-- The requests of the push loop of `pid` at `a`: each is for another
processor that qualifies. -/
def Asks (m₀ : DirMsi) (pid : ℕ) (a : Addr) (qs : List Request) : Prop :=
  ∀ q ∈ qs, q.addr = a ∧ q.replace = false ∧ q.pid ≠ pid ∧ q.pid < m₀.numProcessors ∧
    m₀.rules.qualified (m₀.entries a).reads q.pid = true

/-- **One round of the loop.** -/
theorem serves_pushBody {st : Controller × ℕ × ℕ} (hi : i < m₀.numProcessors)
    (hpush : Pushing m₀ pid a done xs log c.coherence)
    (h : pushBody pid home a (c, cost, hops) i = .ok st) :
    ∃ qs, Serves c qs st.1 ∧ Asks m₀ pid a qs := by
  have hqr : (c.line a).qualifiedReader i = _ := hpush.qualified
  simp only [pushBody] at h
  by_cases hne : i = pid
  · rw [if_neg (not_not_intro hne)] at h
    cases h
    exact ⟨[], .nil .refl, by simp [Asks]⟩
  rw [if_pos hne] at h
  by_cases hq : (c.line a).qualifiedReader i = true
  · rw [if_pos hq] at h
    obtain ⟨c', hfetch, h⟩ := bind_eq_ok.mp h
    have hserves : Serves c [⟨i, a, false⟩] c' :=
      (rests_record (.push i a) id).serves (serves_fetch (q := ⟨i, a, false⟩) hfetch)
    refine ⟨[⟨i, a, false⟩], ?_, by simpa [Asks, hne, hi] using hqr.symm.trans hq⟩
    by_cases hset : (!(c'.line a).isSet i) = true
    · rw [if_pos hset] at h
      cases h
      exact hserves.rests rests_setLine
    · rw [if_neg hset] at h
      cases h
      exact hserves
  · rw [if_neg hq] at h
    refine ⟨[], .nil ?_, by simp [Asks]⟩
    by_cases hset : (c.line a).isSet i = true
    · rw [if_pos hset] at h
      cases h
      exact rests_setLine
    · rw [if_neg hset] at h
      cases h
      exact .refl

theorem serves_pushLoop {st st' : Controller × ℕ × ℕ} (hw : Writes m₀ pid a)
    (hpush : Pushing m₀ pid a [] xs log st.1.coherence)
    (h : (List.range m₀.numProcessors).foldlM (pushBody pid home a) st = .ok st') :
    ∃ qs, Serves st.1 qs st'.1 ∧ Asks m₀ pid a qs := by
  have hloop := ensures_foldlM (E := fun _ : AssertFailure => True)
    (I := fun done (d : Controller × ℕ × ℕ) =>
      (∃ xs log, Pushing m₀ pid a done xs log d.1.coherence) ∧
        ∃ qs, Serves st.1 qs d.1 ∧ Asks m₀ pid a qs)
    (f := pushBody pid home a) (l := List.range m₀.numProcessors) (s := st)
    ⟨⟨xs, log, hpush⟩, [], .nil .refl, by simp [Asks]⟩ ?_
  · exact (hloop.of_ok h).2
  · rintro u i v ⟨d, cost', hops'⟩ hl ⟨⟨xs', log', hpush'⟩, qs, hserves, hasks⟩
    have hi := lt_of_range_eq hl
    have hnext : Ensures (· = .lru) (fun st => ∃ xs log, Pushing m₀ pid a (u ++ [i]) xs log
        st.1.coherence) (pushBody pid home a (d, cost', hops') i) :=
      ensures_pushBody hw hi hpush'
    cases hbody : pushBody pid home a (d, cost', hops') i with
    | error e => trivial
    | ok st₁ =>
      obtain ⟨qs', hserves', hasks'⟩ := serves_pushBody hi hpush' hbody
      refine ⟨hnext.of_ok hbody, qs ++ qs', hserves.append hserves', fun q hq => ?_⟩
      rcases List.mem_append.mp hq with hq | hq
      · exact hasks q hq
      · exact hasks' q hq

/-! ## The handlers -/

/-- The store fetches its line a second time: its processor is the last
writer of a line somebody holds, and has no bit. -/
def RefetchesAt (c : Controller) (pid : ℕ) (a : Addr) : Prop :=
  c.coherence.detector = true ∧ (c.line a).state ≠ .invalid ∧
    (c.line a).isLastWriter pid = true ∧ (c.line a).isSet pid = false

instance : Decidable (c.RefetchesAt pid a) := by
  unfold RefetchesAt
  infer_instance

/-- The paths that call no cache. -/
theorem rests_processWrite {charge : Charge} (hcalls : ¬ CallsBack c.coherence pid a)
    (hn : c.coherence.numProcessors ≤ 32) (hp : pid < c.coherence.numProcessors)
    (hinv : (c.coherence.entries a).Inv c.coherence.rules last)
    (h : c.processWrite pid a = .ok (c', charge)) : c.Rests c' := by
  have h32 : pid < 32 := by omega
  have hnoted : ∀ (d : DirectoryLine) (ch : Charge), c.Rests { c with
      coherence := ((noted c.coherence pid a).setLine a d).profileStore pid a ch } :=
    fun d ch => ⟨⟨rfl, rfl, rfl⟩, [.updateLastWriter pid a], rfl, by simp [Call.Evicting]⟩
  by_cases hs : (c.coherence.entries a).state = .invalid
  · rw [processWrite_of_invalid hs] at h
    cases h
    exact hnoted _ _
  cases hd : c.coherence.detector with
  | false =>
    obtain ⟨m', charge', hf, hm', hn', hclaim, -⟩ := exists_fetch_claim
      (c.coherence.getHomeNode a) 0 h32 hn hinv hs
    rw [processWrite_of_baseline hd hs hf hm' hn', hclaim] at h
    cases h
    exact rests_coherence rfl
  | true =>
    have hw : ¬ (c.line a).isLastWriter pid = true := fun hw =>
      hcalls ⟨hd, hs, (DirectoryLine.writer_eq_some h32).mpr hw⟩
    rw [processWrite_of_detector hd hs, pushAndInvalidate_of_handoff h32 hn hs hw, noted_claim] at h
    cases h
    exact hnoted _ _

/-- The requests of a store after its own. -/
structure Follows (c : Controller) (pid : ℕ) (a : Addr) (qs : List Request) : Prop where
  addr : ∀ q ∈ qs, q.addr = a
  own : ∀ q ∈ qs, q.replace = true → q.pid = pid
  push : ∀ q ∈ qs, q.replace = false → c.coherence.detector = true ∧ q.pid ≠ pid ∧
    q.pid < c.coherence.numProcessors ∧ (c.line a).qualifiedReader q.pid = true
  refetch : qs.countP (·.replace) = if c.RefetchesAt pid a then 1 else 0

/-- The second line fetch, of a last writer without its bit. -/
theorem serves_refetch {r : Controller × ℕ × AccessType} (h : c.refetch pid a cost = .ok r) :
    Serves c (if (c.line a).isSet pid then [] else [⟨pid, a, true⟩]) r.1 := by
  simp only [refetch] at h
  by_cases hset : (c.line a).isSet pid = true
  · rw [if_neg (by simp [hset])] at h
    cases h
    rw [if_pos hset]
    exact .nil .refl
  · rw [if_pos (by simpa using hset)] at h
    obtain ⟨d, hfetch, hd⟩ := bind_eq_ok.mp h
    cases hd
    rw [if_neg hset]
    exact (serves_fetch (q := ⟨pid, a, true⟩) hfetch).rests rests_setLine

/-- The last writer's requests: its second line fetch and the pushes. -/
theorem follows_of_callsBack {qs : List Request} (h32 : pid < 32)
    (hcalls : CallsBack c.coherence pid a) (hasks : Asks c.coherence pid a qs) :
    Follows c pid a ((if (c.line a).isSet pid then [] else [⟨pid, a, true⟩]) ++ qs) := by
  have hown : ∀ q : Request, q ∈ (if (c.line a).isSet pid then [] else [⟨pid, a, true⟩] :
      List Request) → q = ⟨pid, a, true⟩ := by
    intro q hq
    split at hq
    · cases hq
    · exact List.mem_singleton.mp hq
  refine ⟨fun q hq => ?_, fun q hq hr => ?_, fun q hq hr => ?_, ?_⟩
  · rcases List.mem_append.mp hq with hq | hq
    · rw [hown q hq]
    · exact (hasks q hq).1
  · rcases List.mem_append.mp hq with hq | hq
    · rw [hown q hq]
    · rw [(hasks q hq).2.1] at hr
      cases hr
  · rcases List.mem_append.mp hq with hq | hq
    · rw [hown q hq] at hr
      cases hr
    · exact ⟨hcalls.1, (hasks q hq).2.2⟩
  · have hzero : qs.countP (·.replace) = 0 := by
      rw [List.countP_eq_zero]
      intro q hq
      simp [(hasks q hq).2.1]
    have hw := (DirectoryLine.writer_eq_some h32).mp hcalls.2.2
    have hrefetches : c.RefetchesAt pid a ↔ (c.line a).isSet pid = false :=
      ⟨fun h => h.2.2.2, fun h => ⟨hcalls.1, hcalls.2.1, hw, h⟩⟩
    simp only [List.countP_append, hzero, hrefetches]
    cases (c.line a).isSet pid <;> rfl

/-- **What a store asks of the caches.** -/
theorem exists_serves_processWrite {charge : Charge} (hn : c.coherence.numProcessors ≤ 32)
    (hp : pid < c.coherence.numProcessors)
    (hinv : (c.coherence.entries a).Inv c.coherence.rules last)
    (h : c.processWrite pid a = .ok (c', charge)) :
    ∃ qs, Serves c qs c' ∧ Follows c pid a qs := by
  have h32 : pid < 32 := by omega
  by_cases hcalls : CallsBack c.coherence pid a
  · have hwrites : Writes c.coherence pid a := ⟨hn, hcalls.1, hp, hcalls.2.2, hcalls.2.1⟩
    rw [processWrite_of_callsBack h32 hcalls] at h
    obtain ⟨⟨c₁, cost, response⟩, hrefetch, h⟩ := bind_eq_ok.mp h
    obtain ⟨⟨c₂, cost', hops'⟩, hloop, h⟩ := bind_eq_ok.mp h
    cases h
    obtain ⟨-, xs, log, hpush⟩ := (ensures_refetch hwrites hinv.invalid_iff).of_ok hrefetch
    have hnum : c₁.coherence.numProcessors = c.coherence.numProcessors := hpush.numProcessors
    simp only [hnum] at hloop
    obtain ⟨qs, hserves, hasks⟩ := serves_pushLoop hwrites hpush hloop
    have hlast : Serves c₁ qs { c₂ with coherence := (c₂.coherence.setLine a
        { c₂.line a with state := .modified }).profileStore pid a ⟨response, cost', hops'⟩ } :=
      hserves.rests (rests_coherence rfl)
    exact ⟨_, (serves_refetch hrefetch).append hlast, follows_of_callsBack h32 hcalls hasks⟩
  · have hno : ¬ c.RefetchesAt pid a := fun h =>
      hcalls ⟨h.1, h.2.1, (DirectoryLine.writer_eq_some h32).mpr h.2.2.1⟩
    exact ⟨[], .nil (rests_processWrite hcalls hn hp hinv h), by simp, by simp, by simp,
      by simp [hno]⟩

/-! ## One access -/

/-- The access is a store that fetches its line a second time. -/
def Refetches (c : Controller) (x : Access) : Prop :=
  x.kind = .store ∧ Ensures (fun _ => False) (fun c₁ : Controller => c₁.RefetchesAt x.pid x.addr)
    (c.clearCalls.fetchCacheLine x.pid x.addr true)

instance : Decidable (c.Refetches x) := by
  unfold Refetches
  infer_instance

theorem refetches_iff_of_fetch (hfetch : c.clearCalls.fetchCacheLine x.pid x.addr true = .ok c₁) :
    c.Refetches x ↔ x.kind = .store ∧ c₁.RefetchesAt x.pid x.addr := by
  rw [Refetches, hfetch, ensures_ok]

/-- The requests of an access after its own. -/
structure Asked (c : Controller) (x : Access) (qs : List Request) : Prop where
  addr : ∀ q ∈ qs, q.addr = x.addr
  own : ∀ q ∈ qs, q.replace = true → q.pid = x.pid
  push : ∀ q ∈ qs, q.replace = false → c.coherence.detector = true ∧ q.pid ≠ x.pid ∧
    q.pid < c.coherence.numProcessors ∧ (c.line x.addr).qualifiedReader q.pid = true
  refetch : qs.countP (·.replace) = if c.Refetches x then 1 else 0

variable {t : List Access} {detector : Bool}

/-- **What an access asks of the caches.** -/
theorem exists_serves (hn : n ≤ 32) (ht : Tracks n detector t c.coherence) (hx : x.pid < n)
    (h : c.step x = .ok (c', r)) :
    r.calls = c'.coherence.calls ∧
      ∃ qs, Serves c.clearCalls (x.demand :: qs) c' ∧ c.Asked x qs := by
  obtain ⟨c₁, hfetch, hhandle⟩ := step_eq_ok h
  have hcalls : r.calls = c'.coherence.calls := by
    rw [step_eq, hfetch, ok_bind, hhandle] at h
    exact (congrArg (fun s : Controller × Report => s.2.calls) (Except.ok.inj h)).symm
  refine ⟨hcalls, ?_⟩
  obtain ⟨pre, log, hf⟩ := (ensures_fetched hn ht hx).of_ok hfetch
  have hown : Serves c.clearCalls [x.demand] c₁ := serves_fetch (q := x.demand) hfetch
  cases hk : x.kind with
  | load =>
    simp only [handle, hk] at hhandle
    obtain ⟨⟨m, charge⟩, hread, hhandle⟩ := bind_eq_ok.mp hhandle
    cases hhandle
    obtain ⟨m', charge', hok, hsim, -⟩ := simulates_processRead (hf.numProcessors ▸ hn)
      (hf.numProcessors ▸ hx) hf.inv
    cases hok.symm.trans hread
    have hno : ¬ c.Refetches x := fun hr => by
      rw [hr.1] at hk
      cases hk
    refine ⟨[], hown.rests (rests_coherence ?_), by simp, by simp, by simp, by simp [hno]⟩
    simpa using hsim.calls
  | store =>
    simp only [handle, hk] at hhandle
    obtain ⟨qs, hserves, hfollows⟩ := exists_serves_processWrite (hf.numProcessors ▸ hn)
      (hf.numProcessors ▸ hx) hf.inv hhandle
    -- the second fetch is decided by the bit after the first
    have hrefetches : c.Refetches x ↔ c₁.RefetchesAt x.pid x.addr := by
      rw [refetches_iff_of_fetch hfetch]
      simp [hk]
    have hreads : (c₁.line x.addr).readCountVector = (c.line x.addr).readCountVector :=
      hf.fewer.reads
    refine ⟨qs, hown.append hserves, hfollows.addr, hfollows.own, fun q hq hr => ?_, ?_⟩
    · obtain ⟨hd, hne, hlt, hqual⟩ := hfollows.push q hq hr
      rw [DirectoryLine.qualifiedReader, hreads] at hqual
      refine ⟨hf.simulates.detector.symm.trans hd, hne, ?_, hqual⟩
      rwa [show c₁.coherence.numProcessors = _ from hf.simulates.numProcessors] at hlt
    · rw [hfollows.refetch]
      simp only [hrefetches]

end Controller

end AdaptiveMsi
