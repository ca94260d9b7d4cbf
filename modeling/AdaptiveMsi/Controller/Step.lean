import AdaptiveMsi.Controller.Store
import AdaptiveMsi.Model.Run
/-!
# One access, and runs of them

An access evicts copies of its own processor's, then reads or stores, and
a store may evict elsewhere after that. `Stepped` says which, and what
the report tells of it; `Tracks` is the invariant of the directory along
a run, relative to the accesses so far; `run_induction` is the rule every
property of a run is proved by.
-/

namespace AdaptiveMsi

open Machine Protocol DirMsi

/-- The processor of the most recent store to `a`. -/
def lastStore (t : List Access) (a : Addr) : Option ℕ :=
  ((t.filter fun x => x.kind = .store ∧ x.addr = a).getLast?).map Access.pid

/-- What the access is to the protocol. -/
def Access.event (x : Access) : Event ℕ Addr :=
  match x.kind with
  | .load => .read x.pid x.addr
  | .store => .store x.pid x.addr

namespace Access

variable {x : Access}

@[simp] theorem addr_event : x.event.addr = x.addr := by
  unfold event
  split <;> rfl

@[simp] theorem proc_event : x.event.proc = x.pid := by
  unfold event
  split <;> rfl

/-- The access hits an entry in this state: it is a sharer's, or a handoff,
which sets the new writer's bit before it fetches the line. -/
def Hits (R : Rules ℕ (BitVec 64)) (e : Entry ℕ (BitVec 64)) (x : Access) : Prop :=
  x.pid ∈ e.sharers ∨ x.kind = .store ∧ e.state ≠ .invalid ∧ e.StartsOver R x.pid

end Access

theorem lastStore_snoc {t : List Access} {x : Access} :
    lastStore (t ++ [x]) = x.event.note (lastStore t) := by
  funext a
  cases hk : x.kind with
  | load => simp [lastStore, Access.event, hk, Event.note]
  | store =>
    rcases eq_or_ne a x.addr with rfl | hne
    · simp [lastStore, Access.event, hk, Event.note]
    · simp [lastStore, Access.event, hk, Event.note, hne, hne.symm]

variable {m m' : DirMsi} {x : Access} {pre post : List (Event ℕ Addr)} {r : Report}
variable {a b : Addr} {i : ℕ}

/-- The entry the access finds, after the evictions of its line fetch. -/
def found (m : DirMsi) (pre : List (Event ℕ Addr)) (x : Access) : Entry ℕ (BitVec 64) :=
  pre.foldl (Event.apply m.rules) m.entries x.addr

/-- **What one access does**, and what its report tells of it. -/
structure Stepped (m : DirMsi) (x : Access) (pre post : List (Event ℕ Addr)) (m' : DirMsi)
    (r : Report) : Prop where
  access : r.access = x
  numProcessors : m'.numProcessors = m.numProcessors
  detector : m'.detector = m.detector
  entries : m'.entries = (pre ++ x.event :: post).foldl (Event.apply m.rules) m.entries
  before : ∀ y ∈ pre, ∃ b, y = .evict x.pid b ∧ .invalidate x.pid b ∈ r.calls
  after : ∀ y ∈ post, y.addr ≠ x.addr ∧ y.proc < m.numProcessors ∧
    ∃ i b, y = .evict i b ∧ .invalidate i b ∈ r.calls
  alone : m.detector = false → post = []
  hit : r.response = .cacheHit ↔ x.Hits m.rules (found m pre x)
  pushes : x.kind = .store → ∀ i, (found m pre x).Pushes m.rules x.pid i →
    .push i x.addr ∈ r.calls
  updates : ∀ i b, .updateLastWriter i b ∈ r.calls ↔
    i = x.pid ∧ b = x.addr ∧ x.kind = .store ∧ (found m pre x).StartsOver m.rules x.pid

namespace Stepped

/-- At its own address an access is its event, on the entry it finds. -/
theorem entries_self (h : Stepped m x pre post m' r) :
    m'.entries x.addr = x.event.onEntry m.rules (found m pre x) := by
  rw [h.entries, List.foldl_append, List.foldl_cons,
    foldl_apply_of_ne fun y hy => (h.after y hy).1]
  simp [Event.apply, found]

/-- What the line fetch leaves there. -/
theorem fewer_found (h : Stepped m x pre post m' r) :
    (m.entries x.addr).Fewer (fun i => .invalidate i x.addr ∈ r.calls) (found m pre x) :=
  fewer_foldl fun y hy => by
    obtain ⟨b, rfl, hb⟩ := h.before y hy
    exact ⟨x.pid, b, rfl, fun he => he ▸ hb⟩

/-- Elsewhere copies are evicted. -/
theorem fewer_of_ne (h : Stepped m x pre post m' r) (ha : a ≠ x.addr) :
    (m.entries a).Fewer (fun i => .invalidate i a ∈ r.calls) (m'.entries a) := by
  have hpre : (m.entries a).Fewer (fun i => .invalidate i a ∈ r.calls)
      (pre.foldl (Event.apply m.rules) m.entries a) := fewer_foldl fun y hy => by
    obtain ⟨b, rfl, hb⟩ := h.before y hy
    exact ⟨x.pid, b, rfl, fun he => he ▸ hb⟩
  have hself : (x.event.apply m.rules (pre.foldl (Event.apply m.rules) m.entries)) a =
      pre.foldl (Event.apply m.rules) m.entries a := by
    simp [Event.apply, ha]
  rw [h.entries, List.foldl_append, List.foldl_cons]
  rw [← hself] at hpre
  refine hpre.trans (fewer_foldl fun y hy => ?_)
  obtain ⟨-, -, i, b, rfl, hb⟩ := h.after y hy
  exact ⟨i, b, rfl, fun he => he ▸ hb⟩

/-- In the baseline the evictions elsewhere are the accessing processor's. -/
theorem fewer_of_baseline (h : Stepped m x pre post m' r) (hd : m.detector = false)
    (ha : a ≠ x.addr) : (m.entries a).Fewer (· = x.pid) (m'.entries a) := by
  rw [h.entries, h.alone hd, List.foldl_append, List.foldl_cons, List.foldl_nil, Event.apply,
    Access.addr_event, Function.update_of_ne ha]
  refine fewer_foldl fun y hy => ?_
  obtain ⟨b, rfl, -⟩ := h.before y hy
  exact ⟨x.pid, b, rfl, fun _ => rfl⟩

/-- In the baseline an address of which the accessing processor has no copy
is left alone. -/
theorem entries_of_not_mem (h : Stepped m x pre post m' r) (hd : m.detector = false)
    (ha : a ≠ x.addr) (hinv : (m.entries a).state = .invalid ↔ (m.entries a).sharers = ∅)
    (hx : x.pid ∉ (m.entries a).sharers) : m'.entries a = m.entries a := by
  rw [h.entries, h.alone hd, List.foldl_append, List.foldl_cons, List.foldl_nil, Event.apply,
    Access.addr_event, Function.update_of_ne ha]
  exact foldl_evict_of_not_mem hinv hx fun y hy => (h.before y hy).imp fun _ h => h.1

/-- **Where a copy comes from**: it was there, its processor accessed the
address, or a store pushed it. -/
theorem mem_sharers (h : Stepped m x pre post m' r) (hi : i ∈ (m'.entries a).sharers) :
    i ∈ (m.entries a).sharers ∨ x.addr = a ∧
      (x.pid = i ∨ x.kind = .store ∧ .push i a ∈ r.calls) := by
  rcases eq_or_ne a x.addr with rfl | hne
  · rw [h.entries_self] at hi
    cases hk : x.kind with
    | load =>
      simp only [Access.event, hk, Event.onEntry] at hi
      rcases (Entry.mem_sharers_read m.rules).mp hi with rfl | hi
      · exact Or.inr ⟨rfl, Or.inl rfl⟩
      · exact Or.inl (h.fewer_found.sharers hi)
    | store =>
      simp only [Access.event, hk, Event.onEntry] at hi
      rcases (Entry.mem_sharers_store m.rules).mp hi with rfl | hi
      · exact Or.inr ⟨rfl, Or.inl rfl⟩
      · exact Or.inr ⟨rfl, Or.inr ⟨rfl, h.pushes hk i hi⟩⟩
  · exact Or.inl ((h.fewer_of_ne hne).sharers hi)

/-- A load hits only what was there. -/
theorem mem_sharers_of_hit (h : Stepped m x pre post m' r) (hk : x.kind = .load)
    (hhit : r.response = .cacheHit) : x.pid ∈ (m.entries x.addr).sharers := by
  rcases h.hit.mp hhit with hmem | ⟨hs, -⟩
  · exact h.fewer_found.sharers hmem
  · rw [hk] at hs
    cases hs

end Stepped

/-- **The directory along a run**: its entries keep the invariant, relative
to the stores so far, and up to `16` processors their counters do not
spill. -/
structure Tracks (n : ℕ) (detector : Bool) (t : List Access) (m : DirMsi) : Prop where
  numProcessors : m.numProcessors = n
  detector : m.detector = detector
  inv : Protocol.Inv m.rules (lastStore t) m.entries
  packed : n ≤ 16 → ∀ a, DirectoryLine.Packed (m.entries a).reads

variable {n : ℕ} {detector : Bool} {t : List Access}

theorem Tracks.rules (h : Tracks n detector t m) : m.rules = AdaptiveMsi.rules n detector := by
  rw [DirMsi.rules, h.numProcessors, h.detector]

theorem Tracks.mem_procs (h : Tracks n detector t m) : i ∈ m.rules.procs ↔ i < n := by
  rw [h.rules]
  exact AdaptiveMsi.mem_procs

/-- The events of an access are the processors'. -/
theorem Stepped.proc_mem (h : Stepped m x pre post m' r) (ht : Tracks n detector t m)
    (hx : x.pid < n) {y : Event ℕ Addr} (hy : y ∈ pre ++ x.event :: post) :
    y.proc ∈ m.rules.procs := by
  rw [ht.mem_procs]
  rcases List.mem_append.mp hy with hy | hy
  · obtain ⟨b, rfl, -⟩ := h.before y hy
    exact hx
  · rcases List.mem_cons.mp hy with rfl | hy
    · rw [Access.proc_event]
      exact hx
    · exact ht.numProcessors ▸ (h.after y hy).2.1

/-- Only the access itself is a store. -/
theorem Stepped.note (h : Stepped m x pre post m' r) :
    (pre ++ x.event :: post).foldl Event.note (lastStore t) = lastStore (t ++ [x]) := by
  have hpre : pre.foldl Event.note (lastStore t) = lastStore t := by
    refine foldl_note_of_evict fun y hy => ?_
    obtain ⟨b, hy, -⟩ := h.before y hy
    exact ⟨x.pid, b, hy⟩
  have hpost : post.foldl Event.note (lastStore (t ++ [x])) = lastStore (t ++ [x]) := by
    refine foldl_note_of_evict fun y hy => ?_
    obtain ⟨-, -, i, b, hy, -⟩ := h.after y hy
    exact ⟨i, b, hy⟩
  rw [List.foldl_append, List.foldl_cons, hpre, ← lastStore_snoc, hpost]

/-- **An access preserves it.** -/
theorem Stepped.tracks (h : Stepped m x pre post m' r) (ht : Tracks n detector t m)
    (hx : x.pid < n) : Tracks n detector (t ++ [x]) m' where
  numProcessors := h.numProcessors.trans ht.numProcessors
  detector := h.detector.trans ht.detector
  inv := by
    have hrules : m'.rules = m.rules := by
      rw [DirMsi.rules, DirMsi.rules, h.numProcessors, h.detector]
    rw [hrules, h.entries, ← h.note]
    exact ht.inv.foldl fun y hy => h.proc_mem ht hx hy
  packed hn a := by
    rw [h.entries]
    refine reads_foldl ?_ ?_ (ht.packed hn) (fun y hy => h.proc_mem ht hx hy) a
    · exact DirectoryLine.Packed.zero
    · intro p hp v hv
      have hp' := ht.mem_procs.mp hp
      exact hv.missVector (by omega)

variable {c : Controller}

/-- The invariant after the evictions of the line fetch. -/
theorem Tracks.inv_found (ht : Tracks n detector t m) (hx : x.pid < n)
    (hpre : ∀ y ∈ pre, ∃ b, y = .evict x.pid b) :
    (found m pre x).Inv m.rules (lastStore t x.addr) := by
  have hinv : Protocol.Inv m.rules (pre.foldl Event.note (lastStore t))
      (pre.foldl (Event.apply m.rules) m.entries) := ht.inv.foldl fun y hy => by
    obtain ⟨b, rfl⟩ := hpre y hy
    exact ht.mem_procs.mpr hx
  rw [foldl_note_of_evict fun y hy => ⟨_, hpre y hy⟩] at hinv
  exact hinv x.addr

/-! ## The two halves of an access -/

/-- The handler an access calls after its line fetch. -/
def Controller.handle (c : Controller) (x : Access) : Except AssertFailure (Controller × Charge) :=
  match x.kind with
  | .load => do
      let (m, charge) ← c.coherence.processRead x.pid x.addr
      return ({ c with coherence := m }, charge)
  | .store => c.processWrite x.pid x.addr

theorem Controller.step_eq :
    c.step x = c.clearCalls.fetchCacheLine x.pid x.addr true >>= fun c₁ =>
      c₁.handle x >>= fun s => .ok (s.1, ⟨x, s.2, s.1.coherence.calls⟩) := by
  obtain ⟨kind, pid, a⟩ := x
  cases kind with
  | load =>
    simp only [step, access, loadSingleLine, handle]
    cases c.clearCalls.fetchCacheLine pid a true with
    | error e => rfl
    | ok c₁ =>
      simp only [ok_bind]
      cases c₁.coherence.processRead pid a <;> rfl
  | store =>
    simp only [step, access, storeSingleLine, handle]
    cases c.clearCalls.fetchCacheLine pid a true <;> rfl

theorem Controller.step_eq_ok {c' : Controller} (h : c.step x = .ok (c', r)) :
    ∃ c₁, c.clearCalls.fetchCacheLine x.pid x.addr true = .ok c₁ ∧
      c₁.handle x = .ok (c', r.charge) := by
  rw [step_eq] at h
  obtain ⟨c₁, hfetch, h⟩ := bind_eq_ok.mp h
  obtain ⟨⟨c₂, charge⟩, hhandle, h⟩ := bind_eq_ok.mp h
  cases Except.ok.inj h
  exact ⟨c₁, hfetch, hhandle⟩

theorem Controller.access_of_step {c' : Controller} (h : c.step x = .ok (c', r)) :
    r.access = x := by
  obtain ⟨c₁, hfetch, hhandle⟩ := step_eq_ok h
  rw [step_eq, hfetch, ok_bind, hhandle] at h
  exact (congrArg (fun s : Controller × Report => s.2.access) (Except.ok.inj h)).symm

/-- **A handler that does not call back** leaves the caches alone: the
entry's event happens, and nothing fails. -/
theorem Controller.exists_handle {last : Option ℕ}
    (hcalls : x.kind = .store → ¬ CallsBack c.coherence x.pid x.addr)
    (hn : c.coherence.numProcessors ≤ 32) (hx : x.pid < c.coherence.numProcessors)
    (hinv : (c.coherence.entries x.addr).Inv c.coherence.rules last) :
    ∃ m charge log, c.handle x = .ok ({ c with coherence := m }, charge) ∧
      Simulates [x.event] log c.coherence m ∧
      (charge.response = .cacheHit ↔
        x.Hits c.coherence.rules (c.coherence.entries x.addr)) := by
  obtain ⟨kind, pid, a⟩ := x
  cases kind with
  | load =>
    obtain ⟨m, charge, hok, hread, hhit⟩ := simulates_processRead hn hx hinv
    refine ⟨m, charge, [], ?_, hread, ?_⟩
    · simp only [handle, hok, ok_bind, pure_eq_ok]
    · rw [hhit]
      simp [Access.Hits, entries]
  | store =>
    obtain ⟨m, charge, log, hok, hstores⟩ := exists_processWrite (hcalls rfl) hn hx hinv
    exact ⟨m, charge, log, hok, hstores.simulates, by simpa [Access.Hits] using hstores.hit⟩

/-- What the handler of an access starts from. -/
structure Fetched (n : ℕ) (detector : Bool) (t : List Access) (x : Access) (m : DirMsi)
    (pre : List (Event ℕ Addr)) (calls : List Call) (m₁ : DirMsi) : Prop where
  simulates : Simulates pre calls { m with calls := [] } m₁
  spills : Spills x.pid pre calls
  numProcessors : m₁.numProcessors = n
  detector : m₁.detector = detector
  entries : m₁.entries x.addr = found m pre x
  inv : (m₁.entries x.addr).Inv m₁.rules (lastStore t x.addr)

theorem ensures_fetched (hn : n ≤ 32) (ht : Tracks n detector t c.coherence) (hx : x.pid < n) :
    Ensures (· = .lru)
      (fun c₁ => ∃ pre calls, Fetched n detector t x c.coherence pre calls c₁.coherence)
      (c.clearCalls.fetchCacheLine x.pid x.addr true) := by
  have h32 : x.pid < 32 := by omega
  refine (Controller.ensures_fetchCacheLine h32).mono ?_
  rintro c₁ - ⟨pre, calls, hsim, hspill⟩
  have hpre : ∀ y ∈ pre, ∃ b, y = .evict x.pid b := fun y hy =>
    (hspill.evicts y hy).imp fun _ h => h.1
  have hfound : c₁.coherence.entries x.addr = found c.coherence pre x := by
    rw [hsim.entries]
    rfl
  refine ⟨pre, calls, hsim, hspill, hsim.numProcessors.trans ht.numProcessors,
    hsim.detector.trans ht.detector, hfound, ?_⟩
  rw [hfound, hsim.rules]
  exact ht.inv_found hx hpre

/-- The line fetch gives up a copy of the processor's own. -/
theorem Fetched.fewer {m₁ : DirMsi} {calls : List Call}
    (h : Fetched n detector t x m pre calls m₁) :
    (m.entries x.addr).Fewer (· = x.pid) (m₁.entries x.addr) := by
  rw [h.entries]
  refine fewer_foldl fun y hy => ?_
  obtain ⟨b, rfl, -⟩ := h.spills.evicts y hy
  exact ⟨x.pid, b, rfl, fun _ => rfl⟩

/-- A processor without a copy finds the entry as it was. -/
theorem Fetched.entries_eq {m₁ : DirMsi} {calls : List Call}
    (h : Fetched n detector t x m pre calls m₁)
    (hinv : (m.entries x.addr).state = .invalid ↔ (m.entries x.addr).sharers = ∅)
    (hmem : x.pid ∉ (m.entries x.addr).sharers) : m₁.entries x.addr = m.entries x.addr := by
  rw [h.entries]
  exact foldl_evict_of_not_mem hinv hmem fun y hy => (h.spills.evicts y hy).imp fun _ h => h.1

/-- A load, from its two halves. -/
theorem Fetched.stepped_read {m₁ : DirMsi} {pid : ℕ} {calls : List Call} {charge : Charge}
    (h : Fetched n detector t ⟨.load, pid, a⟩ m pre calls m₁)
    (hread : Simulates [.read pid a] [] m₁ m')
    (hhit : charge.response = .cacheHit ↔ pid ∈ (m₁.directory a).sharers) :
    Stepped m ⟨.load, pid, a⟩ pre [] m' ⟨⟨.load, pid, a⟩, charge, m'.calls⟩ := by
  have hall := h.simulates.trans hread
  have hcalls : m'.calls = calls := by simpa using hall.calls
  refine ⟨rfl, hall.numProcessors, hall.detector, hall.entries, ?_, by simp, fun _ => rfl, ?_, ?_,
    ?_⟩
  · intro y hy
    obtain ⟨b, rfl, hb⟩ := h.spills.evicts y hy
    exact ⟨b, rfl, hcalls ▸ hb⟩
  · change charge.response = .cacheHit ↔ _
    rw [← h.entries, hhit]
    simp [Access.Hits, DirMsi.entries]
  · intro hk
    cases hk
  · intro i b
    change .updateLastWriter i b ∈ m'.calls ↔ _
    rw [hcalls]
    constructor
    · intro hmem
      exact (h.spills.quiet _ hmem).elim
    · rintro ⟨-, -, hk, -⟩
      cases hk

/-- A store. -/
theorem Fetched.stepped_store {m₁ : DirMsi} {pid : ℕ} {calls log : List Call} {charge : Charge}
    (h : Fetched n detector t ⟨.store, pid, a⟩ m pre calls m₁)
    (hstores : Controller.Stores pid a post log m₁ m' charge.response) :
    Stepped m ⟨.store, pid, a⟩ pre post m' ⟨⟨.store, pid, a⟩, charge, m'.calls⟩ := by
  have hrules : m₁.rules = m.rules := h.simulates.rules
  have hall := h.simulates.trans hstores.simulates
  have hcalls : m'.calls = calls ++ log := by simpa using hall.calls
  refine ⟨rfl, hall.numProcessors, hall.detector, hall.entries, ?_, ?_,
    fun hd => hstores.alone (h.simulates.detector.trans hd), ?_, ?_, ?_⟩
  · intro y hy
    obtain ⟨b, rfl, hb⟩ := h.spills.evicts y hy
    exact ⟨b, rfl, hcalls ▸ List.mem_append_left _ hb⟩
  · intro y hy
    obtain ⟨h1, h2, i, b, h3, h4⟩ := hstores.evicts y hy
    exact ⟨h1, h.simulates.numProcessors ▸ h2, i, b, h3, hcalls ▸ List.mem_append_right _ h4⟩
  · change charge.response = .cacheHit ↔ _
    rw [← h.entries, ← hrules]
    simpa [Access.Hits] using hstores.hit
  · intro _ i hi
    rw [← h.entries, ← hrules] at hi
    exact hcalls ▸ List.mem_append_right _ (hstores.pushes i hi)
  · intro i b
    have hupdates := hstores.updates i b
    change .updateLastWriter i b ∈ m'.calls ↔ _
    rw [hcalls, List.mem_append, ← h.entries, ← hrules]
    constructor
    · rintro (hmem | hmem)
      · exact (h.spills.quiet _ hmem).elim
      · obtain ⟨h1, h2, h3⟩ := hupdates.mp hmem
        exact ⟨h1, h2, rfl, h3⟩
    · rintro ⟨h1, h2, -, h3⟩
      exact Or.inr (hupdates.mpr ⟨h1, h2, h3⟩)

/-- **One access**, and the only assertion that can fail in it is the
replacement counter's. -/
theorem ensures_step (hn : n ≤ 32) (ht : Tracks n detector t c.coherence) (hx : x.pid < n) :
    Ensures (· = .lru) (fun r => ∃ pre post, Stepped c.coherence x pre post r.1.coherence r.2)
      (c.step x) := by
  rw [Controller.step_eq]
  refine (ensures_fetched hn ht hx).bind ?_
  rintro c₁ - ⟨pre, calls, hf⟩
  have hn₁ : c₁.coherence.numProcessors ≤ 32 := hf.numProcessors ▸ hn
  have hx₁ : x.pid < c₁.coherence.numProcessors := hf.numProcessors ▸ hx
  obtain ⟨kind, pid, a⟩ := x
  cases kind with
  | load =>
    obtain ⟨m', charge, hm', hread, hhit⟩ := simulates_processRead hn₁ hx₁ hf.inv
    simp only [Controller.handle, hm', ok_bind]
    exact ⟨pre, [], hf.stepped_read hread hhit⟩
  | store =>
    refine (Controller.ensures_processWrite hn₁ hx₁ hf.inv).bind ?_
    rintro ⟨c₂, charge⟩ - ⟨post, log, hstores⟩
    exact ⟨pre, post, hf.stepped_store hstores⟩

/-! ## Runs -/

theorem entries_start {cfg : Config} :
    (cfg.start detector).coherence.entries a = ⟨.invalid, ∅, none, 0⟩ := by
  ext1
  · rfl
  · exact DirectoryLine.sharers_eq_empty.mpr rfl
  · rfl
  · rfl

theorem tracks_start {cfg : Config} :
    Tracks cfg.numProcessors detector [] (cfg.start detector).coherence where
  numProcessors := rfl
  detector := rfl
  inv a := by
    rw [entries_start]
    exact Entry.Inv.init
  packed _ a := by
    rw [entries_start]
    exact DirectoryLine.Packed.zero

/-- **The directory of every run is tracked**, and no assertion of the
coherence protocol fails. -/
theorem ensures_tracks {cfg : Config} (hv : cfg.Valid t) :
    Ensures (· = .lru) (fun r => Tracks cfg.numProcessors detector t r.1.coherence)
      (cfg.run detector t) := by
  refine ensures_run (I := fun u _ (c : Controller) =>
    Tracks cfg.numProcessors detector u c.coherence) tracks_start ?_
  intro u x v _ c ht htracks
  have hx : x.pid < cfg.numProcessors := hv x (by simp [ht])
  refine (ensures_step cfg.numProcessors_le htracks hx).mono ?_
  rintro r - ⟨pre, post, hstepped⟩
  exact hstepped.tracks htracks hx

/-- **The rule of runs.** A property of the accesses, the reports and the
directory that one access preserves holds along every continuation of a
run. -/
theorem run_induction {cfg : Config} {I : List Access → List Report → DirMsi → Prop}
    {u v : List Access} {c₀ c : Controller} {rs : List Report}
    (ht : Tracks cfg.numProcessors detector u c₀.coherence) (hv : cfg.Valid v)
    (hrun : Machine.run Controller.step c₀ v = .ok (c, rs)) (h0 : I [] [] c₀.coherence)
    (hstep : ∀ w x w' rs m pre post m' r, v = w ++ x :: w' →
      Tracks cfg.numProcessors detector (u ++ w) m → Stepped m x pre post m' r →
      I w rs m → I (w ++ [x]) (rs ++ [r]) m') :
    Tracks cfg.numProcessors detector (u ++ v) c.coherence ∧ I v rs c.coherence := by
  refine (ensures_run (E := (· = .lru)) (I := fun w rs (c : Controller) =>
    Tracks cfg.numProcessors detector (u ++ w) c.coherence ∧ I w rs c.coherence)
    ⟨by simpa using ht, h0⟩ ?_).of_ok hrun
  rintro w x w' rs c hw ⟨htracks, hI⟩
  have hx : x.pid < cfg.numProcessors := hv x (by simp [hw])
  refine (ensures_step cfg.numProcessors_le htracks hx).mono ?_
  rintro r - ⟨pre, post, hstepped⟩
  refine ⟨?_, hstep w x w' rs _ pre post _ _ hw htracks hstepped hI⟩
  rw [← List.append_assoc]
  exact hstepped.tracks htracks hx

variable {cfg : Config} {u v : List Access} {rs : List Report} {c₀ : Controller}

/-- Continuations are tracked. -/
theorem Tracks.run (ht : Tracks cfg.numProcessors detector u c₀.coherence) (hv : cfg.Valid v)
    (hrun : Machine.run Controller.step c₀ v = .ok (c, rs)) :
    Tracks cfg.numProcessors detector (u ++ v) c.coherence :=
  (run_induction (I := fun _ _ _ => True) ht hv hrun trivial
    fun _ _ _ _ _ _ _ _ _ _ _ _ _ => trivial).1

/-- A run followed by an access. -/
theorem run_then {x : Access} (hv : cfg.Valid (u ++ [x]))
    (hrun : cfg.run detector (u ++ [x]) = .ok (c, rs)) :
    ∃ c₀ rs₀ r pre post, cfg.run detector u = .ok (c₀, rs₀) ∧ rs = rs₀ ++ [r] ∧
      Tracks cfg.numProcessors detector u c₀.coherence ∧
      Stepped c₀.coherence x pre post c.coherence r := by
  obtain ⟨c₀, rs₀, r, hrun₀, hstep, rfl⟩ := run_snoc_eq_ok.mp hrun
  have htracks : Tracks cfg.numProcessors detector u c₀.coherence :=
    (ensures_tracks fun y hy => hv y (List.mem_append_left _ hy)).of_ok hrun₀
  obtain ⟨pre, post, hstepped⟩ :=
    (ensures_step cfg.numProcessors_le htracks (hv x (by simp))).of_ok hstep
  exact ⟨c₀, rs₀, r, pre, post, hrun₀, rfl, htracks, hstepped⟩

/-- Nothing is counted at an address that is not accessed. -/
theorem reads_eq_zero {a : Addr} (hv : cfg.Valid t) (hrun : cfg.run detector t = .ok (c, rs))
    (ha : ∀ x ∈ t, x.addr ≠ a) : (c.coherence.entries a).reads = 0 := by
  have hstart : ((cfg.start detector).coherence.entries a).reads = 0 := by
    rw [entries_start]
  have hI := (run_induction (I := fun w _ m => (∀ x ∈ w, x.addr ≠ a) → (m.entries a).reads = 0)
    tracks_start hv hrun (fun _ => hstart) ?_).2
  · exact hI ha
  · intro w x w' rs m pre post m' r _ _ hstepped hw hne
    have hx : a ≠ x.addr := (hne x (by simp)).symm
    rw [(hstepped.fewer_of_ne hx).reads]
    exact hw fun y hy => hne y (List.mem_append_left _ hy)

/-- A counter is raised by its processor's own load. -/
theorem count_onEntry {i : ℕ} {R : Rules ℕ (BitVec 64)} {e : Entry ℕ (BitVec 64)}
    (hmiss : R.miss = DirectoryLine.missVector) (hstart : R.start = 0) (h16 : x.pid < 16)
    (hpacked : DirectoryLine.Packed e.reads)
    (h : DirectoryLine.count (x.event.onEntry R e).reads i ≠ 0) :
    DirectoryLine.count e.reads i ≠ 0 ∨ x.pid = i := by
  obtain ⟨kind, pid, a⟩ := x
  cases kind with
  | load =>
    simp only [Access.event, Event.onEntry, Entry.read_reads] at h
    split at h
    · exact Or.inl h
    · rw [hmiss, DirectoryLine.count_missVector h16 hpacked] at h
      split at h
      · rename_i hi
        exact Or.inr hi.symm
      · exact Or.inl h
  | store =>
    simp only [Access.event, Event.onEntry, Entry.store_reads] at h
    split at h
    · rw [hstart] at h
      exact absurd DirectoryLine.count_zero h
    · exact Or.inl h

/-- **A qualified reader has accessed the address.** -/
theorem exists_access_of_qualified {a : Addr} {i : ℕ} (hn : cfg.numProcessors ≤ 16)
    (hv : cfg.Valid t) (hrun : cfg.run detector t = .ok (c, rs)) (hi : i < cfg.numProcessors)
    (hq : (c.line a).qualifiedReader i = true) : ∃ y ∈ t, y.pid = i ∧ y.addr = a := by
  have hstart : ∀ a, DirectoryLine.count
      ((cfg.start detector).coherence.entries a).reads i = 0 := fun a => by
    rw [entries_start]
    exact DirectoryLine.count_zero
  have hall := run_induction
    (I := fun w _ m => ∀ a, DirectoryLine.count (m.entries a).reads i ≠ 0 →
      ∃ y ∈ w, y.pid = i ∧ y.addr = a) tracks_start hv hrun
    (fun a hne => absurd (hstart a) hne) ?_
  · obtain ⟨htracks, hI⟩ := hall
    have hcount : 2 ≤ DirectoryLine.count (c.coherence.entries a).reads i :=
      (DirectoryLine.qualifiedReader_iff (by omega) (htracks.packed hn a)).mp hq
    exact hI a (by omega)
  · intro w x w' bs m pre post m' r hw htracks hstepped hI a hne
    have hx : x.pid < cfg.numProcessors := hv x (by simp [hw])
    have hold : DirectoryLine.count (m.entries a).reads i ≠ 0 ∨ x.pid = i ∧ x.addr = a := by
      -- a count only grows where its processor accesses the address
      rcases eq_or_ne a x.addr with rfl | ha
      · rw [hstepped.entries_self] at hne
        have hreads : (found m pre x).reads = (m.entries x.addr).reads := hstepped.fewer_found.reads
        rcases count_onEntry rfl rfl (by omega) (hreads ▸ htracks.packed hn _) hne with hold | hpid
        · exact Or.inl (hreads ▸ hold)
        · exact Or.inr ⟨hpid, rfl⟩
      · rw [(hstepped.fewer_of_ne ha).reads] at hne
        exact Or.inl hne
    rcases hold with hold | hself
    · obtain ⟨y, hy, hrest⟩ := hI a hold
      exact ⟨y, List.mem_append_left _ hy, hrest⟩
    · exact ⟨x, by simp, hself⟩

/-- **Conditions on steps.** If every step the condition allows preserves a
property, it holds throughout the runs that respect the condition. -/
theorem throughout_of_respects {P : Controller → Prop} {Q : Controller → Access → Prop}
    (hv : cfg.Valid t) (h0 : P (cfg.start detector))
    (hstep : ∀ u x c c' r, x.pid < cfg.numProcessors →
      Tracks cfg.numProcessors detector u c.coherence → P c → Q c x → c.step x = .ok (c', r) → P c')
    (h : cfg.Respects detector t Q) : cfg.Throughout detector t P := by
  intro u
  induction u using List.reverseRecOn with
  | nil =>
    intro v c rs _ hrun
    cases hrun
    exact h0
  | append_singleton u x ih =>
    intro v c rs ht hrun
    obtain ⟨c₀, rs₀, r, hrun₀, hs, rfl⟩ := run_snoc_eq_ok.mp hrun
    have ht' : t = u ++ x :: v := by simpa using ht
    have htracks : Tracks cfg.numProcessors detector u c₀.coherence :=
      (ensures_tracks fun y hy => hv y (by simp [ht', hy])).of_ok hrun₀
    exact hstep u x c₀ c r (hv x (by simp [ht'])) htracks (ih (x :: v) c₀ rs₀ ht' hrun₀)
      (h u x v c₀ rs₀ ht' hrun₀) hs

theorem respects_nil {Q : Controller → Access → Prop} : cfg.Respects detector [] Q := by
  intro u x v c rs h
  simp at h

/-- A condition on steps, by the last of them. -/
theorem Config.respects_snoc {Q : Controller → Access → Prop} :
    cfg.Respects detector (t ++ [x]) Q ↔
      cfg.Respects detector t Q ∧ ∀ c rs, cfg.run detector t = .ok (c, rs) → Q c x := by
  have hsplit := forall_prefix_snoc (l := t) (i := x) (Q := fun u y =>
    ∀ c rs, cfg.run detector u = .ok (c, rs) → Q c y)
  constructor
  · intro h
    obtain ⟨ht, hx⟩ := hsplit.mp fun u y v hu c rs => h u y v c rs hu
    exact ⟨fun u y v c rs hu => ht u y v hu c rs, hx⟩
  · rintro ⟨h, hx⟩ u y v c rs hu
    exact hsplit.mpr ⟨fun u y v hu c rs => h u y v c rs hu, hx⟩ u y v hu c rs

theorem Config.Respects.snoc {Q : Controller → Access → Prop} (h : cfg.Respects detector t Q)
    (hx : ∀ c rs, cfg.run detector t = .ok (c, rs) → Q c x) :
    cfg.Respects detector (t ++ [x]) Q :=
  respects_snoc.mpr ⟨h, hx⟩

/-- The other way: a run in which the property holds throughout respects
what its steps need. -/
theorem respects_of_throughout {P : Controller → Prop} {Q : Controller → Access → Prop}
    (hv : cfg.Valid t) (hrun : cfg.run detector t = .ok (c, rs))
    (hstep : ∀ u x c c' r, x.pid < cfg.numProcessors →
      Tracks cfg.numProcessors detector u c.coherence → P c → P c' → c.step x = .ok (c', r) → Q c x)
    (h : cfg.Throughout detector t P) : cfg.Respects detector t Q := by
  rintro u x v c₀ rs₀ rfl hrun₀
  obtain ⟨c₁, _, _, hrun₁, hrest, -⟩ := run_append_eq_ok.mp hrun
  cases hrun₀.symm.trans hrun₁
  obtain ⟨c₂, r, _, hs, -, -⟩ := run_cons_eq_ok.mp hrest
  have htracks : Tracks cfg.numProcessors detector u c₀.coherence :=
    (ensures_tracks fun y hy => hv y (by simp [hy])).of_ok hrun₀
  refine hstep u x c₀ c₂ r (hv x (by simp)) htracks (h u (x :: v) c₀ rs₀ rfl hrun₀)
    (h (u ++ [x]) v c₂ (rs₀ ++ [r]) (by simp) ?_) hs
  exact run_snoc_eq_ok.mpr ⟨c₀, rs₀, r, hrun₀, hs, rfl⟩

/-- **The rule of runs for the whole controller**, with the accesses and
the reports so far at hand. -/
theorem Config.induction_of_run {I : List Access → List Report → Controller → Prop}
    (hv : cfg.Valid t) (hrun : cfg.run detector t = .ok (c, rs)) (h0 : I [] [] (cfg.start detector))
    (hstep : ∀ u x v bs c c' r, t = u ++ x :: v → x.pid < cfg.numProcessors →
      cfg.run detector u = .ok (c, bs) → Tracks cfg.numProcessors detector u c.coherence →
      I u bs c → c.step x = .ok (c', r) → I (u ++ [x]) (bs ++ [r]) c') : I t rs c := by
  refine ((ensures_run (E := (· = .lru)) (I := fun u bs (c : Controller) =>
    cfg.run detector u = .ok (c, bs) ∧ Tracks cfg.numProcessors detector u c.coherence ∧ I u bs c)
    ⟨rfl, tracks_start, h0⟩ ?_).of_ok hrun).2.2
  rintro u x v bs c ht ⟨hrun₀, htracks, hI⟩
  have hx : x.pid < cfg.numProcessors := hv x (by simp [ht])
  refine (ensures_step cfg.numProcessors_le htracks hx).mono ?_
  rintro ⟨c', r⟩ hok ⟨pre, post, hstepped⟩
  exact ⟨run_snoc_eq_ok.mpr ⟨c, bs, r, hrun₀, hok, rfl⟩, hstepped.tracks htracks hx,
    hstep u x v bs c c' r ht hx hrun₀ htracks hI hok⟩

/-- A run is its responses' run. -/
theorem exists_of_responses {ys : List AccessType} {y : AccessType}
    (h : cfg.responses detector t = .ok (ys ++ [y])) :
    ∃ c rs r, cfg.run detector t = .ok (c, rs ++ [r]) ∧ r.response = y := by
  obtain ⟨⟨c, all⟩, hrun, hall⟩ := bind_eq_ok.mp h
  obtain ⟨rs, r, rfl⟩ : ∃ rs r, all = rs ++ [r] := by
    rcases List.eq_nil_or_concat all with rfl | ⟨rs, r, rfl⟩
    · exact absurd (Except.ok.inj hall) (by simp)
    · exact ⟨rs, r, by simp⟩
  have hmap := Except.ok.inj hall
  rw [List.map_append, List.map_singleton] at hmap
  exact ⟨c, rs, r, hrun, List.singleton_inj.mp (List.append_inj' hmap rfl).2⟩

end AdaptiveMsi
