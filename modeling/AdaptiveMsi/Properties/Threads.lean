import AdaptiveMsi.Model.Callbacks
import AdaptiveMsi.Controller.Reached
import Mathlib.Tactic.Ring
/-!
# Threads and processors

A thread that lives has a processor, and its accesses are accesses of that
processor: what the callbacks make of the caches is a run. The counter
that assigns the processors does not wrap around. The first threads get a
processor each, and every later one gets processor `0`.
-/

namespace AdaptiveMsi

open Machine

/-! ## Sequences of callbacks -/

namespace Callback

/-- The threads that live after a callback. -/
def note (live : ℕ → Bool) : Callback → ℕ → Bool
  | threadAttach tid => Function.update live tid true
  | threadDetach tid => Function.update live tid false
  | cacheLoad _ _ => live
  | cacheStore _ _ => live

def isAttach : Callback → Bool
  | threadAttach _ => true
  | _ => false

/-- A thread starts or ends. -/
def IsThread : Callback → Prop
  | threadAttach _ => True
  | threadDetach _ => True
  | cacheLoad _ _ => False
  | cacheStore _ _ => False

instance : DecidablePred IsThread := fun e => by
  cases e <;> unfold IsThread <;> infer_instance

end Callback

/-- The threads that live after a sequence of callbacks. -/
def live (es : List Callback) : ℕ → Bool := es.foldl Callback.note fun _ => false

/-- The number of threads started. -/
def attaches (es : List Callback) : ℕ := es.countP Callback.isAttach

/-- What the instrumentation promises: a thread starts when it does not
live, and all else is called on a thread that does. -/
def Legal (es : List Callback) : Prop :=
  ∀ u e v, es = u ++ e :: v → live u e.tid = !e.isAttach

/-- The number of threads `pid` was assigned. -/
def assigned (out : List Answer) (pid : ℕ) : ℕ := out.count (.attached pid)

/-- `k` threads are spread evenly over `n` processors: each was assigned
`k / n` threads, rounded down or up. -/
def SpreadEvenly (n k : ℕ) (out : List Answer) : Prop :=
  ∀ pid < n, assigned out pid = k / n ∨ assigned out pid = (k + n - 1) / n

/-- What an access callback asks of the caches. -/
def Callback.demand : Callback → Option (AccessKind × Addr)
  | threadAttach _ => none
  | threadDetach _ => none
  | cacheLoad _ addr => some (.load, addr)
  | cacheStore _ addr => some (.store, addr)

/-- The report of an access. -/
def Answer.report : Answer → Option Report
  | attached _ => none
  | detached => none
  | reported r => some r

variable {es u v : List Callback} {e : Callback} {out : List Answer} {s s' : Simulator}
variable {b : Answer} {n k tid pid : ℕ}

@[simp] theorem live_snoc : live (es ++ [e]) = e.note (live es) := by
  simp [live]

@[simp] theorem attaches_snoc :
    attaches (es ++ [e]) = attaches es + if e.isAttach then 1 else 0 := by
  simp [attaches, List.countP_append, List.countP_cons]

theorem legal_nil : Legal [] := fun u e v h => by simp at h

theorem legal_snoc : Legal (es ++ [e]) ↔ Legal es ∧ live es e.tid = !e.isAttach :=
  forall_prefix_snoc (Q := fun u e => live u e.tid = !e.isAttach)

@[simp] theorem assigned_snoc :
    assigned (out ++ [b]) pid = assigned out pid + if b = .attached pid then 1 else 0 := by
  simp [assigned, List.count_append, List.count_singleton]

/-! ## One callback -/

namespace Simulator

theorem getPid_eq_ok : s.getPid tid = .ok pid ↔ s.tMap tid = some pid := by
  unfold getPid
  cases s.tMap tid <;> simp

theorem threadDetach_eq_ok : s.threadDetach tid = .ok s' ↔
    (s.tMap tid).isSome ∧ s' = { s with tMap := Function.update s.tMap tid none } := by
  unfold threadDetach
  cases s.tMap tid with
  | none => simp
  | some pid => simp [eq_comm]

/-- An access is one of the thread's processor. -/
theorem access_eq_ok {kind : AccessKind} {addr : Addr} {r : Report}
    (h : s.access kind tid addr = .ok (s', r)) :
    ∃ pid c, s.tMap tid = some pid ∧ s.controller.step ⟨kind, pid, addr⟩ = .ok (c, r) ∧
      s' = { s with controller := c } := by
  obtain ⟨pid, hpid, h⟩ := bind_eq_ok.mp h
  obtain ⟨⟨c, r'⟩, hstep, h⟩ := bind_eq_ok.mp h
  cases h
  refine ⟨pid, c, getPid_eq_ok.mp hpid, ?_, rfl⟩
  cases hok : s.controller.step ⟨kind, pid, addr⟩ with
  | ok p =>
    rw [hok] at hstep
    cases hstep
    rfl
  | error e =>
    rw [hok] at hstep
    cases hstep

/-- **What a callback does**: it starts a thread, ends one, or is an access
of a thread's processor. -/
theorem callback_cases (h : s.callback e = .ok (s', b)) :
    (∃ tid, e = .threadAttach tid ∧ b = .attached s.getNextPid.1 ∧
      s' = { s with
        nextPid := s.getNextPid.2
        tMap := Function.update s.tMap tid (some s.getNextPid.1) }) ∨
    (∃ tid, e = .threadDetach tid ∧ b = .detached ∧
      s' = { s with tMap := Function.update s.tMap tid none }) ∨
    ∃ x c r, s.tMap e.tid = some x.pid ∧ (e.isAttach = false ∧ ∀ live, e.note live = live) ∧
      b = .reported r ∧ s.controller.step x = .ok (c, r) ∧ s' = { s with controller := c } := by
  cases e with
  | threadAttach tid =>
    cases h
    exact Or.inl ⟨tid, rfl, rfl, rfl⟩
  | threadDetach tid =>
    obtain ⟨s₁, hdetach, h⟩ := bind_eq_ok.mp h
    cases h
    exact Or.inr (Or.inl ⟨tid, rfl, rfl, (threadDetach_eq_ok.mp hdetach).2⟩)
  | cacheLoad tid addr =>
    obtain ⟨⟨s₁, r⟩, haccess, h⟩ := bind_eq_ok.mp h
    cases h
    obtain ⟨pid, c, htid, hstep, hs⟩ := access_eq_ok haccess
    exact Or.inr (Or.inr ⟨⟨.load, pid, addr⟩, c, r, htid, ⟨rfl, fun _ => rfl⟩, rfl, hstep, hs⟩)
  | cacheStore tid addr =>
    obtain ⟨⟨s₁, r⟩, haccess, h⟩ := bind_eq_ok.mp h
    cases h
    obtain ⟨pid, c, htid, hstep, hs⟩ := access_eq_ok haccess
    exact Or.inr (Or.inr ⟨⟨.store, pid, addr⟩, c, r, htid, ⟨rfl, fun _ => rfl⟩, rfl, hstep, hs⟩)

/-- A thread starts, or ends while it lives, without an assertion
failing. -/
theorem exists_callback (h : e.IsThread) (hlive : e.isAttach = false → (s.tMap e.tid).isSome) :
    ∃ r, s.callback e = .ok r := by
  cases e with
  | threadAttach tid => exact ⟨_, rfl⟩
  | threadDetach tid =>
    have hok : s.threadDetach tid = .ok _ := threadDetach_eq_ok.mpr ⟨hlive rfl, rfl⟩
    simp only [callback, hok]
    exact ⟨_, rfl⟩
  | cacheLoad tid addr => exact h.elim
  | cacheStore tid addr => exact h.elim

end Simulator

/-! ## The map and the counter -/

/-- What `k` attaches assigned to `pid`: each of the first `n` threads got
a processor of its own, and processor `0` all that came later. -/
def share (n k pid : ℕ) : ℕ := (if pid < min k n then 1 else 0) + if pid = 0 then k - n else 0

/-- The variables after the callbacks `u`, which answered `out`. -/
structure Simulator.Holds (n : ℕ) (u : List Callback) (out : List Answer) (s : Simulator) :
    Prop where
  numProcessors : s.numProcessors = n
  nextPid : s.nextPid = min (attaches u) n
  mapped : ∀ tid, live u tid = (s.tMap tid).isSome
  lt : ∀ tid pid, s.tMap tid = some pid → pid < n
  share : ∀ pid, assigned out pid = share n (attaches u) pid

namespace Simulator

theorem Holds.getNextPid (h : s.Holds n u out) (hn : 0 < n) :
    s.getNextPid.1 = (if attaches u < n then attaches u else 0) ∧
      s.getNextPid.2 = min (attaches u + 1) n := by
  unfold Simulator.getNextPid
  rw [h.nextPid, h.numProcessors]
  split <;> split <;> constructor <;> simp only [] <;> omega

/-- A thread is mapped while it lives. -/
theorem Holds.mapped_update (h : s.Holds n u out) (o : Option ℕ) (t : ℕ) :
    Function.update (live u) tid o.isSome t = (Function.update s.tMap tid o t).isSome := by
  rw [Function.update_apply, Function.update_apply]
  split
  · rfl
  · exact h.mapped t

/-- **One callback** keeps what the map and the counter hold. -/
theorem Holds.callback (hn : 0 < n) (h : s.Holds n u out) (hcall : s.callback e = .ok (s', b)) :
    s'.Holds n (u ++ [e]) (out ++ [b]) := by
  rcases callback_cases hcall with ⟨tid, rfl, rfl, rfl⟩ | ⟨tid, rfl, rfl, rfl⟩ |
    ⟨x, c, r, -, ⟨hattach, hnote⟩, rfl, -, rfl⟩
  · obtain ⟨hpid, hnext⟩ := h.getNextPid hn
    refine ⟨h.numProcessors, ?_, fun t => ?_, fun t pid => ?_, fun pid => ?_⟩
    · simpa [Callback.isAttach] using hnext
    · rw [live_snoc]
      exact h.mapped_update (some _) t
    · simp only [Function.update_apply]
      split
      · rintro ⟨⟩
        rw [hpid]
        split <;> omega
      · exact h.lt t pid
    · simp only [assigned_snoc, h.share, hpid, attaches_snoc, Callback.isAttach, if_true,
        Answer.attached.injEq, AdaptiveMsi.share]
      grind
  · refine ⟨h.numProcessors, ?_, fun t => ?_, fun t pid => ?_, fun pid => ?_⟩
    · simpa [Callback.isAttach] using h.nextPid
    · rw [live_snoc]
      exact h.mapped_update none t
    · simp only [Function.update_apply]
      split
      · rintro ⟨⟩
      · exact h.lt t pid
    · simpa [Callback.isAttach] using h.share pid
  · refine ⟨h.numProcessors, ?_, fun t => ?_, h.lt, fun pid => ?_⟩
    · simpa [hattach] using h.nextPid
    · rw [live_snoc, hnote]
      exact h.mapped t
    · simpa [hattach] using h.share pid

theorem holds_attach {c : Controller} : (attach n c).Holds n [] [] where
  numProcessors := rfl
  nextPid := (Nat.zero_min n).symm
  mapped _ := rfl
  lt _ _ h := nomatch h
  share pid := by simp [assigned, attaches, AdaptiveMsi.share]

/-- **Every run of callbacks** keeps what the map and the counter hold. -/
theorem holds_of_run (hn : 0 < n) {c : Controller}
    (hrun : run callback (attach n c) es = .ok (s, out)) : s.Holds n es out := by
  have hall : Ensures (fun _ => True) (fun r => Holds n es r.2 r.1)
      (run callback (attach n c) es) := by
    refine ensures_run (I := fun u out s => Holds n u out s) holds_attach ?_
    intro u e v out s hl h
    cases hcall : s.callback e with
    | error e => trivial
    | ok r => exact h.callback hn hcall
  exact hall.of_ok hrun

/-- Threads start and end without an assertion failing. -/
theorem exists_run (hn : 0 < n) {c : Controller} (hthread : ∀ e ∈ es, e.IsThread)
    (hlegal : Legal es) : ∃ s out, run callback (attach n c) es = .ok (s, out) := by
  have hall : Ensures (fun _ => False) (fun r => Holds n es r.2 r.1)
      (run callback (attach n c) es) := by
    refine ensures_run (I := fun u out s => Holds n u out s) holds_attach ?_
    intro u e v out s hl h
    have hsome : e.isAttach = false → (s.tMap e.tid).isSome := fun hattach => by
      rw [← h.mapped, hlegal u e v hl, hattach]
      rfl
    obtain ⟨r, hcall⟩ := exists_callback (hthread e (by simp [hl])) hsome
    rw [hcall]
    exact h.callback hn hcall
  obtain ⟨⟨s, out⟩, hok, -⟩ := hall.exists_ok
  exact ⟨s, out, hok⟩

/-- A thread that lives has a processor. -/
theorem Holds.exists_getPid (h : s.Holds n es out) (hlive : live es tid = true) :
    ∃ pid < n, s.getPid tid = .ok pid := by
  rw [h.mapped] at hlive
  obtain ⟨pid, hpid⟩ := Option.isSome_iff_exists.mp hlive
  exact ⟨pid, h.lt tid pid hpid, getPid_eq_ok.mpr hpid⟩

end Simulator

/-! ## How evenly -/

/-- **The surplus of processor `0`** is even with the others only while it
is one thread, or where there are no others. -/
theorem share_even_iff (hn : 0 < n) :
    (∀ pid < n, share n k pid = k / n ∨ share n k pid = (k + n - 1) / n) ↔ n = 1 ∨ k ≤ n + 1 := by
  constructor
  · intro h
    by_contra! hmany
    obtain ⟨hne, hk⟩ := hmany
    obtain ⟨j, rfl⟩ := Nat.exists_eq_add_of_lt hk
    have hzero := h 0 hn
    have hup : (n + 1 + j + 1 + n - 1) / n < j + 3 := by
      have hwide : (j + 1) * 2 ≤ (j + 1) * n := Nat.mul_le_mul_left _ (by omega)
      have hsum : (j + 3) * n = (j + 1) * n + 2 * n := by ring
      rw [Nat.div_lt_iff_lt_mul hn, hsum]
      omega
    have hdown : (n + 1 + j + 1) / n ≤ (n + 1 + j + 1 + n - 1) / n :=
      Nat.div_le_div_right (by omega)
    have hshare : share n (n + 1 + j + 1) 0 = j + 3 := by
      rw [share, if_pos (by omega), if_pos rfl]
      omega
    omega
  · rintro (rfl | hk) pid hpid
    · have hzero : pid = 0 := by omega
      left
      rw [hzero, share, Nat.div_one, if_pos rfl]
      split <;> omega
    · rcases Nat.lt_trichotomy k n with hlt | rfl | hgt
      · -- some processors have one thread, the others none
        have hdown : k / n = 0 := Nat.div_eq_of_lt hlt
        unfold share
        split
        · right
          have hup : (k + n - 1) / n = 1 := Nat.div_eq_of_lt_le (by omega) (by omega)
          rw [hup]
          split <;> omega
        · left
          rw [hdown]
          split <;> omega
      · left
        rw [Nat.div_self hn, share, if_pos (by omega)]
        split <;> omega
      · -- one thread more than there are processors
        obtain rfl : k = n + 1 := by omega
        have hup : (n + 1 + n - 1) / n = 2 := Nat.div_eq_of_lt_le (by omega) (by omega)
        rw [hup, share, if_pos (by omega)]
        split
        · right
          omega
        · left
          have hdown : (n + 1) / n = 1 := Nat.div_eq_of_lt_le (by omega) (by omega)
          omega

/-- **Every thread that lives has a processor**, whatever starts and ends,
and the threads are spread evenly over the processors exactly as long as
at most one more was started than there are processors, or there is only
one. -/
theorem spreadEvenly_iff (n numSets lineSize setSize : ℕ) (hn : 1 ≤ n) (es : List Callback)
    (hthread : ∀ e ∈ es, e.IsThread) (hlegal : Legal es) :
    ∃ s out, run Simulator.callback (.processAttach n numSets lineSize setSize) es = .ok (s, out) ∧
      (∀ tid, live es tid = true → ∃ pid < n, s.getPid tid = .ok pid) ∧
      (SpreadEvenly n (attaches es) out ↔ n = 1 ∨ attaches es ≤ n + 1) := by
  obtain ⟨s, out, hrun⟩ := Simulator.exists_run (n := n) hn hthread hlegal
  have hs := Simulator.holds_of_run hn hrun
  refine ⟨s, out, hrun, fun tid hlive => hs.exists_getPid hlive, ?_⟩
  simp only [SpreadEvenly, hs.share]
  exact share_even_iff hn

/-- Three threads on two processors, the first of which has ended. -/
theorem spreadEvenly_iff_two :
    let es : List Callback := [.threadAttach 0, .threadAttach 1, .threadDetach 0, .threadAttach 2]
    ∃ s out, run Simulator.callback (.processAttach 2 1 2 1) es = .ok (s, out) ∧
      (∀ tid, live es tid = true → ∃ pid < 2, s.getPid tid = .ok pid) ∧
      (SpreadEvenly 2 (attaches es) out ↔ 2 = 1 ∨ attaches es ≤ 2 + 1) := by
  intro es
  have h1 : Legal ([] ++ [.threadAttach 0]) := legal_snoc.mpr ⟨legal_nil, rfl⟩
  have h2 : Legal ([.threadAttach 0] ++ [.threadAttach 1]) := legal_snoc.mpr ⟨h1, rfl⟩
  have h3 : Legal ([.threadAttach 0, .threadAttach 1] ++ [.threadDetach 0]) :=
    legal_snoc.mpr ⟨h2, rfl⟩
  have h4 : Legal es := legal_snoc.mpr ⟨h3, rfl⟩
  exact spreadEvenly_iff 2 1 2 1 (by decide) es (by decide) h4

/-- **Four threads on two processors**: three of them are given processor
`0`. -/
theorem threads_pile_up :
    ∃ s out, run Simulator.callback (.processAttach 2 1 2 1)
        [.threadAttach 0, .threadAttach 1, .threadAttach 2, .threadAttach 3] = .ok (s, out) ∧
      assigned out 0 = 3 ∧ assigned out 1 = 1 ∧ ¬ SpreadEvenly 2 4 out := by
  refine ⟨_, _, rfl, by decide, by decide, fun h => ?_⟩
  exact absurd (h 0 (by omega)) (by decide)

/-! ## The callbacks and the runs -/

namespace Simulator

variable {cfg : Config} {detector : Bool}

/-- The caches after the callbacks `u`: those of a run. -/
def Runs (cfg : Config) (detector : Bool) (u : List Callback) (out : List Answer)
    (s : Simulator) : Prop :=
  ∃ t, cfg.Valid t ∧ cfg.run detector t = .ok (s.controller, out.filterMap Answer.report) ∧
    t.map (fun x => (x.kind, x.addr)) = u.filterMap Callback.demand

/-- A thread that starts or ends leaves the caches alone. -/
theorem Runs.of_demand_eq_none (hruns : s.Runs cfg detector u out) (he : e.demand = none)
    (hb : b.report = none) (hs : s'.controller = s.controller) :
    s'.Runs cfg detector (u ++ [e]) (out ++ [b]) := by
  obtain ⟨t, hv, hrun, hmap⟩ := hruns
  refine ⟨t, hv, ?_, ?_⟩
  · rw [hrun, hs, List.filterMap_append, List.filterMap_cons_none hb, List.filterMap_nil,
      List.append_nil]
  · rw [hmap, List.filterMap_append, List.filterMap_cons_none he, List.filterMap_nil,
      List.append_nil]

/-- A thread's access takes the run one step on. -/
theorem ensures_access {kind : AccessKind} {addr : Addr}
    (h : s.Holds cfg.numProcessors u out) (hlive : live u tid = true)
    (hruns : s.Runs cfg detector u out) (he : e.demand = some (kind, addr)) :
    Ensures (· = .access .lru) (fun r => r.1.Runs cfg detector (u ++ [e]) (out ++ [.reported r.2]))
      (s.access kind tid addr) := by
  obtain ⟨pid, hlt, hpid⟩ := h.exists_getPid hlive
  obtain ⟨t, hv, hrun, hmap⟩ := hruns
  have hx : (⟨kind, pid, addr⟩ : Access).pid < cfg.numProcessors := hlt
  have hstep := ensures_step cfg.numProcessors_le ((ensures_tracks hv).of_ok hrun) hx
  rw [access, hpid, ok_bind]
  cases hok : s.controller.step ⟨kind, pid, addr⟩ with
  | error e => exact congrArg _ (hstep.of_error hok)
  | ok r =>
    refine ⟨t ++ [⟨kind, pid, addr⟩], ?_, ?_, ?_⟩
    · exact List.forall_mem_append.mpr ⟨hv, List.forall_mem_singleton.mpr hx⟩
    · rw [List.filterMap_append]
      exact run_snoc_eq_ok.mpr ⟨_, _, _, hrun, hok, rfl⟩
    · simp [List.filterMap_append, hmap, he]

/-- **What the callbacks make of the caches is a run** of the accesses they
are asked for, each made by a simulated processor. No assertion on the
map of the threads fails. -/
theorem ensures_runs (hlegal : Legal es) :
    Ensures (· = .access .lru) (fun r => r.1.Runs cfg detector es r.2)
      (run callback (attach cfg.numProcessors (cfg.start detector)) es) := by
  have hn := cfg.numProcessors_pos
  refine (ensures_run (I := fun u out s => Holds cfg.numProcessors u out s ∧
    s.Runs cfg detector u out) ⟨holds_attach, [], ?_, rfl, rfl⟩ ?_).mono fun _ _ h => h.2
  · simp [Config.Valid]
  · rintro u e v out s hl ⟨h, hruns⟩
    have hlive := hlegal u e v hl
    suffices hs : Ensures (· = .access .lru)
        (fun r => r.1.Runs cfg detector (u ++ [e]) (out ++ [r.2])) (s.callback e) from
      hs.mono fun r hok hr => ⟨h.callback hn hok, hr⟩
    cases e with
    | threadAttach tid => exact hruns.of_demand_eq_none rfl rfl rfl
    | threadDetach tid =>
      have hsome : (s.tMap tid).isSome := (h.mapped tid).symm.trans hlive
      have hok : s.threadDetach tid = .ok _ := threadDetach_eq_ok.mpr ⟨hsome, rfl⟩
      simp only [callback, hok]
      exact hruns.of_demand_eq_none rfl rfl rfl
    | cacheLoad tid addr =>
      exact (ensures_access h hlive hruns rfl).bind fun r _ hr => hr
    | cacheStore tid addr =>
      exact (ensures_access h hlive hruns rfl).bind fun r _ hr => hr

end Simulator

end AdaptiveMsi
