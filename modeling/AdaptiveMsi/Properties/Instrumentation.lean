import AdaptiveMsi.Common.Shards
import AdaptiveMsi.Model.Instrument
import AdaptiveMsi.Properties.Assertions
import AdaptiveMsi.Properties.Report
import AdaptiveMsi.Properties.Threads
/-!
# The tool

Whatever the threads of a program do and however they interleave, no
callback fails, and the report accounts for the memory operands of the
executed instructions: each is one load or one store of the address its
instruction was called with.
-/

namespace AdaptiveMsi

open Machine

variable {es u v w : List Callback} {e : Callback} {tid : ℕ} {lives : List (List Execution)}
variable {xs : List Execution} {x : Execution}

/-! ## Threads -/

/-- A thread lives by its own callbacks. -/
theorem live_filter : live (es.filter (·.tid = tid)) tid = live es tid := by
  induction es using List.reverseRecOn with
  | nil => rfl
  | append_singleton es e ih =>
    rw [List.filter_append, live_snoc]
    by_cases he : e.tid = tid
    · rw [List.filter_cons_of_pos (by simpa using he), List.filter_nil, live_snoc]
      subst he
      cases e with
      | threadAttach t => simp [Callback.note, Callback.tid]
      | threadDetach t => simp [Callback.note, Callback.tid]
      | cacheLoad t a | cacheStore t a => exact ih
    · rw [List.filter_cons_of_neg (by simpa using he), List.filter_nil, List.append_nil, ih]
      cases e with
      | threadAttach t | threadDetach t => exact (Function.update_of_ne (Ne.symm he) _ _).symm
      | cacheLoad t a | cacheStore t a => rfl

/-- What is legal on every thread is legal. -/
theorem legal_of_filter (h : ∀ tid, Legal (es.filter (·.tid = tid))) : Legal es := by
  intro u e v hl
  have hpart : es.filter (·.tid = e.tid) =
      u.filter (·.tid = e.tid) ++ e :: v.filter (·.tid = e.tid) := by
    rw [hl, List.filter_append, List.filter_cons_of_pos (by simp)]
  have hlive := h e.tid _ e _ hpart
  rwa [live_filter] at hlive

/-- Accesses are legal on a thread that lives. -/
theorem legal_append (h : Legal u) (hlive : live u tid = true)
    (hw : ∀ e ∈ w, e.tid = tid ∧ e.demand.isSome) :
    Legal (u ++ w) ∧ live (u ++ w) tid = true := by
  induction w using List.reverseRecOn with
  | nil =>
    rw [List.append_nil]
    exact ⟨h, hlive⟩
  | append_singleton w e ih =>
    obtain ⟨hlegal, hlive⟩ := ih fun e he => hw e (by simp [he])
    obtain ⟨rfl, hdemand⟩ := hw e (by simp)
    rw [← List.append_assoc, legal_snoc, live_snoc]
    cases e with
    | threadAttach t | threadDetach t => simp [Callback.demand] at hdemand
    | cacheLoad t a | cacheStore t a => exact ⟨⟨hlegal, hlive⟩, hlive⟩

theorem callbacks_demand (he : e ∈ x.callbacks tid) : e.tid = tid ∧ e.demand.isSome := by
  rw [Execution.callbacks] at he
  split at he
  · obtain ⟨routine, -, rfl⟩ := List.mem_map.mp he
    cases routine with
    | cacheLoad | cacheStore => exact ⟨rfl, rfl⟩
  · simp at he

/-- **The threads on one id** are legal, one after the other. -/
theorem legal_lives : Legal (lives.flatMap (threadCallbacks tid)) ∧
    live (lives.flatMap (threadCallbacks tid)) tid = false := by
  induction lives using List.reverseRecOn with
  | nil => exact ⟨legal_nil, rfl⟩
  | append_singleton lives xs ih =>
    obtain ⟨hlegal, hlive⟩ := ih
    set u := lives.flatMap (threadCallbacks tid)
    have hstart : Legal (u ++ [.threadAttach tid]) := legal_snoc.mpr ⟨hlegal, hlive⟩
    have hstarted : live (u ++ [.threadAttach tid]) tid = true := by
      rw [live_snoc]
      exact Function.update_self _ _ _
    obtain ⟨hrun, hrunning⟩ := legal_append (w := xs.flatMap (·.callbacks tid)) hstart hstarted
      fun e he => by
        obtain ⟨x, -, he⟩ := List.mem_flatMap.mp he
        exact callbacks_demand he
    have hsplit : (lives ++ [xs]).flatMap (threadCallbacks tid) =
        (u ++ [.threadAttach tid] ++ xs.flatMap (·.callbacks tid)) ++ [.threadDetach tid] := by
      simp [u, threadCallbacks]
    rw [hsplit, legal_snoc, live_snoc]
    exact ⟨⟨hrun, hrunning⟩, Function.update_self _ _ _⟩

namespace Program

variable {P : Program}

theorem Interleaves.legal (h : P.Interleaves es) : Legal es :=
  legal_of_filter fun tid => by
    rw [h tid]
    exact legal_lives.1

theorem Interleaves.mem_threads (h : P.Interleaves es) (he : e ∈ es) : e.tid ∈ P.threads := by
  by_contra hne
  have hnil := h e.tid
  rw [callbacks, P.lives_eq_nil _ hne, List.flatMap_nil] at hnil
  have hmem : e ∈ es.filter (·.tid = e.tid) := List.mem_filter.mpr ⟨he, by simp⟩
  simp [hnil] at hmem

end Program

/-! ## Short runs -/

namespace Simulator

variable {cfg : Config} {detector : Bool} {s : Simulator} {out : List Answer} {k : ℕ}

theorem ensures_access_below {kind : AccessKind} {addr : Addr} (hk : k + 6 < 2 ^ 64 - 1)
    (h : s.controller.Below k) : Ensures (· ≠ .access .lru) (fun r => r.1.controller.Below (k + 4))
      (s.access kind tid addr) := by
  rw [access, getPid]
  cases s.tMap tid with
  | none => simp
  | some pid =>
    have hstep := Controller.ensures_step_below (x := ⟨kind, pid, addr⟩) hk h
    simp only [ok_bind]
    cases hok : s.controller.step ⟨kind, pid, addr⟩ with
    | error e =>
      intro he
      exact hstep.of_error hok (CallbackFailure.access.inj he)
    | ok r => exact hstep.of_ok hok

/-- **Few callbacks return**: `2 ^ 62 - 1` accesses are too many. -/
theorem exists_runs (cfg : Config) (detector : Bool) (hlegal : Legal es)
    (hshort : (es.filterMap Callback.demand).length < 2 ^ 62 - 1) :
    ∃ s out, run callback (attach cfg.numProcessors (cfg.start detector)) es = .ok (s, out) ∧
      s.Runs cfg detector es out := by
  have hbelow : Ensures (· ≠ .access .lru) (fun _ : Simulator × List Answer => True)
      (run callback (attach cfg.numProcessors (cfg.start detector)) es) := by
    refine (ensures_run (I := fun u _ (s : Simulator) =>
      s.controller.Below (4 * (u.filterMap Callback.demand).length)) ?_ ?_).mono
        fun _ _ _ => trivial
    · intro p i l hl
      have hempty : l = .empty := List.eq_of_mem_replicate hl
      rw [hempty]
      exact Nat.zero_le _
    · intro u e v _ s hl h
      have hlen : (es.filterMap Callback.demand).length = (u.filterMap Callback.demand).length +
          ([e].filterMap Callback.demand).length + (v.filterMap Callback.demand).length := by
        rw [hl, List.append_cons, List.filterMap_append, List.filterMap_append, List.length_append,
          List.length_append]
      rw [List.filterMap_append, List.length_append]
      cases e with
      | threadAttach tid => exact h
      | threadDetach tid =>
        simp only [callback, threadDetach]
        split
        · exact h
        · simp
      | cacheLoad tid addr | cacheStore tid addr =>
        have hone : (u.filterMap Callback.demand).length + 1 < 2 ^ 62 := by
          simp [Callback.demand] at hlen
          omega
        exact (ensures_access_below (by omega) h).bind fun r _ hr => hr
  cases hrun : run callback (attach cfg.numProcessors (cfg.start detector)) es with
  | error e =>
    have hlru : e = .access .lru := (ensures_runs hlegal).of_error hrun
    exact absurd hlru (hbelow.of_error hrun)
  | ok r => exact ⟨r.1, r.2, rfl, (ensures_runs hlegal).of_ok hrun⟩

end Simulator

/-! ## Counting operands -/

/-- The operands of an execution that `q` holds of. -/
def Execution.count (q : AccessKind → Addr → Bool) (x : Execution) : ℕ :=
  if x.predicate then
    (if q .load x.readEA then x.memOperands.countP (·.isRead) else 0) +
      if q .store x.writeEA then x.memOperands.countP (·.isWritten) else 0
  else 0

/-- The operands of a program that `q` holds of. -/
def Program.count (P : Program) (q : AccessKind → Addr → Bool) : ℕ :=
  ∑ tid ∈ P.threads, ((P.lives tid).flatten.map (·.count q)).sum

/-- A callback is an access `q` holds of. -/
def Callback.asks (q : AccessKind → Addr → Bool) (e : Callback) : Bool :=
  (e.demand.map fun d => q d.1 d.2).getD false

variable {q : AccessKind → Addr → Bool}

/-- **An execution** calls back once for each operand. -/
theorem countP_callbacks : (x.callbacks tid).countP (Callback.asks q) = x.count q := by
  have hinsert : ∀ ops : List MemoryOperand,
      ((instruction ops).map (x.call tid)).countP (Callback.asks q) =
        (if q .load x.readEA then ops.countP (·.isRead) else 0) +
          if q .store x.writeEA then ops.countP (·.isWritten) else 0 := by
    intro ops
    induction ops with
    | nil => simp [instruction]
    | cons op ops ih =>
      have hop : ((insertBody op).map (x.call tid)).countP (Callback.asks q) =
          (if q .load x.readEA ∧ op.isRead then 1 else 0) +
            if q .store x.writeEA ∧ op.isWritten then 1 else 0 := by
        obtain ⟨isRead, isWritten⟩ := op
        cases hload : q .load x.readEA <;> cases hstore : q .store x.writeEA <;>
          cases isRead <;> cases isWritten <;>
          simp [insertBody, Execution.call, Callback.asks, Callback.demand, hload, hstore]
      rw [instruction, List.flatMap_cons, List.map_append, List.countP_append, ← instruction, ih,
        hop, List.countP_cons, List.countP_cons]
      cases q .load x.readEA <;> cases q .store x.writeEA <;> simp <;> omega
  rw [Execution.callbacks, Execution.count]
  split
  · exact hinsert _
  · rfl

theorem countP_threadCallbacks :
    (threadCallbacks tid xs).countP (Callback.asks q) = (xs.map (·.count q)).sum := by
  have hends : Callback.asks q (.threadAttach tid) = false ∧
      Callback.asks q (.threadDetach tid) = false := ⟨rfl, rfl⟩
  simp only [threadCallbacks, List.countP_cons, List.countP_append, List.countP_nil, hends,
    List.countP_flatMap, Function.comp_def, countP_callbacks]
  simp

namespace Program

variable {P : Program}

/-- **Every interleaving** has the program's accesses. -/
theorem Interleaves.countP (h : P.Interleaves es) :
    (es.filterMap Callback.demand).countP (fun d => q d.1 d.2) = P.count q := by
  rw [List.countP_filterMap]
  change es.countP (Callback.asks q) = _
  rw [countP_eq_sum_filter _ fun e he => h.mem_threads he, Program.count]
  refine Finset.sum_congr rfl fun tid _ => ?_
  rw [h tid, callbacks, List.countP_flatMap, List.map_flatten, List.sum_flatten, List.map_map]
  simp only [Function.comp_def, countP_threadCallbacks]

/-- **What the report says of a program**, in the profile `p` of `n`
processors. -/
structure Reported (P : Program) (n : ℕ) (p : Profile) : Prop where
  line : ∀ k a, ((p.lineStat a).of k).hits + ((p.lineStat a).of k).misses =
    P.count fun k' b => k' = k ∧ b = a
  lineCount : ∀ a, (p.lineStat a).count = P.count fun _ b => b = a
  allLoads : (p.statsLoop n).1.allLoads = P.count fun k _ => k = .load
  allAccesses : (p.statsLoop n).1.allHits + (p.statsLoop n).1.allMisses = P.count fun _ _ => true

end Program

variable {P : Program} {cfg : Config} {detector : Bool}

/-- **The tool accounts for the program.** In every configuration, for every
program of fewer than `2 ^ 62 - 1` memory operands and every interleaving
of its threads, every callback returns. The report counts each operand of
each executed instruction once, as a load or as a store, at the address
the instruction was called with; so its counts do not depend on the
interleaving. -/
theorem report_of_program (h : P.Interleaves es) (hshort : P.count (fun _ _ => true) < 2 ^ 62 - 1) :
    ∃ s out, run Simulator.callback (.attach cfg.numProcessors (cfg.start detector)) es =
        .ok (s, out) ∧ P.Reported cfg.numProcessors s.controller.coherence.profiles := by
  have hlength : (es.filterMap Callback.demand).length = P.count fun _ _ => true := by
    have hcount := h.countP (q := fun _ _ => true)
    rwa [List.countP_true] at hcount
  rw [← hlength] at hshort
  obtain ⟨s, out, hrun, t, hv, hruns, hmap⟩ := Simulator.exists_runs cfg detector
    h.legal hshort
  refine ⟨s, out, hrun, ?_⟩
  obtain ⟨hledger, hprofiles⟩ := ledgerOf_run hv hruns
  -- the run's accesses are the program's
  have hcount : ∀ q : AccessKind → Addr → Bool,
      t.countP (fun x => q x.kind x.addr) = P.count q := fun q => by
    rw [← h.countP, ← hmap, List.countP_map]
    rfl
  have haccess := map_access_of_run hv hruns
  refine ⟨fun k a => ?_, fun a => ?_, ?_, ?_⟩
  · rw [hprofiles, hledger.balanced.lineAccesses k a, ← hcount]
  · rw [hprofiles, hledger.balanced.count a, ← hcount]
  · have hloads := column_of_loads Totals.allLoads (fun s => s.hits + s.misses) hv hruns rfl
      (fun s s' => by simp only [Stat.add]; omega) rfl fun T s => rfl
    simp only [charge_stat_accesses] at hloads
    rw [hloads, ← hcount, ← haccess, List.countP_map]
    simp [List.countP_eq_length_filter, Function.comp_def]
  · have hall := column_of_accesses (fun T => T.allHits + T.allMisses)
      (fun s => s.hits + s.misses) hv hruns rfl
      (fun s s' => by simp only [Stat.add]; omega) rfl fun T s => by
        simp only [Totals.add]
        omega
    simp only [charge_stat_accesses] at hall
    rw [hall, ← hcount, ← haccess, List.countP_map]
    simp [Function.comp_def]

/-- Two threads: one stores and adds to memory, the other copies memory to
memory, the second time under a predicate that fails. -/
def Program.two : Program where
  threads := {0, 1}
  lives
    | 0 => [[⟨[⟨false, true⟩], true, 0, 8⟩, ⟨[⟨true, true⟩], true, 8, 8⟩]]
    | 1 => [[⟨[⟨true, false⟩, ⟨false, true⟩], true, 8, 16⟩,
        ⟨[⟨true, false⟩, ⟨false, true⟩], false, 8, 16⟩]]
    | _ => []
  lives_eq_nil tid htid := by
    match tid with
    | 0 | 1 => simp at htid
    | _ + 2 => rfl

/-- The second thread reads between the first one's accesses, and writes
after it has ended. -/
theorem report_of_program_two :
    ∃ s out, run Simulator.callback (.attach Config.pair.numProcessors (Config.pair.start true))
        [.threadAttach 0, .cacheStore 0 8, .threadAttach 1, .cacheLoad 1 8, .cacheLoad 0 8,
          .cacheStore 0 8, .threadDetach 0, .cacheStore 1 16, .threadDetach 1] = .ok (s, out) ∧
      Program.two.Reported 2 s.controller.coherence.profiles := by
  refine report_of_program (fun tid => ?_) (by decide)
  match tid with
  | 0 | 1 => rfl
  | tid + 2 => simp [Callback.tid, Program.callbacks, Program.two]

end AdaptiveMsi
