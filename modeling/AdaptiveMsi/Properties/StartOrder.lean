import AdaptiveMsi.Properties.Instrumentation
import AdaptiveMsi.Properties.Renaming
/-!
# The order in which the threads start does not matter

A thread's processor is its place in the order in which the threads
start, which the scheduler of the machine under the tool decides. As long
as each thread has a processor of its own, another order gives the
processors other names, and the same hits and misses.
-/

namespace AdaptiveMsi

open Machine

variable {es es' u v : List Callback} {e : Callback} {out out' : List Answer} {s s' : Simulator}
variable {l l' : List ℕ} {cfg : Config} {detector : Bool} {tid i : ℕ}

/-! ## Renumbering -/

/-- The place in `l'` of what is at place `i` of `l`. -/
def place (l l' : List ℕ) (i : ℕ) : ℕ := l[i]?.elim i l'.idxOf

theorem place_place (hl : l.Nodup) (hperm : l'.Perm l) (i : ℕ) : place l' l (place l l' i) = i := by
  unfold place
  by_cases hi : i < l.length
  · have hmem : l[i] ∈ l' := hperm.mem_iff.mpr (List.getElem_mem hi)
    rw [List.getElem?_eq_getElem hi, Option.elim_some, List.getElem?_idxOf hmem, Option.elim_some]
    exact hl.idxOf_getElem i hi
  · have hlen := hperm.length_eq
    have hnone : l[i]? = none := List.getElem?_eq_none (by omega)
    have hnone' : l'[i]? = none := List.getElem?_eq_none (by omega)
    rw [hnone, Option.elim_none, hnone', Option.elim_none]

/-- **The renumbering** between two orders. -/
def renumber (hl : l.Nodup) (hperm : l'.Perm l) : Equiv.Perm ℕ where
  toFun := place l l'
  invFun := place l' l
  left_inv := place_place hl hperm
  right_inv := place_place (hperm.nodup_iff.mpr hl) hperm.symm

theorem renumber_idxOf (hl : l.Nodup) (hperm : l'.Perm l) (tid : ℕ) :
    renumber hl hperm (l.idxOf tid) = l'.idxOf tid := by
  change place l l' (l.idxOf tid) = l'.idxOf tid
  unfold place
  by_cases hmem : tid ∈ l
  · rw [List.getElem?_idxOf hmem, Option.elim_some]
  · have hmem' : tid ∉ l' := fun h => hmem (hperm.mem_iff.mp h)
    rw [List.idxOf_eq_length hmem, List.idxOf_eq_length hmem', List.getElem?_eq_none le_rfl,
      Option.elim_none, hperm.length_eq]

theorem renumber_lt {n : ℕ} (hl : l.Nodup) (hperm : l'.Perm l) (hn : l.length ≤ n) :
    renumber hl hperm i < n ↔ i < n := by
  change place l l' i < n ↔ i < n
  unfold place
  by_cases hi : i < l.length
  · have hmem : l[i] ∈ l' := hperm.mem_iff.mpr (List.getElem_mem hi)
    have hlt := List.idxOf_lt_length_of_mem hmem
    rw [List.getElem?_eq_getElem hi, Option.elim_some]
    rw [hperm.length_eq] at hlt
    omega
  · rw [List.getElem?_eq_none (by omega), Option.elim_none]

/-! ## The processors of the threads -/

/-- The thread a callback starts. -/
def Callback.starts : Callback → Option ℕ
  | threadAttach tid => some tid
  | threadDetach _ | cacheLoad _ _ | cacheStore _ _ => none

/-- The threads in the order in which they start. -/
def started (es : List Callback) : List ℕ := es.filterMap Callback.starts

/-- The access of a callback, where the processors are the places in `l`. -/
def Callback.numbered (l : List ℕ) (e : Callback) : Option Access :=
  e.demand.map fun d => ⟨d.1, l.idxOf e.tid, d.2⟩

/-- The accesses of the callbacks. -/
def numbered (l : List ℕ) (es : List Callback) : List Access := es.filterMap (Callback.numbered l)

/-- Only accesses count. -/
theorem numbered_filter : numbered l (es.filter (·.demand.isSome)) = numbered l es := by
  rw [numbered, List.filterMap_filter, numbered]
  congr 1
  funext e
  unfold Callback.numbered
  cases e.demand <;> rfl

theorem numbered_renumber (hl : l.Nodup) (hperm : l'.Perm l) :
    (numbered l es).map (Access.rename (renumber hl hperm)) = numbered l' es := by
  rw [numbered, List.map_filterMap, numbered]
  congr 1
  funext e
  rw [Callback.numbered, Callback.numbered, Option.map_map]
  congr 1
  funext d
  simp only [Function.comp_apply, Access.rename, renumber_idxOf]

/-- The variables after the callbacks `u`, of callbacks that start the
threads `l`. -/
structure Simulator.Numbered (cfg : Config) (detector : Bool) (l : List ℕ) (u : List Callback)
    (out : List Answer) (s : Simulator) : Prop where
  numProcessors : s.numProcessors = cfg.numProcessors
  nextPid : s.nextPid = (started u).length
  mapped : ∀ tid pid, s.tMap tid = some pid → pid = l.idxOf tid ∧ pid < cfg.numProcessors
  valid : cfg.Valid (numbered l u)
  runs : cfg.run detector (numbered l u) = .ok (s.controller, out.filterMap Answer.report)

namespace Simulator

/-- **An access** is one of the thread's place. -/
theorem Numbered.access {kind : AccessKind} {addr : Addr} {r : Report}
    (h : s.Numbered cfg detector l u out) (he : e.demand = some (kind, addr))
    (hok : s.access kind e.tid addr = .ok (s', r)) :
    s'.Numbered cfg detector l (u ++ [e]) (out ++ [.reported r]) := by
  obtain ⟨pid, c, hpid, hstep, rfl⟩ := access_eq_ok hok
  obtain ⟨rfl, hlt⟩ := h.mapped _ _ hpid
  have hnone : e.starts = none := by
    cases e with
    | threadAttach tid => cases he
    | threadDetach tid | cacheLoad tid addr | cacheStore tid addr => rfl
  have hnumbered : numbered l (u ++ [e]) = numbered l u ++ [⟨kind, l.idxOf e.tid, addr⟩] := by
    simp [numbered, List.filterMap_append, Callback.numbered, he]
  refine ⟨h.numProcessors, ?_, h.mapped, ?_, ?_⟩
  · rw [h.nextPid, started, started, List.filterMap_append, List.filterMap_cons_none hnone,
      List.filterMap_nil, List.append_nil]
  · rw [hnumbered]
    exact List.forall_mem_append.mpr ⟨h.valid, List.forall_mem_singleton.mpr hlt⟩
  · rw [hnumbered, List.filterMap_append]
    exact run_snoc_eq_ok.mpr ⟨_, _, _, h.runs, hstep, rfl⟩

/-- **A thread that starts** takes its place. -/
theorem Numbered.attach (h : s.Numbered cfg detector l u out) (hl : l.Nodup)
    (hfew : l.length ≤ cfg.numProcessors) (hsplit : l = started u ++ tid :: l') :
    (s.threadAttach tid).1.Numbered cfg detector l (u ++ [.threadAttach tid])
      (out ++ [.attached (s.threadAttach tid).2]) := by
  have hlen : (started u).length < cfg.numProcessors := by
    rw [hsplit, List.length_append, List.length_cons] at hfew
    omega
  have hne : s.nextPid ≠ s.numProcessors := by
    rw [h.nextPid, h.numProcessors]
    omega
  have hnot : tid ∉ started u := fun hmem => by
    rw [hsplit] at hl
    exact (List.nodup_append.mp hl).2.2 tid hmem tid List.mem_cons_self rfl
  have hplace : l.idxOf tid = (started u).length := by
    rw [hsplit, List.idxOf_append_of_notMem hnot, List.idxOf_cons_self, Nat.add_zero]
  have hstarted : started (u ++ [.threadAttach tid]) = started u ++ [tid] := by
    simp [started, List.filterMap_append, Callback.starts]
  have hnumbered : numbered l (u ++ [.threadAttach tid]) = numbered l u := by
    simp [numbered, List.filterMap_append, Callback.numbered, Callback.demand]
  simp only [threadAttach, getNextPid, if_neg hne]
  refine ⟨h.numProcessors, by rw [hstarted, h.nextPid, List.length_append, List.length_singleton],
    fun t pid hpid => ?_, hnumbered ▸ h.valid, ?_⟩
  · change Function.update s.tMap tid (some s.nextPid) t = some pid at hpid
    rcases eq_or_ne t tid with rfl | ht
    · rw [Function.update_self, Option.some.injEq, h.nextPid] at hpid
      omega
    · rw [Function.update_of_ne ht] at hpid
      exact h.mapped t pid hpid
  · rw [hnumbered, h.runs, List.filterMap_append]
    simp [Answer.report]

/-- A thread that ends keeps its place. -/
theorem Numbered.detach (h : s.Numbered cfg detector l u out) :
    Numbered cfg detector l (u ++ [.threadDetach tid]) (out ++ [.detached])
      { s with tMap := Function.update s.tMap tid none } := by
  have hstarted : started (u ++ [.threadDetach tid]) = started u := by
    simp [started, List.filterMap_append, Callback.starts]
  have hnumbered : numbered l (u ++ [.threadDetach tid]) = numbered l u := by
    simp [numbered, List.filterMap_append, Callback.numbered, Callback.demand]
  refine ⟨h.numProcessors, hstarted ▸ h.nextPid, fun t pid hpid => ?_, hnumbered ▸ h.valid, ?_⟩
  · change Function.update s.tMap tid none t = some pid at hpid
    rcases eq_or_ne t tid with rfl | ht
    · rw [Function.update_self] at hpid
      cases hpid
    · rw [Function.update_of_ne ht] at hpid
      exact h.mapped t pid hpid
  · rw [hnumbered, h.runs, List.filterMap_append]
    simp [Answer.report]

/-- **The run of the callbacks** is a run of the accesses, each by the place
of its thread. -/
theorem numbered_of_run (hl : (started es).Nodup) (hfew : (started es).length ≤ cfg.numProcessors)
    (hrun : run callback (attach cfg.numProcessors (cfg.start detector)) es = .ok (s, out)) :
    s.Numbered cfg detector (started es) es out := by
  refine (ensures_run (E := fun _ => True)
    (I := fun u out s => Numbered cfg detector (started es) u out s) ?_ ?_).of_ok hrun
  · exact ⟨rfl, rfl, fun _ _ h => (nomatch h), by simp [Config.Valid, numbered], rfl⟩
  rintro u e v out s hes h
  cases hok : s.callback e with
  | error e => trivial
  | ok r =>
    cases e with
    | threadAttach tid =>
      cases hok
      have hsplit : started es = started u ++ tid :: started v := by
        rw [hes]
        simp [started, List.filterMap_append, Callback.starts]
      exact h.attach hl hfew hsplit
    | threadDetach tid =>
      obtain ⟨s₁, hdetach, hok⟩ := bind_eq_ok.mp hok
      obtain ⟨-, rfl⟩ := threadDetach_eq_ok.mp hdetach
      cases hok
      exact h.detach
    | cacheLoad tid addr | cacheStore tid addr =>
      obtain ⟨⟨s₁, report⟩, haccess, hok⟩ := bind_eq_ok.mp hok
      cases hok
      exact h.access rfl haccess

end Simulator

/-! ## The report -/

variable {rs rs' : List Report} {σ : Equiv.Perm ℕ}

/-- The reports of an address do not tell the processors apart. -/
theorem tally_rename {a : Addr} {k : AccessKind} {response : AccessType}
    (haccess : rs'.map Report.access = (rs.map Report.access).map (Access.rename σ))
    (hresponse : rs'.map Report.response = rs.map Report.response) :
    tally rs' a k response = tally rs a k response := by
  have hzip : ∀ rs : List Report, tally rs a k response =
      ((rs.map Report.access).zip (rs.map Report.response)).countP fun y =>
        y.1.addr = a ∧ y.1.kind = k ∧ y.2 = response := fun rs => by
    rw [List.zip_map', List.countP_map]
    rfl
  rw [hzip, hzip, haccess, hresponse, List.zip_map_left, List.countP_map]
  rfl

/-- **The order in which the threads start does not matter**, as long as
there is a processor for each, and at most `16` processors with the
detector on. Of two runs of the tool in which the same threads start, each
once, and make the same accesses in the same order, the accesses hit and
miss alike, and the report shows the same lines with the same counts. -/
theorem responses_of_start_order (hn : detector = true → cfg.numProcessors ≤ 16)
    (hl : (started es).Nodup) (hfew : (started es).length ≤ cfg.numProcessors)
    (hperm : (started es').Perm (started es))
    (haccess : es'.filter (·.demand.isSome) = es.filter (·.demand.isSome))
    (hrun : run Simulator.callback (.attach cfg.numProcessors (cfg.start detector)) es =
      .ok (s, out))
    (hrun' : run Simulator.callback (.attach cfg.numProcessors (cfg.start detector)) es' =
      .ok (s', out')) :
    (out'.filterMap Answer.report).map Report.response =
        (out.filterMap Answer.report).map Report.response ∧
      ∀ keys, s'.controller.coherence.profiles.lineStatToString keys =
        s.controller.coherence.profiles.lineStatToString keys := by
  have h := Simulator.numbered_of_run hl hfew hrun
  have h' := Simulator.numbered_of_run (hperm.nodup_iff.mpr hl) (hperm.length_eq ▸ hfew) hrun'
  -- the second run is the first one under other names
  have hnumbered : numbered (started es') es' =
      (numbered (started es) es).map (Access.rename (renumber hl hperm)) := by
    rw [numbered_renumber, ← numbered_filter, haccess, numbered_filter]
  have hrename := agree_renamed hn (fun i => renumber_lt hl hperm hfew) h.valid
  obtain ⟨r, hok, -, hforall⟩ := hrename.of_ok h.runs
  rw [← hnumbered, h'.runs] at hok
  cases hok
  have hresponses := map_response_eq hforall
  refine ⟨hresponses, fun keys => ?_⟩
  have haccesses : (out'.filterMap Answer.report).map Report.access =
      ((out.filterMap Answer.report).map Report.access).map
        (Access.rename (renumber hl hperm)) := by
    rw [map_access_of_run h'.valid h'.runs, map_access_of_run h.valid h.runs, hnumbered]
  have htally : ∀ a k response, tally (out'.filterMap Answer.report) a k response =
      tally (out.filterMap Answer.report) a k response := fun _ _ _ =>
    tally_rename haccesses hresponses
  have hcount : ∀ a, (s'.controller.coherence.profiles.lineStat a).count =
      (s.controller.coherence.profiles.lineStat a).count := fun a => by
    obtain ⟨hledger, hprofiles⟩ := ledgerOf_run h.valid h.runs
    obtain ⟨hledger', hprofiles'⟩ := ledgerOf_run h'.valid h'.runs
    rw [hprofiles, hprofiles', hledger.balanced.count a, hledger'.balanced.count a, hnumbered,
      List.countP_map]
    rfl
  have hrow : s'.controller.coherence.profiles.lineRow =
      s.controller.coherence.profiles.lineRow := funext fun a => by
    rw [lineRow_of_run h'.valid h'.runs, lineRow_of_run h.valid h.runs]
    simp only [htally]
  simp only [Profile.lineStatToString, hcount, hrow]

/-- Two threads that start in either order, then share a line. -/
theorem responses_of_start_order_pair :
    let es : List Callback := [.threadAttach 7, .threadAttach 9, .cacheStore 7 4, .cacheLoad 9 4,
      .cacheLoad 7 4]
    let es' : List Callback := [.threadAttach 9, .threadAttach 7, .cacheStore 7 4, .cacheLoad 9 4,
      .cacheLoad 7 4]
    ∃ s out s' out',
      run Simulator.callback (.attach Config.pair.numProcessors (Config.pair.start true)) es =
        .ok (s, out) ∧
      run Simulator.callback (.attach Config.pair.numProcessors (Config.pair.start true)) es' =
        .ok (s', out') ∧
      (out'.filterMap Answer.report).map Report.response =
        (out.filterMap Answer.report).map Report.response := by
  intro es es'
  obtain ⟨⟨s, out⟩, hok, -⟩ := Ensures.exists_ok (P := fun _ => True) (by decide +kernel :
    Ensures _ _ (run Simulator.callback (.attach Config.pair.numProcessors
      (Config.pair.start true)) es))
  obtain ⟨⟨s', out'⟩, hok', -⟩ := Ensures.exists_ok (P := fun _ => True) (by decide +kernel :
    Ensures _ _ (run Simulator.callback (.attach Config.pair.numProcessors
      (Config.pair.start true)) es'))
  exact ⟨s, out, s', out', hok, hok', (responses_of_start_order (by decide) (by decide) (by decide)
    (by decide) (by decide) hok hok').1⟩

end AdaptiveMsi
