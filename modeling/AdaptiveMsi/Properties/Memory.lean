import AdaptiveMsi.Controller.Books
import AdaptiveMsi.Properties.Messages
import AdaptiveMsi.Protocol.Values
/-!
# The caches are one memory

The simulator moves no data, but it says when data would move: a
write-back carries a copy to the memory, a miss fills a copy from it, a
store writes its processor's copy and those it pushes. Here the accesses
carry values and the data moves when the simulator says so. The processors
then cannot tell the caches from a single memory: every load reads what
was stored last, in both protocols and whatever is evicted or pushed.
-/

namespace AdaptiveMsi

open Machine Protocol DirMsi

/-- An access of a program: a store has a value. -/
inductive Operation (V : Type)
  | load (pid : ℕ) (addr : Addr)
  | store (pid : ℕ) (addr : Addr) (value : V)
deriving DecidableEq, Repr

namespace Operation

variable {V : Type}

def access : Operation V → Access
  | load pid addr => ⟨.load, pid, addr⟩
  | store pid addr _ => ⟨.store, pid, addr⟩

/-- What the operation leaves in a memory that all processors share. -/
def effect (memory : Addr → V) : Operation V → Addr → V
  | load _ _ => memory
  | store _ addr value => Function.update memory addr value

/-- What it reads there. -/
def reads (memory : Addr → V) : Operation V → Option V
  | load _ addr => some (memory addr)
  | store _ _ _ => none

end Operation

/-- What a shared memory answers to a list of operations. -/
def answers {V : Type} : (Addr → V) → List (Operation V) → List (Option V)
  | _, [] => []
  | memory, o :: os => o.reads memory :: answers (o.effect memory) os

/-- The data of the caches. -/
abbrev Data (V : Type) := Values ℕ Addr V

namespace Data

variable {V : Type}

/-- The write-backs among the calls. -/
def backs (s : Data V) (calls : List Call) : Data V :=
  (calls.filterMap Call.writeBack?).foldl Values.back s

/-- The write-back of the owner, where `fetch` asks for one. -/
def supply (s : Data V) (owner : Option ℕ) (addr : Addr) : Data V :=
  owner.elim s fun o => s.back (o, addr)

end Data

namespace Operation

variable {V : Type}

/-- **The data a handler moves**, from the controllers before and after it:
a load is supplied by the owner and filled unless it hits, a store writes
the copies of its processor and of those it pushes to. -/
def move (c c' : Controller) (response : AccessType) (s : Data V) : Operation V → Data V
  | load pid addr =>
      let s := s.supply (c.coherence.fetchWriteBack pid addr) addr
      if response = .cacheHit then s else s.fill pid addr
  | store pid addr value =>
      let s := s.supply (c.storeWriteBack pid addr) addr
      let s : Data V := s.write (fun i => i = pid ∨ .push i addr ∈ c'.coherence.calls) addr value
      s.backs (c'.coherence.calls.drop c.coherence.calls.length)

/-- What the processor finds in its cache afterwards. -/
def answer (s : Data V) : Operation V → Option V
  | load pid addr => some (s.copy pid addr)
  | store _ _ _ => none

end Operation

namespace Controller

variable {V : Type}

/-- **One access that moves data.** -/
def stepData (s : Controller × Data V) (o : Operation V) :
    Except AssertFailure ((Controller × Data V) × Report × Option V) := do
  let x := o.access
  let c₁ ← s.1.clearCalls.fetchCacheLine x.pid x.addr true
  let (c₂, charge) ← c₁.handle x
  let data := o.move c₁ c₂ charge.response (s.2.backs c₁.coherence.calls)
  return ((c₂, data), ⟨x, charge, c₂.coherence.calls⟩, o.answer data)

end Controller

variable {V : Type} {cfg : Config} {detector : Bool} {n pid : ℕ} {a : Addr} {value : V}
variable {t : List Access} {x : Access} {o : Operation V} {os : List (Operation V)}
variable {c c' c₁ : Controller} {r : Report} {rs : List Report} {charge : Charge}
variable {s : Data V} {memory : Addr → V} {m m₁ : DirMsi} {calls : List Call}
variable {pre : List (Event ℕ Addr)} {last : Option ℕ}

/-! ## The two halves -/

/-- The controller's part is the access itself. -/
theorem Controller.stepData_eq
    (hfetch : c.clearCalls.fetchCacheLine o.access.pid o.access.addr true = .ok c₁)
    (hhandle : c₁.handle o.access = .ok (c', charge)) :
    Controller.stepData (c, s) o = .ok ((c', o.move c₁ c' charge.response (s.backs
      c₁.coherence.calls)), ⟨o.access, charge, c'.coherence.calls⟩,
      o.answer (o.move c₁ c' charge.response (s.backs c₁.coherence.calls))) := by
  simp only [stepData, hfetch, ok_bind, hhandle]
  rfl

/-- What the line fetch evicts is written back. -/
theorem Fetched.current (h : Fetched n detector t x m pre calls m₁)
    (hbooks : Books pre calls { m with calls := [] } m₁) (ht : Tracks n detector t m)
    (hx : x.pid < n) (hcur : Current memory m.entries s) :
    Current memory m₁.entries (s.backs m₁.calls) := by
  have hevicts : ∀ y ∈ pre, y.proc ∈ m.rules.procs ∧ ∃ b, y = .evict y.proc b := by
    intro y hy
    obtain ⟨b, rfl, -⟩ := h.spills.evicts y hy
    exact ⟨ht.mem_procs.mpr hx, b, rfl⟩
  have hentries : m₁.entries = pre.foldl (Event.apply m.rules) m.entries := h.simulates.entries
  have hlog : m₁.calls = calls := by simpa using h.simulates.calls
  have hbacks : calls.filterMap Call.writeBack? = writeBacks m.rules m.entries pre := hbooks.backs
  rw [hentries, hlog, Data.backs, hbacks]
  exact hcur.evicts ht.inv hevicts

/-- The invariant after it. -/
theorem Fetched.inv_entries (h : Fetched n detector t x m pre calls m₁) (ht : Tracks n detector t m)
    (hx : x.pid < n) : Protocol.Inv m₁.rules (lastStore t) m₁.entries := by
  have hinv : Protocol.Inv m.rules (pre.foldl Event.note (lastStore t))
      (pre.foldl (Event.apply m.rules) m.entries) := ht.inv.foldl fun y hy => by
    obtain ⟨b, rfl, -⟩ := h.spills.evicts y hy
    exact ht.mem_procs.mpr hx
  rw [foldl_note_of_evict fun y hy => by
    obtain ⟨b, rfl, -⟩ := h.spills.evicts y hy
    exact ⟨_, b, rfl⟩] at hinv
  have hrules : m₁.rules = m.rules := h.simulates.rules
  have hentries : m₁.entries = pre.foldl (Event.apply m.rules) m.entries := h.simulates.entries
  rw [hrules, hentries]
  exact hinv

/-- `fetch` asks the owner of a modified line, which has a copy, -/
theorem mem_sharers_of_fetchWriteBack {w : ℕ} (hn : m.numProcessors ≤ 32)
    (hinv : (m.entries a).Inv m.rules last) (h : m.fetchWriteBack pid a = some w) :
    w ∈ (m.entries a).sharers := by
  unfold fetchWriteBack at h
  split at h
  · cases h
  · split at h
    · rename_i hmod
      obtain ⟨o, ho, -, howner⟩ := exists_owner hn hinv hmod
      rw [howner] at h
      cases h
      exact ho
    · cases h

/-- and asks nobody only if the line is not modified. -/
theorem ne_modified_of_fetchWriteBack (hn : m.numProcessors ≤ 32) (hpid : pid < 32)
    (hinv : (m.entries a).Inv m.rules last) (hmem : pid ∉ (m.entries a).sharers)
    (h : m.fetchWriteBack pid a = none) : (m.entries a).state ≠ .modified := by
  intro hmod
  have hset : ¬ (m.directory a).isSet pid = true := fun hset =>
    hmem ((DirectoryLine.isSet_iff hpid).mp hset)
  obtain ⟨o, -, -, howner⟩ := exists_owner hn hinv hmod
  have hmod' : (m.directory a).state = .modified := hmod
  rw [fetchWriteBack, if_neg hset, if_pos hmod', howner] at h
  cases h

/-- **A load** reads what was stored last. -/
theorem current_load (hn : c.coherence.numProcessors ≤ 32) (hp : pid < c.coherence.numProcessors)
    (hinv : (c.coherence.entries a).Inv c.coherence.rules last)
    (hcur : Current memory c.coherence.entries s)
    (hhandle : c.handle ⟨.load, pid, a⟩ = .ok (c', charge)) :
    Current memory c'.coherence.entries
        ((Operation.load pid a : Operation V).move c c' charge.response s) ∧
      ((Operation.load pid a : Operation V).move c c' charge.response s).copy pid a = memory a := by
  have h32 : pid < 32 := by omega
  simp only [Controller.handle] at hhandle
  obtain ⟨⟨m', charge'⟩, hread, hhandle⟩ := bind_eq_ok.mp hhandle
  cases hhandle
  obtain ⟨m'', charge'', hok, hsim, hhit⟩ := simulates_processRead hn hp hinv
  cases hok.symm.trans hread
  have hentries : m'.entries = (Event.read pid a).apply c.coherence.rules c.coherence.entries :=
    hsim.entries
  rw [Operation.move, hentries]
  by_cases hmem : pid ∈ (c.coherence.entries a).sharers
  · have hset : (c.coherence.directory a).isSet pid = true := (DirectoryLine.isSet_iff h32).mpr hmem
    have hnone : c.coherence.fetchWriteBack pid a = none := if_pos hset
    rw [hnone, if_pos (hhit.mpr hmem)]
    exact ⟨hcur.read_of_mem hmem, hcur.copy pid a hmem⟩
  · rw [if_neg fun hh => hmem (hhit.mp hh)]
    cases hw : c.coherence.fetchWriteBack pid a with
    | none =>
      have hfresh := hcur.memory a (ne_modified_of_fetchWriteBack hn h32 hinv hmem hw)
      exact ⟨hcur.read_of_not_mem hfresh, (Values.fill_copy_self (s := s)).trans hfresh⟩
    | some w =>
      obtain ⟨hback, hfresh⟩ := hcur.back (mem_sharers_of_fetchWriteBack hn hinv hw)
      exact ⟨hback.read_of_not_mem hfresh, (Values.fill_copy_self (s := s.back _)).trans hfresh⟩

/-- The owner's write-back touches one address. -/
theorem Data.supply_memory {owner : Option ℕ} {b : Addr} (hb : b ≠ a) :
    (s.supply owner a).memory b = s.memory b := by
  cases owner with
  | none => rfl
  | some w => exact Values.back_memory_of_ne hb

theorem Data.supply_copy {owner : Option ℕ} : (s.supply owner a).copy = s.copy := by
  cases owner <;> rfl

/-- **A store** leaves its value in every copy of the address. -/
theorem current_store (hn : c.coherence.numProcessors ≤ 32) (hp : pid < c.coherence.numProcessors)
    {lasts : Addr → Option ℕ} (hinv : Protocol.Inv c.coherence.rules lasts c.coherence.entries)
    (hcur : Current memory c.coherence.entries s)
    (hhandle : c.handle ⟨.store, pid, a⟩ = .ok (c', charge)) :
    Current (Function.update memory a value) c'.coherence.entries
      ((Operation.store pid a value).move c c' charge.response s) := by
  obtain ⟨xs, log, hstores, hbooks⟩ :=
    (Controller.ensures_processWrite_books hn hp (hinv a)).of_ok hhandle
  have hcalls : c'.coherence.calls = c.coherence.calls ++ log := hstores.simulates.calls
  have hentries : c'.coherence.entries = xs.foldl (Event.apply c.coherence.rules)
      ((Event.store pid a).apply c.coherence.rules c.coherence.entries) := hstores.simulates.entries
  have hbacks : log.filterMap Call.writeBack? = writeBacks c.coherence.rules
      ((Event.store pid a).apply c.coherence.rules c.coherence.entries) xs := hbooks.backs
  have hproc : (Event.store pid a).proc ∈ c.coherence.rules.procs := mem_procs.mpr hp
  have hwritten : Current (Function.update memory a value)
      ((Event.store pid a).apply c.coherence.rules c.coherence.entries)
      ((s.supply (c.storeWriteBack pid a) a).write
        (fun i => i = pid ∨ .push i a ∈ c'.coherence.calls) a value) := by
    refine hcur.store (fun b hb => Data.supply_memory hb) Data.supply_copy fun i hi => ?_
    rcases hi with rfl | hi
    · exact Or.inl rfl
    · exact Or.inr (hcalls ▸ List.mem_append_right _ (hstores.pushes i hi))
  rw [Operation.move, Data.backs, hcalls, List.drop_left, hbacks, ← hcalls, hentries]
  refine hwritten.evicts (hinv.apply hproc) fun y hy => ?_
  obtain ⟨-, hi, i, b, rfl, -⟩ := hstores.evicts y hy
  exact ⟨mem_procs.mpr hi, b, rfl⟩

/-! ## One access -/

/-- **One access that moves data** does what the access does, answers what a
shared memory answers, and keeps the copies current. -/
theorem exists_stepData (hn : n ≤ 32) (ht : Tracks n detector t c.coherence)
    (hx : o.access.pid < n) (hcur : Current memory c.coherence.entries s)
    (hstep : c.step o.access = .ok (c', r)) :
    ∃ s', Controller.stepData (c, s) o = .ok ((c', s'), r, o.reads memory) ∧
      Current (o.effect memory) c'.coherence.entries s' := by
  obtain ⟨c₁, hfetch, hhandle⟩ := Controller.step_eq_ok hstep
  have hr : r = ⟨o.access, r.charge, c'.coherence.calls⟩ := by
    rw [Controller.step_eq, hfetch, ok_bind, hhandle] at hstep
    exact (congrArg Prod.snd (Except.ok.inj hstep)).symm
  obtain ⟨pre, calls, hf, hbooks⟩ := (ensures_fetched_books hn ht hx).of_ok hfetch
  have hcur₁ := hf.current hbooks ht hx hcur
  have hinv₁ := hf.inv_entries ht hx
  have hn₁ : c₁.coherence.numProcessors ≤ 32 := hf.numProcessors ▸ hn
  have hx₁ : o.access.pid < c₁.coherence.numProcessors := hf.numProcessors ▸ hx
  have heq := Controller.stepData_eq (s := s) hfetch hhandle
  rw [← hr] at heq
  cases o with
  | load pid a =>
    have hp : pid < c₁.coherence.numProcessors := hx₁
    have hload : c₁.handle ⟨.load, pid, a⟩ = .ok (c', r.charge) := hhandle
    obtain ⟨hcur', hvalue⟩ := current_load hn₁ hp (hinv₁ a) hcur₁ hload
    refine ⟨_, heq.trans ?_, hcur'⟩
    rw [Operation.answer, hvalue]
    rfl
  | store pid a value => exact ⟨_, heq, current_store hn₁ hx₁ hinv₁ hcur₁ hhandle⟩

/-! ## Runs -/

theorem answers_snoc : answers memory (os ++ [o]) =
    answers memory os ++ [o.reads (os.foldl Operation.effect memory)] := by
  induction os generalizing memory with
  | nil => rfl
  | cons o' os ih => rw [List.cons_append, answers, ih, answers, List.foldl_cons, List.cons_append]

theorem length_answers : (answers memory os).length = os.length := by
  induction os generalizing memory with
  | nil => rfl
  | cons o os ih => rw [answers, List.length_cons, ih, List.length_cons]

/-- A run that moves data is the run, with a shared memory's answers. -/
theorem exists_runData (memory : Addr → V) (copy : ℕ → Addr → V)
    (hv : cfg.Valid (os.map Operation.access))
    (hrun : cfg.run detector (os.map Operation.access) = .ok (c, rs)) :
    ∃ s, Machine.run Controller.stepData (cfg.start detector, ⟨memory, copy⟩) os =
        .ok ((c, s), rs.zip (answers memory os)) ∧
      Current (os.foldl Operation.effect memory) c.coherence.entries s := by
  induction os using List.reverseRecOn generalizing c rs with
  | nil =>
    cases hrun
    refine ⟨_, rfl, fun a _ => rfl, fun i a hi => ?_⟩
    rw [entries_start] at hi
    exact absurd hi (Finset.notMem_empty i)
  | append_singleton os o ih =>
    rw [List.map_append, List.map_singleton] at hv hrun
    have hv₀ : cfg.Valid (os.map Operation.access) := fun x hx => hv x (List.mem_append_left _ hx)
    have hx : o.access.pid < cfg.numProcessors := hv _ (by simp)
    obtain ⟨c₀, rs₀, r, hrun₀, hstep, rfl⟩ := run_snoc_eq_ok.mp hrun
    obtain ⟨s, hdata, hcur⟩ := ih hv₀ hrun₀
    have htracks := (ensures_tracks hv₀).of_ok hrun₀
    obtain ⟨s', hstep', hcur'⟩ := exists_stepData cfg.numProcessors_le htracks hx hcur hstep
    have hlen : rs₀.length = (answers memory os).length := by
      rw [length_answers, length_of_run hrun₀, List.length_map]
    refine ⟨s', run_snoc_eq_ok.mpr ⟨_, _, _, hdata, hstep', ?_⟩, ?_⟩
    · rw [answers_snoc, List.zip_append hlen]
      rfl
    · rw [List.foldl_append]
      exact hcur'

/-- **The caches are one memory.** In both protocols, if the caches move the
data the simulator says they do, then every load of every run reads what
was stored last, as from a single memory; and after the run the memory is
current wherever no processor holds changed data, as is every copy that
the directory knows of. -/
theorem caches_are_one_memory (memory : Addr → V) (copy : ℕ → Addr → V)
    (hv : cfg.Valid (os.map Operation.access))
    (hrun : cfg.run detector (os.map Operation.access) = .ok (c, rs)) :
    ∃ s, Machine.run Controller.stepData (cfg.start detector, ⟨memory, copy⟩) os =
        .ok ((c, s), rs.zip (answers memory os)) ∧
      (∀ a, (c.line a).state ≠ .modified →
        s.memory a = os.foldl Operation.effect memory a) ∧
      ∀ i a, i < cfg.numProcessors → (c.line a).isSet i = true →
        s.copy i a = os.foldl Operation.effect memory a := by
  obtain ⟨s, hdata, hcur⟩ := exists_runData memory copy hv hrun
  refine ⟨s, hdata, hcur.memory, fun i a hi hset => hcur.copy i a ?_⟩
  have h32 : i < 32 := by
    have hle := cfg.numProcessors_le
    omega
  exact (DirectoryLine.isSet_iff h32).mp hset

/-- A value that is pushed, and one that is written back and read again. -/
theorem caches_are_one_memory_pair :
    ∃ (c : Controller) (rs : List Report) (s : Data ℕ),
      Machine.run Controller.stepData (Config.pair.start true, ⟨fun _ => 0, fun _ _ => 7⟩)
          [.store 0 4 1, .load 1 4, .store 0 4 2, .load 1 4, .store 0 4 3, .load 1 4] =
        .ok ((c, s), rs.zip [none, some 1, none, some 2, none, some 3]) ∧
      (∀ a, (c.line a).state ≠ .modified → s.memory a = if a = 4 then 3 else 0) := by
  have hrun : Ensures (fun _ => False) (fun _ => True) (Config.pair.run true
      (([.store 0 4 1, .load 1 4, .store 0 4 2, .load 1 4, .store 0 4 3, .load 1 4] :
        List (Operation ℕ)).map Operation.access)) := by decide
  obtain ⟨⟨c, rs⟩, hok, -⟩ := hrun.exists_ok
  obtain ⟨s, hdata, hmem, -⟩ := caches_are_one_memory (fun _ => 0) (fun _ _ => 7) (by decide) hok
  refine ⟨c, rs, s, hdata, fun a ha => (hmem a ha).trans ?_⟩
  simp only [List.foldl_cons, List.foldl_nil, Operation.effect, Function.update]
  split <;> simp_all

end AdaptiveMsi
