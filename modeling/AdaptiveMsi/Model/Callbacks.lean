import AdaptiveMsi.Model.Run
/-!
# The callbacks

What the instrumentation calls, one callback at a time under a lock: a
thread is given a processor when it starts, and its accesses are that
processor's until it ends. `next_pid` counts up to `num_processors` and
stays there; the map forgets a thread that ends, the counter does not.
-/

namespace AdaptiveMsi

/-- The assertions of a callback, its access included. -/
inductive CallbackFailure
  | getPid
  | threadDetach
  | access (e : AssertFailure)
deriving DecidableEq, Repr

/-- The global variables. `tMap` is `t_map`, from threads to processors. -/
structure Simulator where
  nextPid : ℕ
  numProcessors : ℕ
  tMap : ℕ → Option ℕ
  controller : Controller

/-- A callback, with the thread it is made on. -/
inductive Callback
  | threadAttach (tid : ℕ)
  | threadDetach (tid : ℕ)
  | cacheLoad (tid : ℕ) (addr : Addr)
  | cacheStore (tid : ℕ) (addr : Addr)
deriving DecidableEq, Repr

/-- What a callback leaves outside the global variables: the processor
`thread_attach` prints, the report of an access. -/
inductive Answer
  | attached (pid : ℕ)
  | detached
  | reported (r : Report)
deriving DecidableEq, Repr

namespace Simulator

/-- `process_attach`, for the controller it builds. -/
def attach (numProcessors : ℕ) (controller : Controller) : Simulator where
  nextPid := 0
  numProcessors := numProcessors
  tMap := fun _ => none
  controller := controller

def processAttach (totalProcessors numSets lineSize setSize : ℕ) : Simulator :=
  attach totalProcessors (.new totalProcessors numSets lineSize setSize)

def getPid (s : Simulator) (tid : ℕ) : Except CallbackFailure ℕ :=
  match s.tMap tid with
  | some pid => .ok pid
  | none => .error .getPid

/-- The processor and the counter after it. -/
def getNextPid (s : Simulator) : ℕ × ℕ :=
  if s.nextPid = s.numProcessors then (0, s.nextPid) else (s.nextPid, s.nextPid + 1)

def threadAttach (s : Simulator) (tid : ℕ) : Simulator × ℕ :=
  let (pid, nextPid) := s.getNextPid
  ({ s with nextPid := nextPid, tMap := Function.update s.tMap tid (some pid) }, pid)

def threadDetach (s : Simulator) (tid : ℕ) : Except CallbackFailure Simulator :=
  match s.tMap tid with
  | some _ => .ok { s with tMap := Function.update s.tMap tid none }
  | none => .error .threadDetach

/-- `cache_load` and `cache_store`. -/
def access (s : Simulator) (kind : AccessKind) (tid : ℕ) (addr : Addr) :
    Except CallbackFailure (Simulator × Report) := do
  let pid ← s.getPid tid
  let (controller, r) ← (s.controller.step ⟨kind, pid, addr⟩).mapError .access
  return ({ s with controller := controller }, r)

/-- One callback. -/
def callback (s : Simulator) : Callback → Except CallbackFailure (Simulator × Answer)
  | .threadAttach tid =>
      let (s, pid) := s.threadAttach tid
      .ok (s, .attached pid)
  | .threadDetach tid => do
      let s ← s.threadDetach tid
      return (s, .detached)
  | .cacheLoad tid addr => do
      let (s, r) ← s.access .load tid addr
      return (s, .reported r)
  | .cacheStore tid addr => do
      let (s, r) ← s.access .store tid addr
      return (s, .reported r)

end Simulator

namespace Callback

def tid : Callback → ℕ
  | threadAttach tid => tid
  | threadDetach tid => tid
  | cacheLoad tid _ => tid
  | cacheStore tid _ => tid

end Callback

end AdaptiveMsi
