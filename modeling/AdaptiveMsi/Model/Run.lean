import AdaptiveMsi.Common.Machine
import AdaptiveMsi.Model.Controller
/-!
# Runs

The environment calls `load_single_line` and `store_single_line`, one
call at a time under a lock. A run is a list of such calls, and each
answers with a report: what was charged and which calls the directory,
the cache sets and the profiler took on the way. The directory's own
interface, without caches, is `DirMsi.call`.
-/

namespace AdaptiveMsi

inductive AccessKind
  | load
  | store
deriving DecidableEq, Repr

structure Access where
  kind : AccessKind
  pid : ℕ
  addr : Addr
deriving DecidableEq, Repr

/-- What an access answered. -/
structure Report where
  access : Access
  charge : Charge
  calls : List Call
deriving DecidableEq, Repr

def Report.response (r : Report) : AccessType := r.charge.response

namespace Controller

def access (c : Controller) (x : Access) : Except AssertFailure (Controller × Charge) :=
  match x.kind with
  | .load => c.loadSingleLine x.addr x.pid
  | .store => c.storeSingleLine x.addr x.pid

def clearCalls (c : Controller) : Controller :=
  { c with coherence := { c.coherence with calls := [] } }

/-- One access, with a log of its own. -/
def step (c : Controller) (x : Access) : Except AssertFailure (Controller × Report) := do
  let (c, charge) ← c.clearCalls.access x
  return (c, ⟨x, charge, c.coherence.calls⟩)

end Controller

namespace Config

/-- The simulator before its first access; `detector` is the public field
of `DIR_MSI`. -/
def start (cfg : Config) (detector : Bool) : Controller :=
  let c := Controller.new cfg.numProcessors cfg.numSets cfg.lineSize cfg.associativity
  { c with coherence := { c.coherence with detector := detector } }

def run (cfg : Config) (detector : Bool) (t : List Access) :
    Except AssertFailure (Controller × List Report) :=
  Machine.run Controller.step (cfg.start detector) t

/-- The responses of a run that returns. -/
def responses (cfg : Config) (detector : Bool) (t : List Access) :
    Except AssertFailure (List AccessType) := do
  let (_, reports) ← cfg.run detector t
  return reports.map Report.response

/-- The accesses come from the simulated processors. -/
def Valid (cfg : Config) (t : List Access) : Prop := ∀ x ∈ t, x.pid < cfg.numProcessors

instance (cfg : Config) (t : List Access) : Decidable (cfg.Valid t) := by
  unfold Valid
  infer_instance

/-- `P` holds of every state a run reaches. -/
def Throughout (cfg : Config) (detector : Bool) (t : List Access) (P : Controller → Prop) : Prop :=
  ∀ u v c reports, t = u ++ v → cfg.run detector u = .ok (c, reports) → P c

/-- Every access of a run is made in a state in which `Q` allows it. -/
def Respects (cfg : Config) (detector : Bool) (t : List Access)
    (Q : Controller → Access → Prop) : Prop :=
  ∀ u x v c reports, t = u ++ x :: v → cfg.run detector u = .ok (c, reports) → Q c x

end Config

/-- A call of the directory's interface. -/
inductive DirCall
  | processRead (pid : ℕ) (addr : Addr)
  | processWrite (pid : ℕ) (addr : Addr)
  | invalidate (pid : ℕ) (addr : Addr)
deriving DecidableEq, Repr

def DirCall.pid : DirCall → ℕ
  | processRead pid _ | processWrite pid _ | invalidate pid _ => pid

/-- The call, with the controller `process_write` is handed. -/
def Controller.call (c : Controller) : DirCall → Except AssertFailure Controller
  | .processRead pid addr => do
      let (m, _) ← c.coherence.processRead pid addr
      return { c with coherence := m }
  | .processWrite pid addr => do
      let (c, _) ← c.processWrite pid addr
      return c
  | .invalidate pid addr => return { c with coherence := c.coherence.invalidate pid addr }

end AdaptiveMsi
