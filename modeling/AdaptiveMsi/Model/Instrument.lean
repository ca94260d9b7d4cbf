import AdaptiveMsi.Model.Callbacks
import Mathlib.Data.Finset.Basic
/-!
# The instrumentation

`Instruction` puts callbacks before every instruction, one for each memory
operand it reads and one for each it writes. They are called, in the order
they were put there, when the instruction is executed and its predicate
holds; a thread's first callback starts it and its last one ends it. The
threads of a program interleave as they like.
-/

namespace AdaptiveMsi

/-- `INS_MemoryOperandIsRead` and `INS_MemoryOperandIsWritten`. -/
structure MemoryOperand where
  isRead : Bool
  isWritten : Bool
deriving DecidableEq, Repr

/-- The routine of an inserted call; its address is the instruction's. -/
inductive Routine
  | cacheLoad
  | cacheStore
deriving DecidableEq, Repr

/-- The body of the loop over the memory operands. -/
def insertBody (memOp : MemoryOperand) : List Routine :=
  (if memOp.isRead then [.cacheLoad] else []) ++ if memOp.isWritten then [.cacheStore] else []

/-- What `Instruction` inserts. -/
def instruction (memOperands : List MemoryOperand) : List Routine :=
  memOperands.flatMap insertBody

/-- An instruction as it is executed: `readEA` and `writeEA` are the
`IARG_MEMORYREAD_EA` and `IARG_MEMORYWRITE_EA` it is called with, which are
the same for all its operands. -/
structure Execution where
  memOperands : List MemoryOperand
  predicate : Bool
  readEA : Addr
  writeEA : Addr
deriving DecidableEq, Repr

namespace Execution

/-- The call of a routine. -/
def call (x : Execution) (tid : ℕ) : Routine → Callback
  | .cacheLoad => .cacheLoad tid x.readEA
  | .cacheStore => .cacheStore tid x.writeEA

/-- The callbacks an execution makes on its thread. -/
def callbacks (x : Execution) (tid : ℕ) : List Callback :=
  if x.predicate then (instruction x.memOperands).map (x.call tid) else []

end Execution

/-- `ThreadStart`, the instructions, `ThreadFini`. -/
def threadCallbacks (tid : ℕ) (xs : List Execution) : List Callback :=
  .threadAttach tid :: (xs.flatMap (·.callbacks tid) ++ [.threadDetach tid])

/-- A program: what is executed on each thread id, which a later thread may
be given again. -/
structure Program where
  threads : Finset ℕ
  lives : ℕ → List (List Execution)
  lives_eq_nil : ∀ tid ∉ threads, lives tid = []

namespace Program

/-- The callbacks on one thread id. -/
def callbacks (P : Program) (tid : ℕ) : List Callback := (P.lives tid).flatMap (threadCallbacks tid)

/-- The callbacks in some order in which each thread's are its own. -/
def Interleaves (P : Program) (es : List Callback) : Prop :=
  ∀ tid, es.filter (·.tid = tid) = P.callbacks tid

end Program

end AdaptiveMsi
