import Mathlib.Algebra.Group.Nat.Defs
import Mathlib.Logic.Function.Basic
/-!
# The directory line and the cache line

What the directory keeps of one address: the sharers, one bit a
processor, the MSI state, and the detector's two fields, the last writer
and the packed read counters. Words have the widths of the source, and
the masks are the shifted `int` literals of the source, sign extended
where it meets them with a 64-bit word. A cache keeps lines, not
addresses: a tag, the address the line was installed for, the
replacement counter and the status.
-/

namespace AdaptiveMsi

/-- A memory address, a `uint64_t`. -/
abbrev Addr := BitVec 64

/-- The assertions of the simulator, one constructor for each `assert`.
The first eight guard the directory; `lru` is the cache set's. -/
inductive AssertFailure
  | fetch
  | fetchAndInvalidate
  | pushAndInvalidate
  | readMiss
  | writeMiss
  | ownerRange
  | ownerState
  | readCount
  | lru
deriving DecidableEq, Repr

/-- `assert(b)`. -/
def check (b : Bool) (e : AssertFailure) : Except AssertFailure Unit :=
  if b then .ok () else .error e

inductive CacheState
  | invalid
  | shared
  | modified
deriving DecidableEq, Repr

/-- `v << n` for an `int` literal `v`. A count past `31` is undefined in
the language; the x86 shift the source is compiled to reads it modulo
`32`. -/
def intShl (v : BitVec 32) (n : ℕ) : BitVec 32 := v <<< (n % 32)

/-- `v << n` met with a `uint64_t`: the `int` is sign extended. -/
def intShl64 (v : BitVec 32) (n : ℕ) : BitVec 64 := (intShl v n).signExtend 64

structure DirectoryLine where
  sharerVector : BitVec 32
  state : CacheState
  lastWriter : ℕ
  readCountVector : BitVec 64
deriving DecidableEq, Repr

namespace DirectoryLine

/-- The `last_writer` of a line nobody has stored to, `~0` as a
`uint32_t`. -/
def noWriter : ℕ := 2 ^ 32 - 1

/-- The constructor. -/
def empty : DirectoryLine where
  sharerVector := 0
  state := .invalid
  lastWriter := noWriter
  readCountVector := 0

def isSet (d : DirectoryLine) (pid : ℕ) : Bool :=
  d.sharerVector &&& intShl 1 pid != 0

def isOwner (d : DirectoryLine) (pid : ℕ) : Bool :=
  d.isSet pid && d.state == .modified

/-- The loop of `owner`, from `pid` on, with `k` rounds left: it stops at
the first set bit or at `numProcessors`. -/
def ownerLoop (d : DirectoryLine) (numProcessors : ℕ) : ℕ → ℕ → ℕ
  | 0, pid => pid
  | k + 1, pid =>
      if !d.isSet pid && pid < numProcessors then ownerLoop d numProcessors k (pid + 1) else pid

def owner (d : DirectoryLine) (numProcessors : ℕ) : Except AssertFailure ℕ := do
  let pid := d.ownerLoop numProcessors numProcessors 0
  check (pid != numProcessors) .ownerRange
  check (d.state == .modified) .ownerState
  return pid

def setSharer (d : DirectoryLine) (pid : ℕ) : DirectoryLine :=
  { d with sharerVector := d.sharerVector ||| intShl 1 pid }

def clearSharer (d : DirectoryLine) (pid : ℕ) : DirectoryLine :=
  { d with sharerVector := d.sharerVector &&& ~~~(intShl 1 pid) }

/-- `(read_count_vector >> (pid * 2)) & 3`. -/
def readCount (d : DirectoryLine) (pid : ℕ) : BitVec 64 :=
  d.readCountVector >>> (pid * 2 % 64) &&& 3

def increaseReadCount (d : DirectoryLine) (pid : ℕ) : Except AssertFailure DirectoryLine := do
  check (pid < 64) .readCount
  if d.readCount pid < 3 then
    return { d with readCountVector := d.readCountVector + intShl64 1 (pid * 2) }
  else
    return d

def decreaseReadCount (d : DirectoryLine) (pid : ℕ) : Except AssertFailure DirectoryLine := do
  check (pid < 64) .readCount
  if 0 < d.readCount pid then
    return { d with readCountVector := d.readCountVector - intShl64 1 (pid * 2) }
  else
    return d

def qualifiedReader (d : DirectoryLine) (pid : ℕ) : Bool :=
  d.readCountVector &&& intShl64 1 (2 * pid + 1) != 0

def isLastWriter (d : DirectoryLine) (pid : ℕ) : Bool :=
  pid == d.lastWriter

def updateLastWriter (d : DirectoryLine) (pid : ℕ) : DirectoryLine :=
  { (d.setSharer pid) with lastWriter := pid, readCountVector := 0 }

end DirectoryLine

inductive LocalStatus
  | uncached
  | cached
deriving DecidableEq, Repr

/-- A line of a cache set, without its `lock`, which nothing reads. -/
structure CacheLine where
  lru : BitVec 64
  tag : BitVec 64
  addr : Addr
  status : LocalStatus
deriving DecidableEq, Repr

/-- `ALL_ONES`. -/
def allOnes : BitVec 64 := 0xFFFFFFFFFFFFFFFF

/-- The constructor. -/
def CacheLine.empty : CacheLine where
  lru := 0
  tag := allOnes
  addr := 0
  status := .uncached

end AdaptiveMsi
