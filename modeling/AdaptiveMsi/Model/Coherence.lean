import AdaptiveMsi.Model.Profile
/-!
# The directory protocol

`DIR_MSI` without the routines that call back into the caches, which are
in `Controller.lean`. A routine that changes a line reads it from the
directory, changes it and stores it back; `hops`, which the source
threads by reference, is an argument and a result. `calls` is not in the
source: it records, in order, the calls the statements of this
development speak of, and no routine reads it.
-/

namespace AdaptiveMsi

/-- `COST`. -/
def localCacheAccess : ℕ := 3
def remoteCacheAccess : ℕ := 7
def cacheToCache : ℕ := 4
def memoryAccess : ℕ := 100

/-- A call the directory, a cache set or the profiler answers. `push` is
`fetch_cache_line` with `replace` false; `evict` carries the lines of the
set it is called on and the way it returns. -/
inductive Call
  | invalidate (pid : ℕ) (addr : Addr)
  | profileCacheEvict (pid : ℕ) (addr : Addr) (cost hops : ℕ)
  | updateLastWriter (pid : ℕ) (addr : Addr)
  | push (pid : ℕ) (addr : Addr)
  | evict (pid : ℕ) (lines : List CacheLine) (way : ℕ)
deriving DecidableEq, Repr

/-- What an access hands to the profiler. -/
structure Charge where
  response : AccessType
  cost : ℕ
  hops : ℕ
deriving DecidableEq, Repr

structure DirMsi where
  profiles : Profile
  directory : Addr → DirectoryLine
  numProcessors : ℕ
  detector : Bool
  calls : List Call

/-- `get_directory_cost`: the cost, and `hops` after it. -/
def getDirectoryCost (src dest hops : ℕ) : ℕ × ℕ :=
  (if src = dest then localCacheAccess else remoteCacheAccess,
    if src ≠ dest then hops + 2 else hops)

def dataWriteBack (pid home hops : ℕ) : ℕ × ℕ :=
  ((getDirectoryCost pid home hops).1 + memoryAccess, (getDirectoryCost pid home hops).2)

namespace DirMsi

/-- The constructor. A line that was never touched reads as the empty one. -/
def new (numProcessors : ℕ) : DirMsi where
  profiles := .new
  directory := fun _ => .empty
  numProcessors := numProcessors
  detector := false
  calls := []

def getHomeNode (m : DirMsi) (addr : Addr) : ℕ :=
  addr.toNat &&& (m.numProcessors - 1)

def setLine (m : DirMsi) (addr : Addr) (d : DirectoryLine) : DirMsi :=
  { m with directory := Function.update m.directory addr d }

def record (m : DirMsi) (c : Call) : DirMsi :=
  { m with calls := m.calls ++ [c] }

def profileLoad (m : DirMsi) (pid : ℕ) (addr : Addr) (charge : Charge) : DirMsi :=
  { m with
    profiles := m.profiles.profileCacheLoad charge.response pid addr charge.cost charge.hops }

def profileStore (m : DirMsi) (pid : ℕ) (addr : Addr) (charge : Charge) : DirMsi :=
  { m with
    profiles := m.profiles.profileCacheStore charge.response pid addr charge.cost charge.hops }

/-- On a processor read with SHARED/MODIFIED. -/
def fetch (m : DirMsi) (pid home : ℕ) (addr : Addr) (hops : ℕ) :
    Except AssertFailure (DirMsi × Charge) := do
  let (cost, hops) := getDirectoryCost pid home hops
  let dir := m.directory addr
  check (dir.state != .invalid) .fetch
  if dir.isSet pid then
    -- requesting node is sharer/owner, no state change
    return (m, ⟨.cacheHit, cost + localCacheAccess, hops⟩)
  else if dir.state = .modified then
    let owner ← dir.owner m.numProcessors
    let (writeBack, hops) := dataWriteBack owner home hops
    return (m.setLine addr { (dir.setSharer pid) with state := .shared },
      ⟨.cacheMiss, cost + memoryAccess + writeBack, hops⟩)
  else
    return (m.setLine addr { (dir.setSharer pid) with state := .shared },
      ⟨.cacheMiss, cost + memoryAccess, hops⟩)

/-- `ownership`, as `invalidate` computes it. -/
def ownership (m : DirMsi) (pid : ℕ) (addr : Addr) : Bool :=
  let claimed := (m.directory addr).isOwner pid
  if m.detector then (m.directory addr).isLastWriter pid && claimed else claimed

/-- On cache eviction, invalidate directory line. -/
def invalidate (m : DirMsi) (pid : ℕ) (addr : Addr) : DirMsi :=
  let dir := m.directory addr
  let (m, dir) :=
    if m.ownership pid addr then
      -- dirty cache line issues write back on eviction
      let (cost, hops) := dataWriteBack pid (m.getHomeNode addr) 0
      ({ (m.record (.invalidate pid addr)).record (.profileCacheEvict pid addr cost hops) with
          profiles := m.profiles.profileCacheEvict pid addr cost hops },
        { dir with state := if m.detector then .shared else .invalid })
    else (m.record (.invalidate pid addr), dir)
  -- the last sharer leaves the line invalid
  let dir := dir.clearSharer pid
  m.setLine addr (if dir.sharerVector = 0 then { dir with state := .invalid } else dir)

/-- The loop of `fetch_and_invalidate` over the other sharers: it only
counts their hops. -/
def invalidateHops (m : DirMsi) (dir : DirectoryLine) (pid home hops : ℕ) : ℕ :=
  (List.range m.numProcessors).foldl (fun hops i =>
    if dir.isSet i && i != pid then (getDirectoryCost i home hops).2 else hops) hops

/-- On a processor write with SHARED/MODIFIED, without detector. -/
def fetchAndInvalidate (m : DirMsi) (pid home : ℕ) (addr : Addr) (hops : ℕ) :
    Except AssertFailure (DirMsi × Charge) := do
  let (m, charge) ← m.fetch pid home addr hops
  let dir := m.directory addr
  check (dir.state != .invalid) .fetchAndInvalidate
  -- invalidate other sharers and claim ownership
  let hops := m.invalidateHops dir pid home charge.hops
  let dir := { dir with sharerVector := 0 }
  return (m.setLine addr { (dir.setSharer pid) with state := .modified },
    { charge with hops := hops })

/-- On a processor read with INVALID: the cost and the hops. -/
def readMiss (m : DirMsi) (pid home : ℕ) (addr : Addr) (hops : ℕ) :
    Except AssertFailure (DirMsi × ℕ × ℕ) := do
  let (cost, hops) := getDirectoryCost pid home hops
  let dir := m.directory addr
  check (dir.state == .invalid) .readMiss
  return (m.setLine addr ({ dir with state := .shared }.setSharer pid), cost + memoryAccess, hops)

/-- On a processor write with INVALID: the cost and the hops. -/
def writeMiss (m : DirMsi) (pid home : ℕ) (addr : Addr) (hops : ℕ) :
    Except AssertFailure (DirMsi × ℕ × ℕ) := do
  let (cost, hops) := getDirectoryCost pid home hops
  let dir := m.directory addr
  check (dir.state == .invalid) .writeMiss
  return (m.setLine addr ({ dir with state := .modified }.setSharer pid), cost + memoryAccess, hops)

/-- Processor read handler; the result is what it hands to the profiler. -/
def processRead (m : DirMsi) (pid : ℕ) (addr : Addr) :
    Except AssertFailure (DirMsi × Charge) := do
  let home := m.getHomeNode addr
  let (m, charge) ← match (m.directory addr).state with
    | .modified | .shared => m.fetch pid home addr 0
    | .invalid => do
        let (m, cost, hops) ← m.readMiss pid home addr 0
        pure (m, ⟨.cacheMiss, cost, hops⟩)
  -- only a miss counts as a read
  let m ← match charge.response with
    | .cacheMiss => do
        let dir ← (m.directory addr).increaseReadCount pid
        pure (m.setLine addr dir)
    | .cacheHit => pure m
  return (m.profileLoad pid addr charge, charge)

end DirMsi

end AdaptiveMsi
