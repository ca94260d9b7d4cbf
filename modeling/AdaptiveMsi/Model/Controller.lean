import AdaptiveMsi.Model.CacheSet
/-!
# The cache controller

The caches, the address splitting, and the two routines of `DIR_MSI` that
call back into the caches, `push_and_invalidate` and `process_write`: in
the source they get the controller as an argument, here they are
functions of it. `Controller.step` is one call of `load_single_line` or
`store_single_line` by the environment.
-/

namespace AdaptiveMsi

/-- What a configuration file may hold: sizes are positive and fit the
`uint32_t` they are read into, and the sharer vector has a bit for each
processor. The source expects powers of two; no statement needs them. -/
structure Config where
  numProcessors : ℕ
  numSets : ℕ
  lineSize : ℕ
  associativity : ℕ
  numProcessors_pos : 0 < numProcessors
  numProcessors_le : numProcessors ≤ 32
  numSets_pos : 0 < numSets
  numSets_lt : numSets < 2 ^ 32
  lineSize_pos : 0 < lineSize
  lineSize_lt : lineSize < 2 ^ 32
  associativity_pos : 0 < associativity

/-- The loop of `get_num_bits` on a `uint64_t`, which has at most `64`
rounds. -/
def numBitsLoop : ℕ → ℕ → ℕ → ℕ
  | 0, _, numBits => numBits
  | k + 1, num, numBits => if 0 < num then numBitsLoop k (num / 2) (numBits + 1) else numBits

/-- `get_num_bits`; the `uint32_t` wraps at `num = 0`. -/
def getNumBits (num : ℕ) : ℕ := (numBitsLoop 64 num 0 + (2 ^ 32 - 1)) % 2 ^ 32

/-- `cache` is `cache[pid].sets[index]`. -/
structure Controller where
  coherence : DirMsi
  cache : ℕ → ℕ → CacheSet
  offsetNumBits : ℕ
  setIndexNumBits : ℕ
  tagMask : BitVec 64

namespace Controller

/-- The constructor. -/
def new (numProcessors numSets lineSize associativity : ℕ) : Controller where
  coherence := .new numProcessors
  cache := fun _ _ => .new associativity
  offsetNumBits := getNumBits lineSize
  setIndexNumBits := getNumBits numSets
  tagMask := allOnes <<< (getNumBits lineSize + getNumBits numSets)

/-- Extract line information out of a memory address. -/
def getSetIndex (c : Controller) (addr : Addr) : ℕ :=
  ((addr &&& ~~~c.tagMask) >>> c.offsetNumBits).toNat

/-- Extract tag information out of a memory address. -/
def getTag (c : Controller) (addr : Addr) : BitVec 64 := addr &&& c.tagMask

def line (c : Controller) (addr : Addr) : DirectoryLine := c.coherence.directory addr

def setLine (c : Controller) (addr : Addr) (d : DirectoryLine) : Controller :=
  { c with coherence := c.coherence.setLine addr d }

def record (c : Controller) (call : Call) : Controller :=
  { c with coherence := c.coherence.record call }

def fetchCacheLine (c : Controller) (pid : ℕ) (addr : Addr) (replace : Bool) :
    Except AssertFailure Controller := do
  let tag := c.getTag addr
  let index := c.getSetIndex addr
  let (s, coherence) ← (c.cache pid index).fetchSingleLine pid tag addr c.coherence replace
  return { c with
    coherence := coherence
    cache := Function.update c.cache pid (Function.update (c.cache pid) index s) }

/-- The body of the push loop, for processor `i`: the controller, the
cost and the hops. -/
def pushBody (pid home : ℕ) (addr : Addr) (st : Controller × ℕ × ℕ) (i : ℕ) :
    Except AssertFailure (Controller × ℕ × ℕ) := do
  let (c, cost, hops) := st
  if i ≠ pid then
    -- push data to the reader; its set may evict for it
    if (c.line addr).qualifiedReader i then
      let c ← (c.record (.push i addr)).fetchCacheLine i addr false
      let cost := cost + cacheToCache
      -- only a reader without its bit costs hops
      if !(c.line addr).isSet i then
        return (c.setLine addr ((c.line addr).setSharer i), cost, (getDirectoryCost i home hops).2)
      else
        return (c, cost, hops)
    -- invalidate a sharer that does not read
    else if (c.line addr).isSet i then
      return (c.setLine addr ((c.line addr).clearSharer i), cost, hops)
    else
      return (c, cost, hops)
  else
    return (c, cost, hops)

/-- The handoff loop: every other qualified reader loses one read. -/
def decreaseBody (pid : ℕ) (dir : DirectoryLine) (i : ℕ) : Except AssertFailure DirectoryLine :=
  if i ≠ pid && dir.qualifiedReader i then dir.decreaseReadCount i else pure dir

/-- The first half of the last writer's branch: the line is fetched again
where the last writer was evicted. -/
def refetch (c : Controller) (pid : ℕ) (addr : Addr) (cost : ℕ) :
    Except AssertFailure (Controller × ℕ × AccessType) := do
  -- the last writer was evicted: bring back from memory
  if !(c.line addr).isSet pid then
    let c ← c.fetchCacheLine pid addr true
    return (c.setLine addr ((c.line addr).setSharer pid), cost + memoryAccess, .cacheMiss)
  else
    return (c, cost + localCacheAccess, .cacheHit)

/-- On a processor write with SHARED/MODIFIED, with detector: the last
writer pushes the data to qualified readers, another writer takes over. -/
def pushAndInvalidate (c : Controller) (pid home : ℕ) (addr : Addr) (hops : ℕ) :
    Except AssertFailure (Controller × Charge) := do
  let (cost, hops) := getDirectoryCost pid home hops
  check ((c.line addr).state != .invalid) .pushAndInvalidate
  if (c.line addr).isLastWriter pid then
    let (c, cost, response) ← c.refetch pid addr cost
    let (c, cost, hops) ←
      (List.range c.coherence.numProcessors).foldlM (pushBody pid home addr) (c, cost, hops)
    return (c.setLine addr { c.line addr with state := .modified }, ⟨response, cost, hops⟩)
  else
    let dir ← (List.range c.coherence.numProcessors).foldlM (decreaseBody pid) (c.line addr)
    let m := (c.coherence.setLine addr (dir.updateLastWriter pid)).record
      (.updateLastWriter pid addr)
    -- the cost of the request is overwritten, its hops are not
    let (m, charge) ← m.fetchAndInvalidate pid home addr hops
    return ({ c with coherence := m }, charge)

/-- Processor write handler; the result is what it hands to the profiler. -/
def processWrite (c : Controller) (pid : ℕ) (addr : Addr) :
    Except AssertFailure (Controller × Charge) := do
  let home := c.coherence.getHomeNode addr
  let (c, charge) ← match (c.line addr).state with
    | .modified | .shared =>
        if c.coherence.detector then
          c.pushAndInvalidate pid home addr 0
        else do
          let (m, charge) ← c.coherence.fetchAndInvalidate pid home addr 0
          pure ({ c with coherence := m }, charge)
    | .invalid => do
        let m := (c.coherence.setLine addr ((c.line addr).updateLastWriter pid)).record
          (.updateLastWriter pid addr)
        let (m, cost, hops) ← m.writeMiss pid home addr 0
        pure ({ c with coherence := m }, ⟨.cacheMiss, cost, hops⟩)
  return ({ c with coherence := c.coherence.profileStore pid addr charge }, charge)

def storeSingleLine (c : Controller) (addr : Addr) (pid : ℕ) :
    Except AssertFailure (Controller × Charge) := do
  let c ← c.fetchCacheLine pid addr true
  c.processWrite pid addr

def loadSingleLine (c : Controller) (addr : Addr) (pid : ℕ) :
    Except AssertFailure (Controller × Charge) := do
  let c ← c.fetchCacheLine pid addr true
  let (m, charge) ← c.coherence.processRead pid addr
  return ({ c with coherence := m }, charge)

end Controller

end AdaptiveMsi
