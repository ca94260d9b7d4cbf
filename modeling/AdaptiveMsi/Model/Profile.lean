import AdaptiveMsi.Model.Lines
/-!
# The profiler

The counters an access and a write-back are added to: one `AccessStat`
for each processor and one for each address. The counters are `ℕ` where
the source has `uint64_t`.
-/

namespace AdaptiveMsi

inductive AccessType
  | cacheHit
  | cacheMiss
deriving DecidableEq, Repr

@[ext]
structure Stat where
  hits : ℕ
  misses : ℕ
  hitCycles : ℕ
  missCycles : ℕ
  hops : ℕ
deriving DecidableEq, Repr

/-- The constructor. -/
def Stat.zero : Stat := ⟨0, 0, 0, 0, 0⟩

@[ext]
structure AccessStat where
  load : Stat
  store : Stat
  evict : Stat
  count : ℕ
deriving DecidableEq, Repr

/-- The constructor. -/
def AccessStat.zero : AccessStat := ⟨.zero, .zero, .zero, 0⟩

/-- `_profiles`, by processor, and `_line_stat`, by address. -/
@[ext]
structure Profile where
  profiles : ℕ → AccessStat
  lineStat : Addr → AccessStat

namespace Profile

/-- The constructor. -/
def new : Profile := ⟨fun _ => .zero, fun _ => .zero⟩

def onProfile (p : Profile) (pid : ℕ) (f : AccessStat → AccessStat) : Profile :=
  { p with profiles := Function.update p.profiles pid (f (p.profiles pid)) }

def onLine (p : Profile) (addr : Addr) (f : AccessStat → AccessStat) : Profile :=
  { p with lineStat := Function.update p.lineStat addr (f (p.lineStat addr)) }

def profileCacheLoad (p : Profile) (type : AccessType) (pid : ℕ) (addr : Addr)
    (cost hops : ℕ) : Profile :=
  let p := match type with
    | .cacheHit =>
        (p.onLine addr fun s => { s with load.hits := s.load.hits + 1 }).onProfile pid
          fun s => { s with load.hits := s.load.hits + 1,
                            load.hitCycles := s.load.hitCycles + cost }
    | .cacheMiss =>
        (p.onLine addr fun s => { s with load.misses := s.load.misses + 1 }).onProfile pid
          fun s => { s with load.misses := s.load.misses + 1,
                            load.missCycles := s.load.missCycles + cost }
  (p.onLine addr fun s => { s with count := s.count + 1 }).onProfile pid
    fun s => { s with load.hops := s.load.hops + hops }

def profileCacheStore (p : Profile) (type : AccessType) (pid : ℕ) (addr : Addr)
    (cost hops : ℕ) : Profile :=
  let p := match type with
    | .cacheHit =>
        (p.onLine addr fun s => { s with store.hits := s.store.hits + 1 }).onProfile pid
          fun s => { s with store.hits := s.store.hits + 1,
                            store.hitCycles := s.store.hitCycles + cost }
    | .cacheMiss =>
        (p.onLine addr fun s => { s with store.misses := s.store.misses + 1 }).onProfile pid
          fun s => { s with store.misses := s.store.misses + 1,
                            store.missCycles := s.store.missCycles + cost }
  (p.onLine addr fun s => { s with count := s.count + 1 }).onProfile pid
    fun s => { s with store.hops := s.store.hops + hops }

def profileCacheEvict (p : Profile) (pid : ℕ) (addr : Addr) (cost hops : ℕ) : Profile :=
  (p.onLine addr fun s => { s with evict.misses := s.evict.misses + 1 }).onProfile pid
    fun s => { s with evict.misses := s.evict.misses + 1,
                      evict.missCycles := s.evict.missCycles + cost,
                      evict.hops := s.evict.hops + hops }

end Profile

end AdaptiveMsi
