import AdaptiveMsi.Model.Profile
/-!
# The report

What the simulator prints when the program ends: a section for each
processor, the totals, and the lines accessed often. A row is its label
and its columns. The quotients the source prints in floating point are
left as their two integers, and the padding between columns is not
modelled.
-/

namespace AdaptiveMsi

/-- A column. -/
inductive Cell
  | text (s : String)
  | number (n : ℕ)
  | hex (addr : Addr)
  /-- `100.0 * n / d` -/
  | percent (n d : ℕ)
  /-- `1.0 * n / d` -/
  | average (n d : ℕ)
  /-- `100.0` -/
  | hundred
deriving DecidableEq, Repr

/-- A printed line: its label and its columns. -/
structure Row where
  label : String
  cells : List Cell
deriving DecidableEq, Repr

namespace Row

/-- The second `std::endl`. -/
def blank : Row := ⟨"", []⟩

end Row

open Cell

def threshold : ℕ := 100

namespace Stat

def statToString (s : Stat) (lead type : String) : List Row :=
  let totalAccesses := s.hits + s.misses
  let totalCycles := s.hitCycles + s.missCycles
  [⟨lead ++ (type ++ "-Hits"), [number s.hits, percent s.hits totalAccesses,
      number s.hitCycles, percent s.hitCycles totalCycles]⟩,
    ⟨lead ++ (type ++ "-Misses:"), [number s.misses, percent s.misses totalAccesses,
      number s.missCycles, percent s.missCycles totalCycles]⟩,
    ⟨lead ++ (type ++ "-Total Accesses:"), [number totalAccesses, hundred,
      number totalCycles, hundred]⟩,
    .blank]

end Stat

namespace AccessStat

/-! The locals of `stat_to_string`. -/

def totalHits (s : AccessStat) : ℕ := s.load.hits + s.store.hits

def totalMisses (s : AccessStat) : ℕ := s.load.misses + s.store.misses

def totalAccesses (s : AccessStat) : ℕ := s.totalHits + s.totalMisses

def totalHitCycles (s : AccessStat) : ℕ := s.load.hitCycles + s.store.hitCycles

def totalMissCycles (s : AccessStat) : ℕ := s.load.missCycles + s.store.missCycles

def totalCycles (s : AccessStat) : ℕ := s.totalHitCycles + s.totalMissCycles + s.evict.missCycles

def totalHops (s : AccessStat) : ℕ := s.load.hops + s.store.hops + s.evict.hops

/-- The section of one processor. -/
def statToString (s : AccessStat) (lead : String) : List Row :=
  s.load.statToString lead "Load" ++ s.store.statToString lead "Store" ++
    s.evict.statToString lead "Evict" ++
  [⟨lead ++ "Total-Hits:", [number s.totalHits, percent s.totalHits s.totalAccesses,
      number s.totalHitCycles, percent s.totalHitCycles s.totalCycles]⟩,
    ⟨lead ++ "Total-Misses:", [number s.totalMisses, percent s.totalMisses s.totalAccesses,
      number s.totalMissCycles, percent s.totalMissCycles s.totalCycles]⟩,
    .blank,
    ⟨lead ++ "Total-Evicts:", [number s.evict.misses, number s.evict.missCycles,
      percent s.evict.missCycles s.totalCycles]⟩,
    .blank,
    ⟨lead ++ "Estimated-Cost:", [number s.totalAccesses, hundred, number s.totalCycles, hundred]⟩,
    ⟨lead ++ "Load-Network-Msg:", [number s.load.hops, percent s.load.hops s.totalHops]⟩,
    ⟨lead ++ "Store-Network-Msg:", [number s.store.hops, percent s.store.hops s.totalHops]⟩,
    ⟨lead ++ "Evict-Network-Msg:", [number s.evict.hops, percent s.evict.hops s.totalHops]⟩,
    ⟨lead ++ "Total-Network-Msg:", [number s.totalHops, hundred]⟩,
    .blank]

end AccessStat

/-- The sums of `stats_to_string`. -/
structure Totals where
  allHits : ℕ
  allMisses : ℕ
  allHitCycles : ℕ
  allMissCycles : ℕ
  allEvictCycles : ℕ
  allLoads : ℕ
  allLoadHops : ℕ
  allHops : ℕ
deriving DecidableEq, Repr

namespace Totals

def zero : Totals := ⟨0, 0, 0, 0, 0, 0, 0, 0⟩

/-- One round of the loop. -/
def add (T : Totals) (s : AccessStat) : Totals where
  allHits := T.allHits + (s.load.hits + s.store.hits)
  allMisses := T.allMisses + (s.load.misses + s.store.misses)
  allHitCycles := T.allHitCycles + (s.load.hitCycles + s.store.hitCycles)
  allMissCycles := T.allMissCycles + (s.load.missCycles + s.store.missCycles)
  allEvictCycles := T.allEvictCycles + s.evict.missCycles
  allLoads := T.allLoads + (s.load.hits + s.load.misses)
  allLoadHops := T.allLoadHops + s.load.hops
  allHops := T.allHops + (s.load.hops + s.store.hops + s.evict.hops)

/-- Computed after the loop. -/
def allCycels (T : Totals) : ℕ := T.allHitCycles + T.allMissCycles + T.allEvictCycles

def rows (T : Totals) : List Row :=
  [⟨"+ All-Hits:", [number T.allHits, percent T.allHits (T.allHits + T.allMisses)]⟩,
    ⟨"+ All-Misses:", [number T.allMisses, percent T.allMisses (T.allHits + T.allMisses)]⟩,
    ⟨"+ All-Hit-Cycles:", [number T.allHitCycles, percent T.allHitCycles T.allCycels]⟩,
    ⟨"+ All-Miss-Cycles:", [number T.allMissCycles, percent T.allMissCycles T.allCycels]⟩,
    ⟨"+ All-Evict-Cycles:", [number T.allEvictCycles, percent T.allEvictCycles T.allCycels]⟩,
    ⟨"+ All-Cycles:", [number T.allCycels]⟩,
    ⟨"+ Avg-Network-Msg-Load:", [average T.allLoadHops T.allLoads]⟩,
    ⟨"+ All-Hops:", [number T.allHops]⟩,
    .blank]

end Totals

namespace Profile

/-- One round of the loop over the processors: the sums, and the section
printed on the way. -/
def statsBody (p : Profile) (st : Totals × List Row) (pid : ℕ) : Totals × List Row :=
  (st.1.add (p.profiles pid), st.2 ++ ⟨s!"+ Processor: {pid} L1 Data Cache", []⟩ ::
    ((p.profiles pid).statToString "+ " ++ [.blank]))

def statsLoop (p : Profile) (numProcessors : ℕ) : Totals × List Row :=
  (List.range numProcessors).foldl p.statsBody (.zero, [])

/-- The row of a line. -/
def lineRow (p : Profile) (addr : Addr) : Row :=
  ⟨"", [hex addr, number (p.lineStat addr).load.hits, number (p.lineStat addr).load.misses,
    number (p.lineStat addr).store.hits, number (p.lineStat addr).store.misses]⟩

/-- `keys` are the keys of the map, in the order it is traversed. -/
def lineStatToString (p : Profile) (keys : List Addr) : List Row :=
  [⟨"Memory Stats:", []⟩, ⟨"Addr", [text "Load Hit", text "Load Miss", text "Store Hit",
    text "Store Miss"]⟩] ++
    (keys.filter fun addr => ¬ (p.lineStat addr).count ≤ threshold).map p.lineRow

/-- The whole report. -/
def statsToString (p : Profile) (numProcessors : ℕ) (keys : List Addr) : List Row :=
  let (T, out) := p.statsLoop numProcessors
  out ++ T.rows ++ (p.lineStatToString keys ++ [.blank])

end Profile

end AdaptiveMsi
