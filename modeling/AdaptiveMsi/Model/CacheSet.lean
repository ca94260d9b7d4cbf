import AdaptiveMsi.Model.Coherence
/-!
# The cache set

A set of ways with the replacement counters. A lookup stops at the first
way with the tag; a miss takes the first way whose counter is least and
tells the directory about the line it displaces. A set is built with one
line for each way; no routine reads its associativity afterwards.
-/

namespace AdaptiveMsi

structure CacheSet where
  lines : List CacheLine
deriving DecidableEq, Repr

namespace CacheSet

/-- The constructor. -/
def new (associativity : ℕ) : CacheSet := ⟨List.replicate associativity .empty⟩

/-- The loop of `fetch` over the ways that are left. -/
def fetchLoop (tag : BitVec 64) (replace : Bool) :
    List CacheLine → Except AssertFailure (List CacheLine × LocalStatus)
  | [] => .ok ([], .uncached)
  | line :: lines =>
      -- the first way with the tag answers, whatever its status
      if line.tag = tag then
        if replace then do
          -- a demand counts the use, a push does not
          let line := { line with lru := line.lru + 1 }
          check (line.lru != allOnes) .lru
          return (line :: lines, line.status)
        else
          return (line :: lines, line.status)
      else do
        let (lines, status) ← fetchLoop tag replace lines
        return (line :: lines, status)

/-- Find cache line, return line status. -/
def fetch (s : CacheSet) (tag : BitVec 64) (replace : Bool) :
    Except AssertFailure (CacheSet × LocalStatus) := do
  let (lines, status) ← fetchLoop tag replace s.lines
  return (⟨lines⟩, status)

/-- `_lines[i]`. -/
def line (s : CacheSet) (i : ℕ) : CacheLine := s.lines.getD i .empty

/-- The three variables of the selection loop of `evict`. -/
structure Victim where
  min : BitVec 64
  evictAddr : Addr
  evict : ℕ
deriving DecidableEq, Repr

/-- The selection loop over the ways that are left, the first of them `i`. -/
def victimLoop : List CacheLine → ℕ → Victim → Victim
  | [], _, v => v
  | line :: lines, i, v =>
      victimLoop lines (i + 1) (if line.lru < v.min then ⟨line.lru, line.addr, i⟩ else v)

/-- The loop of `evict` as the source starts it: at way `0`, with its
counter and with address `0`. -/
def victim (s : CacheSet) : Victim :=
  victimLoop (s.lines.drop 1) 1 ⟨(s.line 0).lru, 0, 0⟩

/-- Evict cache line and update directory; the way is `s.victim.evict`. -/
def evict (s : CacheSet) (pid : ℕ) (coherence : DirMsi) : ℕ × DirMsi :=
  let v := s.victim
  let coherence := coherence.record (.evict pid s.lines v.evict)
  -- the directory is told only of a way in use
  if (s.line v.evict).status ≠ .uncached then
    (v.evict, coherence.invalidate pid v.evictAddr)
  else
    (v.evict, coherence)

/-- The way `index` takes the line, over the victim's counter. -/
def install (s : CacheSet) (index : ℕ) (tag : BitVec 64) (addr : Addr) (replace : Bool) :
    CacheSet :=
  ⟨s.lines.modify index fun line =>
    { lru := if replace then line.lru + 1 else line.lru
      tag := tag
      addr := addr
      status := .cached }⟩

/-- Simulate fetching single cache line. -/
def fetchSingleLine (s : CacheSet) (pid : ℕ) (tag : BitVec 64) (addr : Addr)
    (coherence : DirMsi) (replace : Bool) : Except AssertFailure (CacheSet × DirMsi) := do
  let (s, status) ← s.fetch tag replace
  match status with
  | .uncached =>
      let (index, coherence) := s.evict pid coherence
      return (s.install index tag addr replace, coherence)
  | .cached => return (s, coherence)

end CacheSet

end AdaptiveMsi
