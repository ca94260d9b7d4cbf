import AdaptiveMsi.Cache.Contents
import AdaptiveMsi.Controller.Step
/-!
# Two runs on paired addresses

The caches look at an address's line and the directory at the address,
and neither at anything else of it. So two baseline runs whose accesses
are to paired addresses, of one line each, keep one cache up to the
addresses stored in it and one directory up to the pairing. The only
address the simulator makes up is the `0` of `evict`.
-/

namespace AdaptiveMsi

open Machine Protocol DirMsi

variable {σ : Addr → Addr → Prop}

/-- Two accesses that differ in their addresses only, which are paired. -/
structure Access.Mirrors (σ : Addr → Addr → Prop) (x y : Access) : Prop where
  kind : y.kind = x.kind
  pid : y.pid = x.pid
  addr : σ x.addr y.addr

theorem Access.Mirrors.event {x y : Access} (h : x.Mirrors σ y) :
    Event.Paired σ x.event y.event := by
  obtain ⟨kind, pid, a⟩ := x
  obtain ⟨kind', pid', b⟩ := y
  obtain ⟨rfl, rfl, hab⟩ := h
  cases kind' with
  | load => exact .read _ hab
  | store => exact .store _ hab

/-! ## The cache set -/

/-- Two lines that differ in their addresses only, which are paired if the
lines are in use. -/
structure CacheLine.Twin (σ : Addr → Addr → Prop) (l l' : CacheLine) : Prop where
  lru : l'.lru = l.lru
  tag : l'.tag = l.tag
  status : l'.status = l.status
  addr : l.status = .cached → σ l.addr l'.addr

theorem CacheLine.twin_empty : CacheLine.Twin σ .empty .empty :=
  ⟨rfl, rfl, rfl, fun h => by simp [CacheLine.empty] at h⟩

namespace CacheSet

variable {s s' : CacheSet} {m m' : DirMsi} {lines lines' : List CacheLine} {l l' : CacheLine}
variable {tag : BitVec 64} {a b : Addr} {replace : Bool} {pid i : ℕ} {v v' : Victim}

/-- The ways are twins, one by one. -/
abbrev Twins (σ : Addr → Addr → Prop) (s s' : CacheSet) : Prop :=
  List.Forall₂ (CacheLine.Twin σ) s.lines s'.lines

/-- **The lookup of twins.** -/
theorem agree_fetchLoop (h : List.Forall₂ (CacheLine.Twin σ) lines lines') :
    Agree (fun r r' => List.Forall₂ (CacheLine.Twin σ) r.1 r'.1 ∧ r'.2 = r.2)
      (fetchLoop tag replace lines) (fetchLoop tag replace lines') := by
  induction h with
  | nil => exact ⟨.nil, rfl⟩
  | @cons l l' lines lines' hl hlines ih =>
    rw [fetchLoop, fetchLoop, hl.tag]
    split
    · dsimp only
      rw [hl.lru]
      split
      · cases check (l.lru + 1 != allOnes) .lru with
        | error e => exact agree_error
        | ok u => exact ⟨.cons ⟨rfl, rfl, hl.status, hl.addr⟩ hlines, hl.status⟩
      · exact ⟨.cons hl hlines, hl.status⟩
    · refine ih.bind fun r r' _ _ hr => ⟨.cons hl hr.1, hr.2⟩

theorem Twins.line (h : s.Twins σ s') : CacheLine.Twin σ (s.line i) (s'.line i) := by
  obtain ⟨lines⟩ := s
  obtain ⟨lines'⟩ := s'
  change List.Forall₂ (CacheLine.Twin σ) lines lines' at h
  change CacheLine.Twin σ (lines.getD i .empty) (lines'.getD i .empty)
  induction h generalizing i with
  | nil => exact CacheLine.twin_empty
  | cons hl _ ih =>
    cases i with
    | zero => exact hl
    | succ i => exact ih

/-- Twins have one victim. -/
theorem victimLoop_twins (h : List.Forall₂ (CacheLine.Twin σ) lines lines')
    (hmin : v'.min = v.min) (hevict : v'.evict = v.evict) :
    (victimLoop lines' i v').evict = (victimLoop lines i v).evict := by
  induction h generalizing i v v' with
  | nil => exact hevict
  | @cons l l' lines lines' hl _ ih =>
    rw [victimLoop, victimLoop, hl.lru, hmin]
    split
    · exact ih rfl rfl
    · exact ih hmin hevict

theorem Twins.victim (h : s.Twins σ s') : s'.victim.evict = s.victim.evict :=
  victimLoop_twins (List.forall₂_drop 1 h) h.line.lru rfl

theorem Twins.install (h : s.Twins σ s') (hab : σ a b) :
    (s.install i tag a replace).Twins σ (s'.install i tag b replace) := by
  obtain ⟨lines⟩ := s
  obtain ⟨lines'⟩ := s'
  change List.Forall₂ (CacheLine.Twin σ) lines lines' at h
  change List.Forall₂ (CacheLine.Twin σ) (lines.modify i (installed tag a replace))
    (lines'.modify i (installed tag b replace))
  induction h generalizing i with
  | nil => simp
  | @cons l l' lines lines' hl hlines ih =>
    cases i with
    | zero =>
      refine .cons ⟨?_, rfl, rfl, fun _ => hab⟩ hlines
      simp only [installed, hl.lru]
    | succ i => exact .cons hl ih

/-- **A fetch into twins** leaves twins, and evicts from both or from
neither. -/
theorem Twins.agree_fetchSingleLine (h : s.Twins σ s') (m m' : DirMsi) (hab : σ a b) :
    Agree (fun r r' => r.1.Twins σ r'.1 ∧ (r.2 = m ∧ r'.2 = m' ∨ ∃ t t', Twins σ t t' ∧
        r.2 = (t.evict pid m).2 ∧ r'.2 = (t'.evict pid m').2))
      (s.fetchSingleLine pid tag a m replace) (s'.fetchSingleLine pid tag b m' replace) := by
  have hfetch : Agree (fun r r' => r.1.Twins σ r'.1 ∧ r'.2 = r.2) (s.fetch tag replace)
      (s'.fetch tag replace) := (agree_fetchLoop h).bind fun _ _ _ _ hr => hr
  refine hfetch.bind ?_
  rintro ⟨t, status⟩ ⟨t', status'⟩ - - ⟨ht : t.Twins σ t', hstatus⟩
  cases hstatus
  cases status with
  | cached => exact ⟨ht, Or.inl ⟨rfl, rfl⟩⟩
  | uncached =>
    refine ⟨?_, Or.inr ⟨t, t', ht, rfl, rfl⟩⟩
    change Twins σ (t.install (t.evict pid m).1 tag a replace)
      (t'.install (t'.evict pid m').1 tag b replace)
    rw [evict_fst, evict_fst, ht.victim]
    exact ht.install hab

/-- A victim in use is handed over by paired addresses, the first way's
being `0`. -/
theorem Twins.evictAddr (h : s.Twins σ s') (hzero : σ 0 0)
    (hst : (s.line s.victim.evict).status = .cached) :
    σ s.victim.evictAddr s'.victim.evictAddr := by
  have hst' : (s'.line s'.victim.evict).status = .cached := by
    rw [h.victim, h.line.status, hst]
  rw [evictAddr_of_cached hst, evictAddr_of_cached hst', h.victim]
  split
  · exact hzero
  · exact h.line.addr hst

end CacheSet

/-! ## The directory -/

/-- **Two directories with one entry** for the addresses of a pair. -/
structure DirMsi.Mirrors (σ : Addr → Addr → Prop) (m m' : DirMsi) : Prop where
  rules : m'.rules = m.rules
  entries : ∀ a b, σ a b → m'.entries b = m.entries a

namespace DirMsi

variable {m m' m₁ m₁' : DirMsi} {x y : Event ℕ Addr} {log log' : List Call} {pid : ℕ}
variable {s s' : CacheSet}

theorem Mirrors.record (h : m.Mirrors σ m') (call call' : Call) :
    (m.record call).Mirrors σ (m'.record call') :=
  ⟨h.rules, h.entries⟩

/-- Paired events. -/
theorem Mirrors.simulates (h : m.Mirrors σ m') (hσ : Relator.BiUnique σ)
    (hxy : Event.Paired σ x y) (hx : Simulates [x] log m m₁) (hy : Simulates [y] log' m' m₁') :
    m₁.Mirrors σ m₁' where
  rules := by rw [hx.rules, hy.rules, h.rules]
  entries a b hab := by
    rw [hx.entries, hy.entries, h.rules]
    exact hxy.apply hσ h.entries hab

/-- **The evictions of twins.** -/
theorem Mirrors.evict (h : m.Mirrors σ m') (hσ : Relator.BiUnique σ) (hzero : σ 0 0)
    (hp : pid < 32) (hs : s.Twins σ s') :
    (s.evict pid m).2.Mirrors σ (s'.evict pid m').2 := by
  have hst' : (s'.line s'.victim.evict).status = (s.line s.victim.evict).status := by
    rw [hs.victim]
    exact hs.line.status
  cases hst : (s.line s.victim.evict).status with
  | uncached =>
    rw [CacheSet.evict_of_uncached hst, CacheSet.evict_of_uncached (hst'.trans hst)]
    exact h.record _ _
  | cached =>
    rw [CacheSet.evict_of_cached hst, CacheSet.evict_of_cached (hst'.trans hst)]
    exact (h.record _ _).simulates hσ (.evict pid (hs.evictAddr hzero hst))
      (simulates_invalidate hp) (simulates_invalidate hp)

end DirMsi

/-! ## The controller -/

namespace Controller

variable {cfg : Config} {c c' : Controller} {pid n : ℕ} {a b : Addr} {replace : Bool}
variable {x y : Access} {t t' : List Access} {last : Option ℕ}

/-- **Two controllers in step.** -/
structure Mirrors (cfg : Config) (σ : Addr → Addr → Prop) (c c' : Controller) : Prop where
  shaped : c.Shaped cfg
  shaped' : c'.Shaped cfg
  sets : ∀ p i, (c.cache p i).Twins σ (c'.cache p i)
  directory : c.coherence.Mirrors σ c'.coherence

/-- The line fetch of the access leaves the directory's entries alone. -/
def Quiet (c : Controller) (x : Access) : Prop :=
  ∀ c₁, c.clearCalls.fetchCacheLine x.pid x.addr true = .ok c₁ →
    c₁.coherence.entries = c.coherence.entries

/-- **Line fetches** of one line, at paired addresses. -/
theorem Mirrors.agree_fetchCacheLine (h : Mirrors cfg σ c c') (pid : ℕ) (replace : Bool)
    (hσ : Relator.BiUnique σ) (hab : σ a b) (htag : cfg.tag a = cfg.tag b)
    (hindex : cfg.index a = cfg.index b) (hp : pid < 32) :
    Agree (fun c₁ c₁' => c₁.Shaped cfg ∧ c₁'.Shaped cfg ∧
        (∀ p i, (c₁.cache p i).Twins σ (c₁'.cache p i)) ∧
        (σ 0 0 → c₁.coherence.Mirrors σ c₁'.coherence))
      (c.fetchCacheLine pid a replace) (c'.fetchCacheLine pid b replace) := by
  simp only [fetchCacheLine, h.shaped.getTag, h.shaped'.getTag, h.shaped.getSetIndex,
    h.shaped'.getSetIndex, ← htag, ← hindex]
  generalize cfg.index a = j
  refine ((h.sets pid j).agree_fetchSingleLine c.coherence c'.coherence hab).bind ?_
  rintro ⟨s, m⟩ ⟨s', m'⟩ - - ⟨hs : s.Twins σ s', hm⟩
  refine ⟨h.shaped.congr rfl rfl, h.shaped'.congr rfl rfl, fun p i => ?_, fun hzero => ?_⟩
  · rcases eq_or_ne p pid with rfl | hne
    · rcases eq_or_ne i j with rfl | hi
      · simpa using hs
      · simpa [hi] using h.sets p i
    · simpa [hne] using h.sets p i
  · rcases hm with ⟨hm : m = _, hm' : m' = _⟩ | ⟨t, t', ht, hm : m = _, hm' : m' = _⟩
    · rw [hm, hm']
      exact h.directory
    · rw [hm, hm']
      exact h.directory.evict hσ hzero hp ht

/-- **One access of each run.** The entries of a pair stay the same if `0`
is its own partner, or if neither line fetch touches the directory. -/
theorem Mirrors.agree_step (h : Mirrors cfg σ c c') (hσ : Relator.BiUnique σ)
    (ht : Tracks cfg.numProcessors false t c.coherence)
    (ht' : Tracks cfg.numProcessors false t' c'.coherence) (hx : x.pid < cfg.numProcessors)
    (hxy : x.Mirrors σ y) (htag : cfg.tag x.addr = cfg.tag y.addr)
    (hindex : cfg.index x.addr = cfg.index y.addr) (hsafe : σ 0 0 ∨ c.Quiet x ∧ c'.Quiet y) :
    Agree (fun r r' => Mirrors cfg σ r.1 r'.1 ∧ r'.2.response = r.2.response)
      (c.step x) (c'.step y) := by
  have hn := cfg.numProcessors_le
  have hy : y.pid < cfg.numProcessors := hxy.pid ▸ hx
  have hclear : Mirrors cfg σ c.clearCalls c'.clearCalls :=
    ⟨h.shaped.congr rfl rfl, h.shaped'.congr rfl rfl, h.sets, h.directory.rules,
      h.directory.entries⟩
  have hfetch := hclear.agree_fetchCacheLine x.pid true hσ hxy.addr htag hindex
    (by omega)
  rw [step_eq, step_eq, hxy.pid]
  refine hfetch.bind ?_
  rintro c₁ c₁' hc₁ hc₁' ⟨hs, hs', hsets, hm⟩
  have hc₁'' : c'.clearCalls.fetchCacheLine y.pid y.addr true = .ok c₁' := hxy.pid ▸ hc₁'
  obtain ⟨pre, calls, hf⟩ := (ensures_fetched hn ht hx).of_ok hc₁
  obtain ⟨pre', calls', hf'⟩ := (ensures_fetched hn ht' hy).of_ok hc₁''
  -- what the two fetches evict are partners, or they change no entry
  have hmirrors : c₁.coherence.Mirrors σ c₁'.coherence := by
    rcases hsafe with hzero | ⟨hquiet, hquiet'⟩
    · exact hm hzero
    · refine ⟨?_, fun a b hab => ?_⟩
      · rw [hf.simulates.rules, hf'.simulates.rules]
        exact h.directory.rules
      · rw [hquiet c₁ hc₁, hquiet' c₁' hc₁'']
        exact h.directory.entries a b hab
  obtain ⟨m, charge, log, hok, hsim, hhit⟩ := exists_handle
    (fun _ => not_callsBack hf.detector) (hf.numProcessors ▸ hn) (hf.numProcessors ▸ hx) hf.inv
  obtain ⟨m', charge', log', hok', hsim', hhit'⟩ := exists_handle
    (fun _ => not_callsBack hf'.detector) (hf'.numProcessors ▸ hn) (hf'.numProcessors ▸ hy) hf'.inv
  rw [hok, hok']
  refine ⟨⟨hs.congr rfl rfl, hs'.congr rfl rfl, hsets,
    hmirrors.simulates hσ hxy.event hsim hsim'⟩, ?_⟩
  -- the answer depends on the entry alone
  have hhits : charge'.response = .cacheHit ↔ charge.response = .cacheHit := by
    rw [hhit, hhit', hmirrors.entries _ _ hxy.addr, hmirrors.rules]
    simp only [Access.Hits, hxy.pid, hxy.kind]
  change charge'.response = charge.response
  cases hr : charge.response <;> cases hr' : charge'.response <;> simp_all

end Controller

end AdaptiveMsi
