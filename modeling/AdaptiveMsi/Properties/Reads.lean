import AdaptiveMsi.Common.Permute
import AdaptiveMsi.Controller.Ledger
import AdaptiveMsi.Controller.Reached
import AdaptiveMsi.Properties.Directory
import Mathlib.Algebra.Group.Prod
/-!
# The order of reads

Between two stores an address is only read, and the reads may come in any
order. The first reader to miss pays for the owner's write-back and ends
the modified state; who that is depends on the order, what is paid in all
does not, and neither does the line that is left.
-/

namespace AdaptiveMsi

open Machine Protocol

namespace DirectoryLine

variable {v : BitVec 64} {p q : ℕ}

/-- Misses of two processors may be counted in either order. -/
theorem missVector_comm (hp : p < 16) (hq : q < 16) (hne : p ≠ q) (hv : Packed v) :
    missVector p (missVector q v) = missVector q (missVector p v) := by
  refine BitVec.eq_of_toNat_eq ?_
  rw [missVector_toNat hp (hv.missVector hq), missVector_toNat hq (hv.missVector hp),
    count_missVector hq hv, count_missVector hp hv, if_neg hne, if_neg hne.symm,
    missVector_toNat hp hv, missVector_toNat hq hv]
  split <;> split <;> omega

/-- What `owner` returns is where its loop stops. -/
theorem ownerLoop_of_owner {d : DirectoryLine} {n o : ℕ} (h : d.owner n = .ok o) :
    d.ownerLoop n n 0 = o := by
  obtain ⟨-, -, h⟩ := bind_eq_ok.mp h
  obtain ⟨-, -, h⟩ := bind_eq_ok.mp h
  exact Except.ok.inj h

end DirectoryLine

/-- What an access costs, in cycles and in hops. -/
def Charge.weight (c : Charge) : ℕ × ℕ := (c.cost, c.hops)

namespace DirMsi

variable {d : DirectoryLine} {m m' : DirMsi} {p q pid n home : ℕ} {a : Addr} {last : Option ℕ}

/-! ## One read -/

/-- The line a read leaves. -/
def readLine (d : DirectoryLine) (pid : ℕ) : DirectoryLine :=
  if d.isSet pid then d else missedLine d pid

/-- What a read of the line is charged. -/
def readCharge (n home : ℕ) (d : DirectoryLine) (pid : ℕ) : Charge :=
  let (cost, hops) := getDirectoryCost pid home 0
  if d.isSet pid then ⟨.cacheHit, cost + localCacheAccess, hops⟩
  else if d.state = .modified then
    let (writeBack, hops) := dataWriteBack (d.ownerLoop n n 0) home hops
    ⟨.cacheMiss, cost + memoryAccess + writeBack, hops⟩
  else ⟨.cacheMiss, cost + memoryAccess, hops⟩

/-- The directory after a read. -/
def afterRead (m : DirMsi) (a : Addr) (pid : ℕ) : DirMsi :=
  (m.setLine a (readLine (m.directory a) pid)).profileLoad pid a
    (readCharge m.numProcessors (m.getHomeNode a) (m.directory a) pid)

/-- **A read is determined by the line.** -/
theorem processRead_eq_afterRead (hn : m.numProcessors ≤ 32) (hp : pid < m.numProcessors)
    (hinv : (m.entries a).Inv m.rules last) :
    m.processRead pid a = .ok (m.afterRead a pid,
      readCharge m.numProcessors (m.getHomeNode a) (m.directory a) pid) := by
  have h32 : pid < 32 := by omega
  by_cases hmem : pid ∈ (m.directory a).sharers
  · have hs := ne_invalid_of_mem hinv hmem
    have hset := (DirectoryLine.isSet_iff h32).mpr hmem
    rw [processRead_of_hit hs rfl (fetch_of_mem _ _ h32 hs hmem)]
    simp only [afterRead, readLine, readCharge, hset, if_true, setLine_self]
  · have hset : ¬ (m.directory a).isSet pid = true := fun hi =>
      hmem ((DirectoryLine.isSet_iff h32).mp hi)
    cases hst : (m.directory a).state with
    | invalid =>
      rw [processRead_of_invalid (by omega) hst]
      simp only [afterRead, readLine, readCharge, if_neg hset, hst, reduceCtorEq, if_false]
    | shared =>
      rw [processRead_of_miss (by omega) (by simp [hst]) rfl (fetch_of_shared h32 hst hmem)]
      simp only [afterRead, readLine, readCharge, if_neg hset, hst, reduceCtorEq, if_false]
    | modified =>
      obtain ⟨o, -, -, ho⟩ := exists_owner hn hinv hst
      have hloop := DirectoryLine.ownerLoop_of_owner ho
      rw [processRead_of_miss (by omega) (by simp [hst]) rfl (fetch_of_modified h32 hst hmem ho)]
      simp only [afterRead, readLine, readCharge, if_neg hset, hst, hloop, if_true]

/-- A read leaves the others' bits alone. -/
theorem isSet_readLine (hp : p < 32) (hq : q < 32) (hne : p ≠ q) :
    (readLine d q).isSet p = d.isSet p := by
  unfold readLine
  split
  · rfl
  · have hsharers : (missedLine d q).sharers = insert q d.sharers :=
      DirectoryLine.sharers_setSharer hq
    rw [Bool.eq_iff_iff, DirectoryLine.isSet_iff hp, DirectoryLine.isSet_iff hp, hsharers,
      Finset.mem_insert, or_iff_right hne]

/-- **The line two reads leave**, in either order. -/
theorem readLine_comm (hp : p < 16) (hq : q < 16) (hne : p ≠ q)
    (hd : DirectoryLine.Packed d.readCountVector) :
    readLine (readLine d p) q = readLine (readLine d q) p := by
  have hpq := isSet_readLine (d := d) (show p < 32 by omega) (show q < 32 by omega) hne
  have hqp := isSet_readLine (d := d) (show q < 32 by omega) (show p < 32 by omega) hne.symm
  rw [readLine, hqp]
  conv_rhs => rw [readLine, hpq]
  unfold readLine
  cases d.isSet p <;> cases d.isSet q
  case false.false =>
    have hvector := DirectoryLine.missVector_comm hq hp hne.symm hd
    have hbits : d.sharerVector ||| intShl 1 p ||| intShl 1 q =
        d.sharerVector ||| intShl 1 q ||| intShl 1 p := by
      rw [BitVec.or_assoc, BitVec.or_comm (intShl 1 p), ← BitVec.or_assoc]
    simp only [Bool.false_eq_true, if_false, missedLine, sharedLine, DirectoryLine.setSharer,
      hvector, hbits]
  all_goals simp

/-! ## What two reads cost -/

/-- The write-back of the owner, which the first miss on a modified line
pays for. -/
def ownerFee (n home : ℕ) (d : DirectoryLine) (pid : ℕ) : ℕ × ℕ :=
  if d.isSet pid = false ∧ d.state = .modified then dataWriteBack (d.ownerLoop n n 0) home 0
  else 0

/-- What the read itself costs. -/
def readFee (home : ℕ) (d : DirectoryLine) (pid : ℕ) : ℕ × ℕ :=
  getDirectoryCost pid home 0 + (if d.isSet pid then localCacheAccess else memoryAccess, 0)

theorem dataWriteBack_eq (pid home hops : ℕ) :
    dataWriteBack pid home hops = dataWriteBack pid home 0 + (0, hops) := by
  by_cases h : pid = home <;> simp [dataWriteBack, getDirectoryCost, h, Nat.add_comm]

theorem weight_readCharge :
    (readCharge n home d pid).weight = readFee home d pid + ownerFee n home d pid := by
  unfold readCharge readFee ownerFee
  dsimp only
  by_cases hset : d.isSet pid = true
  · simp [hset, Charge.weight, Prod.ext_iff]
  · by_cases hmod : d.state = .modified
    · rw [dataWriteBack_eq]
      simp [hset, hmod, Charge.weight, Prod.ext_iff, Nat.add_comm]
    · simp [hset, hmod, Charge.weight, Prod.ext_iff]

/-- Another reader's read changes nothing about the read itself, -/
theorem readFee_readLine (hp : p < 32) (hq : q < 32) (hne : p ≠ q) :
    readFee home (readLine d q) p = readFee home d p := by
  rw [readFee, isSet_readLine hp hq hne, readFee]

theorem ownerFee_of_isSet (h : d.isSet pid = true) : ownerFee n home d pid = 0 :=
  if_neg fun hno => by simp [h] at hno

theorem ownerFee_of_state (h : d.state ≠ .modified) : ownerFee n home d pid = 0 :=
  if_neg fun hno => h hno.2

/-- and the write-back is paid for once. -/
theorem ownerFee_comm (hp : p < 32) (hq : q < 32) (hne : p ≠ q) :
    ownerFee n home d p + ownerFee n home (readLine d p) q =
      ownerFee n home d q + ownerFee n home (readLine d q) p := by
  have hhit : ∀ i, d.isSet i = true → readLine d i = d := fun i hi => if_pos hi
  have hmiss : ∀ i j, d.isSet i = false → ownerFee n home (readLine d i) j = 0 := by
    intro i j hi
    refine ownerFee_of_state ?_
    rw [readLine, hi]
    exact fun hs => nomatch hs
  cases hsetp : d.isSet p with
  | true =>
    have hp' : (readLine d q).isSet p = true := (isSet_readLine hp hq hne).trans hsetp
    rw [ownerFee_of_isSet hsetp, ownerFee_of_isSet hp', hhit p hsetp, zero_add, add_zero]
  | false =>
    cases hsetq : d.isSet q with
    | true =>
      have hq' : (readLine d p).isSet q = true := (isSet_readLine hq hp hne.symm).trans hsetq
      rw [ownerFee_of_isSet hsetq, ownerFee_of_isSet hq', hhit q hsetq, zero_add, add_zero]
    | false =>
      -- whoever misses first pays
      rw [hmiss p q hsetp, hmiss q p hsetq, ownerFee, ownerFee, hsetp, hsetq]

/-- **Two reads cost the same** in either order. -/
theorem weight_comm (hp : p < 32) (hq : q < 32) (hne : p ≠ q) :
    (readCharge n home d p).weight + (readCharge n home (readLine d p) q).weight =
      (readCharge n home d q).weight + (readCharge n home (readLine d q) p).weight := by
  have howner : ownerFee n home d p + ownerFee n home (readLine d p) q =
      ownerFee n home d q + ownerFee n home (readLine d q) p := ownerFee_comm hp hq hne
  simp only [weight_readCharge, readFee_readLine hp hq hne, readFee_readLine hq hp hne.symm]
  calc readFee home d p + ownerFee n home d p +
        (readFee home d q + ownerFee n home (readLine d p) q)
      = readFee home d p + readFee home d q +
        (ownerFee n home d p + ownerFee n home (readLine d p) q) := add_add_add_comm ..
    _ = readFee home d q + readFee home d p +
        (ownerFee n home d q + ownerFee n home (readLine d q) p) := by
      rw [howner, add_comm (readFee home d p)]
    _ = _ := add_add_add_comm ..

/-! ## What the profiler counts -/

/-- The load hits and misses of processor `i`. -/
def loads (m : DirMsi) (i : ℕ) : ℕ × ℕ :=
  ((m.profiles.profiles i).load.hits, (m.profiles.profiles i).load.misses)

theorem response_readCharge : (readCharge n home d pid).response =
    if d.isSet pid then .cacheHit else .cacheMiss := by
  unfold readCharge
  dsimp only
  split
  · rfl
  · split <;> rfl

/-- A read is one more hit or miss of its processor. -/
theorem loads_afterRead {i : ℕ} : (m.afterRead a pid).loads i = m.loads i +
    if i = pid then if (m.directory a).isSet pid then (1, 0) else (0, 1) else 0 := by
  simp only [loads, afterRead, profileLoad, setLine, response_readCharge]
  cases (m.directory a).isSet pid with
  | true => by_cases hi : i = pid <;> simp [Profile.profileCacheLoad, hi]
  | false => by_cases hi : i = pid <;> simp [Profile.profileCacheLoad, hi]

end DirMsi

/-! ## The exchange -/

open DirMsi

/-- Two directories that reads of `a` cannot tell apart: one map of lines,
and the same load hits and misses for every processor. -/
structure ReadAlike (n : ℕ) (detector : Bool) (a : Addr) (m m' : DirMsi) : Prop where
  keeps : Keeps n detector m
  keeps' : Keeps n detector m'
  packed : DirectoryLine.Packed (m.directory a).readCountVector
  directory : m.directory = m'.directory
  loads : ∀ i, m.loads i = m'.loads i

variable {m m' m'' : DirMsi} {p q pid n : ℕ} {a : Addr} {detector : Bool}

theorem ReadAlike.symm (h : ReadAlike n detector a m m') : ReadAlike n detector a m' m :=
  ⟨h.keeps', h.keeps, h.directory ▸ h.packed, h.directory.symm, fun i => (h.loads i).symm⟩

theorem ReadAlike.trans (h : ReadAlike n detector a m m') (h' : ReadAlike n detector a m' m'') :
    ReadAlike n detector a m m'' :=
  ⟨h.keeps, h'.keeps', h.packed, h.directory.trans h'.directory,
    fun i => (h.loads i).trans (h'.loads i)⟩

theorem ReadAlike.getHomeNode (h : ReadAlike n detector a m m') :
    m.getHomeNode a = m'.getHomeNode a := by
  rw [DirMsi.getHomeNode, DirMsi.getHomeNode, h.keeps.numProcessors, h.keeps'.numProcessors]

/-- **A read**, of a directory that is kept. -/
theorem Keeps.processRead (hn : n ≤ 32) (hp : pid < n) (h : Keeps n detector m) :
    m.processRead pid a = .ok (m.afterRead a pid,
        readCharge n (m.getHomeNode a) (m.directory a) pid) ∧
      Keeps n detector (m.afterRead a pid) := by
  obtain ⟨last, hinv⟩ := h.inv
  have hn' : m.numProcessors ≤ 32 := h.numProcessors ▸ hn
  have hp' : pid < m.numProcessors := h.numProcessors ▸ hp
  have hread := processRead_eq_afterRead hn' hp' (hinv a)
  obtain ⟨m', charge, hok, hsim, -⟩ := simulates_processRead hn' hp' (hinv a)
  cases hread.symm.trans hok
  rw [h.numProcessors] at hread
  exact ⟨hread, h.simulates hsim (by simpa [Event.proc] using hp)⟩

theorem packed_readLine {d : DirectoryLine} (hp : pid < 16)
    (hd : DirectoryLine.Packed d.readCountVector) :
    DirectoryLine.Packed (readLine d pid).readCountVector := by
  unfold readLine
  split
  · exact hd
  · exact hd.missVector hp

theorem directory_afterRead : (m.afterRead a pid).directory =
    Function.update m.directory a (readLine (m.directory a) pid) := rfl

/-- Directories that are alike stay alike. -/
theorem ReadAlike.afterRead (hn : n ≤ 16) (hp : p < n) (h : ReadAlike n detector a m m') :
    ReadAlike n detector a (m.afterRead a p) (m'.afterRead a p) where
  keeps := (h.keeps.processRead (by omega) hp).2
  keeps' := (h.keeps'.processRead (by omega) hp).2
  packed := by
    rw [directory_afterRead, Function.update_self]
    exact packed_readLine (by omega) h.packed
  directory := by rw [directory_afterRead, directory_afterRead, h.directory]
  loads i := by rw [loads_afterRead, loads_afterRead, h.loads, h.directory]

/-- **Two reads in either order** leave directories that are alike. -/
theorem ReadAlike.swap (hn : n ≤ 16) (hp : p < n) (hq : q < n) (hne : p ≠ q)
    (h : ReadAlike n detector a m m) :
    ReadAlike n detector a ((m.afterRead a p).afterRead a q) ((m.afterRead a q).afterRead a p) := by
  have hpq := h.afterRead hn hp |>.afterRead hn hq
  have hqp := h.afterRead hn hq |>.afterRead hn hp
  have hsetp : (readLine (m.directory a) q).isSet p = (m.directory a).isSet p :=
    isSet_readLine (by omega) (by omega) hne
  have hsetq : (readLine (m.directory a) p).isSet q = (m.directory a).isSet q :=
    isSet_readLine (by omega) (by omega) hne.symm
  refine ⟨hpq.keeps, hqp.keeps, hpq.packed, ?_, fun i => ?_⟩
  · simp only [directory_afterRead, Function.update_self, Function.update_idem]
    rw [readLine_comm (by omega) (by omega) hne h.packed]
  · simp only [loads_afterRead, directory_afterRead, Function.update_self, hsetp, hsetq]
    exact add_right_comm ..

/-- **Reads of one address may be exchanged.** -/
theorem exchanges_reads (hn : n ≤ 16) : Exchanges (fun m pid => m.processRead pid a)
    (ReadAlike n detector a) Charge.weight (· < n) where
  symm _ _ h := h.symm
  trans _ _ _ h h' := h.trans h'
  congr m m' p hp h := by
    rw [(h.keeps.processRead (by omega) hp).1, (h.keeps'.processRead (by omega) hp).1]
    refine ⟨h.afterRead hn hp, ?_⟩
    rw [h.directory, h.getHomeNode]
  swap m p q hp hq h := by
    have hrun : ∀ i j, i < n → j < n → run (fun m pid => DirMsi.processRead m pid a) m [i, j] =
        .ok ((m.afterRead a i).afterRead a j,
          [readCharge n (m.getHomeNode a) (m.directory a) i,
            readCharge n (m.getHomeNode a) (readLine (m.directory a) i) j]) := by
      intro i j hi hj
      have hfirst := h.keeps.processRead (a := a) (by omega) hi
      have hsecond := hfirst.2.processRead (a := a) (by omega) hj
      rw [directory_afterRead, Function.update_self] at hsecond
      simp only [run, hfirst.1, hsecond.1, ok_bind]
      rfl
    rw [hrun p q hp hq, hrun q p hq hp]
    rcases eq_or_ne p q with rfl | hne
    · exact ⟨(h.afterRead hn hp).afterRead hn hp, rfl⟩
    · refine ⟨h.swap hn hp hq hne, ?_⟩
      simp only [List.map_cons, List.map_nil, List.sum_cons, List.sum_nil, add_zero]
      exact weight_comm (by omega) (by omega) hne

/-! ## Lists of reads -/

variable {cfg : Config} {c : Controller}

/-- Reads of a reached directory return. -/
theorem exists_reads (hn : n ≤ 16) {ps : List ℕ} (hps : ∀ p ∈ ps, p < n)
    (h : ReadAlike n detector a m m) :
    ∃ m' rs, run (fun m pid => m.processRead pid a) m ps = .ok (m', rs) := by
  have hall : Ensures (fun _ => False) (fun r => ReadAlike n detector a r.1 r.1)
      (run (fun m pid => DirMsi.processRead m pid a) m ps) := by
    refine ensures_run (I := fun _ _ m => ReadAlike n detector a m m) h ?_
    intro u p v _ m hl hm
    have hp : p < n := hps p (by simp [hl])
    rw [(hm.keeps.processRead (by omega) hp).1]
    exact hm.afterRead hn hp
  obtain ⟨⟨m', rs⟩, hok, -⟩ := hall.exists_ok
  exact ⟨m', rs, hok⟩

/-- **The order of reads does not matter.** From any state the routines
reach, reads of one address by any processors, in any two orders: the
entry that is left, every processor's load hits and misses, and the
cycles and hops of all reads together are the same. -/
theorem reads_permute (cfg : Config) (detector : Bool) (hn : cfg.numProcessors ≤ 16)
    (c : Controller) (hc : Reached cfg detector c) (a : Addr) (ps qs : List ℕ)
    (hps : ∀ p ∈ ps, p < cfg.numProcessors) (hperm : ps.Perm qs) :
    ∃ m rs m' rs', run (fun m pid => m.processRead pid a) c.coherence ps = .ok (m, rs) ∧
      run (fun m pid => m.processRead pid a) c.coherence qs = .ok (m', rs') ∧
      m.directory = m'.directory ∧
      (∀ i, (m.profiles.profiles i).load.hits = (m'.profiles.profiles i).load.hits ∧
        (m.profiles.profiles i).load.misses = (m'.profiles.profiles i).load.misses) ∧
      (rs.map Charge.cost).sum = (rs'.map Charge.cost).sum ∧
      (rs.map Charge.hops).sum = (rs'.map Charge.hops).sum := by
  have halike : ReadAlike cfg.numProcessors detector a c.coherence c.coherence :=
    ⟨hc.keeps, hc.keeps, hc.packed hn a, rfl, fun _ => rfl⟩
  obtain ⟨m, rs, hrun⟩ := exists_reads hn hps halike
  obtain ⟨⟨m', rs'⟩, hrun', hmeets⟩ :=
    ((exchanges_reads hn).agree_run_perm hperm hps halike).of_ok hrun
  obtain ⟨halike', hweight⟩ : ReadAlike _ _ _ m m' ∧
    (rs.map Charge.weight).sum = (rs'.map Charge.weight).sum := hmeets
  have hsum : ∀ rs : List Charge, (rs.map Charge.weight).sum =
      ((rs.map Charge.cost).sum, (rs.map Charge.hops).sum) := by
    intro rs
    induction rs with
    | nil => rfl
    | cons r rs ih => simp [ih, Charge.weight]
  rw [hsum, hsum] at hweight
  obtain ⟨hcost, hhops⟩ := Prod.mk.inj hweight
  exact ⟨m, rs, m', rs', hrun, hrun', halike'.directory,
    fun i => Prod.mk.inj (halike'.loads i), hcost, hhops⟩

/-- Two processors read what one of them stored. -/
theorem reads_permute_pair :
    ∃ c rs₀, Config.pair.run true [⟨.store, 0, 4⟩] = .ok (c, rs₀) ∧
      ∃ m rs m' rs', run (fun m pid => m.processRead pid 4) c.coherence [0, 1, 1] = .ok (m, rs) ∧
        run (fun m pid => m.processRead pid 4) c.coherence [1, 0, 1] = .ok (m', rs') ∧
        m.directory = m'.directory ∧
        (∀ i, (m.profiles.profiles i).load.hits = (m'.profiles.profiles i).load.hits ∧
          (m.profiles.profiles i).load.misses = (m'.profiles.profiles i).load.misses) ∧
        (rs.map Charge.cost).sum = (rs'.map Charge.cost).sum ∧
        (rs.map Charge.hops).sum = (rs'.map Charge.hops).sum := by
  have hrun : Ensures (fun _ => False) (fun _ => True) (Config.pair.run true [⟨.store, 0, 4⟩]) := by
    decide
  obtain ⟨⟨c, rs₀⟩, hok, -⟩ := hrun.exists_ok
  refine ⟨c, rs₀, hok, reads_permute .pair true (by decide) c (reached_of_run ?_ hok) 4 _ _
    (by decide) (List.Perm.swap 1 0 [1])⟩
  decide

end AdaptiveMsi
