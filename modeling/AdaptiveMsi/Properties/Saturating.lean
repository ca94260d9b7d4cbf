import AdaptiveMsi.Directory.Line
/-!
# The packed counters and counters of their own

A sequence of calls to the helpers that change the read counters is
compared with one saturating counter a processor, which sees that
processor's calls and the resets alone. The shifted literal is an `int`,
so the sixteen counters of its `32` bits are all that `increase_read_count`
can raise, and `qualified_reader` reads the bit of processor `pid - 16`
where it is asked about `pid`.
-/

namespace AdaptiveMsi

open Machine DirectoryLine

/-- A call of one of the helpers that change the read counters. -/
inductive CountOp
  | increaseReadCount (pid : ℕ)
  | decreaseReadCount (pid : ℕ)
  | updateLastWriter (pid : ℕ)
deriving DecidableEq, Repr

namespace CountOp

/-- The processor the helper is called for. -/
def pid : CountOp → ℕ
  | increaseReadCount pid => pid
  | decreaseReadCount pid => pid
  | updateLastWriter pid => pid

/-- The call. -/
def call (d : DirectoryLine) : CountOp → Except AssertFailure DirectoryLine
  | increaseReadCount pid => d.increaseReadCount pid
  | decreaseReadCount pid => d.decreaseReadCount pid
  | updateLastWriter pid => .ok (d.updateLastWriter pid)

/-- What the call does to a counter of `q`'s own: it counts the calls for
`q` up to three and down to zero, and every change of the last writer
resets it. -/
def own (q k : ℕ) : CountOp → ℕ
  | increaseReadCount pid => if q = pid then min 3 (k + 1) else k
  | decreaseReadCount pid => if q = pid then k - 1 else k
  | updateLastWriter _ => 0

end CountOp

/-- The counter of `q`'s own after a sequence of calls. -/
def ownCount (ops : List CountOp) (q : ℕ) : ℕ := ops.foldl (CountOp.own q) 0

/-- The fields of the line are the processors' own counters, and a reader
qualifies by its own. -/
def CountsApart (ops : List CountOp) (d : DirectoryLine) : Prop :=
  ∀ q < 32, (d.readCount q).toNat = ownCount ops q ∧
    (d.qualifiedReader q = true ↔ 2 ≤ ownCount ops q)

variable {ops : List CountOp} {op : CountOp} {d d' : DirectoryLine} {p q : ℕ}

theorem ownCount_snoc : ownCount (ops ++ [op]) q = op.own q (ownCount ops q) := by
  simp [ownCount]

/-! ## The literal is an `int` -/

theorem intShl64_add_sixteen {k : ℕ} : intShl64 1 (2 * (q + 16) + k) = intShl64 1 (2 * q + k) := by
  have hmod : (2 * (q + 16) + k) % 32 = (2 * q + k) % 32 := by omega
  rw [intShl64, intShl64, intShl, intShl, hmod]

/-- **A processor from `16` on qualifies with another one's counter.** -/
theorem qualifiedReader_add_sixteen : d.qualifiedReader (q + 16) = d.qualifiedReader q := by
  rw [qualifiedReader, qualifiedReader, intShl64_add_sixteen]

/-- **A miss of a processor from `16` on** raises another one's counter. -/
theorem missVector_add_sixteen {v : BitVec 64} (h : q < 16) (hv : Packed v)
    (hlt : count v q < 3) : missVector (q + 16) v = missVector q v := by
  have hzero : count v (q + 16) = 0 := hv.count_eq_zero (by omega)
  have hshl := intShl64_add_sixteen (q := q) (k := 0)
  rw [missVector, if_pos ((field_lt_three (by omega)).mpr (by omega)), missVector,
    if_pos ((field_lt_three (by omega)).mpr hlt), Nat.mul_comm (q + 16), Nat.mul_comm q]
  exact congrArg (v + ·) hshl

/-! ## One call -/

/-- **A call keeps the counters apart**, but for an increase for a processor
from `16` on. -/
theorem CountOp.exists_call (h32 : op.pid < 32)
    (hlow : ∀ pid, op = .increaseReadCount pid → pid < 16) (hd : Packed d.readCountVector) :
    ∃ d', op.call d = .ok d' ∧ Packed d'.readCountVector ∧
      ∀ q, count d'.readCountVector q = op.own q (count d.readCountVector q) := by
  cases op with
  | increaseReadCount pid =>
    have h16 : pid < 16 := hlow pid rfl
    refine ⟨_, increaseReadCount_eq (by omega), hd.missVector h16, fun q => ?_⟩
    change count (missVector pid d.readCountVector) q = _
    rw [count_missVector h16 hd, CountOp.own]
    split
    · rename_i hq
      rw [hq]
    · rfl
  | decreaseReadCount pid =>
    have h32 : pid < 32 := h32
    refine ⟨_, decreaseReadCount_eq (by omega), hd.dropVector h32, fun q => ?_⟩
    change count (dropVector pid d.readCountVector) q = _
    rw [count_dropVector h32 hd, CountOp.own]
    split
    · rename_i hq
      rw [hq]
    · rfl
  | updateLastWriter pid =>
    exact ⟨_, rfl, Packed.zero, fun q => count_zero⟩

/-! ## Sequences of calls -/

/-- **Below processor `16` the packed counters are counters of their own**,
whatever the sequence of calls: no carry and no borrow crosses a field. -/
theorem exists_calls (h32 : ∀ op ∈ ops, op.pid < 32)
    (hlow : ∀ pid, .increaseReadCount pid ∈ ops → pid < 16) :
    ∃ d, ops.foldlM CountOp.call .empty = .ok d ∧ Packed d.readCountVector ∧
      ∀ q, count d.readCountVector q = ownCount ops q := by
  have hloop := ensures_foldlM (E := fun _ : AssertFailure => False) (l := ops)
    (I := fun u d => Packed d.readCountVector ∧ ∀ q, count d.readCountVector q = ownCount u q)
    (f := CountOp.call) (s := DirectoryLine.empty) ⟨Packed.zero, fun q => count_zero⟩ ?_
  · exact hloop.exists_ok
  · rintro u op v d hl ⟨hd, hown⟩
    have hmem : op ∈ ops := by rw [hl]; simp
    obtain ⟨d', hok, hd', hcount⟩ :=
      CountOp.exists_call (h32 op hmem) (fun pid hpid => hlow pid (hpid ▸ hmem)) hd
    rw [hok]
    refine ⟨hd', fun q => ?_⟩
    rw [hcount, hown, ownCount_snoc]

/-- The counters are apart for all `32` processors as long as none of them
reaches two, since processor `pid + 16` qualifies when `pid` does. -/
theorem countsApart_iff (hd : Packed d.readCountVector)
    (hown : ∀ q, count d.readCountVector q = ownCount ops q) :
    CountsApart ops d ↔ ∀ q, ownCount ops q < 2 := by
  constructor
  · intro h q
    rcases Nat.lt_or_ge q 16 with hlt | hge
    · by_contra hge
      have hq := (qualifiedReader_iff hlt hd).mpr (by rw [hown]; omega)
      have hq' := (h (q + 16) (by omega)).2.mp (qualifiedReader_add_sixteen.trans hq)
      rw [← hown, hd.count_eq_zero (by omega)] at hq'
      omega
    · rw [← hown, hd.count_eq_zero hge]
      omega
  · intro h q hq
    refine ⟨(toNat_readCount hq).trans (hown q), ?_⟩
    have hnot : ∀ i < 16, d.qualifiedReader i ≠ true := fun i hi hqual => by
      have htwo := (qualifiedReader_iff hi hd).mp hqual
      rw [hown] at htwo
      exact absurd (h i) (by omega)
    rcases Nat.lt_or_ge q 16 with hlt | hge
    · exact iff_of_false (hnot q hlt) (by have := h q; omega)
    · obtain ⟨i, rfl⟩ := Nat.exists_eq_add_of_le' hge
      rw [qualifiedReader_add_sixteen]
      exact iff_of_false (hnot i (by omega)) (by have := h (i + 16); omega)

/-- An increase for a processor from `16` on is lost, and another
processor's counter moves. -/
theorem not_countsApart_of_increase (h : q < 16) (hd : Packed d.readCountVector)
    (hown : ∀ q, count d.readCountVector q = ownCount ops q) (hlt : ownCount ops q < 2)
    (hcall : CountOp.call d (.increaseReadCount (q + 16)) = .ok d') :
    ¬ CountsApart (ops ++ [.increaseReadCount (q + 16)]) d' := by
  intro hapart
  rw [CountOp.call, increaseReadCount_eq (by omega),
    missVector_add_sixteen h hd (by rw [hown]; omega), Except.ok.injEq] at hcall
  subst hcall
  have hfield := (hapart (q + 16) (by omega)).1
  have hzero := (hd.missVector h).count_eq_zero (show 16 ≤ q + 16 by omega)
  rw [toNat_readCount (by omega), hzero, ownCount_snoc, CountOp.own, if_pos rfl] at hfield
  omega

/-- **The packed counters are counters of their own** for all `32`
processors, after every call of a sequence, exactly if no counter from
processor `16` on is raised and no counter reaches two. -/
theorem countsApart_iff_of_calls (ops : List CountOp) (h32 : ∀ op ∈ ops, op.pid < 32) :
    (∀ u, u <+: ops → ∃ d, u.foldlM CountOp.call .empty = .ok d ∧ CountsApart u d) ↔
      (∀ pid, .increaseReadCount pid ∈ ops → pid < 16) ∧
        ∀ u, u <+: ops → ∀ q, ownCount u q < 2 := by
  constructor
  · induction ops using List.reverseRecOn with
    | nil =>
      intro _
      refine ⟨fun pid h => absurd h List.not_mem_nil, fun u hu q => ?_⟩
      rw [List.prefix_nil.mp hu]
      exact Nat.zero_lt_two
    | append_singleton ops op ih =>
      intro hall
      obtain ⟨hlow, hsmall⟩ := ih (fun o ho => h32 o (List.mem_append_left _ ho))
        fun u hu => hall u (hu.trans (List.prefix_append ops [op]))
      obtain ⟨d, hok, hd, hown⟩ :=
        exists_calls (fun o ho => h32 o (List.mem_append_left _ ho)) hlow
      obtain ⟨d', hok', hapart⟩ := hall _ List.prefix_rfl
      rw [List.foldlM_append, hok, ok_bind, List.foldlM_cons, bind_eq_ok] at hok'
      obtain ⟨d₁, hcall, hd₁⟩ := hok'
      cases hd₁
      have hop : op.pid < 32 := h32 op (by simp)
      have hlow' : ∀ pid, op = .increaseReadCount pid → pid < 16 := by
        rintro pid rfl
        have hpid : pid < 32 := hop
        by_contra hge
        obtain ⟨q, rfl⟩ := Nat.exists_eq_add_of_le' (Nat.le_of_not_lt hge)
        exact not_countsApart_of_increase (by omega) hd hown
          (hsmall ops List.prefix_rfl q) hcall hapart
      obtain ⟨d₂, hcall', hd₂, hown'⟩ := CountOp.exists_call hop hlow' hd
      cases hcall.symm.trans hcall'
      refine ⟨fun pid hmem => ?_, fun u hu => ?_⟩
      · rcases List.mem_append.mp hmem with hmem | hmem
        · exact hlow pid hmem
        · exact hlow' pid (List.mem_singleton.mp hmem).symm
      · rcases List.prefix_concat_iff.mp hu with rfl | hu
        · refine (countsApart_iff hd₂ fun q => ?_).mp hapart
          rw [hown', hown, ownCount_snoc]
        · exact hsmall u hu
  · rintro ⟨hlow, hsmall⟩ u hu
    obtain ⟨d, hok, hd, hown⟩ := exists_calls (fun op hop => h32 op (hu.subset hop))
      fun pid hmem => hlow pid (hu.subset hmem)
    exact ⟨d, hok, (countsApart_iff hd hown).mpr (hsmall u hu)⟩

/-- Two readers, one of which is caught up with. -/
theorem countsApart_iff_of_calls_two :
    let ops : List CountOp := [.increaseReadCount 3, .increaseReadCount 4, .decreaseReadCount 20,
      .decreaseReadCount 3, .updateLastWriter 31]
    (∀ u, u <+: ops → ∃ d, u.foldlM CountOp.call .empty = .ok d ∧ CountsApart u d) ↔
      (∀ pid, .increaseReadCount pid ∈ ops → pid < 16) ∧
        ∀ u, u <+: ops → ∀ q, ownCount u q < 2 :=
  countsApart_iff_of_calls _ (by decide)

/-- **The counter of processor `16` is never raised**: its increase raises
the counter of processor `0`. -/
theorem increase_lost :
    ∃ d, [CountOp.increaseReadCount 16].foldlM CountOp.call .empty = .ok d ∧
      (d.readCount 16).toNat = 0 ∧ ownCount [.increaseReadCount 16] 16 = 1 ∧
      (d.readCount 0).toNat = 1 ∧ ownCount [.increaseReadCount 16] 0 = 0 ∧
      ¬ CountsApart [.increaseReadCount 16] d := by
  refine ⟨_, rfl, by decide, by decide, by decide, by decide, fun h => ?_⟩
  have hfield := (h 16 (by omega)).1
  exact absurd hfield (by decide)

end AdaptiveMsi
