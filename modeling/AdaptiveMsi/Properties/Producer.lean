import AdaptiveMsi.Properties.Consumer
import AdaptiveMsi.Properties.Transparent
/-!
# What the detector is for

One processor stores to an address and the others load it, in any order
and among any other accesses, in caches that do not overflow. In the
baseline a reader misses whenever the data are new to it; in the adaptive
protocol it misses the first two times, and from then on the data are
there before it asks.
-/

namespace AdaptiveMsi

open Machine Protocol

variable {cfg : Config} {n i j w : ℕ} {a : Addr} {t u v : List Access} {x : Access}
variable {rs rs' : List Report} {c c' : Controller} {R : Rules ℕ (BitVec 64)} {seen : Bool}
variable {D : Addr → Entry ℕ (BitVec 64)} {e : Entry ℕ (BitVec 64)}

/-- The loads of `i` on `a` of data that are new to it: none of its loads
came between them and the last store. `seen` says whether it has the data
at the start. -/
def freshLoads (i : ℕ) (a : Addr) : Bool → List Access → ℕ
  | _, [] => 0
  | seen, x :: t =>
    if x.addr = a then
      match x.kind with
      | .store => freshLoads i a (x.pid = i) t
      | .load =>
        if x.pid = i then (if seen then 0 else 1) + freshLoads i a true t else freshLoads i a seen t
    else freshLoads i a seen t

/-- The load misses of `i` on `a` in the protocol alone. -/
def missesOf (R : Rules ℕ (BitVec 64)) (i : ℕ) (a : Addr) (D : Addr → Entry ℕ (BitVec 64)) :
    List Access → ℕ
  | [] => 0
  | x :: t => (if x = ⟨.load, i, a⟩ ∧ i ∉ (D a).sharers then 1 else 0) +
      missesOf R i a (x.event.apply R D) t

theorem missesOf_append : missesOf R i a D (u ++ v) = missesOf R i a D u +
    missesOf R i a ((u.map Access.event).foldl (Event.apply R) D) v := by
  induction u generalizing D with
  | nil => simp [missesOf]
  | cons x u ih =>
    rw [List.cons_append, missesOf, missesOf, ih, List.map_cons, List.foldl_cons, Nat.add_assoc]

/-- What the reports count is what the protocol replies. -/
theorem loadMisses_eq (haccess : rs.map Report.access = t)
    (hresponse : rs.map Report.response = replies R D t) :
    loadMisses i a rs = missesOf R i a D t := by
  induction t generalizing rs D with
  | nil =>
    rw [List.map_eq_nil_iff.mp haccess]
    rfl
  | cons x t ih =>
    obtain ⟨r, rs, rfl, rfl, hrest⟩ := List.map_eq_cons_iff.mp haccess
    rw [List.map_cons, replies] at hresponse
    obtain ⟨hr, htail⟩ := List.cons.inj hresponse
    have hmiss : r.response = .cacheMiss ↔ ¬ r.access.Hits R (D r.access.addr) := by
      rw [hr, reply]
      split <;> simp_all
    rw [missesOf, ← ih hrest htail, loadMisses, List.countP_cons, Nat.add_comm, loadMisses]
    congr 1
    by_cases ha : r.access = ⟨.load, i, a⟩
    · simp [ha, hmiss, Access.Hits]
    · simp [ha]

/-! ## Reads and stores of one address -/

theorem apply_of_addr_ne (ha : x.addr ≠ a) : x.event.apply R D a = D a :=
  Event.apply_of_ne (by rw [Access.addr_event]; exact ha.symm)

theorem apply_load : (⟨.load, j, a⟩ : Access).event.apply R D a = (D a).read R j :=
  Event.apply_self (x := .read j a)

theorem apply_store : (⟨.store, j, a⟩ : Access).event.apply R D a = (D a).store R j :=
  Event.apply_self (x := .store j a)

/-- **Where nobody stores**, one miss brings the data for good. -/
theorem missesOf_of_loads (hu : ∀ x ∈ u, x.addr = a → x.kind = .load) :
    missesOf R i a D u = freshLoads i a (i ∈ (D a).sharers) u := by
  induction u generalizing D with
  | nil => rfl
  | cons x u ih =>
    have hrest := ih (D := x.event.apply R D) fun y hy => hu y (by simp [hy])
    rw [missesOf, freshLoads, hrest]
    by_cases ha : x.addr = a
    · obtain ⟨kind, j, b⟩ := x
      obtain rfl : b = a := ha
      obtain rfl : kind = .load := hu _ List.mem_cons_self rfl
      rw [if_pos rfl, apply_load]
      by_cases hj : j = i
      · subst hj
        have hmem : j ∈ ((D b).read R j).sharers := (Entry.mem_sharers_read R).mpr (Or.inl rfl)
        by_cases hin : j ∈ (D b).sharers <;> simp [hmem, hin]
      · have hmem : i ∈ ((D b).read R j).sharers ↔ i ∈ (D b).sharers := by
          rw [Entry.mem_sharers_read R]
          exact or_iff_right (Ne.symm hj)
        simp [hj, hmem]
    · have hne : x ≠ ⟨.load, i, a⟩ := fun he => ha (by rw [he])
      rw [if_neg ha, apply_of_addr_ne ha, if_neg fun hc => hne hc.1, Nat.zero_add]

/-- **The baseline** misses whenever the data are new. -/
theorem missesOf_baseline (hR : R.adaptive = false) :
    missesOf R i a D t = freshLoads i a (i ∈ (D a).sharers) t := by
  induction t generalizing D with
  | nil => rfl
  | cons x t ih =>
    rw [missesOf, freshLoads, ih]
    by_cases ha : x.addr = a
    · obtain ⟨kind, j, b⟩ := x
      obtain rfl : b = a := ha
      rw [if_pos rfl]
      cases kind with
      | load =>
        rw [apply_load]
        by_cases hj : j = i
        · subst hj
          have hmem : j ∈ ((D b).read R j).sharers := (Entry.mem_sharers_read R).mpr (Or.inl rfl)
          by_cases hin : j ∈ (D b).sharers <;> simp [hmem, hin]
        · have hmem : i ∈ ((D b).read R j).sharers ↔ i ∈ (D b).sharers := by
            rw [Entry.mem_sharers_read R]
            exact or_iff_right (Ne.symm hj)
          simp [hj, hmem]
      | store =>
        have hmem : i ∈ ((D b).store R j).sharers ↔ j = i := by
          rw [Entry.mem_sharers_store R]
          refine ⟨?_, fun h => Or.inl h.symm⟩
          rintro (h | h)
          · exact h.symm
          · rw [h.1] at hR
            cases hR
        rw [apply_store]
        simp [hmem]
    · have hne : x ≠ ⟨.load, i, a⟩ := fun he => ha (by rw [he])
      rw [if_neg ha, apply_of_addr_ne ha, if_neg fun hc => hne hc.1, Nat.zero_add]

/-! ## The adaptive protocol

From the first store on, the reader's counter is the number of its misses,
until it qualifies. -/

/-- What holds of an entry whose data come from `w`, and of the reader `i`:
it has the data once it qualifies. -/
structure Fed (w i : ℕ) (e : Entry ℕ (BitVec 64)) : Prop where
  writer : e.writer = some w
  used : e.state ≠ .invalid
  packed : DirectoryLine.Packed e.reads
  kept : 2 ≤ DirectoryLine.count e.reads i → i ∈ e.sharers

theorem fed_start : Fed w i ⟨.modified, {w}, some w, 0⟩ where
  writer := rfl
  used := by simp
  packed := DirectoryLine.Packed.zero
  kept h := by
    rw [DirectoryLine.count_zero] at h
    omega

theorem count_read (h : DirectoryLine.Packed e.reads) (hj : j < 16) :
    DirectoryLine.count (e.read (rules n true) j).reads i =
      if i = j ∧ j ∉ e.sharers then min 3 (DirectoryLine.count e.reads j + 1)
      else DirectoryLine.count e.reads i := by
  rw [Entry.read_reads]
  by_cases hmem : j ∈ e.sharers
  · rw [if_pos hmem, if_neg fun hc => hc.2 hmem]
  · rw [if_neg hmem]
    change DirectoryLine.count (DirectoryLine.missVector _ _) _ = _
    rw [DirectoryLine.count_missVector hj h]
    simp only [hmem, not_false_eq_true, and_true]

theorem Fed.read (h : Fed w i e) (hj : j < 16) : Fed w i (e.read (rules n true) j) where
  writer := by rw [Entry.read_writer, h.writer]
  used := by
    unfold Entry.read
    split
    · exact h.used
    · simp
  packed := by
    rw [Entry.read_reads]
    split
    · exact h.packed
    · exact h.packed.missVector hj
  kept hcount := by
    rw [count_read h.packed hj] at hcount
    rw [Entry.mem_sharers_read]
    split at hcount
    · rename_i hij
      exact Or.inl hij.1
    · exact Or.inr (h.kept hcount)

theorem Fed.not_startsOver (h : Fed w i e) : ¬ e.StartsOver (rules n true) w := by
  rintro (hs | ⟨-, hw⟩)
  · exact h.used hs
  · exact hw h.writer

/-- A store feeds the readers that qualify, and takes the data from the
others. -/
theorem Fed.mem_store (h : Fed w i e) (hn : n ≤ 16) (hi : i < n) (hne : i ≠ w) :
    i ∈ (e.store (rules n true) w).sharers ↔ 2 ≤ DirectoryLine.count e.reads i := by
  have hq : (rules n true).qualified e.reads i = true ↔ 2 ≤ DirectoryLine.count e.reads i :=
    bne_iff_ne.trans (DirectoryLine.and_mask_ne_zero_iff_count (by omega) h.packed)
  rw [Entry.mem_sharers_store, or_iff_right hne, ← hq]
  constructor
  · exact fun hp => hp.2.2.2.2.2
  · exact fun hcount => ⟨rfl, h.used, h.writer, Finset.mem_range.mpr hi, hne, hcount⟩

theorem Fed.store (h : Fed w i e) (hn : n ≤ 16) (hi : i < n) (hne : i ≠ w) :
    Fed w i (e.store (rules n true) w) := by
  obtain ⟨hwriter, hreads⟩ := Entry.store_of_not_startsOver _ (h.not_startsOver (n := n))
  refine ⟨hwriter.trans h.writer, by simp, hreads ▸ h.packed, fun hcount => ?_⟩
  rw [hreads] at hcount
  exact (h.mem_store hn hi hne).mpr hcount

/-- **Fed by one writer**, a reader misses fresh data until it has missed
twice. -/
theorem missesOf_of_fed (hn : n ≤ 16) (hi : i < n) (hne : i ≠ w) (hfed : Fed w i (D a))
    (hv : ∀ x ∈ v, x.pid < n) (hw : ∀ x ∈ v, x.addr = a → x.kind = .store → x.pid = w) :
    missesOf (rules n true) i a D v = min (2 - DirectoryLine.count (D a).reads i)
      (freshLoads i a (i ∈ (D a).sharers) v) := by
  induction v generalizing D with
  | nil => simp [missesOf, freshLoads]
  | cons x v ih =>
    have ih := fun D hfed => ih (D := D) hfed (fun y hy => hv y (List.mem_cons_of_mem x hy))
      fun y hy => hw y (List.mem_cons_of_mem x hy)
    have hx : x.pid < n := hv x List.mem_cons_self
    rw [missesOf, freshLoads]
    by_cases ha : x.addr = a
    · obtain ⟨kind, j, b⟩ := x
      obtain rfl : b = a := ha
      rw [if_pos rfl]
      cases kind with
      | load =>
        have hj : j < 16 := lt_of_lt_of_le hx hn
        have hcount := count_read (n := n) (i := i) hfed.packed hj
        have hmem := Entry.mem_sharers_read (rules n true) (e := D b) (p := j) (i := i)
        rw [ih _ (by rw [apply_load]; exact hfed.read hj), apply_load, hcount]
        simp only [hmem]
        by_cases hij : j = i
        · subst hij
          by_cases hin : j ∈ (D b).sharers
          · simp [hin]
          · -- a miss is counted
            have hlow : ¬ 2 ≤ DirectoryLine.count (D b).reads j := fun h => hin (hfed.kept h)
            simp only [hin, not_false_eq_true, and_self, if_true, true_or, decide_true]
            simp
            omega
        · simp [hij, Ne.symm hij]
      | store =>
        obtain rfl : j = w := hw _ List.mem_cons_self rfl rfl
        have hmem := hfed.mem_store hn hi hne
        have hreads := (Entry.store_of_not_startsOver _ (hfed.not_startsOver (n := n))).2
        rw [ih _ (by rw [apply_store]; exact hfed.store hn hi hne), apply_store, hreads]
        simp only [hmem]
        by_cases hcount : 2 ≤ DirectoryLine.count (D b).reads i
        · -- it qualifies, and misses no more
          rw [Nat.sub_eq_zero_of_le hcount]
          simp
        · simp [hcount, hne.symm]
    · have hother : x ≠ ⟨.load, i, a⟩ := fun he => ha (by rw [he])
      have hsame : x.event.apply (rules n true) D a = D a := apply_of_addr_ne ha
      rw [if_neg ha, ih _ (by rw [hsame]; exact hfed), hsame, if_neg fun hc => hother hc.1,
        Nat.zero_add]

/-! ## Both protocols -/

theorem freshLoads_append_store (hne : i ≠ w) :
    freshLoads i a seen (u ++ ⟨.store, w, a⟩ :: v) =
      freshLoads i a seen u + freshLoads i a false v := by
  induction u generalizing seen with
  | nil => simp [freshLoads, hne.symm]
  | cons x u ih =>
    rw [List.cons_append, freshLoads, freshLoads]
    simp only [ih]
    split
    · split
      · rfl
      · split
        · rw [Nat.add_assoc]
        · rfl
    · rfl

/-- Before the first store there is at most one fresh load. -/
theorem freshLoads_of_loads (hu : ∀ x ∈ u, x.addr = a → x.kind = .load) :
    freshLoads i a seen u ≤ if seen then 0 else 1 := by
  induction u generalizing seen with
  | nil => simp [freshLoads]
  | cons x u ih =>
    have ih : ∀ s : Bool, freshLoads i a s u ≤ if s then 0 else 1 := fun _ =>
      ih fun y hy => hu y (List.mem_cons_of_mem x hy)
    rw [freshLoads]
    split
    · rename_i ha
      rw [hu x List.mem_cons_self ha]
      have htrue := ih true
      simp only
      split
      · simp at htrue
        omega
      · exact ih seen
    · exact ih seen

theorem writer_of_loads (hu : ∀ x ∈ u, x.addr = a → x.kind = .load) (hD : (D a).writer = none) :
    ((u.map Access.event).foldl (Event.apply R) D a).writer = none := by
  induction u generalizing D with
  | nil => exact hD
  | cons x u ih =>
    refine ih (fun y hy => hu y (List.mem_cons_of_mem x hy)) ?_
    by_cases ha : x.addr = a
    · obtain ⟨kind, j, b⟩ := x
      obtain rfl : b = a := ha
      obtain rfl : kind = .load := hu _ List.mem_cons_self rfl
      rw [apply_load, Entry.read_writer, hD]
    · rw [apply_of_addr_ne ha, hD]

/-- **What the adaptive protocol is for.** In caches that do not overflow,
let the processors only load an address until `w` stores to it, and let
no other processor store to it afterwards; the accesses may interleave in
any order, among any accesses to other addresses. A reader misses at most
once before the first store, in both modes. From then on the baseline
misses every load of data that are new to the reader, however often `w`
stores, and the adaptive protocol only the first two of them. There must
be at most `16` processors, since more of them share their counters and a
reader may be pushed to for another's misses, and the number of sets times
the line size must be at least two. -/
theorem producer_consumer (hgeo : 2 ≤ cfg.numSets * cfg.lineSize) (hn : cfg.numProcessors ≤ 16)
    (hv : cfg.Valid (u ++ ⟨.store, w, a⟩ :: v)) (hfits : cfg.Fits (u ++ ⟨.store, w, a⟩ :: v))
    (hi : i < cfg.numProcessors) (hne : i ≠ w) (hu : ∀ x ∈ u, x.addr = a → x.kind = .load)
    (hw : ∀ x ∈ v, x.addr = a → x.kind = .store → x.pid = w)
    (hrun : cfg.run false (u ++ ⟨.store, w, a⟩ :: v) = .ok (c, rs))
    (hrun' : cfg.run true (u ++ ⟨.store, w, a⟩ :: v) = .ok (c', rs')) :
    freshLoads i a false u ≤ 1 ∧
      loadMisses i a rs = freshLoads i a false u + freshLoads i a false v ∧
      loadMisses i a rs' = freshLoads i a false u + min 2 (freshLoads i a false v) := by
  obtain ⟨-, haccess, hresponse⟩ := within_of_run hgeo hn hv hfits hrun
  obtain ⟨-, haccess', hresponse'⟩ := within_of_run hgeo hn hv hfits hrun'
  refine ⟨freshLoads_of_loads hu, ?_, ?_⟩
  · rw [loadMisses_eq haccess hresponse, missesOf_baseline rfl, ← freshLoads_append_store hne]
    rfl
  · -- the first store starts over
    have hfirst := writer_of_loads (R := rules cfg.numProcessors true) (D := untouched) hu rfl
    rw [loadMisses_eq haccess' hresponse', missesOf_append, missesOf_of_loads hu, missesOf]
    generalize (u.map Access.event).foldl (Event.apply (rules cfg.numProcessors true)) untouched = D
      at hfirst ⊢
    have hover : (D a).StartsOver (rules cfg.numProcessors true) w :=
      Or.inr ⟨rfl, by rw [hfirst]; simp⟩
    have hentry : (⟨.store, w, a⟩ : Access).event.apply (rules cfg.numProcessors true) D a =
        ⟨.modified, {w}, some w, 0⟩ := by
      rw [apply_store, Entry.store_of_startsOver _ hover]
      rfl
    have hvalid : ∀ x ∈ v, x.pid < cfg.numProcessors := fun x hx => hv x (by simp [hx])
    have hzero : DirectoryLine.count 0 i = 0 := DirectoryLine.count_zero
    rw [missesOf_of_fed hn hi hne (by rw [hentry]; exact fed_start) hvalid hw, hentry, hzero]
    simp [hne, untouched]

/-- A consumer that loads once before the producer's three stores and once
after each. -/
theorem producer_consumer_pair :
    let v : List Access := [⟨.load, 1, 4⟩, ⟨.store, 0, 4⟩, ⟨.load, 1, 4⟩, ⟨.store, 0, 4⟩,
      ⟨.load, 1, 4⟩]
    ∃ c rs c' rs', Config.pair.run false ([⟨.load, 1, 4⟩] ++ ⟨.store, 0, 4⟩ :: v) = .ok (c, rs) ∧
      Config.pair.run true ([⟨.load, 1, 4⟩] ++ ⟨.store, 0, 4⟩ :: v) = .ok (c', rs') ∧
      loadMisses 1 4 rs = 4 ∧ loadMisses 1 4 rs' = 3 := by
  intro v
  obtain ⟨⟨c, rs⟩, hok, -⟩ := Ensures.exists_ok (P := fun _ => True) (by decide +kernel :
    Ensures _ _ (Config.pair.run false ([⟨.load, 1, 4⟩] ++ ⟨.store, 0, 4⟩ :: v)))
  obtain ⟨⟨c', rs'⟩, hok', -⟩ := Ensures.exists_ok (P := fun _ => True) (by decide +kernel :
    Ensures _ _ (Config.pair.run true ([⟨.load, 1, 4⟩] ++ ⟨.store, 0, 4⟩ :: v)))
  obtain ⟨-, hmisses, hmisses'⟩ := producer_consumer (i := 1) (by decide) (by decide) (by decide)
    (by decide) (by decide) (by decide) (by decide) (by decide) hok hok'
  exact ⟨c, rs, c', rs', hok, hok', hmisses, hmisses'⟩

end AdaptiveMsi
