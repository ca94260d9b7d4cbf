import AdaptiveMsi.Cache.Spare
import AdaptiveMsi.Common.Recency
/-!
# Replacement

A way's counter is raised by every access the way serves, whatever line
it held, and it is what `evict` compares. So the way displaced is the one
used least often, where an LRU set gives up the one used least recently,
and the two agree along a history exactly if, on the LRU set, the least
recently used way is the least often used one whenever a line is
displaced.
-/

namespace AdaptiveMsi

open Machine Recency

/-- The tag a way holds. -/
def CacheLine.key (l : CacheLine) : Option (BitVec 64) :=
  if l.status = .cached then some l.tag else none

namespace CacheSet

variable {s : CacheSet} {m : DirMsi} {pid n : ℕ} {tag : BitVec 64} {addr : Addr} {now : ℕ}
variable {ws : List (Way (BitVec 64))} {u : List (BitVec 64)} {T : Finset (BitVec 64)}

/-- A demand access to the set: `fetch_single_line` with `replace`. -/
def demand (pid : ℕ) (st : CacheSet × DirMsi) (x : BitVec 64 × Addr) :
    Except AssertFailure (CacheSet × DirMsi) :=
  st.1.fetchSingleLine pid x.1 x.2 st.2 true

/-- **The line displaced is the least recently used one**, if the access to
`tag` displaces a line of a set in full use after the accesses `u`. -/
def DisplacesOldest (u : List (BitVec 64)) (s : CacheSet) (tag : BitVec 64) : Prop :=
  (∀ l ∈ s.lines, l.status = .cached) → (∀ l ∈ s.lines, l.tag ≠ tag) →
    ∀ l ∈ s.lines, lastUse u (s.line s.victim.evict).tag ≤ lastUse u l.tag

/-- The way of an LRU set that has been used least often, the counts being
words. -/
def leastUsed (ws : List (Way (BitVec 64))) : ℕ := firstMin (ws.map (·.uses % 2 ^ 64))

/-- If the access displaces a line of an LRU set, the least recently used
way is the least often used one. -/
def OldestIsLeastUsed (ws : List (Way (BitVec 64))) (tag : BitVec 64) : Prop :=
  (∀ w ∈ ws, w.key ≠ none) → (∀ w ∈ ws, w.key ≠ some tag) → oldest ws = leastUsed ws

/-! ## One access -/

/-- The set holds the keys of the LRU set, and its counters count the uses
of the ways. -/
structure Mirrors (s : CacheSet) (ws : List (Way (BitVec 64))) : Prop where
  keys : ws.map Way.key = s.lines.map CacheLine.key
  uses : ws.map (·.uses % 2 ^ 64) = s.lines.map (·.lru.toNat)

theorem Mirrors.length (h : s.Mirrors ws) : ws.length = s.lines.length := by
  simpa using congrArg List.length h.keys

/-- The selection loop picks the way used least often. -/
theorem Mirrors.victim_eq (h : s.Mirrors ws) : s.victim.evict = leastUsed ws := by
  rw [leastUsed, h.uses]
  exact victim_eq_firstMin

/-- **One access to both sets**, where the LRU set is made to pick the way
the counters pick. -/
theorem Mirrors.serve {r : CacheSet × DirMsi} (h : s.Mirrors ws)
    (hr : Fetched pid tag addr true s m r) (hpos : 0 < s.lines.length) :
    r.1.Mirrors (serve s.victim.evict now tag ws) := by
  -- the way that serves the access, found or chosen
  obtain ⟨pre, l, post, l', hlines, hlines', hkey, hlru, hserver⟩ : ∃ pre l post l',
      s.lines = pre ++ l :: post ∧ r.1.lines = pre ++ l' :: post ∧ l'.key = some tag ∧
      l'.lru = l.lru + 1 ∧ server (s.lines.map CacheLine.key) s.victim.evict tag = pre.length := by
    cases hr with
    | hit pre l post hlines hpre htag hstatus hlru =>
      refine ⟨pre, l, post, touch true l, hlines, rfl, by simp [CacheLine.key, htag, hstatus], rfl,
        ?_⟩
      have hl : l.key = some tag := by simp [CacheLine.key, htag, hstatus]
      have hnot : some tag ∉ pre.map CacheLine.key := by
        rintro hmem
        obtain ⟨k, hk, hkey⟩ := List.mem_map.mp hmem
        unfold CacheLine.key at hkey
        split at hkey
        · exact hpre k hk (Option.some.inj hkey)
        · cases hkey
      rw [server, if_pos (by simp [hlines, hl]), hlines, List.map_append, List.map_cons, hl,
        List.idxOf_append_of_notMem hnot, List.idxOf_cons_self]
      simp
    | miss habsent =>
      obtain ⟨pre, l, post, hlines, hlen, hmodify⟩ := List.exists_of_modify
        (installed tag addr true) (isVictim hpos).lt
      refine ⟨pre, l, post, installed tag addr true l, hlines, hmodify, rfl, rfl, ?_⟩
      rw [server, if_neg, hlen]
      intro hmem
      obtain ⟨k, hk, hkey⟩ := List.mem_map.mp hmem
      unfold CacheLine.key at hkey
      split at hkey
      · exact habsent k hk (Option.some.inj hkey)
      · cases hkey
  have hkeys := h.keys
  have huses := h.uses
  rw [hlines] at hkeys huses
  have hi : Recency.serve s.victim.evict now tag ws =
      ws.modify pre.length fun w => ⟨some tag, w.uses + 1, now⟩ := by
    rw [Recency.serve, h.keys, hserver]
  constructor
  · rw [hi, hlines']
    exact map_modify_of_map_eq hkeys fun w _ => hkey.symm
  · rw [hi, hlines']
    -- the counter is the number of uses modulo `2 ^ 64`
    refine map_modify_of_map_eq huses fun w hw => ?_
    have hw' : w.uses % 2 ^ 64 = l.lru.toNat := hw
    rw [hlru, BitVec.toNat_add, ← hw']
    simp [Nat.add_mod]

theorem key_eq_none {l : CacheLine} : l.key = none ↔ l.status = .uncached := by
  unfold CacheLine.key
  cases l.status <;> simp

theorem key_of_cached {l : CacheLine} (h : l.status = .cached) : l.key = some l.tag := if_pos h

/-- The keys of the two sets are the same. -/
theorem Mirrors.forall_key (h : s.Mirrors ws) {P : Option (BitVec 64) → Prop} :
    (∀ w ∈ ws, P w.key) ↔ ∀ l ∈ s.lines, P l.key := by
  have hmem : ∀ o, o ∈ ws.map Way.key ↔ o ∈ s.lines.map CacheLine.key := fun o => by rw [h.keys]
  simp only [List.mem_map] at hmem
  constructor
  · intro hP l hl
    obtain ⟨w, hw, hkey⟩ := (hmem l.key).mpr ⟨l, hl, rfl⟩
    exact hkey ▸ hP w hw
  · intro hP w hw
    obtain ⟨l, hl, hkey⟩ := (hmem w.key).mp ⟨w, hw, rfl⟩
    exact hkey ▸ hP l hl

/-- When the lines of the set were last used. -/
theorem Mirrors.lasts (h : s.Mirrors ws) (hdated : Dated u ws) :
    ws.map Way.last = s.lines.map fun l => l.key.elim 0 (lastUse u) := by
  have hlast : ∀ w ∈ ws, w.last = w.key.elim 0 (lastUse u) := fun w hw => by
    cases hkey : w.key with
    | none => exact hdated.empty w hw hkey
    | some k => exact (hdated.filled w hw k hkey).2
  calc ws.map Way.last = (ws.map Way.key).map (·.elim 0 (lastUse u)) := by
        rw [List.map_map]
        exact List.map_congr_left hlast
    _ = s.lines.map fun l => l.key.elim 0 (lastUse u) := by
        rw [h.keys, List.map_map]
        rfl

/-- With an empty way both pick the first of them. -/
theorem Mirrors.oldest_eq (h : s.Mirrors ws) (hs : s.Clean) (hdated : Dated u ws)
    (hspares : s.Spares T) (hfree : s.Spared) : oldest ws = s.victim.evict := by
  obtain ⟨l, hl, hu⟩ := hfree
  have hcounted := hspares.counted ⟨l, hl, hu⟩
  have hkeys : ∀ l ∈ s.lines, ∀ k, l.key = some k → k ∈ u := by
    have hall := (h.forall_key (P := fun o => ∀ k, o = some k → k ∈ u)).mp
      fun w hw k hk => (hdated.filled w hw k hk).1
    exact hall
  have hzero : ∀ l ∈ s.lines, decide (l.key.elim 0 (lastUse u) = 0) = decide (l.lru.toNat = 0) := by
    intro l hl
    cases hst : l.status with
    | uncached =>
      have hlru := (hs.uncached l hl hst).2
      simp [key_eq_none.mpr hst, hlru]
    | cached =>
      have hne := (hcounted l hl hst).1
      have hpos := lastUse_pos (hkeys l hl l.tag (key_of_cached hst))
      have hlru : l.lru.toNat ≠ 0 := fun h0 => hne (BitVec.eq_of_toNat_eq h0)
      simp [key_of_cached hst, hlru]
      omega
  rw [h.victim_eq, oldest, leastUsed, h.uses, h.lasts hdated, firstMin_of_mem_zero,
    firstMin_of_mem_zero, List.findIdx_map, List.findIdx_map]
  · have hmap := List.map_congr_left hzero
    have hidx := congrArg (List.findIdx id) hmap
    simpa [List.findIdx_map, Function.comp_def] using hidx
  · refine List.mem_map.mpr ⟨l, hl, ?_⟩
    simp [(hs.uncached l hl hu).2]
  · refine List.mem_map.mpr ⟨l, hl, ?_⟩
    simp [key_eq_none.mpr hu]

/-- In a set in full use the way picked is the least recently used one
exactly if its line is. -/
theorem Mirrors.oldest_eq_iff (h : s.Mirrors ws) (hpos : 0 < s.lines.length)
    (hdated : Dated u ws) (hfull : ∀ l ∈ s.lines, l.status = .cached) :
    oldest ws = leastUsed ws ↔
      ∀ l ∈ s.lines, lastUse u (s.line s.victim.evict).tag ≤ lastUse u l.tag := by
  have hlasts : ws.map Way.last = s.lines.map fun l => lastUse u l.tag := by
    rw [h.lasts hdated]
    refine List.map_congr_left fun l hl => ?_
    simp [key_of_cached (hfull l hl)]
  have hnodup : (ws.map Way.last).Nodup := hdated.nodup_last <|
    (h.forall_key (P := fun o => o ≠ none)).mpr fun l hl => by
      simp [key_of_cached (hfull l hl)]
  have hlt := (isVictim hpos).lt
  have hmap : s.victim.evict < (s.lines.map fun l => lastUse u l.tag).length := by
    simpa using hlt
  have hget : (s.lines.map fun l => lastUse u l.tag)[s.victim.evict] =
      lastUse u (s.line s.victim.evict).tag := by
    simp [line, List.getD_eq_getElem?_getD, hlt]
  rw [hlasts] at hnodup
  rw [← h.victim_eq, oldest, hlasts, firstMin_eq_iff_of_nodup hnodup hmap, hget]
  simp

/-- **One access displaces the least recently used line** exactly if the
least recently used way is the least often used one. -/
theorem Mirrors.displacesOldest (h : s.Mirrors ws) (hpos : 0 < s.lines.length)
    (hdated : Dated u ws) : DisplacesOldest u s tag ↔ OldestIsLeastUsed ws tag := by
  unfold DisplacesOldest OldestIsLeastUsed
  rw [h.forall_key (P := fun o => o ≠ none), h.forall_key (P := fun o => o ≠ some tag)]
  have hfull : (∀ l ∈ s.lines, l.key ≠ none) ↔ ∀ l ∈ s.lines, l.status = .cached := by
    refine forall₂_congr fun l _ => ?_
    rw [Ne, key_eq_none]
    cases l.status <;> simp
  rw [hfull]
  refine forall_congr' fun hcached => ?_
  have habsent : (∀ l ∈ s.lines, l.key ≠ some tag) ↔ ∀ l ∈ s.lines, l.tag ≠ tag := by
    refine forall₂_congr fun l hl => ?_
    rw [key_of_cached (hcached l hl), Ne, Option.some.injEq]
  rw [habsent, h.oldest_eq_iff hpos hdated hcached]

/-! ## Histories -/

/-- The two sets, as long as they agree. -/
structure Together (u : List (BitVec 64)) (n : ℕ) (s : CacheSet) : Prop where
  clean : s.Clean
  spares : ∃ T, s.Spares T
  mirrors : s.Mirrors (leastRecent n u)

theorem together_new (hn : 0 < n) : Together [] n (new n) where
  clean := clean_new hn
  spares := ⟨∅, spares_new⟩
  mirrors := by
    constructor <;> simp [leastRecent, new, CacheLine.key, CacheLine.empty]

/-- **One more access**, that displaces the least recently used line if it
displaces any. -/
theorem Together.step {r : CacheSet × DirMsi} (hn : 0 < n) (h : Together u n s)
    (htag : tag ≠ allOnes) (hd : DisplacesOldest u s tag)
    (hr : s.fetchSingleLine pid tag addr m true = .ok r) : Together (u ++ [tag]) n r.1 := by
  have hfetched := (ensures_fetchSingleLine_fetched h.clean.tidy htag).of_ok hr
  obtain ⟨T, hT⟩ := h.spares
  have hdated : Dated u (leastRecent n u) := dated_leastRecent hn
  refine ⟨hfetched.clean h.clean, ⟨_, hfetched.spares h.clean hT⟩, ?_⟩
  have hserve : r.1.Mirrors (Recency.serve s.victim.evict (u.length + 1) tag (leastRecent n u)) :=
    h.mirrors.serve hfetched h.clean.pos
  rw [leastRecent_snoc]
  by_cases hmem : some tag ∈ (leastRecent n u).map Way.key
  · -- a hit is served by the way that holds the tag, whatever is picked
    have hserver : ∀ pick, Recency.serve pick (u.length + 1) tag (leastRecent n u) =
        Recency.serve s.victim.evict (u.length + 1) tag (leastRecent n u) := fun pick => by
      simp only [Recency.serve, server, if_pos hmem]
    rw [hserver]
    exact hserve
  · by_cases hfree : s.Spared
    · -- while a way is free both policies take it
      rw [h.mirrors.oldest_eq h.clean hdated hT hfree]
      exact hserve
    · -- in a full set the condition is that they pick one way
      have hcached : ∀ l ∈ s.lines, l.status = .cached := fun l hl => by
        cases hst : l.status with
        | cached => rfl
        | uncached => exact absurd ⟨l, hl, hst⟩ hfree
      have habsent : ∀ l ∈ s.lines, l.tag ≠ tag := fun l hl heq => hmem <| by
        rw [h.mirrors.keys]
        exact List.mem_map.mpr ⟨l, hl, heq ▸ key_of_cached (hcached l hl)⟩
      have hpick := (h.mirrors.oldest_eq_iff h.clean.pos hdated hcached).mpr (hd hcached habsent)
      rw [hpick, ← h.mirrors.victim_eq]
      exact hserve

/-- **LRU replacement, exactly where counting uses is as good.** Along
every history of demand accesses to a set of any associativity, every line
displaced from a set in full use is the least recently used one if and
only if, on an LRU set with the same history, the least recently used way
is the least often used one, the first of them, whenever a line is
displaced. -/
theorem displacesOldest_iff (n : ℕ) (hn : 0 < n) (pid : ℕ) (m : DirMsi)
    (t : List (BitVec 64 × Addr)) (htags : ∀ x ∈ t, x.1 ≠ allOnes) (r : CacheSet × DirMsi)
    (hrun : t.foldlM (demand pid) (new n, m) = .ok r) :
    (∀ u x v, t = u ++ x :: v → ∀ st, u.foldlM (demand pid) (new n, m) = .ok st →
      DisplacesOldest (u.map Prod.fst) st.1 x.1) ↔
    ∀ u x v, t = u ++ x :: v → OldestIsLeastUsed (leastRecent n (u.map Prod.fst)) x.1 := by
  -- the induction also carries the LRU set, which agrees as long as the oldest goes
  suffices hall : ((∀ u x v, t = u ++ x :: v → ∀ st, u.foldlM (demand pid) (new n, m) = .ok st →
      DisplacesOldest (u.map Prod.fst) st.1 x.1) ↔
      ∀ u x v, t = u ++ x :: v → OldestIsLeastUsed (leastRecent n (u.map Prod.fst)) x.1) ∧
      ((∀ u x v, t = u ++ x :: v → ∀ st, u.foldlM (demand pid) (new n, m) = .ok st →
        DisplacesOldest (u.map Prod.fst) st.1 x.1) → Together (t.map Prod.fst) n r.1) from hall.1
  induction t using List.reverseRecOn generalizing r with
  | nil =>
    cases hrun
    exact ⟨by simp, fun _ => together_new hn⟩
  | append_singleton t x ih =>
    rw [List.foldlM_append] at hrun
    obtain ⟨st, hst, hstep⟩ := bind_eq_ok.mp hrun
    have hstep : st.1.fetchSingleLine pid x.1 x.2 st.2 true = .ok r := by
      simpa [demand] using hstep
    obtain ⟨hiff, htogether⟩ := ih (fun y hy => htags y (by simp [hy])) st hst
    have hlast : (∀ st', t.foldlM (demand pid) (new n, m) = .ok st' →
        DisplacesOldest (t.map Prod.fst) st'.1 x.1) ↔
        DisplacesOldest (t.map Prod.fst) st.1 x.1 := by
      rw [hst]
      simp
    have hsplit := forall_prefix_snoc (l := t) (i := x) (Q := fun u x => ∀ st,
      u.foldlM (demand pid) (new n, m) = .ok st → DisplacesOldest (u.map Prod.fst) st.1 x.1)
    rw [hsplit, hlast, forall_prefix_snoc (Q := fun u (x : BitVec 64 × Addr) =>
      OldestIsLeastUsed (leastRecent n (u.map Prod.fst)) x.1), ← hiff]
    refine ⟨and_congr_right fun hprefix => ?_, fun h => ?_⟩
    · have ht := htogether hprefix
      exact ht.mirrors.displacesOldest ht.clean.pos (dated_leastRecent hn)
    · rw [List.map_append]
      exact (htogether h.1).step hn (htags x (by simp)) h.2 hstep

/-- Three lines in turn, over two ways. -/
theorem displacesOldest_iff_turns :
    ∃ r, [((2 : BitVec 64), (2 : Addr)), (4, 4), (6, 6), (2, 2)].foldlM (demand 0)
        (new 2, DirMsi.new 1) = .ok r ∧
      ((∀ u x v, [((2 : BitVec 64), (2 : Addr)), (4, 4), (6, 6), (2, 2)] = u ++ x :: v →
        ∀ st, u.foldlM (demand 0) (new 2, DirMsi.new 1) = .ok st →
          DisplacesOldest (u.map Prod.fst) st.1 x.1) ↔
      ∀ u x v, [((2 : BitVec 64), (2 : Addr)), (4, 4), (6, 6), (2, 2)] = u ++ x :: v →
        OldestIsLeastUsed (leastRecent 2 (u.map Prod.fst)) x.1) := by
  have hrun : Ensures (fun _ => False) (fun _ => True)
      ([((2 : BitVec 64), (2 : Addr)), (4, 4), (6, 6), (2, 2)].foldlM (demand 0)
        (new 2, DirMsi.new 1)) := by decide
  obtain ⟨r, hok, -⟩ := hrun.exists_ok
  exact ⟨r, hok, displacesOldest_iff 2 (by decide) 0 _ _ (by simp [allOnes]) r hok⟩

/-- **A line that was used twice outlives a line used later.** After `2`,
`2` and `4` the access to `6` displaces the line of `4`, and that of `2`
was used less recently. -/
theorem recent_line_displaced :
    ∃ st, [((2 : BitVec 64), (2 : Addr)), (2, 2), (4, 4)].foldlM (demand 0)
        (new 2, DirMsi.new 1) = .ok st ∧ ¬ DisplacesOldest [2, 2, 4] st.1 6 := by
  have hrun : Ensures (fun _ => False) (fun st => (∀ l ∈ st.1.lines, l.status = .cached) ∧
      (∀ l ∈ st.1.lines, l.tag ≠ 6) ∧
      ¬ ∀ l ∈ st.1.lines, lastUse [2, 2, 4] (st.1.line st.1.victim.evict).tag ≤
        lastUse [2, 2, 4] l.tag)
      ([((2 : BitVec 64), (2 : Addr)), (2, 2), (4, 4)].foldlM (demand 0)
        (new 2, DirMsi.new 1)) := by decide
  obtain ⟨st, hok, hcached, habsent, hnot⟩ := hrun.exists_ok
  exact ⟨st, hok, fun h => hnot (h hcached habsent)⟩

end CacheSet

end AdaptiveMsi
