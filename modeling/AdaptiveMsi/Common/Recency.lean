import Mathlib.Data.List.Induction
import Mathlib.Data.List.Nodup
import Mathlib.Data.Nat.Find
/-!
# Least recently used

A set of ways that serve accesses to keys. `lastUse` is the position of
the last access to a key in a history, and `leastRecent` is the set after
a history under LRU replacement: a way that holds the key serves the
access, or else the way whose last access is the longest ago takes the
key, an empty way counting as never accessed. A way also counts the
accesses it has served, so that a policy that goes by counts can be
compared with it.
-/

namespace Recency

variable {κ : Type*} [DecidableEq κ]

/-! ## The first of the least -/

/-- The first position of the least number. -/
def firstMin (l : List ℕ) : ℕ := l.findIdx fun a => l.all (a ≤ ·)

variable {l : List ℕ} {i : ℕ}

theorem firstMin_lt (h : l ≠ []) : firstMin l < l.length := by
  have hmin : ∃ a ∈ l, ∀ b ∈ l, a ≤ b := by
    have hex : ∃ a, a ∈ l := List.exists_mem_of_ne_nil l h
    exact ⟨Nat.find hex, Nat.find_spec hex, fun b hb => Nat.find_min' hex hb⟩
  obtain ⟨a, ha, hle⟩ := hmin
  exact List.findIdx_lt_length_of_exists ⟨a, ha, by simpa using hle⟩

theorem firstMin_eq_iff (hi : i < l.length) :
    firstMin l = i ↔ (∀ a ∈ l, l[i] ≤ a) ∧ ∀ j (hj : j < i), l[i] < l[j] := by
  rw [firstMin, List.findIdx_eq hi]
  simp only [List.all_eq_true, decide_eq_true_eq, Bool.eq_false_iff, ne_eq, not_forall]
  refine and_congr_right fun hle => forall₂_congr fun j hj => ?_
  constructor
  · rintro ⟨b, hb, hlt⟩
    exact lt_of_le_of_lt (hle b hb) (by omega)
  · intro hlt
    exact ⟨l[i], List.getElem_mem hi, by omega⟩

/-- Without ties, the first of the least is the least. -/
theorem firstMin_eq_iff_of_nodup (h : l.Nodup) (hi : i < l.length) :
    firstMin l = i ↔ ∀ a ∈ l, l[i] ≤ a := by
  rw [firstMin_eq_iff hi]
  refine and_iff_left_of_imp fun hle j hj => lt_of_le_of_ne (hle _ (List.getElem_mem _)) ?_
  intro heq
  have := (List.Nodup.getElem_inj_iff h).mp heq
  omega

/-- Where there is a zero, it is the first zero. -/
theorem firstMin_of_mem_zero (h : 0 ∈ l) : firstMin l = l.findIdx (· = 0) := by
  have hcongr : ∀ a, (l.all (a ≤ ·)) = decide (a = 0) := fun a => by
    rw [Bool.eq_iff_iff]
    simp only [List.all_eq_true, decide_eq_true_eq]
    constructor
    · exact fun hle => Nat.le_zero.mp (hle 0 h)
    · rintro rfl
      exact fun b _ => Nat.zero_le b
  simp only [firstMin, hcongr]

/-! ## Histories -/

variable {u : List κ} {k k' : κ}

/-- The position, from `1` on, of the last access to the key, or `0`. -/
def lastUse (u : List κ) (k : κ) : ℕ := u.length - u.reverse.idxOf k

theorem lastUse_snoc :
    lastUse (u ++ [k]) k' = if k = k' then u.length + 1 else lastUse u k' := by
  simp only [lastUse, List.length_append, List.length_singleton, List.reverse_append,
    List.reverse_singleton, List.singleton_append]
  by_cases h : k = k'
  · rw [if_pos h, h, List.idxOf_cons_self, Nat.sub_zero]
  · rw [if_neg h, List.idxOf_cons_ne _ h]
    omega

theorem lastUse_pos (h : k ∈ u) : 0 < lastUse u k := by
  have hlt : u.reverse.idxOf k < u.reverse.length :=
    List.idxOf_lt_length_of_mem (List.mem_reverse.mpr h)
  rw [List.length_reverse] at hlt
  unfold lastUse
  omega

/-- Different keys were last accessed at different times. -/
theorem lastUse_inj (h : k ∈ u) (h' : k' ∈ u) (heq : lastUse u k = lastUse u k') : k = k' := by
  have hmem : k ∈ u.reverse := List.mem_reverse.mpr h
  have hlt := List.idxOf_lt_length_of_mem hmem
  have hlt' := List.idxOf_lt_length_of_mem (List.mem_reverse.mpr h')
  rw [List.length_reverse] at hlt hlt'
  refine (List.idxOf_inj hmem).mp ?_
  unfold lastUse at heq
  omega

/-! ## The set -/

/-- A way: the key it holds, how many accesses it has served, and when the
last of them was. -/
structure Way (κ : Type*) where
  key : Option κ
  uses : ℕ
  last : ℕ
deriving DecidableEq, Repr

/-- The way that serves an access: the one that holds the key, or else the
one that is picked. -/
def server (keys : List (Option κ)) (pick : ℕ) (k : κ) : ℕ :=
  if some k ∈ keys then keys.idxOf (some k) else pick

/-- An access to `k` at `now`. -/
def serve (pick now : ℕ) (k : κ) (ws : List (Way κ)) : List (Way κ) :=
  ws.modify (server (ws.map Way.key) pick k) fun w => ⟨some k, w.uses + 1, now⟩

/-- The way whose last access is the longest ago. -/
def oldest (ws : List (Way κ)) : ℕ := firstMin (ws.map Way.last)

/-- **`n` ways under LRU replacement**, after a history. -/
def leastRecent (n : ℕ) (u : List κ) : List (Way κ) :=
  u.zipIdx.foldl (fun ws x => serve (oldest ws) (x.2 + 1) x.1 ws) (List.replicate n ⟨none, 0, 0⟩)

theorem leastRecent_snoc {n : ℕ} : leastRecent n (u ++ [k]) =
    serve (oldest (leastRecent n u)) (u.length + 1) k (leastRecent n u) := by
  simp [leastRecent, List.zipIdx_append]

/-- **The set knows when its keys were last accessed.** -/
structure Dated (u : List κ) (ws : List (Way κ)) : Prop where
  empty : ∀ w ∈ ws, w.key = none → w.last = 0
  filled : ∀ w ∈ ws, ∀ k, w.key = some k → k ∈ u ∧ w.last = lastUse u k
  distinct : ws.Pairwise fun w w' => w.key = none ∨ w.key ≠ w'.key

theorem dated_nil {n : ℕ} : Dated ([] : List κ) (leastRecent n []) where
  empty w hw _ := by
    rw [List.eq_of_mem_replicate hw]
  filled w hw k hk := by
    rw [List.eq_of_mem_replicate hw] at hk
    cases hk
  distinct := by
    simp [leastRecent, List.pairwise_replicate]

variable {ws : List (Way κ)} {pick now n : ℕ}

@[simp] theorem length_serve : (serve pick now k ws).length = ws.length := by
  simp [serve]

@[simp] theorem length_leastRecent : (leastRecent n u).length = n := by
  induction u using List.reverseRecOn with
  | nil => simp [leastRecent]
  | append_singleton u k ih => rw [leastRecent_snoc, length_serve, ih]

theorem server_lt (hpick : pick < ws.length) : server (ws.map Way.key) pick k < ws.length := by
  unfold server
  split
  · rename_i hmem
    simpa using List.idxOf_lt_length_of_mem hmem
  · exact hpick

/-- **One way serves the access**, and no other holds the key. -/
theorem exists_serve (k : κ) (now : ℕ) (hpick : pick < ws.length)
    (hdistinct : ws.Pairwise fun w w' => w.key = none ∨ w.key ≠ w'.key) :
    ∃ pre w post, ws = pre ++ w :: post ∧
      serve pick now k ws = pre ++ ⟨some k, w.uses + 1, now⟩ :: post ∧
      ∀ v ∈ pre ++ post, v.key ≠ some k := by
  obtain ⟨pre, w, post, hws, hlen, hmodify⟩ := List.exists_of_modify
    (fun w : Way κ => ⟨some k, w.uses + 1, now⟩) (server_lt (k := k) hpick)
  refine ⟨pre, w, post, hws, hmodify, fun v hv hkey => ?_⟩
  have hmem : some k ∈ ws.map Way.key := by
    rw [hws]
    simp only [List.mem_append, List.map_append, List.map_cons, List.mem_cons, List.mem_map] at hv ⊢
    rcases hv with hv | hv
    · exact Or.inl ⟨v, hv, hkey⟩
    · exact Or.inr (Or.inr ⟨v, hv, hkey⟩)
  rw [server, if_pos hmem] at hlen
  have hlt := List.idxOf_lt_length_of_mem hmem
  -- the serving way is the first that holds the key
  have hw : w.key = some k := by
    have hget : (ws.map Way.key)[pre.length]? = some (some k) := by
      rw [hlen, List.getElem?_eq_getElem hlt, List.getElem_idxOf]
    rw [hws] at hget
    simpa using hget
  rw [hws] at hdistinct
  obtain ⟨-, hpost, hpre⟩ := List.pairwise_append.mp hdistinct
  rcases List.mem_append.mp hv with hv | hv
  · rcases hpre v hv w List.mem_cons_self with hnone | hne
    · rw [hnone] at hkey
      cases hkey
    · exact hne (hkey.trans hw.symm)
  · rcases (List.pairwise_cons.mp hpost).1 v hv with hnone | hne
    · rw [hnone] at hw
      cases hw
    · exact hne (hw.trans hkey.symm)

/-- **An access dates its way**, whatever is picked. -/
theorem Dated.serve (h : Dated u ws) (hpick : pick < ws.length) :
    Dated (u ++ [k]) (serve pick (u.length + 1) k ws) := by
  obtain ⟨pre, w, post, hws, hserve, hothers⟩ := exists_serve k (u.length + 1) hpick
    h.distinct
  have hmem : ∀ v ∈ pre ++ post, v ∈ ws := fun v hv => by
    rw [hws]
    simp only [List.mem_append, List.mem_cons] at hv ⊢
    tauto
  have hcases : ∀ v ∈ pre ++ ⟨some k, w.uses + 1, u.length + 1⟩ :: post,
      v ∈ pre ++ post ∨ v = ⟨some k, w.uses + 1, u.length + 1⟩ := fun v hv => by
    simp only [List.mem_append, List.mem_cons] at hv ⊢
    tauto
  rw [hserve]
  refine ⟨fun v hv hkey => ?_, fun v hv k' hkey => ?_, ?_⟩
  · rcases hcases v hv with hv | rfl
    · exact h.empty v (hmem v hv) hkey
    · cases hkey
  · rw [lastUse_snoc]
    rcases hcases v hv with hv | rfl
    · obtain ⟨hk', hlast⟩ := h.filled v (hmem v hv) k' hkey
      have hne : k ≠ k' := fun heq => hothers v hv (heq ▸ hkey)
      exact ⟨List.mem_append_left _ hk', by rw [if_neg hne, hlast]⟩
    · cases hkey
      exact ⟨by simp, (if_pos rfl).symm⟩
  · have hdistinct := h.distinct
    rw [hws] at hdistinct
    obtain ⟨hpre, hpost, hcross⟩ := List.pairwise_append.mp hdistinct
    refine List.pairwise_append.mpr ⟨hpre, List.pairwise_cons.mpr ⟨fun v hv => ?_,
      (List.pairwise_cons.mp hpost).2⟩, fun v hv v' hv' => ?_⟩
    · exact Or.inr (hothers v (List.mem_append_right _ hv)).symm
    · rcases List.mem_cons.mp hv' with rfl | hv'
      · exact Or.inr (hothers v (List.mem_append_left _ hv))
      · exact hcross v hv v' (List.mem_cons_of_mem w hv')

omit [DecidableEq κ] in
theorem oldest_lt (h : ws ≠ []) : oldest ws < ws.length := by
  simpa [oldest] using firstMin_lt (l := ws.map Way.last) (by simpa using h)

/-- **The LRU set is dated along every history.** -/
theorem dated_leastRecent (hn : 0 < n) : Dated u (leastRecent n u) := by
  induction u using List.reverseRecOn with
  | nil => exact dated_nil
  | append_singleton u k ih =>
    rw [leastRecent_snoc]
    refine ih.serve (oldest_lt fun h => ?_)
    have hlen : (leastRecent n u).length = n := length_leastRecent
    rw [h] at hlen
    simp at hlen
    omega

/-- An image of the set, where one entry of it changes. -/
theorem map_modify_of_map_eq {α β γ : Type*} {f : α → γ} {g : β → γ} {h : α → α} {as : List α}
    {pre post : List β} {b b' : β} (hmap : as.map f = (pre ++ b :: post).map g)
    (hstep : ∀ a, f a = g b → f (h a) = g b') :
    (as.modify pre.length h).map f = (pre ++ b' :: post).map g := by
  induction pre generalizing as with
  | nil =>
    cases as with
    | nil => simp at hmap
    | cons a as =>
      obtain ⟨hb, hpost⟩ := List.cons.inj hmap
      simp [hstep a hb, hpost]
  | cons c pre ih =>
    cases as with
    | nil => simp at hmap
    | cons a as =>
      obtain ⟨hc, hrest⟩ := List.cons.inj hmap
      simpa [hc] using ih hrest

/-- A full set has no ties. -/
theorem Dated.nodup_last (h : Dated u ws) (hfull : ∀ w ∈ ws, w.key ≠ none) :
    (ws.map Way.last).Nodup := by
  rw [List.Nodup, List.pairwise_map]
  refine h.distinct.imp_of_mem fun {w w'} hw hw' hne heq => ?_
  obtain ⟨k, hk⟩ := Option.ne_none_iff_exists'.mp (hfull w hw)
  obtain ⟨k', hk'⟩ := Option.ne_none_iff_exists'.mp (hfull w' hw')
  obtain ⟨hmem, hlast⟩ := h.filled w hw k hk
  obtain ⟨hmem', hlast'⟩ := h.filled w' hw' k' hk'
  rcases hne with hnone | hne
  · exact hfull w hw hnone
  · refine hne ?_
    rw [hk, hk', lastUse_inj hmem hmem' (by rw [← hlast, ← hlast', heq])]

end Recency
