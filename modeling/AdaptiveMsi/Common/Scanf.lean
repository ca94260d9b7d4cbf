import Mathlib.Data.List.Basic
import Mathlib.Data.List.TakeWhile
/-!
# Formatted input

`fscanf` over a text, for formats of white space, ordinary characters and
`%i`. A number may have a sign and is hexadecimal after `0x`, octal after
`0`, and decimal otherwise; it is as long as it can be. `Reads` is the
grammar of the texts a format reads, with the numbers they spell, and the
scanner returns all the numbers of a format exactly on these texts.
-/

namespace Scanf

/-- `isspace`. -/
def isSpace (c : Char) : Bool := c = ' ' || (9 ≤ c.toNat && c.toNat ≤ 13)

/-- The value of a digit; no digit has the value `16`. -/
def digitVal (c : Char) : ℕ :=
  if '0'.toNat ≤ c.toNat ∧ c.toNat ≤ '9'.toNat then c.toNat - '0'.toNat
  else if 'a'.toNat ≤ c.toNat ∧ c.toNat ≤ 'f'.toNat then c.toNat - 'a'.toNat + 10
  else if 'A'.toNat ≤ c.toNat ∧ c.toNat ≤ 'F'.toNat then c.toNat - 'A'.toNat + 10
  else 16

def isDigit (b : ℕ) (c : Char) : Bool := digitVal c < b

def number (b : ℕ) (cs : List Char) : ℕ := cs.foldl (fun n c => b * n + digitVal c) 0

/-- A directive of a format. -/
inductive Directive
  | space
  | char (c : Char)
  | int
deriving DecidableEq, Repr

/-- A character of a format that is not of a conversion. -/
def literal (c : Char) : Directive := if isSpace c then .space else .char c

/-- The directives of a format string. -/
def directives : List Char → List Directive
  | '%' :: 'i' :: cs => .int :: directives cs
  | c :: cs => literal c :: directives cs
  | [] => []

/-! ## The scanner -/

/-- The digits of base `b` in front of a text. -/
def scanDigits (b : ℕ) (cs : List Char) : Option (ℕ × List Char) :=
  if cs.takeWhile (isDigit b) = [] then none
  else some (number b (cs.takeWhile (isDigit b)), cs.dropWhile (isDigit b))

/-- A number without its sign. -/
def scanNat : List Char → Option (ℕ × List Char)
  | '0' :: 'x' :: cs => scanDigits 16 cs
  | '0' :: 'X' :: cs => scanDigits 16 cs
  | '0' :: cs => scanDigits 8 ('0' :: cs)
  | cs => scanDigits 10 cs

def scanInt : List Char → Option (ℤ × List Char)
  | '-' :: cs => (scanNat cs).map fun r => (-r.1, r.2)
  | '+' :: cs => (scanNat cs).map fun r => (r.1, r.2)
  | cs => (scanNat cs).map fun r => (r.1, r.2)

/-- The numbers `fscanf` assigns before it stops. -/
def scan : List Directive → List Char → List ℤ
  | [], _ => []
  | .space :: ds, cs => scan ds (cs.dropWhile isSpace)
  | .char _ :: _, [] => []
  | .char c :: ds, c' :: cs => if c' = c then scan ds cs else []
  | .int :: ds, cs =>
      match scanInt (cs.dropWhile isSpace) with
      | some (n, cs) => n :: scan ds cs
      | none => []

/-! ## The grammar -/

/-- `rest` does not go on with an element of `p`. -/
def Stops {α : Type*} (p : α → Bool) (rest : List α) : Prop := ∀ c ∈ rest.head?, p c = false

/-- `cs` spells `n`, and `rest` is what is left. -/
inductive ReadsNat : List Char → ℕ → List Char → Prop
  | decimal {ds rest : List Char} (hne : ds ≠ []) (hds : ∀ c ∈ ds, isDigit 10 c)
      (hzero : ds.head? ≠ some '0') (hstop : Stops (isDigit 10) rest) :
      ReadsNat (ds ++ rest) (number 10 ds) rest
  | octal {ds rest : List Char} (hds : ∀ c ∈ ds, isDigit 8 c) (hstop : Stops (isDigit 8) rest)
      (hx : ds = [] → Stops (fun c => c = 'x' || c = 'X') rest) :
      ReadsNat ('0' :: (ds ++ rest)) (number 8 ds) rest
  | hexadecimal {x : Char} {ds rest : List Char} (hx : x = 'x' ∨ x = 'X') (hne : ds ≠ [])
      (hds : ∀ c ∈ ds, isDigit 16 c) (hstop : Stops (isDigit 16) rest) :
      ReadsNat ('0' :: x :: (ds ++ rest)) (number 16 ds) rest

inductive ReadsInt : List Char → ℤ → List Char → Prop
  | bare {cs rest : List Char} {n : ℕ} (h : ReadsNat cs n rest) : ReadsInt cs n rest
  | plus {cs rest : List Char} {n : ℕ} (h : ReadsNat cs n rest) : ReadsInt ('+' :: cs) n rest
  | minus {cs rest : List Char} {n : ℕ} (h : ReadsNat cs n rest) : ReadsInt ('-' :: cs) (-n) rest

/-- `cs` is read by the whole format: it spells `ns`, and `rest` is left. -/
inductive Reads : List Directive → List Char → List ℤ → List Char → Prop
  | nil {cs : List Char} : Reads [] cs [] cs
  | space {ds : List Directive} (ws : List Char) {cs rest : List Char} {ns : List ℤ}
      (hws : ∀ c ∈ ws, isSpace c) (hstop : Stops isSpace cs) (h : Reads ds cs ns rest) :
      Reads (.space :: ds) (ws ++ cs) ns rest
  | char {ds : List Directive} {c : Char} {cs rest : List Char} {ns : List ℤ}
      (h : Reads ds cs ns rest) : Reads (.char c :: ds) (c :: cs) ns rest
  | int {ds : List Directive} (ws : List Char) {cs cs' rest : List Char} {n : ℤ} {ns : List ℤ}
      (hws : ∀ c ∈ ws, isSpace c) (hn : ReadsInt cs n cs') (h : Reads ds cs' ns rest) :
      Reads (.int :: ds) (ws ++ cs) (n :: ns) rest

variable {α : Type*} {p : α → Bool} {b n : ℕ} {k : ℤ} {as rest cs : List Char} {ns : List ℤ}
variable {ds ds' : List Directive}

/-! ## Runs of characters -/

/-- A text splits where the first character stops a run. -/
theorem takeWhile_eq_iff {l u v : List α} :
    l.takeWhile p = u ∧ l.dropWhile p = v ↔ l = u ++ v ∧ (∀ c ∈ u, p c) ∧ Stops p v := by
  constructor
  · rintro ⟨rfl, rfl⟩
    refine ⟨List.takeWhile_append_dropWhile.symm, fun c hc => List.mem_takeWhile_imp hc, ?_⟩
    intro c hc
    have hhead := List.head?_dropWhile_not p l
    rw [Option.mem_def.mp hc] at hhead
    simpa using hhead
  · rintro ⟨rfl, hu, hv⟩
    rw [List.takeWhile_append_of_pos hu, List.dropWhile_append_of_pos hu]
    cases v with
    | nil => simp
    | cons c v =>
      have hc : p c = false := hv c (by simp)
      simp [hc]

theorem scanDigits_eq_some : scanDigits b cs = some (n, rest) ↔
    ∃ ds, cs = ds ++ rest ∧ ds ≠ [] ∧ (∀ c ∈ ds, isDigit b c) ∧ Stops (isDigit b) rest ∧
      n = number b ds := by
  unfold scanDigits
  constructor
  · intro h
    split at h
    · cases h
    · rename_i hne
      obtain ⟨rfl, rfl⟩ := Prod.mk.inj (Option.some.inj h)
      obtain ⟨hcs, hds, hstop⟩ := takeWhile_eq_iff.mp ⟨rfl, rfl⟩
      exact ⟨_, hcs, hne, hds, hstop, rfl⟩
  · rintro ⟨ds, hcs, hne, hds, hstop, rfl⟩
    obtain ⟨htake, hdrop⟩ := takeWhile_eq_iff.mpr ⟨hcs, hds, hstop⟩
    rw [htake, hdrop, if_neg hne]

/-! ## Numbers -/

theorem scanNat_hexadecimal {x : Char} (hx : x = 'x' ∨ x = 'X') :
    scanNat ('0' :: x :: cs) = scanDigits 16 cs := by
  rcases hx with rfl | rfl <;> rfl

theorem scanNat_octal (h : Stops (fun c => c = 'x' || c = 'X') cs) :
    scanNat ('0' :: cs) = scanDigits 8 ('0' :: cs) := by
  unfold scanNat
  split
  · rename_i heq
    cases heq
    simp [Stops] at h
  · rename_i heq
    cases heq
    simp [Stops] at h
  · rename_i heq
    rw [(List.cons.inj heq).2]
  · rename_i hne
    exact absurd rfl (hne cs)

theorem scanNat_decimal (h : cs.head? ≠ some '0') : scanNat cs = scanDigits 10 cs := by
  unfold scanNat
  split
  · simp at h
  · simp at h
  · simp at h
  · rfl

/-- The three bases. -/
theorem base_cases (cs : List Char) : cs.head? ≠ some '0' ∨
    (∃ x cs', (x = 'x' ∨ x = 'X') ∧ cs = '0' :: x :: cs') ∨
    ∃ cs', Stops (fun c => c = 'x' || c = 'X') cs' ∧ cs = '0' :: cs' := by
  match cs with
  | [] => exact Or.inl (by simp)
  | c :: cs =>
    by_cases hc : c = '0'
    · subst hc
      match cs with
      | [] => exact Or.inr (Or.inr ⟨[], by simp [Stops], rfl⟩)
      | x :: cs =>
        by_cases hx : x = 'x' ∨ x = 'X'
        · exact Or.inr (Or.inl ⟨x, cs, hx, rfl⟩)
        · exact Or.inr (Or.inr ⟨x :: cs, by simpa [Stops] using hx, rfl⟩)
    · exact Or.inl (by simpa using hc)

theorem number_zero_cons : number b ('0' :: cs) = number b cs := by
  simp [number, digitVal]

/-- **Numbers** are read as the grammar says. -/
theorem scanNat_eq_some : scanNat cs = some (n, rest) ↔ ReadsNat cs n rest := by
  constructor
  · intro h
    rcases base_cases cs with hzero | ⟨x, cs', hx, rfl⟩ | ⟨cs', hx, rfl⟩
    · rw [scanNat_decimal hzero] at h
      obtain ⟨ds, rfl, hne, hds, hstop, rfl⟩ := scanDigits_eq_some.mp h
      refine .decimal hne hds ?_ hstop
      rwa [List.head?_append_of_ne_nil _ hne] at hzero
    · rw [scanNat_hexadecimal hx] at h
      obtain ⟨ds, rfl, hne, hds, hstop, rfl⟩ := scanDigits_eq_some.mp h
      exact .hexadecimal hx hne hds hstop
    · rw [scanNat_octal hx] at h
      obtain ⟨ds, hcs, hne, hds, hstop, rfl⟩ := scanDigits_eq_some.mp h
      obtain ⟨d, ds, rfl⟩ := List.exists_cons_of_ne_nil hne
      obtain ⟨rfl, rfl⟩ := List.cons.inj hcs
      rw [number_zero_cons]
      refine .octal (fun c hc => hds c (by simp [hc])) hstop fun hnil => ?_
      subst hnil
      exact hx
  · intro h
    cases h with
    | decimal hne hds hzero hstop =>
      rw [scanNat_decimal (by rwa [List.head?_append_of_ne_nil _ hne])]
      exact scanDigits_eq_some.mpr ⟨_, rfl, hne, hds, hstop, rfl⟩
    | @octal ds rest hds hstop hx =>
      have hbase : Stops (fun c => c = 'x' || c = 'X') (ds ++ rest) := by
        rcases ds with _ | ⟨d, ds⟩
        · exact hx rfl
        · intro c hc
          obtain rfl : d = c := by simpa using hc
          have hd : isDigit 8 d := hds d (by simp)
          have hlower : d ≠ 'x' := fun he => absurd (he ▸ hd) (by decide)
          have hupper : d ≠ 'X' := fun he => absurd (he ▸ hd) (by decide)
          simp [hlower, hupper]
      rw [scanNat_octal hbase, ← number_zero_cons]
      refine scanDigits_eq_some.mpr ⟨'0' :: ds, rfl, by simp, ?_, hstop, rfl⟩
      intro c hc
      rcases List.mem_cons.mp hc with rfl | hc
      · decide
      · exact hds c hc
    | hexadecimal hx hne hds hstop =>
      rw [scanNat_hexadecimal hx]
      exact scanDigits_eq_some.mpr ⟨_, rfl, hne, hds, hstop, rfl⟩

theorem ReadsNat.head (h : ReadsNat cs n rest) : ∃ c cs', cs = c :: cs' ∧ isDigit 10 c := by
  cases h with
  | @decimal ds _ hne hds =>
    obtain ⟨d, ds, rfl⟩ := List.exists_cons_of_ne_nil hne
    exact ⟨d, ds ++ rest, rfl, hds d (by simp)⟩
  | octal => exact ⟨'0', _, rfl, by decide⟩
  | hexadecimal => exact ⟨'0', _, rfl, by decide⟩

theorem scanInt_bare {c : Char} (hc : isDigit 10 c) :
    scanInt (c :: cs) = (scanNat (c :: cs)).map fun r => ((r.1 : ℤ), r.2) := by
  have hminus : c ≠ '-' := fun he => absurd (he ▸ hc) (by decide)
  have hplus : c ≠ '+' := fun he => absurd (he ▸ hc) (by decide)
  unfold scanInt
  split
  · rename_i heq
    exact absurd (List.cons.inj heq).1 hminus
  · rename_i heq
    exact absurd (List.cons.inj heq).1 hplus
  · rfl

theorem scanInt_eq_some : scanInt cs = some (k, rest) ↔ ReadsInt cs k rest := by
  constructor
  · intro h
    unfold scanInt at h
    split at h
    all_goals
      obtain ⟨⟨n, rest'⟩, hn, hk⟩ := Option.map_eq_some_iff.mp h
      cases hk
      have hreads := scanNat_eq_some.mp hn
    · exact .minus hreads
    · exact .plus hreads
    · exact .bare hreads
  · intro h
    cases h with
    | bare h =>
      obtain ⟨c, cs, rfl, hc⟩ := h.head
      rw [scanInt_bare hc, scanNat_eq_some.mpr h]
      rfl
    | plus h | minus h => simp only [scanInt, scanNat_eq_some.mpr h, Option.map_some]

/-- The decimal digits. -/
theorem isDigit_ten {c : Char} : isDigit 10 c ↔ 48 ≤ c.toNat ∧ c.toNat ≤ 57 := by
  simp only [isDigit, digitVal, decide_eq_true_eq, Char.reduceToNat]
  split
  · omega
  · split
    · omega
    · split <;> omega

theorem isSpace_eq_false {c : Char} (hc : 32 < c.toNat) : isSpace c = false := by
  have hne : c ≠ ' ' := fun he => by
    subst he
    exact absurd hc (by decide)
  simp only [isSpace, hne, decide_false, Bool.false_or, Bool.and_eq_false_iff,
    decide_eq_false_iff_not]
  omega

/-- A number does not begin with white space. -/
theorem ReadsInt.stops (h : ReadsInt cs k rest) : Stops isSpace cs := by
  cases h with
  | bare h =>
    obtain ⟨d, cs, rfl, hd⟩ := h.head
    intro c hc
    obtain rfl : d = c := by simpa using hc
    have hrange := isDigit_ten.mp hd
    exact isSpace_eq_false (by omega)
  | plus h => simp [Stops, isSpace]
  | minus h => simp [Stops, isSpace]

/-! ## Formats -/

theorem dropWhile_of_stops {l : List α} (h : Stops p l) : l.dropWhile p = l :=
  (takeWhile_eq_iff (u := []).mpr ⟨rfl, by simp, h⟩).2

/-- **What a format reads** it scans, -/
theorem Reads.scan_eq (h : Reads ds cs ns rest) : scan ds cs = ns := by
  induction h with
  | nil => rfl
  | space ws hws hstop _ ih =>
    rw [scan, List.dropWhile_append_of_pos hws, dropWhile_of_stops hstop]
    exact ih
  | char _ ih =>
    rw [scan, if_pos rfl]
    exact ih
  | int ws hws hn _ ih =>
    rw [scan, List.dropWhile_append_of_pos hws, dropWhile_of_stops hn.stops,
      scanInt_eq_some.mpr hn]
    exact congrArg _ ih

/-- The number of conversions. -/
def conversions (ds : List Directive) : ℕ := ds.count .int

theorem getLast?_of_cons {d : Directive} (hd : d ≠ .int) (h : (d :: ds).getLast? = some .int) :
    ds.getLast? = some .int ∧ 0 < conversions ds := by
  rcases ds with _ | ⟨d', ds⟩
  · exact absurd (by simpa using h) hd
  · rw [List.getLast?_cons_cons] at h
    exact ⟨h, List.count_pos_iff.mpr (List.mem_of_getLast? h)⟩

/-- and a format that ends with a conversion reads what it scans in full. -/
theorem exists_reads (hlast : ds.getLast? = some .int) (h : (scan ds cs).length = conversions ds) :
    ∃ rest, Reads ds cs (scan ds cs) rest := by
  induction ds generalizing cs with
  | nil => simp at hlast
  | cons d ds ih =>
    have hskip := takeWhile_eq_iff (l := cs) (p := isSpace).mp ⟨rfl, rfl⟩
    cases d with
    | space =>
      rw [scan] at h ⊢
      obtain ⟨rest, hreads⟩ := ih (getLast?_of_cons (by simp) hlast).1 h
      have hspace := Reads.space _ hskip.2.1 hskip.2.2 hreads
      rw [← hskip.1] at hspace
      exact ⟨rest, hspace⟩
    | char c =>
      obtain ⟨hlast', hpos⟩ := getLast?_of_cons (by simp) hlast
      have hconv : conversions (.char c :: ds) = conversions ds := by simp [conversions]
      rw [hconv] at h
      rcases cs with _ | ⟨c', cs⟩
      · rw [scan, List.length_nil] at h
        omega
      · rw [scan] at h ⊢
        split at h
        · rename_i heq
          subst heq
          obtain ⟨rest, hreads⟩ := ih hlast' h
          rw [if_pos rfl]
          exact ⟨rest, .char hreads⟩
        · rw [List.length_nil] at h
          omega
    | int =>
      have hconv : conversions (.int :: ds) = conversions ds + 1 := by simp [conversions]
      rw [hconv, scan] at h
      rw [scan]
      cases hn : scanInt (cs.dropWhile isSpace) with
      | none =>
        rw [hn, List.length_nil] at h
        omega
      | some r =>
        obtain ⟨n, cs'⟩ := r
        rw [hn, List.length_cons] at h
        have hread := scanInt_eq_some.mp hn
        have hrest : ∃ rest, Reads ds cs' (scan ds cs') rest := by
          rcases ds with _ | ⟨d, ds⟩
          · exact ⟨cs', .nil⟩
          · rw [List.getLast?_cons_cons] at hlast
            exact ih hlast (by omega)
        obtain ⟨rest, hreads⟩ := hrest
        have hint := Reads.int _ hskip.2.1 hread hreads
        rw [← hskip.1] at hint
        exact ⟨rest, hint⟩

/-- White space after the last conversion assigns nothing. -/
theorem scan_append_space : scan (ds ++ [.space]) cs = scan ds cs := by
  induction ds generalizing cs with
  | nil => rfl
  | cons d ds ih =>
    cases d with
    | space => exact ih
    | char c =>
      rcases cs with _ | ⟨c', cs⟩
      · rfl
      · rw [List.cons_append, scan, scan, ih]
    | int =>
      rw [List.cons_append, scan, scan]
      simp only [ih]

/-- **The scanner returns all the numbers** of a format exactly on the texts
it reads. -/
theorem scan_eq_iff (hlast : ds.getLast? = some .int) (hns : ns.length = conversions ds) :
    scan (ds ++ [.space]) cs = ns ↔ ∃ rest, Reads ds cs ns rest := by
  rw [scan_append_space]
  constructor
  · rintro rfl
    exact exists_reads hlast hns
  · rintro ⟨rest, h⟩
    exact h.scan_eq

/-- Every white space is one character, with something after it. -/
def single : List Char → Bool
  | [] => true
  | c :: cs => (!isSpace c || cs.head?.any (!isSpace ·)) && single cs

/-- The literal part of a format reads itself. -/
theorem Reads.literal {l : List Char} (hl : single l) (h : Reads ds cs ns rest) :
    Reads (l.map literal ++ ds) (l ++ cs) ns rest := by
  induction l with
  | nil => exact h
  | cons c l ih =>
    obtain ⟨hc, hl⟩ := Bool.and_eq_true_iff.mp hl
    rw [List.map_cons, Scanf.literal]
    split
    · rename_i hspace
      rcases l with _ | ⟨c', l⟩
      · simp [hspace] at hc
      · have hstop : Stops isSpace ((c' :: l) ++ cs) := by simpa [Stops, hspace] using hc
        exact Reads.space [c] (by simpa using hspace) hstop (ih hl)
    · exact .char (ih hl)

/-! ## Printed numbers -/

theorem number_eq (hcs : ∀ c ∈ cs, isDigit 10 c) : number 10 cs = Nat.ofDigitChars 10 cs 0 := by
  rw [number, Nat.ofDigitChars]
  refine List.foldl_ext _ _ _ fun n c hc => ?_
  have hrange := isDigit_ten.mp (hcs c hc)
  simp only [digitVal, Char.reduceToNat]
  rw [if_pos hrange]

/-- A positive number is printed without a leading zero. -/
theorem head?_toDigits (hn : 0 < n) : (Nat.toDigits 10 n).head? ≠ some '0' := by
  induction n using Nat.strongRecOn with
  | ind n ih =>
    rw [Nat.toDigits_eq_if (by omega)]
    split
    · rename_i hlt
      intro hzero
      have hchar : ∀ m < 10, Nat.digitChar m = '0' → m = 0 := by decide
      have hnzero := hchar n hlt (by simpa using hzero)
      omega
    · rw [List.head?_append_of_ne_nil _ Nat.toDigits_ne_nil]
      exact ih (n / 10) (by omega) (by omega)

/-- **A number printed in decimal** is read back, before anything that is
not a digit; a zero must not stand before an `x`. -/
theorem readsInt_toDigits (hstop : Stops (isDigit 10) rest)
    (hx : n = 0 → Stops (fun c => c = 'x' || c = 'X') rest) :
    ReadsInt (Nat.toDigits 10 n ++ rest) n rest := by
  refine .bare ?_
  rcases Nat.eq_zero_or_pos n with rfl | hn
  · have height : Stops (isDigit 8) rest := fun c hc => by
      have hten := hstop c hc
      simp only [isDigit, decide_eq_false_iff_not] at hten ⊢
      omega
    exact @ReadsNat.octal [] rest (by simp) height fun _ => hx rfl
  · have hds : ∀ c ∈ Nat.toDigits 10 n, isDigit 10 c := fun c hc => by
      have hdigit := Nat.isDigit_of_mem_toDigits (by omega) (by omega) hc
      simp only [Char.isDigit, ge_iff_le, Bool.and_eq_true, decide_eq_true_eq,
        UInt32.le_iff_toNat_le] at hdigit
      exact isDigit_ten.mpr hdigit
    have hnumber : number 10 (Nat.toDigits 10 n) = n := by
      rw [number_eq hds, Nat.ofDigitChars_ten_toDigits]
    have hreads := ReadsNat.decimal Nat.toDigits_ne_nil hds (head?_toDigits hn) hstop
    rwa [hnumber] at hreads

end Scanf
