import AdaptiveMsi.Model.ConfigFile
import AdaptiveMsi.Properties.Directory
/-!
# What the configuration file says

The file is accepted exactly if it spells four numbers in the format, and
a configuration written in the format is the one the simulator starts
from.
-/

namespace AdaptiveMsi

open Scanf

/-- The format without its last line break, which reads anything. -/
def l1Directives : List Directive :=
  "L1 Data Cache: #Processors=".toList.map literal ++ .int :: (" #Sets=".toList.map literal ++
    .int :: (" Associativity=".toList.map literal ++
      .int :: (" LineSize=".toList.map literal ++ [.int])))

theorem directives_l1Format : directives l1Format = l1Directives ++ [.space] := by decide

variable {config rest : List Char} {c : CacheConfig}

/-- An `INT32` is stored as it is. -/
theorem int32_toInt (n : Int32) : int32 n.toInt = n := by
  have hlow := n.le_toInt
  have hhigh := n.toInt_lt
  have hsame : max (-2 ^ 63) (min n.toInt (2 ^ 63 - 1)) = n.toInt := by omega
  rw [int32, hsame, Int32.ofInt_toInt]

theorem map_int32_numbers : c.numbers.map int32 = c.fields := by
  rw [CacheConfig.numbers, List.map_map]
  exact (List.map_congr_left fun n _ => int32_toInt n).trans (List.map_id _)

/-- A file is accepted if the scanner finds the numbers. -/
theorem initConfiguration_eq_ok : initConfiguration config = .ok c ↔
    c.fields = (scan (directives l1Format) config).map int32 := by
  unfold initConfiguration
  constructor
  · intro h
    split at h
    · rename_i hscan
      rw [hscan, ← Except.ok.inj h]
      rfl
    · cases h
  · intro h
    have hlength : (scan (directives l1Format) config).length = 4 := by
      rw [← List.length_map (f := int32), ← h]
      rfl
    obtain ⟨n₁, n₂, n₃, n₄, hscan⟩ := List.length_eq_four.mp hlength
    rw [hscan] at h ⊢
    obtain ⟨numSets, setSize, lineSize, totalProcessors⟩ := c
    simp only [CacheConfig.fields, List.map_cons, List.map_nil, List.cons.injEq, and_true] at h
    obtain ⟨rfl, rfl, rfl, rfl⟩ := h
    rfl

theorem initConfiguration_eq_ok_iff : initConfiguration config = .ok c ↔
    ∃ ns rest, Reads l1Directives config ns rest ∧ c.fields = ns.map int32 := by
  have hlast : l1Directives.getLast? = some .int := by decide
  have hscan : ∀ ns : List ℤ, ns.length = 4 →
      (scan (directives l1Format) config = ns ↔ ∃ rest, Reads l1Directives config ns rest) := by
    intro ns hns
    rw [directives_l1Format]
    exact scan_eq_iff hlast hns
  rw [initConfiguration_eq_ok]
  constructor
  · intro h
    have hlength := congrArg List.length h
    rw [List.length_map] at hlength
    obtain ⟨rest, hreads⟩ := (hscan _ hlength.symm).mp rfl
    exact ⟨_, rest, hreads, h⟩
  · rintro ⟨ns, rest, hreads, h⟩
    have hlength := congrArg List.length h
    rw [List.length_map] at hlength
    rw [(hscan ns hlength.symm).mpr ⟨rest, hreads⟩, h]

/-- **The configuration file.** A text is accepted if and only if the format
reads it as four numbers, in decimal, octal or hexadecimal, with white
space where the format or a number may have it, and each field is what
`%i` stores for its number: an `INT32` is stored as it is, of another
number the low half of the `64` bits that `strtol` keeps to. Any other
text ends the program with the message of `perror`. -/
theorem initConfiguration_spec (config : List Char) :
    (∀ c : CacheConfig, initConfiguration config = .ok c ↔
      ∃ ns rest, Reads l1Directives config ns rest ∧ c.fields = ns.map int32) ∧
    (∀ (c : CacheConfig) (rest : List Char), Reads l1Directives config c.numbers rest →
      initConfiguration config = .ok c) ∧
    ((∀ (ns : List ℤ) (rest : List Char), ¬ Reads l1Directives config ns rest) →
      initConfiguration config = .error "fscanf: cannot access config param for L1 cache") := by
  refine ⟨fun c => initConfiguration_eq_ok_iff, fun c rest hreads => ?_, fun hnone => ?_⟩
  · exact initConfiguration_eq_ok_iff.mpr ⟨_, rest, hreads, map_int32_numbers.symm⟩
  · cases h : initConfiguration config with
    | ok c =>
      obtain ⟨ns, rest, hreads, -⟩ := initConfiguration_eq_ok_iff.mp h
      exact absurd hreads (hnone ns rest)
    | error message =>
      unfold initConfiguration at h
      split at h
      · cases h
      · exact h.symm

/-- Numbers in all three bases, the first of them no `INT32`: the file is
accepted, with two processors. -/
theorem initConfiguration_spec_wrapped :
    let config := "L1 Data Cache: #Processors=4294967298 #Sets=010 Associativity=+1 LineSize= 0x2\n"
    initConfiguration config.toList = .ok ⟨8, 1, 2, 2⟩ ∧
      ∃ ns rest, Reads l1Directives config.toList ns rest ∧ [2, 8, 1, 2] = ns.map int32 := by
  intro config
  have hok : initConfiguration config.toList = .ok ⟨8, 1, 2, 2⟩ := by decide
  exact ⟨hok, ((initConfiguration_spec config.toList).1 ⟨8, 1, 2, 2⟩).mp hok⟩

namespace Config

variable {cfg : Config}

/-- A configuration written in the format, in front of `rest`. -/
def text (cfg : Config) (rest : List Char) : List Char :=
  "L1 Data Cache: #Processors=".toList ++ (Nat.toDigits 10 cfg.numProcessors ++
    (" #Sets=".toList ++ (Nat.toDigits 10 cfg.numSets ++
      (" Associativity=".toList ++ (Nat.toDigits 10 cfg.associativity ++
        (" LineSize=".toList ++ (Nat.toDigits 10 cfg.lineSize ++ rest)))))))

/-- The sizes as the file has them. -/
def cacheConfig (cfg : Config) : CacheConfig where
  numSets := .ofNat cfg.numSets
  setSize := .ofNat cfg.associativity
  lineSize := .ofNat cfg.lineSize
  totalProcessors := .ofNat cfg.numProcessors

theorem uint32_ofNat {n : ℕ} (h : n < 2 ^ 32) : uint32 (.ofNat n) = n := by
  rw [uint32, Int32.toUInt32_ofNat', UInt32.toNat_ofNat']
  omega

theorem toInt_ofNat {n : ℕ} (h : n < 2 ^ 31) : (Int32.ofNat n).toInt = n := by
  rw [← Int32.ofInt_eq_ofNat, Int32.toInt_ofInt_of_le (by omega) (by omega)]

/-- The sizes, as `uint32_t`s, are the configuration's. -/
theorem processAttach_cacheConfig (hsets : cfg.numSets < 2 ^ 31) (hline : cfg.lineSize < 2 ^ 31)
    (hways : cfg.associativity < 2 ^ 31) :
    cfg.cacheConfig.processAttach = .attach cfg.numProcessors (cfg.start false) := by
  have hle := cfg.numProcessors_le
  rw [CacheConfig.processAttach, cacheConfig, uint32_ofNat (by omega), uint32_ofNat (by omega),
    uint32_ofNat (by omega), uint32_ofNat (by omega)]
  rfl

end Config

/-- The next word of the format ends a number. -/
theorem stops_word {p : Char → Bool} {cs : List Char} (hcs : cs.head? = some ' ')
    (hp : p ' ' = false) : Stops p cs := by
  intro c hc
  rw [hcs] at hc
  obtain rfl := Option.mem_some_iff.mp hc
  exact hp

/-- A number between two words of the format. -/
theorem reads_int {ds : List Directive} {cs : List Char} {ns : List ℤ} {n : ℕ}
    (hn : n < 2 ^ 31) (hstop : Stops (isDigit 10) cs)
    (hx : n = 0 → Stops (fun c => c = 'x' || c = 'X') cs) (h : Reads ds cs ns rest) :
    Reads (.int :: ds) (Nat.toDigits 10 n ++ cs) ((Int32.ofNat n).toInt :: ns) rest := by
  rw [Config.toInt_ofNat hn]
  exact Reads.int [] (by simp) (readsInt_toDigits hstop hx) h

/-- **A configuration is read back.** Written in the format, with anything
after it that does not go on with its last number, it is accepted, and
`process_attach` starts the simulator of exactly this configuration, with
its detector off. -/
theorem config_round_trip (cfg : Config) (hsets : cfg.numSets < 2 ^ 31)
    (hline : cfg.lineSize < 2 ^ 31) (hways : cfg.associativity < 2 ^ 31)
    (hstop : Stops (isDigit 10) rest) :
    initConfiguration (cfg.text rest) = .ok cfg.cacheConfig ∧
      cfg.cacheConfig.processAttach = .attach cfg.numProcessors (cfg.start false) := by
  have hprocessors := cfg.numProcessors_le
  have hpos := cfg.lineSize_pos
  refine ⟨initConfiguration_eq_ok_iff.mpr ⟨cfg.cacheConfig.numbers, rest, ?_,
    map_int32_numbers.symm⟩, Config.processAttach_cacheConfig hsets hline hways⟩
  unfold l1Directives Config.text CacheConfig.numbers CacheConfig.fields Config.cacheConfig
  refine Reads.literal (by decide) (reads_int (by omega) (stops_word rfl (by decide))
    (fun _ => stops_word rfl (by decide)) ?_)
  refine Reads.literal (by decide) (reads_int hsets (stops_word rfl (by decide))
    (fun _ => stops_word rfl (by decide)) ?_)
  refine Reads.literal (by decide) (reads_int hways (stops_word rfl (by decide))
    (fun _ => stops_word rfl (by decide)) ?_)
  exact Reads.literal (by decide)
    (reads_int hline hstop (fun hzero => absurd hzero (by omega)) .nil)

/-- A file with one line. -/
theorem config_round_trip_pair :
    initConfiguration (Config.pair.text ['\n']) = .ok Config.pair.cacheConfig ∧
      Config.pair.cacheConfig.processAttach = .attach 2 (Config.pair.start false) :=
  config_round_trip .pair (by decide) (by decide) (by decide) (by simp [Stops]; decide)

end AdaptiveMsi
