import AdaptiveMsi.Protocol.WriteBacks
/-!
# The data behind a directory

A directory is kept for the sake of the data: the memory's, and the copies
of the processors. Data moves when a copy is written back, when a miss
fills a copy from the memory, and when a store writes the copies it
leaves. `Current` is what a directory promises of them: every copy it
knows of is up to date, and so is the memory unless the line is modified.
-/

namespace AdaptiveMsi

namespace Protocol

variable {P A V ρ : Type*} [DecidableEq P] [DecidableEq A]

/-- The memory, and the copies of the processors. -/
@[ext]
structure Values (P A V : Type*) where
  memory : A → V
  copy : P → A → V

namespace Values

/-- A processor writes its copy back. -/
def back (s : Values P A V) (y : P × A) : Values P A V :=
  { s with memory := Function.update s.memory y.2 (s.copy y.1 y.2) }

/-- A copy is filled from the memory. -/
def fill (s : Values P A V) (p : P) (a : A) : Values P A V :=
  { s with copy := Function.update s.copy p (Function.update (s.copy p) a (s.memory a)) }

/-- The copies of the processors in `S` are written. -/
def write (s : Values P A V) (S : P → Prop) [DecidablePred S] (a : A) (v : V) : Values P A V :=
  { s with copy := fun p => if S p then Function.update (s.copy p) a v else s.copy p }

variable {s : Values P A V} {S : P → Prop} [DecidablePred S] {y : P × A} {p q : P} {a b : A} {v : V}

omit [DecidableEq P] in
@[simp] theorem back_copy : (s.back y).copy = s.copy := rfl

omit [DecidableEq P] in
@[simp] theorem back_memory_self : (s.back (p, a)).memory a = s.copy p a := Function.update_self ..

omit [DecidableEq P] in
theorem back_memory_of_ne (h : b ≠ a) : (s.back (p, a)).memory b = s.memory b :=
  Function.update_of_ne h ..

@[simp] theorem fill_memory : (s.fill p a).memory = s.memory := rfl

@[simp] theorem fill_copy_self : (s.fill p a).copy p a = s.memory a := by
  simp [fill]

theorem fill_copy_of_ne (h : q ≠ p ∨ b ≠ a) : (s.fill p a).copy q b = s.copy q b := by
  rcases eq_or_ne q p with rfl | hq
  · have hb : b ≠ a := h.resolve_left fun hne => hne rfl
    simp [fill, hb]
  · simp [fill, hq]

omit [DecidableEq P] in
@[simp] theorem write_memory : (s.write S a v).memory = s.memory := rfl

omit [DecidableEq P] in
theorem write_copy_self (h : S p) : (s.write S a v).copy p a = v := by
  simp [write, h]

omit [DecidableEq P] in
theorem write_copy_of_ne (h : b ≠ a) : (s.write S a v).copy p b = s.copy p b := by
  simp only [write]
  split
  · exact Function.update_of_ne h ..
  · rfl

end Values

open Values

/-- **What the directory promises of the data**: `latest` is what was
stored last. -/
structure Current (latest : A → V) (D : A → Entry P ρ) (s : Values P A V) : Prop where
  memory : ∀ a, (D a).state ≠ .modified → s.memory a = latest a
  copy : ∀ p a, p ∈ (D a).sharers → s.copy p a = latest a

variable {R : Rules P ρ} {D : A → Entry P ρ} {last : A → Option P} {latest : A → V}
variable {s : Values P A V} {xs : List (Event P A)} {p w : P} {a : A} {v : V}

/-- **One eviction**: the owner's copy is current, and goes to the memory. -/
theorem Current.evict (h : Current latest D s) (hinv : Inv R last D) :
    Current latest ((Event.evict p a).apply R D)
      (((Event.evict p a).writeBack? R D).toList.foldl back s) := by
  have hself : (Event.evict p a).apply R D a = (D a).evict R p := Event.apply_self
  have hoff : ∀ b ≠ a, (Event.evict p a).apply R D b = D b := fun b hb => Event.apply_of_ne hb
  have hcopy : ∀ q b, q ∈ ((Event.evict p a).apply R D b).sharers → s.copy q b = latest b := by
    intro q b hq
    rcases eq_or_ne b a with rfl | hb
    · rw [hself] at hq
      exact h.copy q b (Finset.mem_of_mem_erase hq)
    · rw [hoff b hb] at hq
      exact h.copy q b hq
  by_cases ho : (D a).Owns R p
  · rw [Event.writeBack?, if_pos ho]
    refine ⟨fun b hb => ?_, hcopy⟩
    change (s.back (p, a)).memory b = latest b
    rcases eq_or_ne b a with rfl | hne
    · rw [back_memory_self]
      exact h.copy p b ho.1
    · rw [back_memory_of_ne hne]
      exact h.memory b (hoff b hne ▸ hb)
  · rw [Event.writeBack?, if_neg ho]
    refine ⟨fun b hb => ?_, hcopy⟩
    rcases eq_or_ne b a with rfl | hne
    · -- the line was not modified before either, or its owner still has it
      rw [hself] at hb
      exact h.memory b fun hmod => hb ((hinv b).evict_state.mpr ⟨hmod, ho⟩)
    · exact h.memory b (hoff b hne ▸ hb)

/-- **Evictions**, with their write-backs. -/
theorem Current.evicts (h : Current latest D s) (hinv : Inv R last D)
    (hxs : ∀ x ∈ xs, x.proc ∈ R.procs ∧ ∃ b, x = .evict x.proc b) :
    Current latest (xs.foldl (Event.apply R) D) ((writeBacks R D xs).foldl back s) := by
  induction xs generalizing D s last with
  | nil => exact h
  | cons x xs ih =>
    obtain ⟨hproc, b, hx⟩ := hxs x List.mem_cons_self
    have hone : Current latest (x.apply R D) ((x.writeBack? R D).toList.foldl back s) := by
      rw [hx]
      exact h.evict hinv
    rw [writeBacks_cons, List.foldl_append, List.foldl_cons]
    exact ih hone (hinv.apply hproc) fun y hy => hxs y (List.mem_cons_of_mem x hy)

/-- A read that hits. -/
theorem Current.read_of_mem (h : Current latest D s) (hp : p ∈ (D a).sharers) :
    Current latest ((Event.read p a).apply R D) s := by
  have hsame : (Event.read p a).apply R D = D := by
    funext b
    rcases eq_or_ne b a with rfl | hne
    · have hself : (Event.read p b).apply R D b = (D b).read R p := Event.apply_self
      rw [hself, Entry.read, if_pos hp]
    · exact Event.apply_of_ne hne
  rw [hsame]
  exact h

/-- **A read that misses**: it is filled from a memory that is current. -/
theorem Current.read_of_not_mem (h : Current latest D s) (hmem : s.memory a = latest a) :
    Current latest ((Event.read p a).apply R D) (s.fill p a) := by
  have hself : (Event.read p a).apply R D a = (D a).read R p := Event.apply_self
  have hoff : ∀ b ≠ a, (Event.read p a).apply R D b = D b := fun b hb => Event.apply_of_ne hb
  refine ⟨fun b hb => ?_, fun q b hq => ?_⟩
  · rw [fill_memory]
    rcases eq_or_ne b a with rfl | hne
    · exact hmem
    · exact h.memory b (hoff b hne ▸ hb)
  · rcases eq_or_ne b a with rfl | hne
    · rcases eq_or_ne q p with rfl | hqp
      · rw [fill_copy_self]
        exact hmem
      · rw [fill_copy_of_ne (Or.inl hqp)]
        rw [hself] at hq
        exact h.copy q b (((Entry.mem_sharers_read R).mp hq).resolve_left hqp)
    · rw [fill_copy_of_ne (Or.inr hne)]
      rw [hoff b hne] at hq
      exact h.copy q b hq

omit [DecidableEq P] in
/-- The owner's write-back makes the memory current. -/
theorem Current.back (h : Current latest D s) (hw : w ∈ (D a).sharers) :
    Current latest D (s.back (w, a)) ∧ (s.back (w, a)).memory a = latest a := by
  have hmem : (s.back (w, a)).memory a = latest a := by
    rw [back_memory_self]
    exact h.copy w a hw
  refine ⟨⟨fun b hb => ?_, h.copy⟩, hmem⟩
  rcases eq_or_ne b a with rfl | hne
  · exact hmem
  · rw [back_memory_of_ne hne]
    exact h.memory b hb

/-- **A store** writes its own copy and those it pushes to, and the others
are gone; what the memory holds there no longer counts. -/
theorem Current.store {s' : Values P A V} {S : P → Prop} [DecidablePred S] (h : Current latest D s)
    (hmem : ∀ b ≠ a, s'.memory b = s.memory b) (hcopy : s'.copy = s.copy)
    (hS : ∀ i, i = p ∨ (D a).Pushes R p i → S i) :
    Current (Function.update latest a v) ((Event.store p a).apply R D) (s'.write S a v) := by
  have hself : (Event.store p a).apply R D a = (D a).store R p := Event.apply_self
  have hoff : ∀ b ≠ a, (Event.store p a).apply R D b = D b := fun b hb => Event.apply_of_ne hb
  refine ⟨fun b hb => ?_, fun q b hq => ?_⟩
  · rcases eq_or_ne b a with rfl | hne
    · rw [hself, Entry.store_state] at hb
      exact absurd rfl hb
    · rw [write_memory, Function.update_of_ne hne, hmem b hne]
      exact h.memory b (hoff b hne ▸ hb)
  · rcases eq_or_ne b a with rfl | hne
    · rw [hself] at hq
      rw [write_copy_self (hS q ((Entry.mem_sharers_store R).mp hq)), Function.update_self]
    · rw [write_copy_of_ne hne, Function.update_of_ne hne, hcopy]
      rw [hoff b hne] at hq
      exact h.copy q b hq

end Protocol

end AdaptiveMsi
