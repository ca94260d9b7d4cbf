import AdaptiveMsi.Properties.Directory
/-!
# No stale hits

A load hits by its processor's sharer bit. The bit of a processor other
than the writer survives a store only where the store pushes to it, and
between stores it is set by the processor's own accesses alone, so the
processor got the data at or after the last foreign store.
-/

namespace AdaptiveMsi

open Machine Protocol

variable {cfg : Config} {detector : Bool} {u v : List Access} {p q : ℕ} {a : Addr}
variable {c c₀ : Controller} {rs : List Report} {r : Report}

/-- After a store by another processor a copy was fetched or pushed. -/
theorem fetched_or_pushed (hv : cfg.Valid (u ++ ⟨.store, q, a⟩ :: v)) (hpq : q ≠ p)
    (hlast : ∀ x ∈ v, x.kind = .store → x.addr = a → x.pid = p)
    (hrun : cfg.run detector (u ++ ⟨.store, q, a⟩ :: v) = .ok (c, rs))
    (hmem : p ∈ (c.coherence.entries a).sharers) :
    (∃ x ∈ v, x.pid = p ∧ x.addr = a) ∨
      ∃ r ∈ rs.drop u.length, r.access = ⟨.store, q, a⟩ ∧ .push p a ∈ r.calls := by
  rw [← List.singleton_append, ← List.append_assoc] at hrun hv
  obtain ⟨c₁, rs₁, rs₂, hrun₁, hrun₂, rfl⟩ := run_append_eq_ok.mp hrun
  have hv₁ : cfg.Valid (u ++ [⟨.store, q, a⟩]) := fun x hx => hv x (List.mem_append_left _ hx)
  have hv₂ : cfg.Valid v := fun x hx => hv x (List.mem_append_right _ hx)
  obtain ⟨c₀, rs₀, r₀, pre, post, hrun₀, rfl, htracks, hstored⟩ := run_then hv₁ hrun₁
  have hlen : rs₀.length = u.length := length_of_run hrun₀
  -- the store leaves a copy of `p` only where it pushes
  have hfirst : p ∈ (c₁.coherence.entries a).sharers → .push p a ∈ r₀.calls := by
    intro hp
    rw [hstored.entries_self] at hp
    rcases (Entry.mem_sharers_store _).mp hp with he | hpush
    · exact absurd he.symm hpq
    · exact hstored.pushes rfl p hpush
  have hall := (run_induction (hstored.tracks htracks (hv₁ _ (by simp))) hv₂ hrun₂
    (I := fun w _ m => p ∈ (m.entries a).sharers →
      (∃ x ∈ w, x.pid = p ∧ x.addr = a) ∨ .push p a ∈ r₀.calls)
    (fun hp => Or.inr (hfirst hp)) ?_).2 hmem
  · rcases hall with hx | hpush
    · exact Or.inl hx
    · refine Or.inr ⟨r₀, ?_, hstored.access, hpush⟩
      rw [List.append_assoc, ← hlen, List.drop_left]
      simp
  · intro w x w' _ m pre post m' r hw _ hstepped ih hp
    have hxv : x ∈ v := by simp [hw]
    -- the copy was there, was fetched, or came with a later store, by `p` itself
    rcases hstepped.mem_sharers hp with hp | ⟨hxa, hxp | ⟨hk, -⟩⟩
    · exact (ih hp).imp_left fun ⟨y, hy, h⟩ => ⟨y, List.mem_append_left _ hy, h⟩
    · exact Or.inl ⟨x, by simp, hxp, hxa⟩
    · exact Or.inl ⟨x, by simp, hlast x hxv hk hxa, hxa⟩

/-- **No stale hits.** In both protocols a load that hits after another
processor's store, the last store by a processor other than its own,
reads data its processor loaded or stored since, or that was pushed to
it. -/
theorem load_hit_fresh (hv : cfg.Valid (u ++ ⟨.store, q, a⟩ :: v ++ [⟨.load, p, a⟩]))
    (hpq : q ≠ p) (hlast : ∀ x ∈ v, x.kind = .store → x.addr = a → x.pid = p)
    (hrun : cfg.run detector (u ++ ⟨.store, q, a⟩ :: v ++ [⟨.load, p, a⟩]) = .ok (c, rs ++ [r]))
    (hhit : r.response = .cacheHit) :
    (∃ x ∈ v, x.pid = p ∧ x.addr = a) ∨
      ∃ r' ∈ rs.drop u.length, r'.access.kind = .store ∧ r'.access.addr = a ∧
        .push p a ∈ r'.calls := by
  obtain ⟨c₀, rs₀, r₀, pre, post, hrun₀, hrs, -, hstepped⟩ := run_then hv hrun
  obtain ⟨rfl, hr⟩ := List.append_inj' hrs rfl
  cases hr
  refine (fetched_or_pushed (fun x hx => hv x (List.mem_append_left _ hx)) hpq hlast hrun₀
    (hstepped.mem_sharers_of_hit rfl hhit)).imp_right ?_
  rintro ⟨r', hr', haccess, hpush⟩
  exact ⟨r', hr', by rw [haccess], by rw [haccess], hpush⟩

/-- A consumer with two misses is pushed to, and hits. -/
theorem load_hit_fresh_pair :
    ∃ c rs r, Config.pair.run true [⟨.store, 0, 4⟩, ⟨.load, 1, 4⟩, ⟨.store, 0, 4⟩, ⟨.load, 1, 4⟩,
        ⟨.store, 0, 4⟩, ⟨.load, 1, 4⟩] = .ok (c, rs ++ [r]) ∧ r.response = .cacheHit ∧
      ((∃ x ∈ ([] : List Access), x.pid = 1 ∧ x.addr = 4) ∨
        ∃ r' ∈ rs.drop 4, r'.access.kind = .store ∧ r'.access.addr = 4 ∧ .push 1 4 ∈ r'.calls) := by
  obtain ⟨c, rs, r, hrun, hhit⟩ := exists_of_responses
    (show Config.pair.responses true [⟨.store, 0, 4⟩, ⟨.load, 1, 4⟩, ⟨.store, 0, 4⟩, ⟨.load, 1, 4⟩,
        ⟨.store, 0, 4⟩, ⟨.load, 1, 4⟩] =
      .ok ([.cacheMiss, .cacheMiss, .cacheHit, .cacheMiss, .cacheHit] ++ [.cacheHit]) from rfl)
  exact ⟨c, rs, r, hrun, hhit, load_hit_fresh (v := [])
    (u := [⟨.store, 0, 4⟩, ⟨.load, 1, 4⟩, ⟨.store, 0, 4⟩, ⟨.load, 1, 4⟩])
    (by decide) (by decide) (by simp) hrun hhit⟩

end AdaptiveMsi
