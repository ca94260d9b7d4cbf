import AdaptiveMsi.Cache.Represent
import AdaptiveMsi.Controller.Requests
import AdaptiveMsi.Properties.Directory
/-!
# The caches represent their lines

A lookup stops at the first equal tag, and an empty way carries a tag
like any other, so the sets are maps only as long as no tag is held twice
and none is the empty way's. Every line fetch keeps that: the access's
own, the second one of an evicted last writer, and the pushes into other
caches.
-/

namespace AdaptiveMsi

open Machine

namespace Controller

variable {cfg : Config} {c c' : Controller} {q : Request} {qs : List Request} {x : Access}
variable {r : Report} {t : List Access} {detector : Bool}

/-- What one request leaves. -/
theorem Represents.fetch (hgeo : 2 ≤ cfg.numSets * cfg.lineSize) (h : Represents cfg c)
    (hfetch : c.fetchCacheLine q.pid q.addr q.replace = .ok c') :
    Represents cfg c' ∧ (c'.cache q.pid (cfg.index q.addr)).Holds (cfg.tag q.addr) ∧
      ∀ p ≠ q.pid, c'.cache p = c.cache p := by
  obtain ⟨res, hr, rfl⟩ := (h.ensures_fetched hgeo).of_ok hfetch
  refine ⟨h.putSet hr, ?_, fun p hp => ?_⟩
  · rw [cache_putSet, if_pos ⟨rfl, rfl⟩]
    exact (hr.holds (h.sets q.pid (cfg.index q.addr)).clean.tidy).2.1
  · funext i
    rw [cache_putSet, if_neg fun h => hp h.1]

/-- **An access keeps the invariant**, and leaves its line in its
processor's set: the later requests are for this line again, or for
other processors. -/
theorem Represents.step (hgeo : 2 ≤ cfg.numSets * cfg.lineSize) (h : Represents cfg c)
    (ht : Tracks cfg.numProcessors detector t c.coherence) (hx : x.pid < cfg.numProcessors)
    (hstep : c.step x = .ok (c', r)) :
    Represents cfg c' ∧ (c'.cache x.pid (cfg.index x.addr)).Holds (cfg.tag x.addr) := by
  obtain ⟨-, qs, hserves, hasked⟩ := exists_serves cfg.numProcessors_le ht hx hstep
  have hall := hserves.induction (P := fun us d => Represents cfg d ∧
    (us ≠ [] → (d.cache x.pid (cfg.index x.addr)).Holds (cfg.tag x.addr)))
    ⟨h.congr ⟨rfl, rfl, rfl⟩, fun hne => absurd rfl hne⟩ ?_ ?_
  · exact ⟨hall.1, hall.2 (List.cons_ne_nil _ _)⟩
  · rintro us d d' hrests ⟨hd, hholds⟩
    refine ⟨hd.congr hrests.same, fun hne => ?_⟩
    rw [hrests.same.cache]
    exact hholds hne
  · rintro us q vs d d' hqs hfetch ⟨hd, hholds⟩
    obtain ⟨hd', hheld, hothers⟩ := hd.fetch hgeo hfetch
    refine ⟨hd', fun _ => ?_⟩
    cases us with
    | nil =>
      obtain ⟨rfl, -⟩ := List.cons.inj hqs
      exact hheld
    | cons q₀ us =>
      have hq : q ∈ qs := by
        rw [(List.cons.inj hqs).2]
        simp
      rcases eq_or_ne q.pid x.pid with hpid | hpid
      · rw [← hpid, ← hasked.addr q hq]
        exact hheld
      · rw [hothers x.pid hpid.symm]
        exact hholds (List.cons_ne_nil _ _)

/-- **The invariant along a run**, and where the last access left its
line. -/
theorem represents_of_run {rs : List Report} (hgeo : 2 ≤ cfg.numSets * cfg.lineSize)
    (hv : cfg.Valid t) (hrun : cfg.run detector t = .ok (c, rs)) :
    Represents cfg c ∧ ∀ x, t.getLast? = some x →
      (c.cache x.pid (cfg.index x.addr)).Holds (cfg.tag x.addr) := by
  refine Config.induction_of_run (I := fun u _ c => Represents cfg c ∧
    ∀ x, u.getLast? = some x → (c.cache x.pid (cfg.index x.addr)).Holds (cfg.tag x.addr)) hv hrun
    ⟨represents_start, by simp⟩ ?_
  rintro u x v bs c c' r - hx - ht ⟨hc, -⟩ hstep
  obtain ⟨hc', hholds⟩ := hc.step hgeo ht hx hstep
  refine ⟨hc', fun y hy => ?_⟩
  rw [List.getLast?_concat, Option.some.injEq] at hy
  exact hy ▸ hholds

end Controller

/-- **The representation invariant of the caches**, along every run of
either mode. Only the replacement counter's assertion can fail; in every
set the lines in use have different tags, each the tag of its address and
in the set of its address, an empty way is as constructed, and the
processor of the last access holds its line once. -/
theorem cache_representation (cfg : Config) (detector : Bool)
    (hgeo : 2 ≤ cfg.numSets * cfg.lineSize) (t : List Access) (hv : cfg.Valid t) :
    (∀ e, cfg.run detector t = .error e → e = .lru) ∧
    ∀ c reports, cfg.run detector t = .ok (c, reports) →
      (∀ p s,
        (c.cache p s).lines.Pairwise
          (fun l l' => l.status = .cached → l'.status = .cached → l.tag ≠ l'.tag) ∧
        (∀ l ∈ (c.cache p s).lines, l.status = .cached →
          l.tag = c.getTag l.addr ∧ c.getSetIndex l.addr = s) ∧
        ∀ l ∈ (c.cache p s).lines, l.status = .uncached → l.tag = allOnes ∧ l.lru = 0) ∧
      ∀ x, t.getLast? = some x → (c.cache x.pid (c.getSetIndex x.addr)).lines.countP
        (fun l => l.tag = c.getTag x.addr ∧ l.status = .cached) = 1 := by
  have hrun : Ensures (· = .lru) _ (cfg.run detector t) := ensures_tracks hv
  refine ⟨fun e he => hrun.of_error he, fun c reports hok => ?_⟩
  obtain ⟨hc, hlast⟩ := Controller.represents_of_run hgeo hv hok
  simp only [hc.shaped.getTag, hc.shaped.getSetIndex]
  refine ⟨fun p s => ⟨(hc.sets p s).distinct, (hc.sets p s).cached,
    (hc.sets p s).clean.uncached⟩, ?_⟩
  intro x hx
  exact (hc.sets x.pid (cfg.index x.addr)).countP_eq_one (hlast x hx)

/-- A consumer's line is displaced, pushed back and fetched by another. -/
theorem cache_representation_pair :
    let t : List Access := [⟨.store, 0, 4⟩, ⟨.load, 1, 4⟩, ⟨.load, 1, 6⟩, ⟨.load, 1, 4⟩,
      ⟨.store, 0, 4⟩]
    (∀ e, Config.pair.run true t = .error e → e = .lru) ∧
    ∀ c reports, Config.pair.run true t = .ok (c, reports) →
      (∀ p s,
        (c.cache p s).lines.Pairwise
          (fun l l' => l.status = .cached → l'.status = .cached → l.tag ≠ l'.tag) ∧
        (∀ l ∈ (c.cache p s).lines, l.status = .cached →
          l.tag = c.getTag l.addr ∧ c.getSetIndex l.addr = s) ∧
        ∀ l ∈ (c.cache p s).lines, l.status = .uncached → l.tag = allOnes ∧ l.lru = 0) ∧
      ∀ x, t.getLast? = some x → (c.cache x.pid (c.getSetIndex x.addr)).lines.countP
        (fun l => l.tag = c.getTag x.addr ∧ l.status = .cached) = 1 :=
  cache_representation .pair true (by decide) _ (by decide)

end AdaptiveMsi
