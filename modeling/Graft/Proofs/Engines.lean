import Graft.Proofs.Caching
import Graft.Proofs.LockstepCalls

/-!
# Engines with and without a cache

Two engines go through the same operations; the second one keeps nothing. Names are bound to twins in
them, and everything that the first one keeps was made by a specialization that the second one makes
whenever it is asked for. So what they give is alike, except for numbers.
-/

namespace Graft

open Correspondence (keeping)

/-! ## Two engines -/

/-- The worlds of two engines, the second of which keeps nothing. Names are bound to twins, calls may
be nested equally deep, and what the first one keeps was made in a world before. -/
structure Engine (ρ : Renumbering) (streams : List KeyStream) (L : Ledger) (w w' : World) :
    Prop where
  twin : w.Twin ρ w.outset w'
  limit : ∀ {i i'}, ρ.homes i i' →
    Option.Rel (fun ns ns' : Namespace => ns.maxRecursion = ns'.maxRecursion)
      (w.namespace? i) (w'.namespace? i')
  maxRecursion : w.settings.maxRecursion = w'.settings.maxRecursion
  uncached : w'.settings.cache = false
  books : L.Books w
  kept : ∀ entry ∈ w.cache.entries, L.artifacts entry.2 ∧
    ∃ m : Making, m.Of streams L w entry

namespace World.Twin

variable {ρ : Renumbering} {o : Outset} {w w' : World}

theorem reset (h : w.Twin ρ o w') : w.Twin ρ w.outset w' :=
  ⟨h.live, h.lookup, h.taken, h.placed, h.strict, Nat.le_refl _, rfl⟩

/-- Another first world with the same namespaces, in which the numbers taken in `w` are taken. -/
theorem left {t v v' : World} {o' : Outset} (h : t.Twin ρ o v') (hsame : t.Same v)
    (hw : w.Twin ρ o' w') (hle : w.nextId ≤ v.nextId) : v.Twin ρ v.outset v' where
  live hi := by
    rw [← hsame.spaces]
    exact h.live hi
  lookup hi name := by
    rw [← hsame.lookup]
    exact h.lookup hi name
  taken hm := ⟨Nat.lt_of_lt_of_le (hw.taken hm).1 hle, (h.taken hm).2⟩
  placed hi := ⟨Nat.lt_of_lt_of_le (hw.placed hi).1 hle, (h.placed hi).2⟩
  strict := by
    rw [← hsame.settings]
    exact h.strict
  least := Nat.le_refl _
  cache := rfl

end World.Twin

namespace Engine

variable {ρ : Renumbering} {streams : List KeyStream} {L M : Ledger} {v v' w w' : World}

/-- Engines in which nothing but numbers was taken meanwhile, and nothing more is kept. -/
theorem next (h : Engine ρ streams L w w') (hv : w.Same v) (hv' : w'.Same v')
    (hle : w.nextId ≤ v.nextId) (twin : v.Twin ρ v.outset v')
    (hentries : v.cache.entries ⊆ w.cache.entries) : Engine ρ streams L v v' where
  twin := twin
  limit hi := by
    rw [← hv.spaces, ← hv'.spaces]
    exact h.limit hi
  maxRecursion := by
    rw [← hv.settings, ← hv'.settings]
    exact h.maxRecursion
  uncached := by
    rw [← hv'.settings]
    exact h.uncached
  books := h.books.of_same hv hle
  kept entry he := by
    obtain ⟨ha, m, hm⟩ := h.kept entry (hentries he)
    exact ⟨ha, m, hm.mono (Ledger.le_refl L) (.of_same h.books.namespaces hv hle)⟩

/-- Engines with more in the ledger. -/
theorem withLedger (h : Engine ρ streams L w w') (hle : L ≤ M) (books : M.Books w) :
    Engine ρ streams M w w' where
  twin := h.twin
  limit := h.limit
  maxRecursion := h.maxRecursion
  uncached := h.uncached
  books := books
  kept entry he := by
    obtain ⟨ha, m, hm⟩ := h.kept entry he
    exact ⟨hle.artifacts ha, m, hm.mono hle (.of_same h.books.namespaces (.refl w) (Nat.le_refl _))⟩

end Engine

/-! ## Ends of runs -/

section

variable {α β γ δ : Type} {ρ : Renumbering} {streams : List KeyStream} {L M : Ledger}
  {v v' w w' : World} {P : Ledger → α → β → Prop} {Q : Ledger → γ → δ → Prop}
  {p : Except Fault α × World} {q : Except Fault β × World}

/-- Runs of two engines end alike; the first one may have made something more. -/
def Engine.Ends (ρ : Renumbering) (streams : List KeyStream) (L : Ledger)
    (P : Ledger → α → β → Prop) (p : Except Fault α × World) (q : Except Fault β × World) : Prop :=
  ∃ M, L ≤ M ∧ Engine ρ streams M p.2 q.2 ∧ Outcomes (P M) p.1 q.1

namespace Engine

theorem value {a : α} {b : β} (h : Engine ρ streams L w w') (hab : P L a b) :
    Ends ρ streams L P (.ok a, w) (.ok b, w') := ⟨L, Ledger.le_refl L, h, .ok hab⟩

theorem fault (h : Engine ρ streams L w w') (e : Fault) :
    Ends ρ streams L P (.error e, w) (.error e, w') := ⟨L, Ledger.le_refl L, h, .error e⟩

/-- One run after the other. -/
theorem Ends.bind {x : Act α} {y : Act β} {f : α → Act γ} {g : β → Act δ}
    (h : Ends ρ streams L P (x w) (y w'))
    (step : ∀ M a b v v', L ≤ M → x w = (.ok a, v) → Engine ρ streams M v v' → P M a b →
      Ends ρ streams M Q (f a v) (g b v')) :
    Ends ρ streams L Q ((x >>= f) w) ((y >>= g) w') := by
  obtain ⟨M, hle, hengine, hout⟩ := h
  rw [Run.bind_apply, Run.bind_apply]
  generalize hx : x w = p at hengine hout
  generalize y w' = q at hengine hout
  obtain ⟨r, v⟩ := p
  obtain ⟨r', v'⟩ := q
  cases hout with
  | ok hab =>
      obtain ⟨N, hle', hend⟩ := step M _ _ v v' hle hx hengine hab
      exact ⟨N, Ledger.le_trans hle hle', hend⟩
  | error e => exact ⟨M, hle, hengine, .error e⟩

/-- The worlds after runs that leave the namespaces alone and go in lockstep. -/
theorem after_twins {R : α → β → Prop} {x : Act α} {y : Act β} (h : Engine ρ streams L w w')
    (hx : Act.Transparent x) (hy : Act.Transparent y)
    (hends : (Act.twins ρ w.outset).Ends R (x w) (y w')) :
    Engine ρ streams L (x w).2 (y w').2 := by
  have ht : World.Twin ρ w.outset (x w).2 (y w').2 := hends.after
  refine h.next (hx.same w) (hy.same w') ht.least ht.reset ?_
  rw [ht.cache]
  exact fun _ => id

/-- Runs that leave the namespaces alone and go in lockstep. -/
theorem ends_of_twins {R : α → β → Prop} {x : Act α} {y : Act β} (h : Engine ρ streams L w w')
    (hx : Act.Transparent x) (hy : Act.Transparent y)
    (hends : (Act.twins ρ w.outset).Ends R (x w) (y w')) :
    Ends ρ streams L (fun _ => R) (x w) (y w') :=
  ⟨L, Ledger.le_refl L, h.after_twins hx hy hends, hends.outcomes⟩

/-- An artifact alike on the second side, and in the ledger. -/
structure Made (M : Ledger) (a a' : Artifact) : Prop where
  alike : a.Alike a'
  known : M.artifacts a

/-- A new artifact goes into the ledger. -/
theorem ends_made {x y : Act Artifact} (h : Engine ρ streams L w w') (hx : Act.Transparent x)
    (hy : Act.Transparent y) (taken : ∀ a v, x w = (.ok a, v) → a.id < v.nextId)
    (hends : (Act.twins ρ w.outset).Ends (Artifact.NewAlike w.nextId) (x w) (y w')) :
    Ends ρ streams L Made (x w) (y w') := by
  have hafter := h.after_twins hx hy hends
  obtain ⟨a, b, v, v', hx, hy, hab, -⟩ | ⟨e, v, v', hx, hy, -⟩ := hends.keeping_cases
  · have fresh : ∀ b, L.artifacts b → b.id ≠ a.id := fun b hb =>
      Nat.ne_of_lt (Nat.lt_of_lt_of_le (h.books.artifacts hb) hab.new)
    have hle := L.le_withArtifact fresh
    have taken := taken a v hx
    rw [hx, hy] at hafter ⊢
    refine ⟨L.withArtifact a fresh, hle, hafter.withLedger hle ?_, .ok ⟨hab.alike, .inl rfl⟩⟩
    refine ⟨hafter.books.functions, ?_, hafter.books.namespaces, fun hl =>
      (hafter.books.bound hl).mono hle⟩
    rintro b (rfl | hb)
    · exact taken
    · exact hafter.books.artifacts hb
  · rw [hx, hy] at hafter ⊢
    exact hafter.fault e

end Engine

end

/-! ## Specializations -/

/-- A look-up in the cache finds what is there, and touches nothing else that matters. -/
theorem Function.cached_apply (f : Function) (key : CacheKey) (debug : Bool) (w : World) :
    ∃ v, f.cached key debug w = (.ok (w.cache.find? key), v) ∧ w.Same v ∧ v.nextId = w.nextId ∧
      v.cache.entries = w.cache.entries := by
  rw [cached, Run.bind_apply, Run.get_apply]
  dsimp only
  rw [Run.bind_apply, Run.set_apply, Cache.get_fst]
  dsimp only
  have hentries : (w.cache.get key).2.entries = w.cache.entries := by
    cases h : w.cache.find? key <;> simp only [Cache.get, h]
  have hsame : ∀ trace, w.Same { w with cache := (w.cache.get key).2, trace } :=
    fun trace => (World.Same.refl w).touch rfl rfl
  cases w.cache.find? key with
  | none => exact ⟨_, rfl, hsame _, rfl, hentries⟩
  | some a =>
      cases debug with
      | true => exact ⟨_, rfl, hsame _, rfl, hentries⟩
      | false => exact ⟨_, rfl, hsame _, rfl, hentries⟩

/-- An engine that keeps nothing makes every specialization. -/
theorem Function.specialize_of_uncached {w : World} (h : w.settings.cache = false) (f : Function)
    (overrides : List (String × Callable)) (debug : Bool) :
    f.specialize overrides debug w = f.specializeFresh (unwrapOverrides overrides) debug w := by
  rw [specialize, Run.bind_apply, Run.get_apply]
  dsimp only
  rw [h]
  rfl

/-- What is kept is given. -/
theorem Function.specialize_of_hit {w : World} (h : w.settings.cache = true) {f : Function}
    {overrides : List (String × Callable)} {a : Artifact}
    (hit : w.cache.find? (w.cacheKey f (unwrapOverrides overrides)) = some a) (debug : Bool) :
    ∃ v, f.specialize overrides debug w = (.ok a, v) ∧ w.Same v ∧ v.nextId = w.nextId ∧
      v.cache.entries = w.cache.entries := by
  obtain ⟨v, hv, hsame⟩ := f.cached_apply (w.cacheKey f (unwrapOverrides overrides)) debug w
  refine ⟨v, ?_, hsame⟩
  rw [specialize, Run.bind_apply, Run.get_apply]
  dsimp only
  rw [h, if_pos rfl, Run.bind_ok hv, hit]
  rfl

/-- What is not kept is made, and then kept. -/
theorem Function.specialize_of_miss {w : World} (h : w.settings.cache = true) {f : Function}
    {overrides : List (String × Callable)}
    (miss : w.cache.find? (w.cacheKey f (unwrapOverrides overrides)) = none) (debug : Bool) :
    ∃ v, w.Same v ∧ v.nextId = w.nextId ∧ v.cache.entries = w.cache.entries ∧
      f.specialize overrides debug w = (do
        let a ← f.specializeFresh (unwrapOverrides overrides) debug
        modify fun s => { s with
          cache := s.cache.insert s.generations (w.cacheKey f (unwrapOverrides overrides)) a }
        return a : Act Artifact) v := by
  obtain ⟨v, hv, hsame, hn, hentries⟩ :=
    f.cached_apply (w.cacheKey f (unwrapOverrides overrides)) debug w
  refine ⟨v, hsame, hn, hentries, ?_⟩
  rw [specialize, Run.bind_apply, Run.get_apply]
  dsimp only
  rw [h, if_pos rfl, Run.bind_ok hv, miss, specializeFresh]
  dsimp only
  rw [bind_assoc]

namespace Cache

variable {c : Cache} {now : Generations} {key : CacheKey} {a : Artifact}

theorem mem_of_find? (h : c.find? key = some a) :
    ∃ entry ∈ c.entries, entry.1.digest = key.digest ∧ entry.2 = a := by
  obtain ⟨entry, hfind, rfl⟩ := Option.map_eq_some_iff.mp h
  exact ⟨entry, List.mem_of_find?_eq_some hfind, by simpa using List.find?_some hfind, rfl⟩

/-- Nothing comes in but the new entry. -/
theorem mem_insert {entry : CacheKey × Artifact} (h : entry ∈ (c.insert now key a).entries) :
    entry = (key, a) ∨ entry ∈ c.entries := by
  rw [insert] at h
  split at h
  · exact .inr (List.mem_filter.mp h).1
  · rcases List.mem_cons.mp h with h | h
    · exact .inl h
    · exact .inr (List.mem_filter.mp (List.mem_filter.mp h).1).1

end Cache

theorem Function.transparent_specializeFresh (f : Function) (overrides : List (String × Callable))
    (debug : Bool) : Act.Transparent (f.specializeFresh overrides debug) := fun w =>
  (f.transparent_checkAcyclic overrides w).bind fun _ => f.transparent_specializeAnew overrides debug w

namespace Engine

variable {ρ : Renumbering} {streams : List KeyStream} {L : Ledger} {v w w' : World}

/-- One more artifact is kept. -/
theorem keep (h : Engine ρ streams L w w') (now : Generations) {entry : CacheKey × Artifact}
    (known : L.artifacts entry.2) {m : Making} (hm : m.Of streams L w entry) :
    Engine ρ streams L { w with cache := w.cache.insert now entry.1 entry.2 } w' := by
  have hbefore : w.Before { w with cache := w.cache.insert now entry.1 entry.2 } :=
    .of_same h.books.namespaces ((World.Same.refl w).touch rfl rfl) (Nat.le_refl _)
  refine ⟨⟨h.twin.live, h.twin.lookup, h.twin.taken, h.twin.placed, h.twin.strict, Nat.le_refl _, rfl⟩,
    h.limit, h.maxRecursion, h.uncached, h.books.of_same ((World.Same.refl w).touch rfl rfl)
      (Nat.le_refl _), fun other ho => ?_⟩
  rcases Cache.mem_insert ho with rfl | ho
  · exact ⟨known, m, hm.mono (Ledger.le_refl L) hbefore⟩
  · obtain ⟨ha, m, hm⟩ := h.kept other ho
    exact ⟨ha, m, hm.mono (Ledger.le_refl L) hbefore⟩

variable {f f' : Function} {overrides overrides' : List (String × Callable)} {debug debug' : Bool}

theorem specializeFresh_ends (h : Engine ρ streams L w w') (hf : f.Twin ρ f')
    (hoverrides : Callable.AllTwin ρ overrides overrides') :
    Ends ρ streams L Made (f.specializeFresh (unwrapOverrides overrides) debug w)
      (f'.specializeFresh (unwrapOverrides overrides') debug' w') :=
  h.ends_made (f.transparent_specializeFresh _ _) (f'.transparent_specializeFresh _ _)
    (fun _ _ => Function.id_lt_of_specializeFresh)
    (Function.specializeFresh_twins hf (fun n => by rw [hoverrides.unwrapOverrides.keys])
      hoverrides.unwrapOverrides.sorted w w' h.twin)

/-- Specializations are alike, whether what the first engine gives was kept or is new. -/
theorem specialize_ends (h : Engine ρ streams L w w') (free : CollisionFree streams)
    (hf : f.Twin ρ f') (hknown : L.functions f)
    (hoverrides : Callable.AllTwin ρ overrides overrides')
    (hall : Callable.AllKnown L overrides) (distinct : (Dictionary.keys overrides).Nodup)
    (asked : w.settings.cache = true → w.keyStream f (unwrapOverrides overrides) ∈ streams) :
    Ends ρ streams L Made (f.specialize overrides debug w)
      (f'.specialize overrides' debug' w') := by
  have sound : (w.keyStream f (unwrapOverrides overrides)).Sound L :=
    ⟨hknown, hall.unwrapOverrides, fun _ => unwrapOverrides_plain, by
      rw [World.keyStream, Dictionary.keys, unwrapOverrides, List.map_map]
      exact distinct⟩
  rw [Function.specialize_of_uncached h.uncached]
  cases hcache : w.settings.cache with
  | false =>
      rw [Function.specialize_of_uncached hcache]
      exact h.specializeFresh_ends hf hoverrides
  | true =>
      have asked := asked hcache
      cases hfind : w.cache.find? (w.cacheKey f (unwrapOverrides overrides)) with
      | some a =>
          obtain ⟨v, hv, hsame, hn, hentries⟩ := Function.specialize_of_hit hcache hfind debug
          obtain ⟨entry, he, hdigest, rfl⟩ := Cache.mem_of_find? hfind
          obtain ⟨hartifact, m, hm⟩ := h.kept entry he
          obtain ⟨b, hb, halike⟩ := hm.specializeFresh free asked sound hdigest debug
          -- What the second engine makes is alike to what the first one would make.
          have hends : (Act.twins ρ w.outset).Ends _
              (f.specializeFresh (unwrapOverrides overrides) debug w)
              (f'.specializeFresh (unwrapOverrides overrides') debug' w') :=
            Function.specializeFresh_twins hf (fun n => by rw [hoverrides.unwrapOverrides.keys])
              hoverrides.unwrapOverrides.sorted w w' h.twin
          have hsame' := (f'.transparent_specializeFresh (unwrapOverrides overrides') debug').same w'
          rw [show f.specializeFresh (unwrapOverrides overrides) debug w = (.ok b, _) from
            Prod.ext hb rfl] at hends
          obtain ⟨b', v', hb', hbb, ht⟩ := hends.of_ok
          rw [hb'] at hsame'
          rw [hv, hb']
          have hle := Nat.le_of_eq hn.symm
          have hfresh := (f.transparent_specializeFresh (unwrapOverrides overrides) debug).same w
          refine value (h.next hsame hsame' hle (ht.left (hfresh.symm.trans hsame) h.twin hle) ?_)
            ⟨halike.trans hbb.alike, hartifact⟩
          rw [hentries]
          exact fun _ => id
      | none =>
          obtain ⟨v, hsame, hn, hentries, hv⟩ := Function.specialize_of_miss hcache hfind debug
          rw [hv, ← bind_pure (f'.specializeFresh _ _)]
          have hle := Nat.le_of_eq hn.symm
          have hstart : Engine ρ streams L v w' := h.next hsame (.refl w') hle
            (h.twin.left hsame h.twin hle) (by rw [hentries]; exact fun _ => id)
          have hstream := hsame.keyStream f (unwrapOverrides overrides)
          rw [hstream] at asked sound
          have hbefore : v.Before (f.specializeFresh (unwrapOverrides overrides) debug v).2 := by
            have ht : World.Twin ρ v.outset (f.specializeFresh (unwrapOverrides overrides) debug v).2
                (f'.specializeFresh (unwrapOverrides overrides') debug' w').2 :=
              (Function.specializeFresh_twins hf (fun n => by rw [hoverrides.unwrapOverrides.keys])
                hoverrides.unwrapOverrides.sorted v w' hstart.twin).after
            exact .of_same hstart.books.namespaces
              ((f.transparent_specializeFresh (unwrapOverrides overrides) debug).same v) ht.least
          refine (hstart.specializeFresh_ends hf hoverrides).bind fun M a b s s' hle hx hs hab => ?_
          rw [hx] at hbefore
          have hm : Making.Of ⟨v, L, f, unwrapOverrides overrides, debug⟩ streams M s
              (w.cacheKey f (unwrapOverrides overrides), a) :=
            ⟨by rw [World.cacheKey_eq, hstream]; rfl, asked, by rw [hx], hstart.books, sound, hle,
              hbefore⟩
          exact value (hs.keep s.generations hab.known hm) hab

end Engine

end Graft
