import Graft.Proofs.Gateways
import Graft.Proofs.Keys

/-!
# What is kept can be made again

An artifact that is kept was made in an earlier world. Since then namespaces may have changed or gone,
and new ones may have come. If the key of what is asked for now is the key under which the artifact is
kept, nothing that a pass could have looked at is different, so a pass would make the artifact again.
-/

namespace Graft

open Correspondence (keeping)

/-! ## The course of time -/

/-- `w` may come after `v`: numbers are taken in order and never again, namespaces that are gone stay
away, and what changed a binding was counted. -/
structure World.Before (v w : World) : Prop where
  nextId : v.nextId ≤ w.nextId
  strict : v.settings.strictOverrides = w.settings.strictOverrides
  numbered : ∀ {i}, (v.namespace? i).isSome → i < v.nextId
  gone : ∀ {i}, i < v.nextId → v.namespace? i = none → w.namespace? i = none
  unchanged : ∀ {i ns ns'}, v.namespace? i = some ns → w.namespace? i = some ns' →
    ns.generation ≤ ns'.generation ∧ (ns.generation = ns'.generation → ns.globals = ns'.globals)

namespace World.Before

variable {u v w : World}

theorem trans (h : u.Before v) (h' : v.Before w) : u.Before w where
  nextId := Nat.le_trans h.nextId h'.nextId
  strict := h.strict.trans h'.strict
  numbered := h.numbered
  gone hi hu := h'.gone (Nat.lt_of_lt_of_le hi h.nextId) (h.gone hi hu)
  unchanged {i ns ns''} hu hw := by
    cases hv : v.namespace? i with
    | none =>
        have hi : i < v.nextId := Nat.lt_of_lt_of_le (h.numbered (by rw [hu]; rfl)) h.nextId
        rw [h'.gone hi hv] at hw
        cases hw
    | some ns' =>
        obtain ⟨hle, heq⟩ := h.unchanged hu hv
        obtain ⟨hle', heq'⟩ := h'.unchanged hv hw
        refine ⟨Nat.le_trans hle hle', fun hgeneration => ?_⟩
        rw [heq (by omega), heq' (by omega)]

/-- Nothing but numbers was taken meanwhile. -/
theorem of_same (numbered : ∀ {i}, (v.namespace? i).isSome → i < v.nextId) (h : v.Same w)
    (hle : v.nextId ≤ w.nextId) : v.Before w where
  nextId := hle
  strict := by rw [h.settings]
  numbered := numbered
  gone _ hv := by rwa [← h.spaces]
  unchanged hv hw := by
    rw [h.spaces, hw] at hv
    obtain rfl := Option.some.inj hv
    exact ⟨Nat.le_refl _, fun _ => rfl⟩

end World.Before

/-- The numbers in the ledger and those of namespaces are taken, and names are bound to what is in
the ledger. -/
structure Ledger.Books (L : Ledger) (w : World) : Prop where
  functions : ∀ {f}, L.functions f → f.id < w.nextId ∧ f.home < w.nextId
  artifacts : ∀ {a}, L.artifacts a → a.id < w.nextId
  namespaces : ∀ {i}, (w.namespace? i).isSome → i < w.nextId
  bound : ∀ {i name c}, w.lookup i name = some (.callable c) → c.Known L

namespace Ledger.Books

variable {L : Ledger} {v w : World}

theorem of_same (h : L.Books v) (hsame : v.Same w) (hle : v.nextId ≤ w.nextId) : L.Books w where
  functions hf := ⟨Nat.lt_of_lt_of_le (h.functions hf).1 hle,
    Nat.lt_of_lt_of_le (h.functions hf).2 hle⟩
  artifacts ha := Nat.lt_of_lt_of_le (h.artifacts ha) hle
  namespaces hi := Nat.lt_of_lt_of_le (h.namespaces (by rwa [hsame.spaces])) hle
  bound hl := h.bound (by rwa [hsame.lookup])

end Ledger.Books

/-! ## Worlds that look alike from somewhere -/

namespace Renumbering

/-- Numbers in the two sets belong to themselves. -/
def within (functions : Nat → Prop) (homes : NamespaceId → Prop) : Renumbering where
  functions m m' := m = m' ∧ functions m
  homes i i' := i = i' ∧ homes i
  functions_iff := by rintro m _ n _ ⟨rfl, -⟩ ⟨rfl, -⟩; rfl
  homes_iff := by rintro i _ j _ ⟨rfl, -⟩ ⟨rfl, -⟩; rfl

end Renumbering

namespace Callable

mutual

theorem home_mem_homes {f : Function} {c : Callable} (h : f ∈ c.functions) : f.home ∈ c.homes := by
  cases c with
  | function g => exact List.mem_singleton.mp h ▸ List.mem_singleton_self _
  | gateway g => exact List.mem_singleton.mp h ▸ List.mem_singleton_self _
  | artifact a => cases h
  | native n => cases h
  | bound i g overrides d =>
      rcases List.mem_cons.mp h with rfl | h
      · exact List.mem_cons_self
      · exact List.mem_cons_of_mem _ (home_mem_homesAll h)

theorem home_mem_homesAll {f : Function} {entries : List (String × Callable)}
    (h : f ∈ functions.functionsAll entries) : f.home ∈ homes.homesAll entries := by
  cases entries with
  | nil => cases h
  | cons entry rest =>
      rcases List.mem_append.mp h with h | h
      · exact List.mem_append_left _ (home_mem_homes h)
      · exact List.mem_append_right _ (home_mem_homesAll h)

end

end Callable

section

variable {L : Ledger} {v w : World} {f : Function} {overrides : List (String × Callable)}

/-- What a pass in `v` could look at belongs to itself: the functions there are, the namespaces that
the key depends on, and those that are gone. -/
def World.sight (v w : World) (f : Function) (overrides : List (String × Callable)) : Renumbering :=
  .within (· < v.nextId) fun i => i < v.nextId ∧ ((∃ n, (i, n) ∈ v.dependsOn f overrides) ∨
    v.namespace? i = none ∧ w.namespace? i = none)

/-- A namespace that the search comes to, if it is there, is in sight. -/
theorem World.Before.mem_sight (h : v.Before w) {i : NamespaceId} (hi : i < v.nextId)
    (hlive : (v.namespace? i).isSome →
      i ∈ v.reachable (f.home :: overrides.flatMap fun (_, c) => c.homes)) :
    (v.sight w f overrides).homes i i := by
  refine ⟨rfl, hi, ?_⟩
  cases hv : v.namespace? i with
  | none => exact .inr ⟨rfl, h.gone hi hv⟩
  | some ns =>
      refine .inl ⟨ns.generation, World.mem_dependsOn.mpr ⟨hlive (by rw [hv]; rfl), ?_⟩⟩
      rw [World.generations, hv]
      rfl

/-- Nothing in sight is different in worlds in which the key depends on the same state. -/
theorem World.Before.twin (h : v.Before w) (books : L.Books v) {g : Function}
    {others : List (String × Callable)}
    (hdepends : v.dependsOn f overrides = w.dependsOn g others) :
    v.Twin (v.sight w f overrides) v.outset w := by
  -- namespaces of one generation have the same bindings
  have hglobals : ∀ {i}, (∃ n, (i, n) ∈ v.dependsOn f overrides) → ∃ ns ns',
      v.namespace? i = some ns ∧ w.namespace? i = some ns' ∧ ns.globals = ns'.globals := by
    rintro i ⟨n, hn⟩
    have hv := (World.mem_dependsOn.mp hn).2
    have hw := (World.mem_dependsOn.mp (hdepends ▸ hn)).2
    obtain ⟨ns, hns, rfl⟩ := Option.map_eq_some_iff.mp hv
    obtain ⟨ns', hns', hgeneration⟩ := Option.map_eq_some_iff.mp hw
    exact ⟨ns, ns', hns, hns', (h.unchanged hns hns').2 hgeneration.symm⟩
  refine ⟨?_, ?_, ?_, ?_, h.strict, Nat.le_refl _, rfl⟩
  · rintro i _ ⟨rfl, -, hi | ⟨hv, hw⟩⟩
    · obtain ⟨ns, ns', hv, hw, -⟩ := hglobals hi
      rw [hv, hw]
      rfl
    · rw [hv, hw]
  · rintro i _ ⟨rfl, -, hi | ⟨hv, hw⟩⟩ name
    · obtain ⟨ns, ns', hv, hw, heq⟩ := hglobals hi
      have hsame : w.lookup i name = v.lookup i name := by
        rw [lookup, lookup, hv, hw, Option.bind_some, Option.bind_some, Namespace.get?,
          Namespace.get?, heq]
      rw [hsame]
      rcases hl : v.lookup i name with _ | (c | c)
      · exact .none
      · exact .some (.constant c)
      · refine .some (.callable (c.twin_self fun k hk => ?_))
        have hknown := (books.bound hl).functions k hk
        -- what a namespace in sight binds has its home in sight
        refine Function.twin_self (h.mem_sight (books.functions hknown).2 fun hlive => ?_)
          ⟨rfl, (books.functions hknown).1⟩
        obtain ⟨n, hn⟩ := hi
        refine enclosed_reachable v _ i (World.mem_dependsOn.mp hn).1 k.home ?_ hlive
        rw [lookup, hv, Option.bind_some] at hl
        rw [neighbours, hv]
        refine List.mem_flatMap.mpr ⟨c, ?_, Callable.home_mem_homes hk⟩
        exact List.mem_filterMap.mpr ⟨(name, .callable c), Dictionary.mem_of_get? hl, rfl⟩
    · rw [lookup, lookup, hv, hw]
      exact .none
  · rintro m _ ⟨rfl, hm⟩
    exact ⟨hm, Nat.lt_of_lt_of_le hm h.nextId⟩
  · rintro i _ ⟨rfl, hi, -⟩
    exact ⟨hi, Nat.lt_of_lt_of_le hi h.nextId⟩

/-- The function that the key is about is in sight. -/
theorem World.Before.twin_function (h : v.Before w) (books : L.Books v) (hf : L.functions f) :
    f.Twin (v.sight w f overrides) f :=
  Function.twin_self (h.mem_sight (books.functions hf).2 fun hlive =>
    mem_reachable List.mem_cons_self hlive) ⟨rfl, (books.functions hf).1⟩

/-- So are the replacements. -/
theorem World.Before.twin_overrides (h : v.Before w) (books : L.Books v)
    (hknown : Callable.AllKnown L overrides) {entries : List (String × Callable)}
    (hsub : entries ⊆ overrides) : Callable.AllTwin (v.sight w f overrides) entries entries := by
  refine Callable.allTwin_self entries fun k hk => ?_
  obtain ⟨entry, he, hk⟩ := Callable.mem_functionsAll.mp hk
  have hentry := (hknown entry (hsub he)).functions k hk
  refine Function.twin_self (h.mem_sight (books.functions hentry).2 fun hlive => ?_)
    ⟨rfl, (books.functions hentry).1⟩
  refine mem_reachable (List.mem_cons_of_mem _ (List.mem_flatMap.mpr ?_)) hlive
  exact ⟨entry, hsub he, Callable.home_mem_homes hk⟩

end

/-! ## Specializations made anew -/

namespace Function

variable {f f' : Function} {overrides overrides' : List (String × Callable)} {debug debug' : Bool}
  {a : Artifact} {v v' w : World}

/-- No replacement of a specialization that succeeded has substitutions made ahead. -/
theorem finished_of_specializeFresh (distinct : (Dictionary.keys overrides).Nodup)
    (h : f.specializeFresh overrides debug v = (.ok a, v')) {entry : String × Callable}
    (he : entry ∈ overrides) (i : Nat) (g : Gateway) (others : List (String × Callable))
    (d : Digest) : entry.2 ≠ .bound i g others d := by
  intro hbound
  obtain ⟨_, u, -, h⟩ := Run.bind_eq_ok h
  obtain ⟨table, hkeys, hprepared, -⟩ := specializeAnew_eq_ok h
  have hmem : entry ∈ Dictionary.sorted overrides :=
    (Dictionary.sorted_perm distinct).mem_iff.mpr he
  have hin : entry.1 ∈ Dictionary.keys table := hkeys ▸ List.mem_map.mpr ⟨entry, hmem, rfl⟩
  cases hr : Dictionary.get? entry.1 table with
  | none => exact Dictionary.get?_eq_none_iff.mp hr hin
  | some r =>
      obtain ⟨c, hc, hr⟩ := hprepared _ r hr
      rw [Dictionary.get?_of_mem (Dictionary.nodup_keys_sorted _) hmem] at hc
      obtain rfl := Option.some.inj hc
      rw [hbound] at hr
      cases hr with
      | made hp => cases hp
      | converted _ _ hconvert => cases hconvert

/-- Where a specialization succeeds, what explains it is its definition. -/
theorem explain_of_specializeFresh {ρ : Renumbering} {o : Outset} (hw : v.Twin ρ o w)
    (hf : f.Twin ρ f')
    (hkeys : ∀ n, (Dictionary.keys overrides).contains n =
      (Dictionary.keys (unwrapOverrides overrides')).contains n)
    (hoverrides : Callable.AllTwin ρ (Dictionary.sorted overrides)
      (Dictionary.sorted (unwrapOverrides overrides')))
    (h : f.specializeFresh overrides debug v = (.ok a, v')) :
    (f'.explain overrides' debug' w).1 = .ok a.info.definition := by
  obtain ⟨_, v₁, hcheck, h⟩ := Run.bind_eq_ok h
  obtain ⟨table, used, v₂, s₁, -, hprepare, hcompiled, -⟩ := specializeAnew_steps h
  obtain ⟨g, t, hg, hcompile⟩ := Run.bind_eq_ok hcompiled
  have hdefinition : a.info.definition = g.definition := by
    rw [Pass.compile_apply] at hcompile
    split at hcompile
    · next h =>
        cases hcompile
        exact (Linker.compile_eq_ok h).1
    · cases hcompile
  -- The same steps in the other world, up to the end of the pass.
  have hcheck' : (Act.twins ρ o).Ends _ (f.checkAcyclic overrides v)
      (f'.checkAcyclic (unwrapOverrides overrides') w) := checkAcyclic_twins hf hkeys v w hw
  rw [hcheck] at hcheck'
  obtain ⟨_, w₁, hcheck', -, hw₁⟩ := hcheck'.of_ok
  have hprepare' : (Act.twins ρ o).Ends _
      (Substitution.prepare (Dictionary.sorted overrides) v₁.settings.isolation debug v₁)
      (Substitution.prepare (Dictionary.sorted (unwrapOverrides overrides')) .separate debug' w₁) :=
    Substitution.prepare_twins hoverrides v₁ w₁ hw₁
  rw [hprepare] at hprepare'
  obtain ⟨⟨table', used'⟩, w₂, hprepare', htable, hw₂⟩ := hprepare'.of_ok
  have hpass' : (Pass.twins ρ v₂ w₂).Ends _
      (Pass.substitute table debug f (.start v₁.settings.isolation v₂))
      (Pass.substitute table' debug' f' (.start .separate w₂)) :=
    Pass.substitute_twins hw₂ htable.1 hf
  rw [hg] at hpass'
  obtain ⟨g', t', hpass', hgg, -⟩ := hpass'.of_ok
  rw [explain, Run.bind_ok hcheck', Run.bind_ok hprepare']
  dsimp only
  rw [Run.bind_apply, Pass.within_apply]
  change Pass.substitute table' debug' f'
    { world := w₂, registry := { table := .ofIsolation .separate } } = (.ok g', t') at hpass'
  rw [hpass', hdefinition, hgg.kin.definition]
  rfl

end Function

/-! ## Entries -/

theorem unwrapOverrides_plain {entry : String × Callable} {overrides : List (String × Callable)}
    (h : entry ∈ unwrapOverrides overrides) : entry.2.unwrapped = entry.2 := by
  obtain ⟨original, -, rfl⟩ := List.mem_map.mp h
  exact Callable.unwrapped_unwrapped _

/-- How an artifact was made: in which world, with which objects known, and of what. -/
structure Making where
  world : World
  ledger : Ledger
  function : Function
  overrides : List (String × Callable)
  debug : Bool

namespace Making

def stream (m : Making) : KeyStream := m.world.keyStream m.function m.overrides

/-- The entry of a cache was made in this way, at a time before `w`. -/
structure Of (m : Making) (streams : List KeyStream) (L : Ledger) (w : World)
    (entry : CacheKey × Artifact) : Prop where
  digest : entry.1.digest = m.stream.record.hash
  asked : m.stream ∈ streams
  made : (m.function.specializeFresh m.overrides m.debug m.world).1 = .ok entry.2
  books : m.ledger.Books m.world
  sound : m.stream.Sound m.ledger
  le : m.ledger ≤ L
  before : m.world.Before w

theorem Of.mono {m : Making} {streams : List KeyStream} {L M : Ledger} {v w : World}
    {entry : CacheKey × Artifact} (h : m.Of streams L v entry) (hle : L ≤ M) (hw : v.Before w) :
    m.Of streams M w entry :=
  ⟨h.digest, h.asked, h.made, h.books, h.sound, Ledger.le_trans h.le hle, h.before.trans hw⟩

variable {m : Making} {streams : List KeyStream} {L : Ledger} {w : World}
  {entry : CacheKey × Artifact} {f : Function} {overrides : List (String × Callable)}

/-- What is asked for under the digest of an entry is what the entry was made of, as far as a pass
can see. -/
theorem Of.twin (h : m.Of streams L w entry) (free : CollisionFree streams)
    (asked : w.keyStream f overrides ∈ streams) (sound : (w.keyStream f overrides).Sound L)
    (hdigest : entry.1.digest = (w.keyStream f overrides).record.hash) :
    ∃ ρ, m.world.Twin ρ m.world.outset w ∧ m.function.Twin ρ f ∧
      (∀ n, (Dictionary.keys m.overrides).contains n = (Dictionary.keys overrides).contains n) ∧
      Callable.AllTwin ρ (Dictionary.sorted m.overrides) (Dictionary.sorted overrides) := by
  have hrecord : m.stream.record = (w.keyStream f overrides).record :=
    free.record_eq _ h.asked _ asked (h.digest.symm.trans hdigest)
  obtain ⟨hf, hdepends, hperm⟩ := KeyStream.eq_of_record_eq (free.fits _ h.asked)
    (free.fits _ asked) (h.sound.mono h.le) sound
    (fun e he => Function.finished_of_specializeFresh h.sound.distinct (Prod.ext h.made rfl) he) hrecord
  change m.function = f at hf
  change m.overrides.Perm overrides at hperm
  subst hf
  refine ⟨_, h.before.twin h.books hdepends, h.before.twin_function h.books h.sound.function, ?_, ?_⟩
  · intro n
    rw [Bool.eq_iff_iff, List.contains_iff_mem, List.contains_iff_mem]
    exact (hperm.map Prod.fst).mem_iff
  · have hsorted : Dictionary.sorted m.overrides = Dictionary.sorted overrides :=
      Dictionary.sorted_eq_of_perm h.sound.distinct hperm
    rw [← hsorted]
    exact h.before.twin_overrides h.books h.sound.overrides
      (Dictionary.sorted_perm h.sound.distinct).subset

/-- Made anew, what is kept would come out alike. -/
theorem Of.specializeFresh (h : m.Of streams L w entry) (free : CollisionFree streams)
    (asked : w.keyStream f overrides ∈ streams) (sound : (w.keyStream f overrides).Sound L)
    (hdigest : entry.1.digest = (w.keyStream f overrides).record.hash) (debug : Bool) :
    ∃ b, (f.specializeFresh overrides debug w).1 = .ok b ∧ entry.2.Alike b := by
  obtain ⟨ρ, hw, hf, hkeys, hoverrides⟩ := h.twin free asked sound hdigest
  have hends : (Act.twins ρ m.world.outset).Ends _
      (m.function.specializeFresh m.overrides m.debug m.world)
      (f.specializeFresh overrides debug w) :=
    Function.specializeFresh_twins hf hkeys hoverrides m.world w hw
  rw [show m.function.specializeFresh m.overrides m.debug m.world = (.ok entry.2, _) from
    Prod.ext h.made rfl] at hends
  obtain ⟨b, t, hb, halike, -⟩ := hends.of_ok
  exact ⟨b, by rw [hb], halike.alike⟩

/-- What is kept is explained by its definition. -/
theorem Of.explain (h : m.Of streams L w entry) (free : CollisionFree streams)
    (asked : w.keyStream f (unwrapOverrides overrides) ∈ streams)
    (sound : (w.keyStream f (unwrapOverrides overrides)).Sound L)
    (hdigest : entry.1.digest = (w.keyStream f (unwrapOverrides overrides)).record.hash)
    (debug : Bool) : (f.explain overrides debug w).1 = .ok entry.2.info.definition := by
  obtain ⟨ρ, hw, hf, hkeys, hoverrides⟩ := h.twin free asked sound hdigest
  exact Function.explain_of_specializeFresh hw hf hkeys hoverrides (Prod.ext h.made rfl)

end Making

end Graft
