import Graft.Proofs.Finished
import Graft.Proofs.Replacements
import Mathlib.Data.List.Nodup

/-!
# Replacements that call replacements

A replacement that is specialized before the pass calls the other replacements as they were given.
So substitutions come to the function and to its replacements; a replacement that is called from
another one sees none, but for what was specialized on the way. If none is to be made there, a
specialization does what the function does under the substitutions.
-/

namespace Graft

open Filter (atTop)

variable {raw table : Substitution} {bound : BoundCall} {limit : Nat} {v w : World}

theorem World.Same.keeps {w s v : World} (h : w.Same s) (keeps : w.Keeps v) : s.Keeps v := by
  intro id hlive
  rw [← h.spaces id] at hlive
  obtain ⟨hv, hnames⟩ := keeps id hlive
  refine ⟨hv, fun name => ?_⟩
  rw [hnames, h.lookup]

namespace Function

/-! ## What takes part -/

/-- A run of `f` can call the replacement in place of what is bound to a name. -/
def Meets (raw : Substitution) (v : World) (f : Function) (c : Callable) : Prop :=
  ∃ g n, f.Reaches raw v g ∧ g.definition.body.Calls ⟨n, []⟩ ∧ (v.lookup g.home n).isSome ∧
    Dictionary.get? n raw = some c

/-- What calls can come to from a function and from the replacements, by names that are overridden
as well. -/
inductive Involves (raw : Substitution) (v : World) (f : Function) : Function → Prop
  | refl : Involves raw v f f
  | replacement {h n c} : Dictionary.get? n raw = some c → c.plain? = some h → Involves raw v f h
  | callee {g h n c} : Involves raw v f g → g.definition.body.Calls ⟨n, []⟩ →
      v.lookup g.home n = some (.callable c) → c.plain? = some h → Involves raw v f h

/-- A function that calls only overridden names comes to itself only. -/
theorem Reaches.eq_of_overridden {f g : Function}
    (overridden : ∀ n, f.definition.body.Calls ⟨n, []⟩ → Dictionary.get? n raw ≠ none)
    (h : f.Reaches raw v g) : g = f := by
  induction h with
  | refl => rfl
  | step _ hcalls hfree _ _ ih =>
      subst ih
      exact absurd hfree (overridden _ hcalls)

theorem Meets.called {f : Function} {c : Callable}
    (overridden : ∀ n, f.definition.body.Calls ⟨n, []⟩ → Dictionary.get? n raw ≠ none)
    (h : f.Meets raw v c) :
    ∃ n, f.definition.body.Calls ⟨n, []⟩ ∧ Dictionary.get? n raw = some c := by
  obtain ⟨g, n, hg, hcalls, -, hget⟩ := h
  obtain rfl := hg.eq_of_overridden overridden
  exact ⟨n, hcalls, hget⟩

theorem Reaches.involves {f g h : Function} (hg : f.Involves raw v g) (hh : g.Reaches table v h) :
    f.Involves raw v h := by
  induction hh with
  | refl => exact hg
  | step _ hcalls _ hl hc ih => exact .callee ih hcalls hl hc

/-- The functions that take part are as they were read: their sources read as their definitions, no
name in them is an alias, and no two of them have one number. -/
structure Loaded (raw : Substitution) (v : World) (f : Function) : Prop where
  readsBack : ∀ g, f.Involves raw v g → g.ReadsBack
  plain : ∀ g, f.Involves raw v g → g.definition.Within .plain
  numbered : ∀ g h, f.Involves raw v g → f.Involves raw v h → g.id = h.id → g = h

theorem Loaded.closed {f : Function} (loaded : f.Loaded raw v) (keeps : w.Keeps v) :
    w.Closed (f.Involves raw v) := by
  refine ⟨fun g hg n c h hcalls hl hc => .callee hg hcalls ?_ hc, loaded.numbered⟩
  have hlive : (w.namespace? g.home).isSome := by
    rw [World.lookup] at hl
    obtain ⟨ns, hns, -⟩ := Option.bind_eq_some_iff.mp hl
    rw [hns]
    rfl
  rw [(keeps g.home hlive).2, hl]

/-- No substitution is to be made in the replacements that a run of `p` calls, and what a plain run
of them has in common with the run of `p` meets none. -/
structure Closes (raw : Substitution) (v : World) (p : Function) : Prop where
  pending : ∀ c h, p.Meets raw v c → raw.pending? c = some h → ∀ c', ¬ h.Meets raw v c'
  common : ∀ c h g, p.Meets raw v c → c.plain? = some h → h.Reaches [] v g → p.Reaches raw v g →
    ∀ c', ¬ g.Meets raw v c'

/-- Substitutions are at most to be made in the replacements that a run of `f` calls, and not in
the replacements that these call in turn. -/
def Shallow (raw : Substitution) (v : World) (f : Function) : Prop :=
  ∀ c p, f.Meets raw v c → raw.pending? c = some p → p.Closes raw v

end Function

/-! ## Functions that meet no replacement -/

/-- Where a function calls no bound name that a replacement is given for, it sees the world as
without the substitutions, if what is bound to its names is called in the same way. -/
theorem Scope.Corresponds.of_free {g : Function}
    {call call' replaced : Callable → List Value → Act Value}
    (free : ∀ n, g.definition.body.Calls ⟨n, []⟩ →
      v.lookup g.home n = none ∨ Dictionary.get? n raw = none)
    (hcall : ∀ n c args, g.definition.body.Calls ⟨n, []⟩ →
      v.lookup g.home n = some (.callable c) →
      (Correspondence.preserving v.Same).Runs Eq (call c args) (call' c args)) :
    (g.scopeUnder raw call replaced).Corresponds (Correspondence.preserving v.Same)
      ⟨Names.all.reads, fun p => Names.all.calls p ∧ g.definition.body.Calls p⟩ id
      (g.scope call') where
  reads n span span' hspan := by
    obtain rfl := hspan
    refine Correspondence.preserving_iff.mpr fun s hs => ?_
    show v.Same ((g.scope call').outer n span s).2
    rw [Function.scope_outer_apply]
    repeat' split
    all_goals exact hs
  calls p args span hp := by
    cases hsingle : p.single? with
    | none =>
        rw [Function.scopeUnder_call_path hsingle]
        show (Correspondence.preserving v.Same).Runs Eq ((g.scope call).call p args span)
          ((g.scope call').call p args span)
        simp only [Function.scope, hsingle]
        refine (Correspondence.Runs.ofOutcome _).bind fun n m hnm => ?_
        subst hnm
        exact .ofOutcome _
    | some name =>
        obtain rfl := Path.single?_eq_some.mp hsingle
        intro s t hst
        obtain ⟨rfl, hsame⟩ := hst
        have hlookup := hsame.lookup g.home name
        have hleft := free name hp.2
        rw [hlookup] at hleft
        rw [Function.scopeUnder_call_left hleft, Function.scope_call_apply]
        show Correspondence.Ends _ Eq _ ((g.scope call').call ⟨name, []⟩ args span s)
        rw [Function.scope_call_apply]
        cases hl : s.lookup g.home name with
        | none =>
            dsimp only
            cases Native.builtin? name with
            | none => exact .fault rfl ⟨rfl, hsame⟩
            | some n =>
                have hends :=
                  Correspondence.Runs.ofOutcome (k := .preserving v.Same) (n.call args) s s
                    ⟨rfl, hsame⟩
                rw [Run.ofOutcome_apply] at hends
                exact hends
        | some b =>
            cases b with
            | constant x => exact .fault rfl ⟨rfl, hsame⟩
            | callable c => exact hcall name c args hp.2 (hlookup.trans hl) s s ⟨rfl, hsame⟩

namespace Function

section

variable (hbound : ∀ g overrides args, Act.Transparent (bound g overrides args))
include hbound

/-- A function that meets no replacement runs in the same way under the substitutions. -/
theorem callUnder_corresponds (depth : Nat) {h : Function} (free : ∀ c, ¬ h.Meets raw v c)
    {g : Function} (hg : h.Reaches raw v g) (args : List Value) :
    (Correspondence.preserving v.Same).Runs Eq (callUnder raw bound limit depth g args)
      (callAt bound limit depth g args) := by
  induction depth generalizing g args with
  | zero =>
      rw [callUnder, callAt]
      split
      · exact .fail _
      · exact .fail _
  | succ depth ih =>
      rw [callUnder_succ, callAt_succ]
      split
      · exact .fail _
      · refine Correspondence.Runs.get.bind fun s t hst => ?_
        obtain ⟨rfl, -⟩ := hst
        refine (Correspondence.Runs.ofOutcome _).bind fun _ _ _ => ?_
        -- a bound name with a replacement would be one that the function meets
        have hfree : ∀ n, g.definition.body.Calls ⟨n, []⟩ →
            v.lookup g.home n = none ∨ Dictionary.get? n raw = none := by
          intro n hn
          by_contra hboth
          obtain ⟨hlookup, hget⟩ := not_or.mp hboth
          obtain ⟨c, hc⟩ := Option.ne_none_iff_exists'.mp hget
          exact free c ⟨g, n, hg, hn, Option.isSome_iff_ne_none.mpr hlookup, hc⟩
        refine Definition.value_corresponds_self
          (.of_free hfree fun n c args hn hl => ?_)
          (Block.within_calls (Names.within_all _)) _ _
        rw [calleeUnder]
        cases hk : c.plain? with
        | some k =>
            have hget : Dictionary.get? n raw = none := by
              obtain hnone | hget := hfree n hn
              · rw [hl] at hnone
                cases hnone
              · exact hget
            dsimp only
            rw [(calling_callee bound limit).plain hk]
            exact ih (.step hg hn hget hl hk) args
        | none =>
            cases c with
            | function k => cases hk
            | gateway k => cases hk
            | artifact a => exact .ofExcept _
            | native n => exact .ofOutcome _
            | bound i k overrides d =>
                exact Correspondence.preserving_iff.mpr (hbound k overrides args v)

theorem callUnder_eq_callAt (depth : Nat) {h : Function} (free : ∀ c, ¬ h.Meets raw v c)
    {g : Function} (hg : h.Reaches raw v g) (args : List Value) :
    callUnder raw bound limit depth g args v = callAt bound limit depth g args v := by
  obtain ⟨a, b, s, t, hx, hy, rfl, rfl, -⟩ | ⟨e, f, s, t, hx, hy, rfl, rfl, -⟩ | ⟨e, s, -, he⟩ :=
    (callUnder_corresponds hbound depth free hg args v v ⟨rfl, .refl v⟩).cases
  · exact hx.trans hy.symm
  · exact hx.trans hy.symm
  · exact he.elim

theorem RealizedBy.of_callUnder {g : Function} {a : Artifact} (free : ∀ c, ¬ g.Meets raw v c)
    (ha : g.RealizedBy Fault.Alike (callUnder raw bound limit) v a) :
    g.RealizedBy Fault.Alike (callAt bound limit) v a := by
  refine ⟨ha.live, ?_⟩
  filter_upwards [ha.yields] with d hd args
  have heq : callUnder raw bound limit d g args v = callAt bound limit d g args v :=
    callUnder_eq_callAt hbound d free .refl args
  rw [Run.Yields, ← heq]
  exact hd args

end

end Function

/-! ## What is linked for a replacement -/

namespace Pass

section

variable {f p : Function} {a : Artifact} {r c : Callable}
  (hbound : ∀ g overrides args, Act.Transparent (bound g overrides args))

/-- What plain runs of the replacements that a run of `p` calls come to. -/
def Sight (raw : Substitution) (v : World) (p g : Function) : Prop :=
  ∃ c h, p.Meets raw v c ∧ c.plain? = some h ∧ h.Reaches [] v g

include hbound

theorem untouched_sight (loaded : f.Loaded raw v) (closes : p.Closes raw v) :
    Untouched raw bound limit v (p.Reaches raw v) (Sight raw v p) := by
  have involved : ∀ g, Sight raw v p g → f.Involves raw v g := by
    rintro g ⟨c, h, ⟨-, n, -, -, -, hc⟩, hh, hg⟩
    exact hg.involves (.replacement hc hh)
  refine ⟨⟨?_, fun g g' hg hg' => loaded.numbered g g' (involved g hg) (involved g' hg')⟩,
    fun g hg => loaded.plain g (involved g hg), ?_⟩
  · rintro g ⟨c, h, hc, hh, hg⟩ n c' k hcalls hl hk
    exact ⟨c, h, hc, hh, .step hg hcalls rfl hl hk⟩
  · rintro g a ⟨c, h, hc, hh, hg⟩ ⟨hvisited, ha⟩
    exact ha.of_callUnder hbound (closes.common c h g hc hh hg hvisited)

/-- A replacement that is linked as it was given does what it does under the substitutions, if none
is to be made in it. -/
theorem answers_self (hc : p.Meets raw v c)
    (free : ∀ h, raw.pending? c = some h → ∀ c', ¬ h.Meets raw v c') :
    Answers raw bound limit v (Sight raw v p) c c := by
  constructor
  · rintro n rfl
    exact .of_forall fun d args => Run.Yields.ofOutcome _
  · rintro a rfl
    exact .of_forall fun d args => Run.Yields.ofExcept _
  · intro h hh
    refine ⟨⟨c, h, hc, hh, .refl⟩, fun a ha => ?_⟩
    filter_upwards [ha.yields] with d hd args
    have heq : Function.replacementUnder raw bound limit d c args v =
        Function.callAt bound limit d h args v := by
      rw [Function.replacementUnder]
      cases hp : raw.pending? c with
      | some k =>
          have hk : ∀ c', ¬ k.Meets raw v c' := free k hp
          obtain rfl := Substitution.pending?_eq_some hp
          obtain rfl := Option.some.inj hh
          exact Function.callUnder_eq_callAt hbound d hk .refl args
      | none =>
          dsimp only
          rw [(Function.calling_callee bound limit).plain hh]
    rw [Run.Yields, heq]
    exact hd args

/-- A pass over a replacement links the others as they were given. -/
theorem Setting.of_raw (same : ∀ n, Dictionary.get? n table = Dictionary.get? n raw)
    (loaded : f.Loaded raw v) (hp : f.Involves raw v p) (closes : p.Closes raw v) :
    Setting raw table bound limit v (p.Reaches raw v) (Sight raw v p) where
  readsBack g hg := loaded.readsBack g (hg.involves hp)
  callees g hg n c h hcalls hl hc hfree := .step hg hcalls hfree hl hc
  keys n hn := by rwa [same] at hn
  answers g hg n r hcalls hsome hr := by
    rw [same] at hr
    have hmeets : p.Meets raw v r := ⟨g, n, hg, hcalls, hsome, hr⟩
    exact ⟨r, hr, answers_self hbound hmeets fun h hh => closes.pending r h hmeets hh⟩
  untouched := untouched_sight hbound loaded closes

/-- What a pass of its own made of a replacement realizes it under the substitutions. -/
theorem Makes.realizes (same : ∀ n, Dictionary.get? n table = Dictionary.get? n raw)
    (loaded : f.Loaded raw v) (hp : f.Involves raw v p) (closes : p.Closes raw v)
    (keeps : w.Keeps v) (h : Makes table w p a) :
    p.RealizedBy Fault.Alike (Function.callUnder raw bound limit) v a := by
  obtain ⟨isolation, debug, s, t, hs, hpass⟩ := h
  have setting : Setting raw table bound limit v (p.Reaches raw v) (Sight raw v p) :=
    .of_raw hbound same loaded hp closes
  exact setting.substituteCompiled_realizes .refl
    (Sound.start (hs.keeps keeps) _ table isolation) hpass

end

/-! ## Finished replacements -/

section

variable {raw table : Substitution} {bound : BoundCall} {limit : Nat} {v w : World}
  {sight : Function → Prop} {f : Function} {a : Artifact} {r c : Callable}

theorem Answers.artifact_of (h : ∀ᶠ d in atTop, ∀ args,
    Run.Yields Fault.Alike v (Function.replacementUnder raw bound limit d c args) (a.call ampleFuel args)) :
    Answers raw bound limit v sight (.artifact a) c where
  native n hn := nomatch hn
  artifact b hb := by
    obtain rfl := Callable.artifact.inj hb
    exact h
  function h hh := nomatch hh

theorem Answers.native_of {m : Native} (h : ∀ᶠ d in atTop, ∀ args,
    Run.Yields Fault.Alike v (Function.replacementUnder raw bound limit d c args)
      ((m.call args).mapError .report)) :
    Answers raw bound limit v sight (.native m) c where
  native n hn := by
    obtain rfl := Callable.native.inj hn
    exact h
  artifact b hb := nomatch hb
  function h hh := nomatch hh

/-- What was prepared for a replacement does what the replacement does under the substitutions. -/
theorem Answers.of_prepared
    (hbound : ∀ g overrides args, Act.Transparent (bound g overrides args))
    (same : ∀ n, Dictionary.get? n table = Dictionary.get? n raw)
    (loaded : f.Loaded raw v) (shallow : f.Shallow raw v) (keeps : w.Keeps v)
    (hmet : f.Meets raw v c) (h : Substitution.Prepared table w c r) :
    Answers raw bound limit v sight r c := by
  have hpending := Substitution.pending?_congr (c := c) fun p _ => same p.name
  obtain ⟨-, n, -, -, -, hraw⟩ := id hmet
  cases h with
  | @made p a hp hmakes hr =>
      subst hr
      rw [hpending] at hp
      -- a function that waits was specialized under the substitutions
      have hinvolved : f.Involves raw v p := by
        obtain rfl := Substitution.pending?_eq_some hp
        exact .replacement hraw rfl
      have realized : p.RealizedBy Fault.Alike (Function.callUnder raw bound limit) v a :=
        hmakes.realizes hbound same loaded hinvolved (shallow c p hmet hp) keeps
      refine .artifact_of ?_
      filter_upwards [realized.yields] with d hd args
      rw [Function.replacementUnder, hp]
      exact hd args
  | @converted u u' hp hu hconvert =>
      rw [hpending] at hp
      cases c with
      | artifact b =>
          cases hconvert
          exact .artifact_of (.of_forall fun d args => Run.Yields.ofExcept _)
      | native m =>
          cases hconvert
          exact .native_of (.of_forall fun d args => Run.Yields.ofOutcome _)
      | gateway g => cases hconvert
      | bound i g overrides d => cases hconvert
      | function g =>
          obtain ⟨b, u₁, hcompile, hconvert⟩ := Run.bind_eq_ok hconvert
          cases hconvert
          -- any other one was compiled as it is
          have hkeeps := hu.keeps keeps
          have realized : g.RealizedBy Fault.Alike (Function.callAt bound limit) v b :=
            Function.compile_realizes (loaded.closed hkeeps) (.replacement hraw rfl) hcompile hkeeps
              bound limit
          refine .artifact_of ?_
          filter_upwards [realized.yields] with d hd args
          rw [Function.replacementUnder, hp]
          exact hd args

/-- The pass over a function works with what was prepared for the replacements. -/
theorem Setting.of_prepared
    (hbound : ∀ g overrides args, Act.Transparent (bound g overrides args))
    {sorted : Substitution} (same : ∀ n, Dictionary.get? n sorted = Dictionary.get? n raw)
    (keys : ∀ n, Dictionary.get? n table = none → Dictionary.get? n sorted = none)
    (prepared : ∀ n r, Dictionary.get? n table = some r →
      ∃ c, Dictionary.get? n sorted = some c ∧ Substitution.Prepared sorted w c r)
    (loaded : f.Loaded raw v) (shallow : f.Shallow raw v) (keeps : w.Keeps v) :
    Setting raw table bound limit v (f.Reaches raw v) fun _ => False where
  readsBack g hg := loaded.readsBack g (hg.involves .refl)
  callees g hg n c h hcalls hl hc hfree := .step hg hcalls hfree hl hc
  keys n hn := by
    rw [← same]
    exact keys n hn
  answers g hg n r hcalls hsome hr := by
    obtain ⟨c, hc, hprepared⟩ := prepared n r hr
    rw [same] at hc
    refine ⟨c, hc, ?_⟩
    exact .of_prepared hbound same loaded shallow keeps ⟨g, n, hg, hcalls, hsome, hc⟩ hprepared
  untouched := .of_none

end

end Pass

namespace Function

variable {f : Function} {overrides : List (String × Callable)} {debug : Bool} {a : Artifact}
  {w' : World}

theorem cached_eq_ok {key : CacheKey} {found : Option Artifact}
    (h : f.cached key debug w = (.ok found, w')) : found = w.cache.find? key := by
  rw [← Cache.get_fst]
  obtain ⟨w₁, w₂, hget, h⟩ := Run.bind_eq_ok h
  cases hget
  generalize w.cache.get key = looked at h ⊢
  obtain ⟨found', cache⟩ := looked
  obtain ⟨_, w₃, -, h⟩ := Run.bind_eq_ok h
  dsimp only at h
  split at h
  · obtain ⟨_, w₄, -, h⟩ := Run.bind_eq_ok h
    cases h
    rfl
  · cases h
    rfl

/-- A specialization was made anew, now or before. -/
theorem specialize_eq_ok {P : World → Prop} (h : f.specialize overrides debug w = (.ok a, w'))
    (now : ∀ t, w.Same t → P t)
    (kept : ∀ b, w.cache.find? (w.cacheKey f (unwrapOverrides overrides)) = some b →
      ∃ u u' debug, P u ∧ f.specializeAnew (unwrapOverrides overrides) debug u = (.ok b, u')) :
    ∃ u u' debug, P u ∧ f.specializeAnew (unwrapOverrides overrides) debug u = (.ok a, u') := by
  obtain ⟨w₁, w₂, hget, h⟩ := Run.bind_eq_ok h
  cases hget
  split at h
  · obtain ⟨found, s, hcached, h⟩ := Run.bind_eq_ok h
    have hs : w.Same s := (f.transparent_cached _ debug).same_of_eq hcached
    cases found with
    | some b =>
        cases h
        exact kept a (cached_eq_ok hcached).symm
    | none =>
        obtain ⟨_, t, hacyclic, h⟩ := Run.bind_eq_ok h
        obtain ⟨b, t', hanew, h⟩ := Run.bind_eq_ok h
        have ht : w.Same t := hs.trans ((f.transparent_checkAcyclic _).same_of_eq hacyclic)
        cases h
        exact ⟨t, t', debug, now t ht, hanew⟩
  · obtain ⟨_, t, hacyclic, h⟩ := Run.bind_eq_ok h
    have ht : w.Same t := (f.transparent_checkAcyclic _).same_of_eq hacyclic
    exact ⟨t, w', debug, now t ht, h⟩

theorem specializeAnew_realizes {limit : Nat} (distinct : (Dictionary.keys overrides).Nodup)
    (hbound : ∀ g overrides args, Act.Transparent (bound g overrides args))
    (loaded : f.Loaded overrides v) (shallow : f.Shallow overrides v) (keeps : w.Keeps v)
    (h : f.specializeAnew overrides debug w = (.ok a, w')) :
    f.RealizedBy Fault.Alike (callUnder overrides bound limit) v a := by
  obtain ⟨table, hkeys, hprepared, isolation, debug', s, t, hs, hpass⟩ := specializeAnew_eq_ok h
  have same := Dictionary.get?_sorted distinct
  have setting :
      Pass.Setting overrides table bound limit v (f.Reaches overrides v) fun _ => False :=
    .of_prepared hbound same (fun n hn => ?_) hprepared loaded shallow keeps
  · exact setting.substituteCompiled_realizes .refl
      (Pass.Sound.start (hs.keeps keeps) _ table isolation) hpass
  · rw [Dictionary.get?_eq_none_iff] at hn ⊢
    rwa [hkeys] at hn

/-- A specialization does what the function does under the substitutions, for as long as the
bindings stay, if no replacement that is called from a specialized replacement calls another one.
What is kept for the same substitutions was made for them, when the bindings were the same. -/
theorem specialize_specializes (distinct : (Dictionary.keys overrides).Nodup)
    (loaded : f.Loaded (unwrapOverrides overrides) v)
    (shallow : f.Shallow (unwrapOverrides overrides) v) (keeps : w.Keeps v)
    (kept : ∀ b, w.cache.find? (w.cacheKey f (unwrapOverrides overrides)) = some b →
      ∃ u u' debug, u.Keeps v ∧
        f.specializeAnew (unwrapOverrides overrides) debug u = (.ok b, u'))
    (h : f.specialize overrides debug w = (.ok a, w')) :
    f.SpecializedBy (unwrapOverrides overrides) v a := by
  have hdistinct : (Dictionary.keys (unwrapOverrides overrides)).Nodup := by
    rwa [Dictionary.keys, unwrapOverrides, List.map_map]
  refine RealizedBy.specializedBy fun limit => ?_
  obtain ⟨u, u', debug', hkeeps, hanew⟩ := specialize_eq_ok h (fun t ht => ht.keeps keeps) kept
  exact specializeAnew_realizes hdistinct (Gateway.transparent_callBound ampleFuel) loaded shallow
    hkeeps hanew

/-- A text in which a function calls a name, and some functions each of which calls another name. -/
def nestText : SourceText :=
  ⟨"m.fst", "fn a(x) { x }\nfn b(x) { x }\nfn c(x) { x }\nfn entry(x) { a(x) }\n" ++
    "fn first(x) { b(x) }\nfn second(x) { c(x) }\nfn last(x) { !x }\n"⟩

def nestA : Function := Pass.loadAt nestText 2 ⟨0, 13⟩

def nestB : Function := Pass.loadAt nestText 3 ⟨14, 27⟩

def nestC : Function := Pass.loadAt nestText 4 ⟨28, 41⟩

def nestEntry : Function := Pass.loadAt nestText 5 ⟨42, 62⟩

def nestFirst : Function := Pass.loadAt nestText 6 ⟨63, 83⟩

def nestSecond : Function := Pass.loadAt nestText 7 ⟨84, 105⟩

def nestLast : Function := Pass.loadAt nestText 8 ⟨106, 123⟩

def nestWorld : World :=
  { settings := { cache := false }
    nextId := 9
    namespaces := [(1, { name := "m"
                         globals := [("a", .callable (.function nestA)),
                           ("b", .callable (.function nestB)),
                           ("c", .callable (.function nestC)),
                           ("entry", .callable (.function nestEntry)),
                           ("first", .callable (.function nestFirst)),
                           ("second", .callable (.function nestSecond)),
                           ("last", .callable (.function nestLast))] })] }

/-- A replacement that calls another one. -/
def nestPair : List (String × Callable) := [("a", .function nestFirst), ("b", .function nestLast)]

/-- Replacements of which the last is called from one that is called from another one. -/
def nestTriple : List (String × Callable) :=
  [("a", .function nestFirst), ("b", .function nestSecond), ("c", .function nestLast)]

theorem nest_calls :
    nestEntry.definition.body.callSites.map CallSite.callee = [⟨"a", []⟩] ∧
      nestFirst.definition.body.callSites.map CallSite.callee = [⟨"b", []⟩] ∧
      ∀ f ∈ [nestLast, nestA, nestB], f.definition.body.callSites.map CallSite.callee = [] := by
  decide +kernel

theorem nestPair_replaces {n : String} {c : Callable} (h : Dictionary.get? n nestPair = some c) :
    c = .function nestFirst ∨ c = .function nestLast := by
  obtain h | h := List.mem_pair.mp (Dictionary.mem_of_get? h)
  · exact .inl (congrArg Prod.snd h)
  · exact .inr (congrArg Prod.snd h)

theorem nestEntry_involves {g : Function} (h : nestEntry.Involves nestPair nestWorld g) :
    g ∈ [nestEntry, nestFirst, nestLast, nestA, nestB] := by
  induction h with
  | refl => exact List.mem_cons_self
  | @replacement h n c hget hplain =>
      obtain rfl | rfl := nestPair_replaces hget
      · cases hplain
        simp
      · cases hplain
        simp
  | @callee g h n c _ hcalls hl hplain ih =>
      simp only [List.mem_cons, List.not_mem_nil, or_false] at ih
      obtain ⟨hentry, hfirst, hleaves⟩ := nest_calls
      obtain rfl | rfl | hg := ih
      · rw [Block.calls_iff, hentry, List.mem_singleton] at hcalls
        cases hcalls
        cases hl
        cases hplain
        simp
      · rw [Block.calls_iff, hfirst, List.mem_singleton] at hcalls
        cases hcalls
        cases hl
        cases hplain
        simp
      · rw [Block.calls_iff, hleaves g (by simpa using hg)] at hcalls
        cases hcalls

theorem nestEntry_loaded : nestEntry.Loaded nestPair nestWorld := by
  have one : ∀ g ∈ [nestEntry, nestFirst, nestLast, nestA, nestB],
      Pass.isOneFunction g.extract = true ∧ g.ReadsBack := by
    simp only [List.forall_mem_cons]
    refine ⟨⟨?_, Pass.readsBack_loadAt ?_⟩, ⟨?_, Pass.readsBack_loadAt ?_⟩,
      ⟨?_, Pass.readsBack_loadAt ?_⟩, ⟨?_, Pass.readsBack_loadAt ?_⟩,
      ⟨?_, Pass.readsBack_loadAt ?_⟩, fun g hg => nomatch hg⟩
    all_goals decide +kernel
  refine ⟨fun g hg => (one g (nestEntry_involves hg)).2, fun g hg => ?_, fun g h hg hh hid => ?_⟩
  · obtain ⟨hone, readsBack⟩ := one g (nestEntry_involves hg)
    cases hunit : g.extract with
    | error d =>
        rw [hunit] at hone
        cases hone
    | ok unit =>
        obtain ⟨span, rfl⟩ := readsBack unit hunit
        exact within_plain_of_extract hunit
  · have distinct : ([nestEntry, nestFirst, nestLast, nestA, nestB].map Function.id).Nodup := by
      decide
    exact List.inj_on_of_nodup_map distinct (nestEntry_involves hg) (nestEntry_involves hh) hid

theorem nestEntry_overridden {n : String} (h : nestEntry.definition.body.Calls ⟨n, []⟩) :
    Dictionary.get? n nestPair = some (.function nestFirst) := by
  rw [Block.calls_iff, nest_calls.1, List.mem_singleton] at h
  cases h
  rfl

theorem nestFirst_overridden {n : String} (h : nestFirst.definition.body.Calls ⟨n, []⟩) :
    Dictionary.get? n nestPair = some (.function nestLast) := by
  rw [Block.calls_iff, nest_calls.2.1, List.mem_singleton] at h
  cases h
  rfl

theorem nestLast_not_calls (p : Path) : ¬ nestLast.definition.body.Calls p := by
  rw [Block.calls_iff, nest_calls.2.2 nestLast List.mem_cons_self]
  exact List.not_mem_nil

theorem nestEntry_shallow : nestEntry.Shallow nestPair nestWorld := by
  have free : ∀ c, ¬ nestLast.Meets nestPair nestWorld c := by
    intro c hc
    obtain ⟨n, hcalls, -⟩ := hc.called fun n hn => absurd hn (nestLast_not_calls _)
    exact nestLast_not_calls _ hcalls
  have hfirst : ∀ c, nestFirst.Meets nestPair nestWorld c → c = .function nestLast := by
    intro c hc
    obtain ⟨n, hcalls, hget⟩ := hc.called fun n hn => by
      rw [nestFirst_overridden hn]
      exact Option.some_ne_none _
    rw [nestFirst_overridden hcalls] at hget
    exact (Option.some.inj hget).symm
  intro c p hc hp
  obtain ⟨n, hcalls, hget⟩ := hc.called fun n hn => by
    rw [nestEntry_overridden hn]
    exact Option.some_ne_none _
  rw [nestEntry_overridden hcalls] at hget
  cases hget
  obtain rfl := Callable.function.inj (Substitution.pending?_eq_some hp)
  refine ⟨fun c h hc hh => ?_, fun c h g hc hh hg _ => ?_⟩
  · obtain rfl := hfirst c hc
    obtain rfl := Callable.function.inj (Substitution.pending?_eq_some hh)
    exact free
  · obtain rfl := hfirst c hc
    cases hh
    have hleaf : g = nestLast := hg.eq_of_overridden fun n hn => absurd hn (nestLast_not_calls _)
    rw [hleaf]
    exact free

theorem specialize_specializes_nestPair :
    ∃ a w', nestEntry.specialize nestPair false nestWorld = (.ok a, w') ∧
      nestEntry.SpecializedBy nestPair nestWorld a := by
  have hok : (nestEntry.specialize nestPair false nestWorld).1.isOk = true := by decide +kernel
  rcases h : nestEntry.specialize nestPair false nestWorld with ⟨e | a, w'⟩
  · rw [h] at hok
    cases hok
  · have distinct : (Dictionary.keys nestPair).Nodup := by decide
    refine ⟨a, w', rfl, specialize_specializes distinct nestEntry_loaded nestEntry_shallow ?_ ?_ h⟩
    · exact fun id hlive => ⟨hlive, fun _ => rfl⟩
    · exact fun b hb => nomatch hb

/-- A replacement that is called from a specialized replacement is linked as it was given, so what
it calls is not replaced. -/
theorem specialize_not_specializes :
    ∃ a w', nestEntry.specialize nestTriple false nestWorld = (.ok a, w') ∧
      ¬ nestEntry.SpecializedBy nestTriple nestWorld a := by
  have hcheck : ((nestEntry.specialize nestTriple false nestWorld).1.toOption.any fun a =>
      Pass.isBool true (a.call ampleFuel [.bool true]) &&
        Pass.isBool false (nestEntry.callUnder nestTriple (Gateway.callBound ampleFuel) 1000 1000
          [.bool true] nestWorld).1) = true := by decide +kernel
  rcases h : nestEntry.specialize nestTriple false nestWorld with ⟨e | a, w'⟩
  · rw [h] at hcheck
    cases hcheck
  · rw [h] at hcheck
    obtain ⟨ha, hrun⟩ := Bool.and_eq_true_iff.mp hcheck
    refine ⟨a, w', rfl, fun hspecialized => ?_⟩
    have hagree := hspecialized.agrees 1000 1000 [.bool true]
    rw [Pass.eq_ok_of_isBool ha, Pass.eq_ok_of_isBool hrun] at hagree
    have heq : Value.bool false = Value.bool true := hagree fun e he => nomatch he
    cases heq

end Function

end Graft
