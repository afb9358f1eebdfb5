import Graft.Proofs.Engines
import Graft.Proofs.Exploring
import Graft.Proofs.PassSources
import Graft.Proofs.Targets

/-!
# Specializing a pass with a hook

A specialization of a core pass redirects the calls of its hook to an alias, and compiling links the
alias to what was made for the hook. What that makes of the pass is told once for every pass that
calls nothing but its hook and the length.
-/

namespace Graft

namespace CorePasses

/-- A core pass whose body is known under every name of its hook, and what the body becomes when the
hook and the length are linked at once. -/
structure HookedPass extends PassSource where
  /-- The body, whose hook is called under a name. -/
  body : String → Block
  /-- The names that have slots, the parameters first. -/
  slots : List String
  /-- The steps of the body, from the outer values of its names and what the hook is linked to. -/
  steps : (String → Option Value) → Compile.Target → Steps
  renamed : Pass.renameCalls ["value"] definition.body = body (overrideAlias "value")
  called : Pass.calledInOrder definition.body = ["len", "value"] ∨
    Pass.calledInOrder definition.body = ["value", "len"]
  layout : Compile.layout { definition with body := body (overrideAlias "value") } = slots
  gives : ∀ {c : Compile.Context} {hook : String} {t : Compile.Target}, c.layout = slots →
    (∀ span st, c.link "len" span st = .ok (.native .len, st)) →
    (∀ span st, c.link hook span st = .ok (t, st)) →
    (Block.lower c (body hook)).Gives (steps c.outer? t)

/-! ## The pass over the definition -/

/-- The alias of the hook is bound to what the hook was replaced with, and the length is not
bound. -/
structure HookBound (f : Function) (t : Compile.Target) (s : Pass.State) : Prop where
  live : (s.world.namespace? f.home).isSome
  len : s.lookup f.home "len" = none
  hook : s.lookup f.home (overrideAlias "value") = some (.callable t.callable)
  matched : s.matched = ["value"]

namespace HookedPass

/-- The function is the pass with its hook called under the alias. -/
structure Redirected (p : HookedPass) (f g : Function) : Prop where
  home : g.home = f.home
  params : g.definition.params = p.definition.params
  body : g.definition.body = p.body (overrideAlias "value")

/-- The artifact is the pass with its hook linked. -/
def LinkedTo (p : HookedPass) (t : Compile.Target) (a : Artifact) : Prop :=
  ∃ info outer, a = .mk info p.slots.length (p.steps outer t) ∧
    info.definition.params.length = p.definition.params.length

end HookedPass

variable {w : World} {f g : Function} {t : Compile.Target} {debug : Bool} {isolation : Isolation}

namespace PassSource.Bound

section

variable {p : PassSource}

theorem extract (h : p.Bound w f) : f.extract = .ok ⟨[.function p.definition p.span]⟩ := by
  rw [Function.extract, h.origin]
  dsimp only
  rw [show p.text.text = p.source from rfl, p.ofScan]

theorem live (h : p.Bound w f) : (w.namespace? f.home).isSome := by
  have hhook := h.hook
  rw [World.lookup] at hhook
  cases hns : w.namespace? f.home with
  | none =>
      rw [hns] at hhook
      cases hhook
  | some ns => rfl

theorem of_same (h : p.Bound w f) {v : World} (hv : w.Same v) : p.Bound v f where
  origin := h.origin
  definition := h.definition
  hook := by
    rw [← hv.lookup]
    exact h.hook
  len := by rw [← hv.lookup, h.len]

/-- Deciding the hook replaces it. -/
theorem decide_hook_ok (h : p.Bound w f) (t : Compile.Target) (debug : Bool)
    (callee : Function → Pass Artifact) {s : Pass.State}
    (hs : (Pass.State.start isolation w).Alike s) (hmatched : s.matched = []) :
    ∃ u, Pass.decide [("value", t.callable)] debug callee f.home "value" s = (.ok true, u) ∧
      HookBound f t u := by
  have hlookup : ∀ n, s.lookup f.home n = w.lookup f.home n := fun n => by
    rw [hs.lookup, Pass.State.lookup_start]
  have hlive : (s.world.namespace? f.home).isSome := by
    rw [hs.namespace?]
    exact h.live
  obtain ⟨g, hg⟩ := Option.isSome_iff_exists.mp h.hook
  have hreplaced : Dictionary.get? "value" [("value", t.callable)] = some t.callable := rfl
  obtain ⟨u, hu, halike, hnames⟩ :=
    Pass.decide_overridden debug callee ((hlookup _).trans hg) hreplaced
  have hmeet : s.meet f.home "value" t.callable =
      s.install f.home (overrideAlias "value") "value" (.callable t.callable) := by
    rw [Pass.State.meet, hs.registry]
    exact if_neg Bool.false_ne_true
  rw [hmeet] at halike
  refine ⟨u, hu, ?_, ?_, ?_, ?_⟩
  · rw [halike.namespace?, Pass.State.isSome_namespace?_install]
    exact hlive
  · have hne : "len" ≠ overrideAlias "value" := by decide
    rw [halike.lookup, Pass.State.lookup_install hlive, if_neg fun hn => hne hn.2, hlookup, h.len]
  · rw [halike.lookup, Pass.State.lookup_install hlive, if_pos ⟨rfl, rfl⟩]
  · rw [hnames, hmatched]
    rfl

end

variable {p : HookedPass}

/-- Deciding the names that it calls replaces the hook and nothing else. -/
theorem decideAll_ok (h : p.Bound w f) {callee : Function → Pass Artifact} {s : Pass.State}
    (hs : (Pass.State.start isolation w).Alike s) (hmatched : s.matched = []) :
    ∃ u, Pass.decideAll [("value", t.callable)] debug callee f.home
        (Pass.calledInOrder p.definition.body) s = (.ok ["value"], u) ∧ HookBound f t u := by
  obtain ⟨u, hu, hbound⟩ := h.decide_hook_ok t debug callee hs hmatched
  -- nothing binds the length, so nothing is done for it, before the hook or after it
  have hlen : s.lookup f.home "len" = none := by
    rw [hs.lookup, Pass.State.lookup_start, h.len]
  refine ⟨u, ?_, hbound⟩
  obtain hcalled | hcalled := p.called
  · rw [hcalled, Pass.decideAll, Run.bind_ok (Pass.decide_unbound _ _ _ hlen), Pass.decideAll,
      Run.bind_apply, Run.bind_ok hu]
    rfl
  · rw [hcalled, Pass.decideAll, Run.bind_ok hu, Pass.decideAll, Run.bind_apply,
      Run.bind_ok (Pass.decide_unbound _ _ _ hbound.len)]
    rfl

theorem substitute_ok (h : p.Bound w f) (t : Compile.Target) (debug : Bool)
    (isolation : Isolation) :
    ∃ g u, Pass.substitute [("value", t.callable)] debug f (.start isolation w) = (.ok g, u) ∧
      p.Redirected f g ∧ HookBound f t u := by
  have hname : p.definition.name.text = f.name := by rw [Function.name, h.definition]
  have hplace : f.declaredAt = some p.span.start := by rw [Function.declaredAt, h.origin]
  have hlive : ((Pass.State.start isolation w).world.namespace? f.home).isSome := h.live
  obtain ⟨g, u, u₁, hg, hbound, halike, hmatched, hmade⟩ :=
    Pass.substituteFunction_ok [("value", t.callable)] debug
      (fun g => do
        Pass.compile (← Pass.specialize [("value", t.callable)] debug w.bindingCount
          ([] ++ [(f.id, f.name)]) g))
      h.extract hname hplace hlive fun s₁ hs₁ hm => h.decideAll_ok hs₁ hm
  have hplaced : (Pass.renameCalls ["value"] p.definition.body).Placed := by
    rw [Pass.renameCalls_eq]
    exact Block.retouch_placed (Function.placed_of_extract h.extract)
  rw [Function.fixSpans_of_placed hplaced, p.renamed] at hmade
  refine ⟨g, u, ?_, ⟨?_, ?_, ?_⟩, ?_, ?_, ?_, ?_⟩
  · rw [Pass.substitute, Run.bind_apply, Run.get_apply]
    dsimp only
    rw [Pass.fuelFor, Pass.specialize, List.any_nil, if_neg Bool.false_ne_true]
    exact hg
  · rw [hmade]
    rfl
  · rw [hmade]
    rfl
  · rw [hmade]
    rfl
  · rw [halike.namespace?]
    exact hbound.live
  · rw [halike.lookup, hbound.len]
  · rw [halike.lookup, hbound.hook]
  · rw [hmatched, hbound.matched]

end PassSource.Bound

/-! ## Compiling it -/

namespace HookedPass.Redirected

variable {p : HookedPass}

theorem layout (h : p.Redirected f g) : Compile.layout g.definition = p.slots := by
  have hd : Compile.layout { g.definition with
      params := p.definition.params, body := p.body (overrideAlias "value") } = p.slots := p.layout
  rwa [← h.params, ← h.body] at hd

theorem compileUnit_ok (h : p.Redirected f g) {s : Pass.State} (hs : HookBound f t s)
    (callee : Function → Compile Artifact) (st : Compile.State) :
    ∃ a st', Compile.compileUnit (s.registry.table.linker s.world) callee g st = .ok (a, st') ∧
      p.LinkedTo t a := by
  have hlive : (s.registry.table.linker s.world).isLive g.home = true := by
    rw [h.home]
    exact hs.live
  let c := Compile.Context.ofFunction (s.registry.table.linker s.world) callee g
  have hgives : (Block.lower c g.definition.body).Gives (p.steps c.outer? t) := by
    rw [h.body]
    refine p.gives h.layout (fun span st => ?_) fun span st => ?_
    · refine Compile.linkName_builtin ?_ rfl span st
      rw [h.home]
      exact hs.len
    · refine Compile.linkName_bound ?_ span st
      rw [h.home]
      exact hs.hook
  obtain ⟨info, st', hunit, hinfo⟩ := Compile.compileUnit_gives hlive hgives st
  rw [h.layout] at hunit
  exact ⟨_, st', hunit, info, c.outer?, rfl, by rw [hinfo, h.params]⟩

theorem compile_ok (h : p.Redirected f g) {s : Pass.State} (hs : HookBound f t s) :
    ∃ a u, Pass.compile g s = (.ok a, u) ∧ p.LinkedTo t a ∧ u.matched = ["value"] := by
  obtain ⟨a, st, hunit, ha⟩ := h.compileUnit_ok hs
    (Compile.function (s.registry.table.linker s.world) (s.registry.table.linker s.world).bound
      [(g.id, g.name)]) { nextId := s.world.nextId }
  refine ⟨a, { s with world := { s.world with nextId := st.nextId } }, ?_, ha, hs.matched⟩
  rw [Pass.compile_apply, Linker.compile_eq_compileUnit, hunit]
  rfl

end HookedPass.Redirected

/-! ## Specializing it -/

theorem prepare_callable (debug : Bool) (t : Compile.Target) :
    Substitution.prepare [("value", t.callable)] isolation debug w =
      (.ok ([("value", t.callable)], []), w) := by
  cases t <;> rfl

namespace PassSource.Bound

variable {p : HookedPass}

theorem lastPass_ok (h : p.Bound w f) (t : Compile.Target) (debug : Bool)
    (isolation : Isolation) (used : List String) (strict : Bool) :
    ∃ a u, f.lastPass [("value", t.callable)] used strict debug (.start isolation w) = (.ok a, u) ∧
      p.LinkedTo t a := by
  obtain ⟨g, u, hg, hredirected, hu⟩ := h.substitute_ok t debug isolation
  obtain ⟨a, u', ha, hlinked, hmatched⟩ := hredirected.compile_ok hu
  refine ⟨a, u', ?_, hlinked⟩
  have hcompiled : Pass.substituteCompiled [("value", t.callable)] debug f (.start isolation w) =
      (.ok a, u') := by
    rw [Pass.substituteCompiled, Run.bind_ok hg, ha]
  have hidle : ((Dictionary.keys [("value", t.callable)]).filter fun name =>
      !(Ordered.union used ["value"]).contains name) = [] := by
    have hmem : "value" ∈ Ordered.union used ["value"] := by simp [Ordered.mem_union]
    simp [Dictionary.keys, hmem]
  rw [Function.lastPass, Run.bind_ok hcompiled, Run.bind_apply, Run.get_apply]
  dsimp only
  rw [hmatched, hidle]
  rfl

/-- Where the hook is made a replacement, the pass is made of it. -/
theorem specializeAnew_ok (h : p.Bound w f) {hook : Callable} {used : List String}
    {v : World} (hprepare : Substitution.prepare [("value", hook)] w.settings.isolation debug w =
      (.ok ([("value", t.callable)], used), v)) :
    ∃ a w', f.specializeAnew [("value", hook)] debug w = (.ok a, w') ∧ p.LinkedTo t a := by
  have hv : w.Same v := (Substitution.transparent_prepare _).same_of_eq hprepare
  obtain ⟨a, u, ha, hlinked⟩ := (h.of_same hv).lastPass_ok t debug
    w.settings.isolation used w.settings.strictOverrides
  rw [Pass.State.start] at ha
  have hwithin : ∃ matched w', Pass.within (.ofIsolation w.settings.isolation) debug
      (f.lastPass [("value", t.callable)] used w.settings.strictOverrides debug) v =
        (.ok (a, matched), w') := by
    rw [Pass.within_apply, ha]
    exact ⟨_, _, rfl⟩
  obtain ⟨matched, w', hwithin⟩ := hwithin
  refine ⟨a, w', ?_, hlinked⟩
  rw [Function.specializeAnew_eq, Run.bind_apply, Run.get_apply]
  dsimp only
  rw [show Dictionary.sorted [("value", hook)] = [("value", hook)] from rfl, Run.bind_ok hprepare]
  dsimp only
  rw [Run.bind_ok hwithin]
  rfl

/-- A new specialization is the pass, linked to what was made for the hook. -/
theorem specializeAnew_eq_ok (h : p.Bound w f) {hook : Callable} {a : Artifact} {w' : World}
    (hok : f.specializeAnew [("value", hook)] debug w = (.ok a, w')) :
    ∃ t, p.LinkedTo t a ∧ Substitution.Prepared [("value", hook)] w hook t.callable := by
  obtain ⟨table, used, v, s, s', hprepare, -⟩ := Function.specializeAnew_steps hok
  rw [show Dictionary.sorted [("value", hook)] = [("value", hook)] from rfl] at hprepare
  have hdistinct : (Dictionary.keys [("value", hook)]).Nodup := List.nodup_singleton _
  obtain ⟨-, hkeys, hprepared⟩ := Substitution.prepare_eq_ok hdistinct hprepare
  obtain ⟨r, rfl⟩ : ∃ r, table = [("value", r)] := by
    obtain ⟨⟨n, r⟩, rfl, hn⟩ := List.map_eq_singleton_iff.mp hkeys
    exact ⟨r, by rw [show n = "value" from hn]⟩
  obtain ⟨c, hc, hr⟩ := hprepared "value" r rfl
  obtain rfl : hook = c := Option.some.inj hc
  obtain ⟨t, rfl⟩ := hr.exists_target
  obtain ⟨b, w₁, hb, hlinked⟩ := h.specializeAnew_ok hprepare
  rw [hok] at hb
  cases hb
  exact ⟨t, hlinked, hr⟩

/-- It calls nothing but its hook that could call back. -/
theorem checkAcyclic_ok (h : p.Bound w f) (hook : Callable) :
    f.checkAcyclic [("value", hook)] w = (.ok ⟨⟩, w) := by
  obtain ⟨ns, hns⟩ := Option.isSome_iff_exists.mp h.live
  have hhome : w.home f = .ok ns := by rw [World.home, hns]
  have hcallees : CallGraph.callees w ["value"] f = [] := by
    refine List.eq_nil_iff_forall_not_mem.mpr fun c hc => ?_
    obtain ⟨n, d, hfree, hcalls, hl, -⟩ := CallGraph.mem_callees_iff.mp hc
    have hn : n ∈ Pass.calledInOrder p.definition.body := by
      rw [Pass.mem_calledInOrder, ← h.definition]
      exact hcalls
    have hlen : n = "len" := by
      obtain hcalled | hcalled := p.called <;>
        · rw [hcalled] at hn
          simp_all
    rw [hlen, h.len] at hl
    cases hl
  have hbuild : CallGraph.build w f ["value"] = .ok ⟨[f], []⟩ := by
    rw [CallGraph.build, CallGraph.explore]
    simp only [List.getElem?_cons_zero, hhome, hcallees, List.foldl_nil]
    cases w.bindingCount with
    | zero => rfl
    | succ n => rfl
  rw [Function.checkAcyclic, Run.bind_apply, Run.get_apply]
  dsimp only
  rw [show Dictionary.keys [("value", hook)] = ["value"] from rfl, hbuild]
  rfl

/-- With a primitive or an artifact for its hook the pass can always be specialized. -/
theorem specialize_ok (h : p.Bound w f) (t : Compile.Target) (debug : Bool) :
    ∃ a w', f.specialize [("value", t.callable)] debug w = (.ok a, w') := by
  have hraw : unwrapOverrides [("value", t.callable)] = [("value", t.callable)] := by
    cases t <;> rfl
  have fresh : ∀ v, w.Same v → ∃ a v',
      f.specializeFresh (unwrapOverrides [("value", t.callable)]) debug v = (.ok a, v') := by
    intro v hv
    obtain ⟨a, v', ha, -⟩ := (h.of_same hv).specializeAnew_ok (prepare_callable debug t)
    refine ⟨a, v', ?_⟩
    rw [hraw, Function.specializeFresh, Run.bind_ok ((h.of_same hv).checkAcyclic_ok _), ha]
  cases hcache : w.settings.cache with
  | false =>
      rw [Function.specialize_of_uncached hcache]
      exact fresh w (.refl w)
  | true =>
      cases hit : w.cache.find? (w.cacheKey f (unwrapOverrides [("value", t.callable)])) with
      | some a =>
          obtain ⟨v, hv, -⟩ := Function.specialize_of_hit hcache hit debug
          exact ⟨a, v, hv⟩
      | none =>
          obtain ⟨v, hv, -, -, hspecialize⟩ := Function.specialize_of_miss hcache hit debug
          obtain ⟨a, v', ha⟩ := fresh v hv
          rw [hspecialize, Run.bind_ok ha]
          exact ⟨a, _, rfl⟩

/-- Where the pass is specialized anew, it is as it was loaded. -/
theorem of_specializeAnew {p : PassSource} (h : p.Bound w f) {u u' : World} {hook : Callable}
    {a : Artifact} (keeps : u.Keeps w)
    (hok : f.specializeAnew [("value", hook)] debug u = (.ok a, u')) : p.Bound u f := by
  have hlive : (u.namespace? f.home).isSome := by
    obtain ⟨table, used, v, s, s', hprepare, hpass, -⟩ := Function.specializeAnew_steps hok
    obtain ⟨g, s₁, hpass, -⟩ := Run.bind_eq_ok hpass
    obtain ⟨s₂, s₃, hget, hpass⟩ := Run.bind_eq_ok hpass
    cases hget
    rw [Pass.fuelFor, Pass.specialize, List.any_nil, if_neg Bool.false_ne_true] at hpass
    obtain ⟨s₄, -, -, ⟨halike, -⟩, hlive, -⟩ := Pass.substituteFunction_of_extract h.extract hpass
    have hv : u.Same v := (Substitution.transparent_prepare _).same_of_eq hprepare
    rw [hv.spaces]
    rwa [halike.namespace?] at hlive
  have hlookup := (keeps f.home hlive).2
  refine ⟨h.origin, h.definition, ?_, ?_⟩
  · rw [← hlookup]
    exact h.hook
  · rw [← hlookup, h.len]

end PassSource.Bound

/-! ## What it is specialized to -/

/-- What is asked of a hook: it is a primitive or an artifact, or a function that is as it was read,
that the pass can be specialized with, and that comes to no call which the specialization replaces;
and what the cache holds was made under the same bindings. -/
structure Suits (w : World) (f : Function) (debug : Bool) (hook : Callable) : Prop where
  loaded : ∀ p, hook.plain? = some p → p.Loaded (unwrapOverrides [("value", hook)]) w
  free : ∀ p, Substitution.pending? (unwrapOverrides [("value", hook)]) hook.unwrapped = some p →
    ∀ c, ¬ p.Meets (unwrapOverrides [("value", hook)]) w c
  kept : ∀ b, w.cache.find? (w.cacheKey f (unwrapOverrides [("value", hook)])) = some b →
    ∃ u u' debug, u.Keeps w ∧
      f.specializeAnew (unwrapOverrides [("value", hook)]) debug u = (.ok b, u')
  ready : (∃ t : Compile.Target, hook = t.callable) ∨
    ∃ a w', f.specialize [("value", hook)] debug w = (.ok a, w')

/-- A function that reads back and calls nothing suits where nothing is cached. -/
theorem Suits.of_leaf {p : Function} (one : Pass.isOneFunction p.extract = true)
    (reads : p.ReadsBack) (leaf : p.definition.body.callSites = [])
    (uncached : ∀ key, w.cache.find? key = none)
    (ready : (f.specialize [("value", .function p)] debug w).1.isOk = true) :
    Suits w f debug (.function p) := by
  have not_calls : ∀ q, ¬ p.definition.body.Calls q := fun q hq => by
    rw [Block.calls_iff, leaf] at hq
    cases hq
  have hraw : unwrapOverrides [("value", .function p)] = [("value", .function p)] := rfl
  have involves : ∀ q, p.Involves [("value", .function p)] w q → q = p := by
    intro q hq
    induction hq with
    | refl => rfl
    | replacement hget hplain =>
        obtain rfl := congrArg Prod.snd (List.mem_singleton.mp (Dictionary.mem_of_get? hget))
        exact (Option.some.inj hplain).symm
    | callee _ hcalls _ _ ih =>
        subst ih
        exact absurd hcalls (not_calls _)
  have loaded : p.Loaded [("value", .function p)] w := by
    refine ⟨fun q hq => ?_, fun q hq => ?_, fun q r hq hr _ => ?_⟩
    · exact involves q hq ▸ reads
    · obtain rfl := involves q hq
      cases hunit : q.extract with
      | error d =>
          rw [hunit] at one
          cases one
      | ok unit =>
          obtain ⟨span, rfl⟩ := reads unit hunit
          exact Function.within_plain_of_extract hunit
    · exact (involves q hq).trans (involves r hr).symm
  refine ⟨fun q hq => ?_, fun q hq c hc => ?_, fun b hb => ?_, .inr (Run.exists_of_isOk ready)⟩
  · exact Option.some.inj hq ▸ loaded
  · rw [hraw] at hq
    obtain rfl := Callable.function.inj (Substitution.pending?_eq_some hq)
    obtain ⟨n, hcalls, -⟩ := hc.called fun n hn => absurd hn (not_calls _)
    exact not_calls _ hcalls
  · rw [uncached] at hb
    cases hb

/-- A specialization with a hook that suits is the pass, linked to what the hook is linked as. -/
theorem Suits.specialize_linked {p : HookedPass} {hook : Callable} (suits : Suits w f debug hook)
    (pass : p.Bound w f) :
    ∃ a w' t, f.specialize [("value", hook)] debug w = (.ok a, w') ∧ LinkedAs w hook t ∧
      p.LinkedTo t a := by
  obtain ⟨a, w', hok⟩ : ∃ a w', f.specialize [("value", hook)] debug w = (.ok a, w') := by
    obtain ⟨t, rfl⟩ | hok := suits.ready
    · exact pass.specialize_ok t debug
    · exact hok
  have hraw : unwrapOverrides [("value", hook)] = [("value", hook.unwrapped)] := rfl
  -- at some time it was specialized anew, under the bindings of now
  obtain ⟨u, u', debug', ⟨hkeeps, hpass⟩, hanew⟩ := Function.specialize_eq_ok
    (P := fun u => u.Keeps w ∧ p.Bound u f) hok
    (fun v hv => ⟨hv.keeps fun id hlive => ⟨hlive, fun _ => rfl⟩, pass.of_same hv⟩)
    fun b hb => by
      obtain ⟨u, u', debug', hkeeps, hanew⟩ := suits.kept b hb
      exact ⟨u, u', debug', ⟨hkeeps, pass.of_specializeAnew hkeeps hanew⟩, hanew⟩
  -- what the hook was made into then is what it is linked as now
  obtain ⟨t, hlinked, hprepared⟩ := hpass.specializeAnew_eq_ok hanew
  refine ⟨a, w', t, hok, .of_unwrapped (hprepared.linkedAs (fun q hq => suits.loaded q ?_)
    suits.free hkeeps), hlinked⟩
  rw [← Callable.plain?_unwrapped, hq]
  rfl

end CorePasses

end Graft
