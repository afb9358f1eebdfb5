import Graft.Proofs.Substituting

/-!
# Rewritten functions

A function that a pass rewrote, compiled against the bindings of the pass, does what the function
does under the substitutions. What a replacement does when it is linked is a condition on it.
-/

namespace Graft

open Filter (atTop)

variable {raw table : Substitution} {bound : BoundCall} {limit : Nat} {v : World}
  {visits sight : Function → Prop}

namespace Pass

/-! ## Calls under their aliases -/

/-- The path that was called before the calls of the names went to their aliases. -/
def restorePath (names : List String) (p : Path) : Path :=
  match names.find? fun n => p = ⟨overrideAlias n, []⟩ with
  | some n => ⟨n, []⟩
  | none => p

theorem restorePath_renamePath {names : List String} {p : Path} (hp : PlainName p.first) :
    restorePath names (renamePath names p) = p := by
  have kept : restorePath names p = p := by
    rw [restorePath]
    split
    · next n hfind =>
        have hn : p = ⟨overrideAlias n, []⟩ := by simpa using List.find?_some hfind
        exact absurd (congrArg Path.first hn) (hp n)
    · rfl
  rw [renamePath]
  split
  · next n hs =>
      obtain rfl := Path.single?_eq_some.mp hs
      split
      · next hmem =>
          rw [restorePath]
          split
          · next m hfind =>
              have hm : (⟨overrideAlias n, []⟩ : Path) = ⟨overrideAlias m, []⟩ := by
                simpa using List.find?_some hfind
              rw [overrideAlias_inj (congrArg Path.first hm)]
          · next hfind =>
              rw [List.find?_eq_none] at hfind
              exact absurd (by simp) (hfind n (List.contains_iff_mem.mp hmem))
      · exact kept
  · exact kept

theorem restorePath_of_not_single {names : List String} {p : Path} (hp : p.single? = none) :
    restorePath names p = p := by
  rw [restorePath]
  split
  · next n hfind =>
      have hn : p = ⟨overrideAlias n, []⟩ := by simpa using List.find?_some hfind
      rw [hn] at hp
      cases hp
  · rfl

/-- A scope in which the names are called under their aliases. -/
def scopeRenamed {σ : Type} (names : List String) (scope : Scope σ) : Scope σ :=
  { scope with call := fun p => scope.call (restorePath names p) }

/-- Where names are called under their aliases, a rewritten function does what the function does. -/
theorem Rewritten.value_yields {f g : Function} {names : List String} (hg : Rewritten f names g)
    (hf : f.definition.Within .plain) {scope : Scope World} {fuel : Nat} {args : List Value}
    {y : Except Fault Value}
    (houter : ∀ n span span', Correspondence.agreement.Runs Eq (scope.outer n span)
      (scope.outer n span'))
    (h : Run.Yields Fault.Alike v (g.definition.value (scopeRenamed names scope) fuel args) y) :
    Run.Yields Fault.Alike v (f.definition.value scope fuel args) y := by
  obtain ⟨respan, hbody⟩ := hg.body
  obtain ⟨middle, hbody₁, hparams₁⟩ : ∃ d : Definition,
      d.body = f.definition.body.retouch (renamePath names) id ∧ d.params = f.definition.params :=
    ⟨{ f.definition with body := f.definition.body.retouch (renamePath names) id }, rfl, rfl⟩
  have hparams : g.definition.params = middle.params := hg.params.trans hparams₁.symm
  rw [← hbody₁] at hbody
  have hrename : scope.Corresponds Correspondence.agreement .plain (renamePath names)
      (scopeRenamed names scope) := by
    refine ⟨fun n span span' _ => houter n span span', fun p args span hp => ?_⟩
    dsimp only [scopeRenamed]
    rw [restorePath_renamePath hp]
    exact Correspondence.agreement_refl _
  have hrespan : (scopeRenamed names scope).Corresponds Correspondence.agreement .all id
      (scopeRenamed names scope) :=
    ⟨fun n span span' _ => houter n span span', fun _ _ _ _ => Correspondence.agreement_refl _⟩
  exact Correspondence.yields_of_agreement
    (Definition.value_corresponds (fun _ => trivial) hrename hf.uses hparams₁ hbody₁ fuel args)
    (Correspondence.yields_of_agreement
      (Definition.value_corresponds (fun _ => trivial) hrespan (Names.within_all _) hparams hbody
        fuel args) h)

/-! ## Linking during a pass -/

/-- What is linked for the replacement `r` does what a call of the replacement `c` does under the
substitutions. -/
structure Answers (raw : Substitution) (bound : BoundCall) (limit : Nat) (v : World)
    (sight : Function → Prop) (r c : Callable) : Prop where
  native : ∀ n, r = .native n → ∀ᶠ d in atTop, ∀ args,
    Run.Yields Fault.Alike v (Function.replacementUnder raw bound limit d c args)
      ((n.call args).mapError .report)
  artifact : ∀ a, r = .artifact a → ∀ᶠ d in atTop, ∀ args,
    Run.Yields Fault.Alike v (Function.replacementUnder raw bound limit d c args) (a.call ampleFuel args)
  function : ∀ h, r.plain? = some h → sight h ∧
    ∀ a, h.RealizedBy Fault.Alike (Function.callAt bound limit) v a → ∀ᶠ d in atTop, ∀ args,
      Run.Yields Fault.Alike v (Function.replacementUnder raw bound limit d c args) (a.call ampleFuel args)

/-- The artifact was made of a function that the pass came to, and realizes it under the
substitutions. -/
def Made (raw : Substitution) (bound : BoundCall) (limit : Nat) (v : World)
    (visits : Function → Prop) (f : Function) (a : Artifact) : Prop :=
  visits f ∧ f.RealizedBy Fault.Alike (Function.callUnder raw bound limit) v a

/-- Functions that call one another as without the substitutions. Those that the pass came to do the
same under them. -/
structure Untouched (raw : Substitution) (bound : BoundCall) (limit : Nat) (v : World)
    (visits sight : Function → Prop) : Prop extends v.Closed sight where
  within : ∀ f, sight f → f.definition.Within .plain
  realized : ∀ f a, sight f → Made raw bound limit v visits f a →
    f.RealizedBy Fault.Alike (Function.callAt bound limit) v a

theorem Untouched.of_none : Untouched raw bound limit v visits fun _ => False :=
  ⟨⟨fun _ h => h.elim, fun _ _ h => h.elim⟩, fun _ h => h.elim, fun _ _ h => h.elim⟩

section

variable {s : State}

/-- The constants are those of the world. -/
theorem Sound.constant_iff {made : Function → Artifact → Prop} (hs : Sound made v table s)
    {id : NamespaceId} {n : String} (hid : (s.world.namespace? id).isSome) (hn : PlainName n) (x : Value) :
    s.lookup id n = some (.constant x) ↔ v.lookup id n = some (.constant x) := by
  obtain h | ⟨c, g, a, hv, -, hs, -⟩ := hs.names id n hid hn
  · rw [h]
  · rw [hv, hs]
    constructor <;> exact fun h => nomatch h

/-- For functions that call one another as without the substitutions the bindings of the pass serve
as those of the world. -/
theorem Sound.faithful (hs : Sound (Made raw bound limit v visits) v table s)
    (hsight : Untouched raw bound limit v visits sight) :
    (s.registry.table.linker s.world).Faithful (Function.callAt bound limit) v sight where
  live := hs.live
  numbered := hsight.numbered
  names f hf hlive := by
    have hplain := hsight.within f hf
    refine ⟨⟨PlainName, fun p => PlainName p.first ∧ f.definition.body.Calls p⟩,
      ⟨Block.within_calls hplain.uses, hplain.stores⟩,
      fun n hn x => hs.constant_iff hlive hn x, fun n hn => ?_⟩
    obtain h | ⟨c, g, a, hv, hc, h, ha⟩ := hs.names f.home n hlive hn.1
    · exact .same h fun c g hl hc => hsight.callees f hf n c g hn.2 hl hc
    · exact .replaced hv hc h
        (hsight.realized g a (hsight.callees f hf n c g hn.2 hv hc) ha)

/-- What a pass made of a function, and what it decided on the names that the function calls. -/
structure Specialized (v : World) (table : Substitution) (f : Function) (names : List String)
    (g : Function) (s : State) : Prop where
  rewritten : Rewritten f names g
  within : f.definition.Within .plain
  live : (s.world.namespace? f.home).isSome
  renamed : ∀ n ∈ names, s.Renames v table f.home n
  left : ∀ n, f.definition.body.Calls ⟨n, []⟩ → n ∉ names → s.Leaves v table f.home n

/-- What the rewritten function calls is linked to what a call under the substitutions gives. -/
theorem Specialized.linkName_ensures {f g : Function} {names : List String}
    (hg : Specialized v table f names g s)
    (hs : Sound (Made raw bound limit v visits) v table s)
    (keys : ∀ n, Dictionary.get? n table = none → Dictionary.get? n raw = none)
    (answers : ∀ n r, f.definition.body.Calls ⟨n, []⟩ → (v.lookup f.home n).isSome →
      Dictionary.get? n table = some r →
      ∃ c, Dictionary.get? n raw = some c ∧ Answers raw bound limit v sight r c)
    {callee : Function → Compile Artifact} {inv : Compile.State → Prop}
    (hcallee : ∀ h, sight h → Compile.Ensures inv (callee h)
      (h.RealizedBy Fault.Alike (Function.callAt bound limit) v))
    {p : Path} (hp : f.definition.body.Calls p) {m : String} (hm : renamePath names p = ⟨m, []⟩)
    (span : Span) :
    Compile.Ensures inv
      (Compile.linkName (s.registry.table.linker s.world) callee g m span) fun t =>
      ∀ᶠ d in atTop, ∀ args,
        Run.Yields Fault.Alike v ((scopeRenamed names (f.scopeUnder raw
          (Function.calleeUnder raw bound limit d)
          (Function.replacementUnder raw bound limit d))).call ⟨m, []⟩ args span)
          (t.run ampleFuel args) := by
  have hplain : PlainName p.first := Block.calls_of_within hg.within.uses hp
  simp only [scopeRenamed, ← hm, restorePath_renamePath hplain]
  rw [renamePath] at hm
  cases hn : p.single? with
  | none =>
      rw [hn] at hm
      dsimp only at hm
      rw [hm] at hn
      cases hn
  | some n =>
      obtain rfl := Path.single?_eq_some.mp hn
      rw [hn] at hm
      dsimp only at hm
      by_cases hmem : n ∈ names
      · -- The name is bound to the replacement under its alias.
        rw [if_pos (List.contains_iff_mem.mpr hmem)] at hm
        obtain rfl : overrideAlias n = m := congrArg Path.first hm
        obtain ⟨hbound, -, hrecorded⟩ := hg.renamed n hmem
        obtain ⟨r, hr, hl⟩ := hs.aliases f.home n hrecorded
        obtain ⟨c, hc, hanswers⟩ := answers n r hp hbound hr
        have hcall : ∀ d args, (f.scopeUnder raw (Function.calleeUnder raw bound limit d)
              (Function.replacementUnder raw bound limit d)).call ⟨n, []⟩ args span v =
            Function.replacementUnder raw bound limit d c args v :=
          fun d args => Function.scopeUnder_call_replaced hc hbound args span
        have hlookup : (s.registry.table.linker s.world).lookup g.home (overrideAlias n) =
            some (.callable r) := by
          rw [hg.rewritten.home]
          exact hl
        refine Compile.linkName_ensures (fun hl => ?_) (fun n' hl => ?_) (fun a hl => ?_)
          (fun c' h hl hh => ?_) span
        all_goals
          rw [hlookup] at hl
          cases hl
        · filter_upwards [hanswers.native n' rfl] with d hd args
          rw [Run.Yields, hcall]
          exact hd args
        · filter_upwards [hanswers.artifact a rfl] with d hd args
          rw [Run.Yields, hcall]
          exact hd args
        · obtain ⟨hsight, hrun⟩ := hanswers.function h hh
          refine (hcallee h hsight).mono fun a ha => ?_
          filter_upwards [hrun a ha] with d hd args
          rw [Run.Yields, hcall]
          exact hd args
      · rw [if_neg (fun h => hmem (List.contains_iff_mem.mp h))] at hm
        obtain rfl : n = m := congrArg Path.first hm
        -- The name is left, and what is bound to it is called as before.
        obtain ⟨hfree, hsettled⟩ := hg.left n hp hmem
        have hcall : ∀ d args, (f.scopeUnder raw (Function.calleeUnder raw bound limit d)
              (Function.replacementUnder raw bound limit d)).call ⟨n, []⟩ args span v =
            (g.scope (Function.calleeUnder raw bound limit d)).call ⟨n, []⟩ args span v := by
          intro d args
          rw [Function.scopeUnder_call_left (hfree.imp_right (keys n)), Function.scope_call_apply,
            Function.scope_call_apply, hg.rewritten.home]
        have hserves : (s.registry.table.linker s.world).Serves Fault.Alike (Function.callUnder raw bound limit)
            v (fun _ => False) g.home n := by
          rw [hg.rewritten.home]
          obtain h | ⟨c, h, a, hv, hc, hl, ha⟩ := hs.names f.home n hg.live hplain
          · refine .same h fun c h' hl hc => hsettled c h' ?_ hc
            rw [← hl]
            exact h
          · exact .replaced hv hc hl ha.2
        refine (Compile.linkName_ensures_of_serves (Function.calling_calleeUnder raw bound limit)
          (fun _ h => h.elim) hserves span).mono fun t ht => ?_
        filter_upwards [ht] with d hd args
        rw [Run.Yields, hcall]
        exact hd args

/-! ## Compiling what a pass made -/

theorem Rewritten.within {f g : Function} {names : List String} (hg : Rewritten f names g)
    (hf : f.definition.Within .plain) :
    g.definition.Within ⟨PlainName, fun p =>
      ∃ q, f.definition.body.Calls q ∧ renamePath names q = p⟩ := by
  obtain ⟨respan, hbody⟩ := hg.body
  constructor
  · rw [hbody]
    intro e he
    have hN := Block.retouch_within (Block.retouch_within (Block.within_calls hf.uses)) e he
    cases e with
    | call callee calleeSpan args span =>
        obtain ⟨p, ⟨q, ⟨-, hq⟩, hp⟩, rfl⟩ := hN
        exact ⟨q, hq, hp⟩
    | _ => exact hN
  · rw [hbody, Block.retouch_stored, Block.retouch_stored]
    exact hf.stores

/-- The artifact of what a pass made of a function realizes the function under the substitutions. -/
theorem Specialized.realizedBy {f g : Function} {names : List String} {a : Artifact} {t : State}
    (hg : Specialized v table f names g s)
    (hs : Sound (Made raw bound limit v visits) v table s)
    (hsight : Untouched raw bound limit v visits sight)
    (keys : ∀ n, Dictionary.get? n table = none → Dictionary.get? n raw = none)
    (answers : ∀ n r, f.definition.body.Calls ⟨n, []⟩ → (v.lookup f.home n).isSome →
      Dictionary.get? n table = some r →
      ∃ c, Dictionary.get? n raw = some c ∧ Answers raw bound limit v sight r c)
    (h : compile g s = (.ok a, t)) :
    f.RealizedBy Fault.Alike (Function.callUnder raw bound limit) v a := by
  let env := s.registry.table.linker s.world
  let callee := Compile.function env env.bound [(g.id, g.name)]
  let scope (d : Nat) : Scope World := scopeRenamed names (f.scopeUnder raw
    (Function.calleeUnder raw bound limit d) (Function.replacementUnder raw bound limit d))
  have faithful : env.Faithful (Function.callAt bound limit) v sight := hs.faithful hsight
  have within := hg.rewritten.within hg.within
  have reads : ∀ d n span, PlainName n → Run.Yields Fault.Alike v ((scope d).outer n span)
      ((Compile.Context.ofFunction env callee g).outerValue n span) := by
    intro d n span hn
    have houter : (scope d).outer n span =
        (g.scope (Function.calleeUnder raw bound limit d)).outer n span := by
      dsimp only [scope, scopeRenamed, Function.scopeUnder, Function.scope]
      rw [hg.rewritten.home, hg.rewritten.captures]
    rw [houter]
    refine Compile.Context.reads_ofFunction span (fun x => ?_) _
    rw [hg.rewritten.home]
    exact hs.constant_iff hg.live hn x
  -- the code fits the function under its aliases, which are undone by `scopeRenamed`
  have fits : (Compile.Context.ofFunction env callee g).Fits scope Fault.Alike v ampleFuel
      (Compile.Kept Fault.Alike (Function.callAt bound limit) v sight)
      ⟨PlainName, fun p => ∃ q, f.definition.body.Calls q ∧ renamePath names q = p⟩
      g.definition.body.stored := by
    refine Compile.Context.fits_of_links (fun d n span hn _ => reads d n span hn)
      (fun d n span span' hn =>
        Compile.Context.yields_outerValue (reads d n span (within.stores n hn)) span')
      (fun m span ⟨p, hp, hm⟩ => ?_) (fun d p args span hp => ?_)
    · exact hg.linkName_ensures hs keys answers
        (fun h hh => Compile.function_ensures faithful _ _ h hh) hp hm span
    · dsimp only [scope, scopeRenamed]
      rw [restorePath_of_not_single hp, Function.scopeUnder_call_path hp]
      simp only [Function.scope, hp]
  rw [compile_apply] at h
  rcases hcompile : env.compile s.world.nextId g with e | ⟨b, n⟩
  · rw [hcompile] at h
    cases h
  · rw [hcompile] at h
    cases h
    obtain ⟨st, hunit, -⟩ := Linker.unit_of_compile hcompile
    obtain ⟨-, hlive, hd, hvalue⟩ := Compile.compileUnit_ensures within.uses
      (fun _ => fits) (fun _ _ hst => hst) _ _ _ hunit fun _ hm => absurd hm List.not_mem_nil
    have hf : env.isLive f.home = true := hg.live
    refine Function.realizedBy_of_value (fun d args => Function.callUnder_succ d f args)
      (hs.live f.home hf) (by rw [hd, hg.rewritten.params]) (fun _ => trivial) ?_
    filter_upwards [hvalue] with d hd args hargs
    refine hg.rewritten.value_yields hg.within (fun n span span' => ?_) (hd args ?_)
    · have hscope : (f.scope (Function.calleeUnder raw bound limit d)).Corresponds
          Correspondence.agreement .all id (f.scope (Function.calleeUnder raw bound limit d)) :=
        .function (by rintro s _ rfl id name; rfl) fun c args => Correspondence.agreement_refl _
      exact hscope.reads n trivial
    · rw [hargs, Function.arity, Function.arity, hg.rewritten.params]

end

/-! ## Passes -/

/-- What a pass with the finished replacements `table` rests on, if it is to make the substitutions
`raw`: the functions that it comes to are read again as they are, and what is linked for a finished
replacement does what the replacement does. -/
structure Setting (raw table : Substitution) (bound : BoundCall) (limit : Nat) (v : World)
    (visits sight : Function → Prop) : Prop where
  readsBack : ∀ f, visits f → f.ReadsBack
  callees : ∀ f, visits f → ∀ n c g, f.definition.body.Calls ⟨n, []⟩ →
    v.lookup f.home n = some (.callable c) → c.plain? = some g →
    Dictionary.get? n raw = none → visits g
  keys : ∀ n, Dictionary.get? n table = none → Dictionary.get? n raw = none
  answers : ∀ f, visits f → ∀ n r, f.definition.body.Calls ⟨n, []⟩ →
    (v.lookup f.home n).isSome → Dictionary.get? n table = some r →
    ∃ c, Dictionary.get? n raw = some c ∧ Answers raw bound limit v sight r c
  untouched : Untouched raw bound limit v visits sight

/-- What a pass rests on if `made` is to hold of all that it makes: the functions that it comes to are
read again as they are, and `made` holds of what is compiled of one that it rewrote. -/
structure Course (table : Substitution) (v : World) (visits : Function → Prop)
    (made : Function → Artifact → Prop) : Prop where
  readsBack : ∀ f, visits f → f.ReadsBack
  callees : ∀ f, visits f → ∀ n c g, f.definition.body.Calls ⟨n, []⟩ →
    v.lookup f.home n = some (.callable c) → c.plain? = some g →
    Dictionary.get? n table = none → visits g
  compiled : ∀ {f g names s a t}, visits f → Sound made v table s →
    Specialized v table f names g s → compile g s = (.ok a, t) → made f a

theorem Setting.course (setting : Setting raw table bound limit v visits sight) :
    Course table v visits (Made raw bound limit v visits) where
  readsBack := setting.readsBack
  callees f hf n c g hn hl hc hfree := setting.callees f hf n c g hn hl hc (setting.keys n hfree)
  compiled {f _ _ _ _ _} hf hs hg h :=
    ⟨hf, hg.realizedBy hs setting.untouched setting.keys (setting.answers f hf) h⟩

/-- What a callee is made of, if passes over functions keep what holds. -/
theorem Course.callee_sound {made : Function → Artifact → Prop}
    (course : Course table v visits made) {special : Function → Pass Function}
    (hspecial : ∀ {f g s t}, visits f → Sound made v table s → special f s = (.ok g, t) →
      Sound made v table t ∧ s.Extends t ∧ ∃ names, Specialized v table f names g t)
    {f : Function} {a : Artifact} {s u : State} (hf : visits f) (hs : Sound made v table s)
    (h : (do compile (← special f)) s = (.ok a, u)) :
    Sound made v table u ∧ s.Extends u ∧ made f a := by
  obtain ⟨g, t, hg, hcompile⟩ := Run.bind_eq_ok h
  obtain ⟨ht, hext, names, hspecialized⟩ := hspecial hf hs hg
  have halike := alike_of_compile hcompile
  exact ⟨ht.of_alike halike, hext.trans (.of_alike halike),
    course.compiled hf ht hspecialized hcompile⟩

/-- The pass over a function keeps what holds, and tells what it decided on the names that the
function calls. -/
theorem Course.specialize_sound {made : Function → Artifact → Prop}
    (course : Course table v visits made) {debug : Bool} {fuel : Nat}
    {active : List (Nat × String)} {f g : Function} {s t : State} (hf : visits f)
    (hs : Sound made v table s) (h : specialize table debug fuel active f s = (.ok g, t)) :
    Sound made v table t ∧ s.Extends t ∧ ∃ names, Specialized v table f names g t := by
  induction fuel generalizing active f g s t with
  | zero =>
      rw [specialize] at h
      split at h
      · cases h
      · cases h
  | succ fuel ih =>
      rw [specialize] at h
      split at h
      · cases h
      · obtain ⟨s₁, t₁, names, ⟨hs₁, -⟩, hlive, hdecide, ⟨ht, -⟩, hg, unit, hunit⟩ :=
          substituteFunction_eq_ok (course.readsBack f hf) h
        obtain ⟨span, rfl⟩ := course.readsBack f hf unit hunit
        have hplain := Function.within_plain_of_extract hunit
        obtain ⟨hsound, hext, hfound, hleft⟩ := decideAll_sound hdecide (hs.of_alike hs₁) hlive
          (fun n hn => Block.calls_of_within hplain.uses (mem_calledInOrder.mp hn))
          fun n hn c f' a s' u hs' hl hc hfree hu => course.callee_sound ih
            (course.callees f hf n c f' (mem_calledInOrder.mp hn) hl hc hfree) hs' hu
        have hextends := hext.trans (.of_alike ht)
        refine ⟨hsound.of_alike ht, (State.Extends.of_alike hs₁).trans hextends, names,
          hg, hplain, ?_, fun n hn => ?_, fun n hcalls hn => ?_⟩
        · rwa [hextends.live]
        · exact (hfound n hn).of_extends (.of_alike ht)
        · exact (hleft n (mem_calledInOrder.mpr hcalls) hn).of_extends
            (Block.calls_of_within hplain.uses hcalls) (.of_alike ht)

/-- The artifact that a pass makes of a function realizes it under the substitutions. -/
theorem Setting.substituteCompiled_realizes (setting : Setting raw table bound limit v visits sight)
    {debug : Bool} {f : Function} {a : Artifact} {s t : State} (hf : visits f)
    (hs : Sound (Made raw bound limit v visits) v table s)
    (h : substituteCompiled table debug f s = (.ok a, t)) :
    f.RealizedBy Fault.Alike (Function.callUnder raw bound limit) v a := by
  obtain ⟨g, s₁, hg, hcompile⟩ := Run.bind_eq_ok h
  obtain ⟨w, s₂, hget, hg⟩ := Run.bind_eq_ok hg
  cases hget
  obtain ⟨hs₁, -, names, hspecialized⟩ := setting.course.specialize_sound hf hs hg
  exact hspecialized.realizedBy hs₁ setting.untouched setting.keys (setting.answers f hf) hcompile

end Pass

end Graft
