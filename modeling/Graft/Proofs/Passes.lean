import Graft.Proofs.Bindings
import Graft.Proofs.Reference

/-!
# What a pass does

Each step of a pass is told by what its state was and is. The lines of the trace, the numbers that
were given out and the names that met a call site do not matter for what names are bound to; states
that differ in nothing else are alike.
-/

namespace Graft.Pass

/-- The states bind the same names to the same things. -/
structure State.Alike (s t : State) : Prop where
  registry : t.registry = s.registry
  namespaces : t.world.namespaces = s.world.namespaces
  settings : t.world.settings = s.world.settings

namespace State.Alike

variable {s t u : State}

theorem refl (s : State) : s.Alike s := ⟨rfl, rfl, rfl⟩

theorem trans (h : s.Alike t) (h' : t.Alike u) : s.Alike u :=
  ⟨h'.registry.trans h.registry, h'.namespaces.trans h.namespaces, h'.settings.trans h.settings⟩

theorem namespace? (h : s.Alike t) (id : NamespaceId) :
    t.world.namespace? id = s.world.namespace? id := by
  rw [World.namespace?, World.namespace?, h.namespaces]

theorem lookup (h : s.Alike t) (id : NamespaceId) (name : String) :
    t.lookup id name = s.lookup id name := by
  have hw := World.lookup_congr h.namespaces id name
  rw [State.lookup, State.lookup, h.registry, SymbolTable.lookup, SymbolTable.lookup, hw]
  cases hr : s.registry.table with
  | overlay entries => rfl
  | shared => rw [SymbolTable.held, SymbolTable.held, hw]

theorem install (h : s.Alike t) (id : NamespaceId) (key symbol : String) (g : Global) :
    (s.install id key symbol g).Alike (t.install id key symbol g) := by
  have hheld : s.registry.table.held t.world id key = s.registry.table.held s.world id key := by
    cases s.registry.table with
    | overlay entries => rfl
    | shared => exact World.lookup_congr h.namespaces id key
  constructor
  · rw [State.install, State.install, h.registry, Registry.install_eq, Registry.install_eq]
    dsimp only
    rw [hheld]
    cases s.registry.table <;> rfl
  · rw [State.install, State.install, h.registry, Registry.install_eq, Registry.install_eq]
    dsimp only
    cases s.registry.table with
    | overlay entries => exact h.namespaces
    | shared =>
        dsimp only [SymbolTable.write, World.install, World.update]
        rw [h.namespaces]
  · rw [State.install, State.install, h.registry, Registry.install_eq, Registry.install_eq]
    dsimp only
    cases s.registry.table <;> exact h.settings

end State.Alike

/-! ## Steps that bind nothing -/

theorem trace_apply (on : Bool) (line : String) (s : State) :
    ∃ t, trace on line s = (.ok ⟨⟩, t) ∧ s.Alike t := by
  cases on with
  | true => exact ⟨_, rfl, rfl, rfl, rfl⟩
  | false => exact ⟨s, rfl, .refl s⟩

theorem trace_matched {on : Bool} {line : String} {s t : State} {r : Except Fault Unit}
    (h : trace on line s = (r, t)) : t.matched = s.matched := by
  cases on with
  | true =>
      cases h
      rfl
  | false =>
      cases h
      rfl

theorem compile_apply (f : Function) (s : State) :
    compile f s =
      match (s.registry.table.linker s.world).compile s.world.nextId f with
      | .ok (a, nextId) => (.ok a, { s with world := { s.world with nextId } })
      | .error e => (.error e, s) := by
  rw [compile, Run.bind_apply, Run.get_apply]
  dsimp only
  rw [Run.bind_apply, Run.ofExcept_apply]
  rcases (s.registry.table.linker s.world).compile s.world.nextId f with _ | _ <;> rfl

theorem alike_of_compile {f : Function} {s t : State} {r : Except Fault Artifact}
    (h : compile f s = (r, t)) : s.Alike t := by
  rw [compile_apply] at h
  split at h
  · cases h
    exact ⟨rfl, rfl, rfl⟩
  · cases h
    exact .refl s

/-! ## Deciding a name -/

/-- The state after a call site of an overridden name was met. -/
def State.meet (s : State) (id : NamespaceId) (name : String) (r : Callable) : State :=
  if s.registry.isRecorded id (overrideAlias name) then s
  else s.install id (overrideAlias name) name (.callable r)

/-- What can happen when a name is decided. -/
inductive Decided (table : Substitution) (callee : Function → Pass Artifact) (id : NamespaceId)
    (name : String) (s : State) : Bool → State → Prop
  /-- Nothing is bound to the name. -/
  | unbound : s.lookup id name = none → Decided table callee id name s false s
  /-- The name is overridden. -/
  | overridden {g r t} : s.lookup id name = some g → Dictionary.get? name table = some r →
      (s.meet id name r).Alike t → Decided table callee id name s true t
  /-- The function that is bound to the name is replaced by an artifact. -/
  | replaced {c f a t} : s.lookup id name = some (.callable c) →
      Dictionary.get? name table = none → c.plain? = some f → callee f s = (.ok a, t) →
      Decided table callee id name s false (t.install id name name (.callable (.artifact a)))
  /-- What is bound to the name stays. -/
  | kept {g} : s.lookup id name = some g → Dictionary.get? name table = none →
      (∀ c f, g = .callable c → c.plain? ≠ some f) → Decided table callee id name s false s

section

variable (table : Substitution) (debug : Bool) (callee : Function → Pass Artifact)
  {id : NamespaceId} {name : String} {s : State}

theorem decide_unbound (h : s.lookup id name = none) :
    decide table debug callee id name s = (.ok false, s) := by
  have hlookup : lookup id name s = (.ok (s.lookup id name), s) := rfl
  rw [decide, Run.bind_ok hlookup, h]
  rfl

variable {table}

theorem decide_overridden {g : Global} {r : Callable} (hl : s.lookup id name = some g)
    (hr : Dictionary.get? name table = some r) :
    ∃ t, decide table debug callee id name s = (.ok true, t) ∧ (s.meet id name r).Alike t ∧
      t.matched = Ordered.insert name s.matched := by
  have hlookup : lookup id name s = (.ok (s.lookup id name), s) := rfl
  rw [decide, Run.bind_ok hlookup, hl]
  dsimp only
  rw [hr]
  dsimp only
  rw [Run.bind_apply, Run.get_apply]
  dsimp only
  rw [State.meet]
  split
  · exact ⟨_, rfl, ⟨rfl, rfl, rfl⟩, rfl⟩
  · obtain ⟨u, hu, halike⟩ := trace_apply debug
      ("replacing `" ++ name ++ "` with " ++ r.describe ++ " in `" ++
        ((s.world.namespace? id).map Namespace.name).getD "" ++ "`") s
    rw [Run.bind_ok hu]
    refine ⟨_, rfl, ?_, ?_⟩
    · exact (halike.install id (overrideAlias name) name (.callable r)).trans ⟨rfl, rfl, rfl⟩
    · show Ordered.insert name u.matched = _
      rw [trace_matched hu]

theorem decide_replaced {c : Callable} {f : Function}
    (hl : s.lookup id name = some (.callable c)) (hr : Dictionary.get? name table = none)
    (hf : c.plain? = some f) :
    decide table debug callee id name s =
      match callee f s with
      | (.ok a, t) => (.ok false, t.install id name name (.callable (.artifact a)))
      | (.error e, t) =>
        (.error (e.map fun d => d.withNote ("while specializing callee `" ++ name ++ "`")), t) := by
  have hlookup : lookup id name s = (.ok (s.lookup id name), s) := rfl
  rw [decide, Run.bind_ok hlookup, hl]
  dsimp only
  rw [hr]
  dsimp only
  rw [hf]
  dsimp only
  rw [Run.bind_apply, Run.mapReport_apply]
  rcases callee f s with ⟨e | a, t⟩
  · rfl
  · rfl

theorem decide_kept {g : Global} (hl : s.lookup id name = some g)
    (hr : Dictionary.get? name table = none) (hg : ∀ c f, g = .callable c → c.plain? ≠ some f) :
    decide table debug callee id name s = (.ok false, s) := by
  have hlookup : lookup id name s = (.ok (s.lookup id name), s) := rfl
  rw [decide, Run.bind_ok hlookup, hl]
  dsimp only
  rw [hr]
  dsimp only
  cases g with
  | constant v => rfl
  | callable c =>
      cases hc : c.plain? with
      | none =>
          dsimp only
          rw [hc]
          rfl
      | some f => exact absurd hc (hg c f rfl)

end

/-- What there can be to decide on a name. -/
theorem lookup_cases (table : Substitution) (id : NamespaceId) (name : String) (s : State) :
    s.lookup id name = none ∨
      (∃ g r, s.lookup id name = some g ∧ Dictionary.get? name table = some r) ∨
      (∃ c f, s.lookup id name = some (.callable c) ∧ Dictionary.get? name table = none ∧
        c.plain? = some f) ∨
      ∃ g, s.lookup id name = some g ∧ Dictionary.get? name table = none ∧
        ∀ c f, g = .callable c → c.plain? ≠ some f := by
  rcases s.lookup id name with _ | g
  · exact .inl rfl
  · rcases Dictionary.get? name table with _ | r
    · by_cases hg : ∃ c f, g = .callable c ∧ c.plain? = some f
      · obtain ⟨c, f, rfl, hf⟩ := hg
        exact .inr (.inr (.inl ⟨c, f, rfl, rfl, hf⟩))
      · exact .inr (.inr (.inr ⟨g, rfl, rfl, fun c f hc hf => hg ⟨c, f, hc, hf⟩⟩))
    · exact .inr (.inl ⟨g, r, rfl, rfl⟩)

theorem decide_eq_ok {table : Substitution} {debug : Bool} {callee : Function → Pass Artifact}
    {id : NamespaceId} {name : String} {s t : State} {b : Bool}
    (h : decide table debug callee id name s = (.ok b, t)) :
    Decided table callee id name s b t := by
  obtain hl | ⟨g, r, hl, hr⟩ | ⟨c, f, hl, hr, hf⟩ | ⟨g, hl, hr, hg⟩ := lookup_cases table id name s
  · rw [decide_unbound _ _ _ hl] at h
    cases h
    exact .unbound hl
  · obtain ⟨t', ht', halike, -⟩ := decide_overridden debug callee hl hr
    rw [ht'] at h
    cases h
    exact .overridden hl hr halike
  · rw [decide_replaced _ _ hl hr hf] at h
    split at h
    · next a u hu =>
        cases h
        exact .replaced hl hr hf hu
    · cases h
  · rw [decide_kept _ _ hl hr hg] at h
    cases h
    exact .kept hl hr hg

/-! ## Rewriting a function -/

/-- The path that is called instead, if the names are those whose calls go to their aliases. -/
def renamePath (names : List String) (p : Path) : Path :=
  match p.single? with
  | some n => if names.contains n then ⟨overrideAlias n, []⟩ else p
  | none => p

theorem renameCalls_eq (names : List String) (b : Block) :
    renameCalls names b = b.retouch (renamePath names) id := by
  have h : renameCall names = Expr.touch (renamePath names) id := by
    funext e
    cases e with
    | call callee calleeSpan args s =>
        rw [renameCall, Expr.touch, renamePath]
        cases callee.single? with
        | none => rfl
        | some n =>
            dsimp only
            split <;> rfl
    | _ => rfl
  rw [renameCalls, h]

theorem fixSpans_body (d : Definition) :
    ∃ respan, (Function.fixSpans d).body = d.body.retouch id respan := by
  let respan := fun s : Span => if s.isDummy then d.body.span else s
  refine ⟨respan, ?_⟩
  have h : (fun e : Expr => (if e.span.isDummy then e.withSpan d.body.span else e : Id Expr)) =
      fun e => pure (e.touch id respan) := by
    funext e
    have htouch : e.touch id respan = e.withSpan (respan e.span) := by cases e <;> rfl
    have hself : e.withSpan e.span = e := by cases e <;> rfl
    rw [htouch]
    by_cases hs : e.span.isDummy = true
    · rw [if_pos hs, show respan e.span = d.body.span from if_pos hs]
      rfl
    · rw [if_neg hs, show respan e.span = e.span from if_neg hs, hself]
      rfl
  rw [Function.fixSpans, h]

/-- The function `g` is `f` with the calls of some names going to their aliases. -/
structure Rewritten (f : Function) (names : List String) (g : Function) : Prop where
  home : g.home = f.home
  captures : g.captures = f.captures
  params : g.definition.params = f.definition.params
  body : ∃ respan, g.definition.body =
    (f.definition.body.retouch (renamePath names) id).retouch id respan

end Graft.Pass

namespace Graft

/-- What the source of a function is read again as is its definition. -/
def Function.ReadsBack (f : Function) : Prop :=
  ∀ unit, f.extract = .ok unit → ∃ span, unit = ⟨[.function f.definition span]⟩

namespace Pass

/-- What a unit of one definition is made into. -/
theorem reassemble_eq_ok {f g : Function} {n : Nat} {d : Definition} {span : Span}
    (h : f.reassemble n ⟨[.function d span]⟩ = .ok g) :
    g = f.withDefinition n
      (Function.fixSpans { d with markers := d.markers.filter fun m => m.text ≠ "fs" }) := by
  rw [Function.reassemble, Function.definitionIn] at h
  cases hl : f.locate? ⟨[.function d span]⟩ with
  | none =>
      simp only [hl] at h
      cases h
  | some d' =>
      simp only [hl] at h
      have hd : d' = d := by
        rw [Function.locate?, List.findSome?_cons, List.findSome?_nil] at hl
        dsimp only at hl
        split at hl
        · next e he =>
            split at he
            · cases hl
              exact (Option.some.inj he).symm
            · cases he
        · cases hl
      cases h
      rw [hd]

theorem rewritten_of_reassemble {f g : Function} {n : Nat} {names : List String} {span : Span}
    (h : f.reassemble n ⟨[.function
      { f.definition with body := renameCalls names f.definition.body } span]⟩ = .ok g) :
    Rewritten f names g := by
  obtain ⟨respan, hbody⟩ := fixSpans_body
    { f.definition with
      body := renameCalls names f.definition.body
      markers := f.definition.markers.filter fun m => m.text ≠ "fs" }
  rw [reassemble_eq_ok h]
  refine ⟨rfl, rfl, rfl, respan, ?_⟩
  change (Function.fixSpans _).body = _
  rw [hbody, renameCalls_eq]

/-- A pass over a function decides what the definition in its source calls, and makes the function
of this definition, with the calls renamed. -/
theorem substituteFunction_apply (table : Substitution) (debug : Bool)
    (callee : Function → Pass Artifact) {f : Function} {d : Definition} {span : Span}
    {rest : List Item} (hunit : f.extract = .ok ⟨.function d span :: rest⟩) (s : State) :
    ∃ s₁, (s.Alike s₁ ∧ s₁.matched = s.matched) ∧
      substituteFunction table debug callee f s =
        match s₁.world.home f with
        | .error e => (.error (.report e), s₁)
        | .ok _ =>
          match decideAll table debug callee f.home (calledInOrder d.body) s₁ with
          | (.error e, t) => (.error e, t)
          | (.ok names, t) =>
            match f.reassemble t.world.nextId
                ⟨.function { d with body := renameCalls names d.body } span :: rest⟩ with
            | .error e => (.error (.report e), t)
            | .ok g => (.ok g, { t with world := { t.world with nextId := t.world.nextId + 1 } }) := by
  obtain ⟨s₁, hs₁, halike⟩ := trace_apply debug ("specializing `" ++ f.name ++ "`") s
  refine ⟨s₁, ⟨halike, trace_matched hs₁⟩, ?_⟩
  rw [substituteFunction, Run.bind_ok hs₁, Run.bind_apply, Run.ofOutcome_apply, hunit]
  dsimp only [Except.mapError]
  rw [Run.bind_apply, Run.get_apply]
  dsimp only
  rw [Run.bind_apply, Run.ofOutcome_apply]
  cases s₁.world.home f with
  | error e => rfl
  | ok ns =>
      dsimp only [Except.mapError]
      rw [Run.bind_apply, substituteUnit]
      dsimp only
      rw [Run.bind_apply]
      rcases decideAll table debug callee f.home (calledInOrder d.body) s₁ with ⟨e | names, t⟩
      · rfl
      · dsimp only
        rw [Run.pure_apply]
        dsimp only
        rw [Run.bind_apply, Run.get_apply]
        dsimp only
        rw [Run.bind_apply, Run.ofOutcome_apply]
        cases f.reassemble t.world.nextId
            ⟨.function { d with body := renameCalls names d.body } span :: rest⟩ with
        | error e => rfl
        | ok g => rfl

theorem isSome_of_home {w : World} {f : Function} {ns : Namespace} (h : w.home f = .ok ns) :
    (w.namespace? f.home).isSome := by
  rw [World.home] at h
  split at h
  · next hns =>
      rw [hns]
      rfl
  · cases h

theorem substituteFunction_of_extract {table : Substitution} {debug : Bool}
    {callee : Function → Pass Artifact} {f g : Function} {s t : State} {d : Definition} {span : Span}
    {rest : List Item} (hunit : f.extract = .ok ⟨.function d span :: rest⟩)
    (h : substituteFunction table debug callee f s = (.ok g, t)) :
    ∃ s₁ t₁ names, (s.Alike s₁ ∧ s₁.matched = s.matched) ∧
      (s₁.world.namespace? f.home).isSome ∧
      decideAll table debug callee f.home (calledInOrder d.body) s₁ = (.ok names, t₁) ∧
      (t₁.Alike t ∧ t.matched = t₁.matched) ∧
      f.reassemble t₁.world.nextId
        ⟨.function { d with body := renameCalls names d.body } span :: rest⟩ = .ok g := by
  obtain ⟨s₁, hs₁, hpass⟩ := substituteFunction_apply table debug callee hunit s
  rw [hpass] at h
  split at h
  · cases h
  · next ns hhome =>
      split at h
      · cases h
      · next names t₁ hnames =>
          split at h
          · cases h
          · next g' hg =>
              cases h
              exact ⟨s₁, t₁, names, hs₁, isSome_of_home hhome, hnames, ⟨⟨rfl, rfl, rfl⟩, rfl⟩, hg⟩

/-- A pass that succeeds has read the source of the function. -/
theorem extract_of_substituteFunction {table : Substitution} {debug : Bool}
    {callee : Function → Pass Artifact} {f g : Function} {s t : State}
    (h : substituteFunction table debug callee f s = (.ok g, t)) :
    ∃ unit, f.extract = .ok unit := by
  rw [substituteFunction] at h
  obtain ⟨s₁, hs₁, -⟩ := trace_apply debug ("specializing `" ++ f.name ++ "`") s
  rw [Run.bind_ok hs₁, Run.bind_apply, Run.ofOutcome_apply] at h
  cases hu : f.extract with
  | ok unit => exact ⟨unit, rfl⟩
  | error d =>
      rw [hu] at h
      cases h

/-- What it has read starts with a definition. -/
theorem exists_function_of_substituteFunction {table : Substitution} {debug : Bool}
    {callee : Function → Pass Artifact} {f g : Function} {s t : State}
    (h : substituteFunction table debug callee f s = (.ok g, t)) :
    ∃ d span rest, f.extract = .ok ⟨.function d span :: rest⟩ := by
  obtain ⟨⟨items⟩, hunit⟩ := extract_of_substituteFunction h
  rw [substituteFunction, hunit] at h
  obtain ⟨_, s₁, -, h⟩ := Run.bind_eq_ok h
  obtain ⟨unit, s₂, hread, h⟩ := Run.bind_eq_ok h
  cases hread
  obtain ⟨_, s₃, -, h⟩ := Run.bind_eq_ok h
  obtain ⟨_, s₄, -, h⟩ := Run.bind_eq_ok h
  obtain ⟨unit, s₅, hunit', h⟩ := Run.bind_eq_ok h
  obtain ⟨s₆, s₇, -, h⟩ := Run.bind_eq_ok h
  obtain ⟨g', s₈, hg, -⟩ := Run.bind_eq_ok h
  -- what does not start with a definition is left as it is, and no function is made of it
  cases items with
  | nil =>
      cases hunit'
      cases hg
  | cons item rest =>
      cases item with
      | function d span => exact ⟨d, span, rest, hunit⟩
      | constant name value span =>
          cases hunit'
          cases hg
      | import_ path pathSpan span =>
          cases hunit'
          cases hg

theorem substituteFunction_eq_ok {table : Substitution} {debug : Bool}
    {callee : Function → Pass Artifact} {f g : Function} {s t : State} (back : f.ReadsBack)
    (h : substituteFunction table debug callee f s = (.ok g, t)) :
    ∃ s₁ t₁ names, (s.Alike s₁ ∧ s₁.matched = s.matched) ∧
      (s₁.world.namespace? f.home).isSome ∧
      decideAll table debug callee f.home (calledInOrder f.definition.body) s₁ = (.ok names, t₁) ∧
      (t₁.Alike t ∧ t.matched = t₁.matched) ∧ Rewritten f names g ∧
      ∃ unit, f.extract = .ok unit := by
  obtain ⟨unit, hunit⟩ := extract_of_substituteFunction h
  obtain ⟨span, rfl⟩ := back unit hunit
  obtain ⟨s₁, t₁, names, hbefore, hlive, hnames, hafter, hg⟩ :=
    substituteFunction_of_extract hunit h
  exact ⟨s₁, t₁, names, hbefore, hlive, hnames, hafter, rewritten_of_reassemble hg, _, hunit⟩

end Pass

end Graft
