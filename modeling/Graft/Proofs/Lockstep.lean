import Graft.Proofs.Aliases
import Graft.Proofs.Depth
import Graft.Proofs.Renumbering
import Graft.Proofs.Rollback
import Graft.Proofs.Substituting

/-!
# Passes in lockstep

Two passes over twins, in worlds where names are bound to twins, go through the same steps and end
alike. Neither where they put their bindings nor the numbers that they take make a difference: a pass
sees only what a look-up finds, and the functions that it makes are bound to no name.
-/

namespace Graft

namespace Correspondence

variable {σ τ α β γ δ : Type}

/-- Both runs end alike, and keep a relation between their states. -/
def keeping (states : σ → τ → Prop) : Correspondence σ τ :=
  sameUnless states (fun _ => False) fun _ h => h

variable {states : σ → τ → Prop} {P : α → β → Prop} {Q : γ → δ → Prop}

theorem Ends.keeping_cases {p : Except Fault α × σ} {q : Except Fault β × τ}
    (h : (keeping states).Ends P p q) :
    (∃ a b s t, p = (.ok a, s) ∧ q = (.ok b, t) ∧ P a b ∧ states s t) ∨
    (∃ e s t, p = (.error e, s) ∧ q = (.error e, t) ∧ states s t) := by
  obtain h | ⟨e, f, s, t, hp, hq, rfl, hst⟩ | ⟨e, s, -, he⟩ := h.cases
  · exact .inl h
  · exact .inr ⟨e, s, t, hp, hq, hst⟩
  · exact he.elim

theorem Ends.after {p : Except Fault α × σ} {q : Except Fault β × τ}
    (h : (keeping states).Ends P p q) : states p.2 q.2 := by
  obtain ⟨a, b, s, t, rfl, rfl, -, hst⟩ | ⟨e, s, t, rfl, rfl, hst⟩ := h.keeping_cases
  · exact hst
  · exact hst

theorem Ends.outcomes {p : Except Fault α × σ} {q : Except Fault β × τ}
    (h : (keeping states).Ends P p q) : Outcomes P p.1 q.1 := by
  obtain ⟨a, b, s, t, rfl, rfl, hab, -⟩ | ⟨e, s, t, rfl, rfl, -⟩ := h.keeping_cases
  · exact .ok hab
  · exact .error e

/-- Where one run succeeds, so does the other. -/
theorem Ends.of_ok {a : α} {s : σ} {q : Except Fault β × τ}
    (h : (keeping states).Ends P (.ok a, s) q) : ∃ b t, q = (.ok b, t) ∧ P a b ∧ states s t := by
  obtain ⟨_, b, _, t, he, hq, hab, hst⟩ | ⟨_, _, _, he, -, -⟩ := h.keeping_cases
  · cases he
    exact ⟨b, t, hq, hab, hst⟩
  · cases he

/-- The ends of two runs that go on with runs alike. -/
theorem Ends.bind {x : Run σ α} {y : Run τ β} {f : α → Run σ γ} {g : β → Run τ δ} {s : σ} {t : τ}
    (h : (keeping states).Ends P (x s) (y t))
    (step : ∀ a b, P a b → (keeping states).Runs Q (f a) (g b)) :
    (keeping states).Ends Q ((x >>= f) s) ((y >>= g) t) := by
  rw [Run.bind_apply, Run.bind_apply]
  obtain ⟨a, b, s', t', hx, hy, hab, hst⟩ | ⟨e, s', t', hx, hy, hst⟩ := h.keeping_cases
  · rw [hx, hy]
    exact step a b hab s' t' hst
  · rw [hx, hy]
    exact .fault rfl hst

theorem Runs.mapReport {x : Run σ α} {y : Run τ β} (h : (keeping states).Runs P x y)
    (r : Diagnostic → Diagnostic) :
    (keeping states).Runs P (Run.mapReport r x) (Run.mapReport r y) := by
  intro s t hst
  rw [Run.mapReport_apply, Run.mapReport_apply]
  obtain ⟨a, b, s', t', hx, hy, hab, hst'⟩ | ⟨e, s', t', hx, hy, hst'⟩ :=
    (h s t hst).keeping_cases
  · rw [hx, hy]
    exact .value hab hst'
  · rw [hx, hy]
    exact .fault rfl hst'

theorem Runs.modify {f : σ → σ} {g : τ → τ} (h : ∀ s t, states s t → states (f s) (g t)) :
    (keeping states).Runs (fun _ _ => True) (modify f) (modify g) :=
  fun s t hst => .value trivial (h s t hst)

end Correspondence

open Correspondence (keeping)

/-! ## Worlds -/

/-- What a world had when a run started: the next number and the cache. -/
structure Outset where
  nextId : Nat
  cache : Cache

def World.outset (w : World) : Outset := ⟨w.nextId, w.cache⟩

/-- Namespaces that belong together are there in both worlds or in neither, and bind the same names
to twins; numbers that belong together are taken. In the first world the numbers that were taken at
the outset still are, and the cache is the same. -/
structure World.Twin (ρ : Renumbering) (o : Outset) (w w' : World) : Prop where
  live : ∀ {i i'}, ρ.homes i i' → (w.namespace? i).isSome = (w'.namespace? i').isSome
  lookup : ∀ {i i'}, ρ.homes i i' → ∀ name,
    Option.Rel (Global.Twin ρ) (w.lookup i name) (w'.lookup i' name)
  taken : ∀ {m m'}, ρ.functions m m' → m < w.nextId ∧ m' < w'.nextId
  placed : ∀ {i i'}, ρ.homes i i' → i < w.nextId ∧ i' < w'.nextId
  strict : w.settings.strictOverrides = w'.settings.strictOverrides
  least : o.nextId ≤ w.nextId
  cache : w.cache = o.cache

namespace World.Twin

variable {ρ : Renumbering} {o : Outset} {w w' : World}

theorem linker (h : w.Twin ρ o w') : w.linker.Twin ρ w'.linker := ⟨h.live, h.lookup⟩

/-- Worlds that differ from twins in nothing but that more numbers are taken. -/
theorem of_same (h : w.Twin ρ o w') {v v' : World} (hv : w.Same v) (hv' : w'.Same v')
    (hle : w.nextId ≤ v.nextId) (hle' : w'.nextId ≤ v'.nextId) (hcache : v.cache = w.cache) :
    v.Twin ρ o v' where
  live hi := by
    rw [← hv.spaces, ← hv'.spaces]
    exact h.live hi
  lookup hi name := by
    rw [← hv.lookup, ← hv'.lookup]
    exact h.lookup hi name
  taken hm := ⟨Nat.lt_of_lt_of_le (h.taken hm).1 hle, Nat.lt_of_lt_of_le (h.taken hm).2 hle'⟩
  placed hi := ⟨Nat.lt_of_lt_of_le (h.placed hi).1 hle, Nat.lt_of_lt_of_le (h.placed hi).2 hle'⟩
  strict := by
    rw [← hv.settings, ← hv'.settings]
    exact h.strict
  least := Nat.le_trans h.least hle
  cache := hcache.trans h.cache

theorem home {f f' : Function} (h : w.Twin ρ o w') (hf : f.Kin ρ f') :
    (∃ ns ns', w.home f = .ok ns ∧ w'.home f' = .ok ns') ∨
      ∃ d, w.home f = .error d ∧ w'.home f' = .error d := by
  have hlive := h.live hf.home
  rw [World.home, World.home, hf.nameSpan]
  cases hs : w.namespace? f.home with
  | none =>
      cases hs' : w'.namespace? f'.home with
      | none => exact .inr ⟨_, rfl, rfl⟩
      | some ns' => rw [hs, hs'] at hlive; cases hlive
  | some ns =>
      cases hs' : w'.namespace? f'.home with
      | none => rw [hs, hs'] at hlive; cases hlive
      | some ns' => exact .inl ⟨ns, ns', rfl, rfl⟩

end World.Twin

/-- Artifacts alike, the first of which has no number below `n`. -/
structure Artifact.NewAlike (n : Nat) (a a' : Artifact) : Prop where
  alike : a.Alike a'
  new : n ≤ a.id

namespace Pass

/-! ## States -/

/-- The states of two passes that started in `w` and `w'`. -/
structure State.Twin (ρ : Renumbering) (w w' : World) (s s' : State) : Prop where
  live : ∀ i, (s.world.namespace? i).isSome = (w.namespace? i).isSome
  live' : ∀ i, (s'.world.namespace? i).isSome = (w'.namespace? i).isSome
  lookup : ∀ {i i'}, ρ.homes i i' → ∀ name,
    Option.Rel (Global.Twin ρ) (s.lookup i name) (s'.lookup i' name)
  recorded : ∀ {i i'}, ρ.homes i i' → ∀ key,
    s.registry.isRecorded i key = s'.registry.isRecorded i' key
  matched : s.matched = s'.matched
  taken : ∀ {m m'}, ρ.functions m m' → m < s.world.nextId ∧ m' < s'.world.nextId
  /-- Under names that a text can hold, no functions were bound but those that were there. -/
  plain : ∀ {id name f}, PlainName name → (∃ c, s.lookup id name = some (.callable c) ∧
    c.plain? = some f) → Finds w.lookup f
  plain' : ∀ {id name f}, PlainName name → (∃ c, s'.lookup id name = some (.callable c) ∧
    c.plain? = some f) → Finds w'.lookup f
  nextId : w.nextId ≤ s.world.nextId
  nextId' : w'.nextId ≤ s'.world.nextId
  cache : s.world.cache = w.cache

/-- A pass that starts. -/
def State.start (isolation : Isolation) (w : World) : State :=
  { world := w, registry := { table := .ofIsolation isolation } }

theorem State.lookup_start (isolation : Isolation) (w : World) (id : NamespaceId)
    (name : String) : (State.start isolation w).lookup id name = w.lookup id name := by
  cases isolation with
  | separate => rfl
  | shared =>
      show (w.lookup id name).or (w.lookup id name) = _
      cases w.lookup id name <;> rfl

variable {ρ : Renumbering} {o : Outset} {w w' : World} {s s' : State}

/-- The two runs keep the states twins. -/
abbrev twins (ρ : Renumbering) (w w' : World) : Correspondence State State :=
  keeping (State.Twin ρ w w')

namespace State.Twin

theorem start (h : w.Twin ρ o w') (isolation isolation' : Isolation) :
    State.Twin ρ w w' (.start isolation w) (.start isolation' w') where
  live _ := rfl
  live' _ := rfl
  lookup hi name := by
    rw [State.lookup_start, State.lookup_start]
    exact h.lookup hi name
  recorded _ _ := rfl
  matched := rfl
  taken := h.taken
  plain := by
    rintro id name f - ⟨c, hl, hc⟩
    rw [State.lookup_start] at hl
    exact ⟨id, name, c, hl, hc⟩
  plain' := by
    rintro id name f - ⟨c, hl, hc⟩
    rw [State.lookup_start] at hl
    exact ⟨id, name, c, hl, hc⟩
  nextId := Nat.le_refl _
  nextId' := Nat.le_refl _
  cache := rfl

/-- States in which no binding changed, and no number was given back. -/
theorem of_alike (h : State.Twin ρ w w' s s') {t t' : State} (ht : s.Alike t) (ht' : s'.Alike t')
    (hm : t.matched = t'.matched) (hle : s.world.nextId ≤ t.world.nextId)
    (hle' : s'.world.nextId ≤ t'.world.nextId) (hcache : t.world.cache = s.world.cache) :
    State.Twin ρ w w' t t' where
  live i := by
    rw [ht.namespace?]
    exact h.live i
  live' i := by
    rw [ht'.namespace?]
    exact h.live' i
  lookup hi name := by
    rw [ht.lookup, ht'.lookup]
    exact h.lookup hi name
  recorded hi key := by
    rw [ht.registry, ht'.registry]
    exact h.recorded hi key
  matched := hm
  taken hi := ⟨Nat.lt_of_lt_of_le (h.taken hi).1 hle, Nat.lt_of_lt_of_le (h.taken hi).2 hle'⟩
  plain hn := fun ⟨c, hl, hc⟩ => h.plain hn ⟨c, by rwa [ht.lookup] at hl, hc⟩
  plain' hn := fun ⟨c, hl, hc⟩ => h.plain' hn ⟨c, by rwa [ht'.lookup] at hl, hc⟩
  nextId := Nat.le_trans h.nextId hle
  nextId' := Nat.le_trans h.nextId' hle'
  cache := hcache.trans h.cache

/-- The binding of a name that a text can hold is no plain function. -/
def Finished (key : String) (g : Global) : Prop :=
  PlainName key → ∀ c f, g = .callable c → c.plain? ≠ some f

theorem install (h : State.Twin ρ w w' s s') {id id' : NamespaceId} (hid : ρ.homes id id')
    (hlive : (w.namespace? id).isSome) (hlive' : (w'.namespace? id').isSome) {key : String}
    (symbol : String) {g g' : Global} (hg : g.Twin ρ g') (hkey : Finished key g)
    (hkey' : Finished key g') :
    State.Twin ρ w w' (s.install id key symbol g) (s'.install id' key symbol g') := by
  have hs : (s.world.namespace? id).isSome := by rwa [h.live]
  have hs' : (s'.world.namespace? id').isSome := by rwa [h.live']
  -- no number is taken for a binding
  have hnext : ∀ (t : State) (i : NamespaceId) (b : Global),
      (t.install i key symbol b).world.nextId = t.world.nextId := by
    intro t i b
    rw [State.install, Registry.install_eq]
    dsimp only
    cases t.registry.table <;> rfl
  have hmatched : ∀ (t : State) (i : NamespaceId) (b : Global),
      (t.install i key symbol b).matched = t.matched := fun _ _ _ => rfl
  have hcache : (s.install id key symbol g).world.cache = s.world.cache := by
    rw [State.install, Registry.install_eq]
    dsimp only
    cases s.registry.table <;> rfl
  refine ⟨fun i => ?_, fun i => ?_, ?_, ?_, ?_, ?_, ?_, ?_, ?_, ?_, hcache.trans h.cache⟩
  · rw [State.isSome_namespace?_install]
    exact h.live i
  · rw [State.isSome_namespace?_install]
    exact h.live' i
  · intro i i' hi name
    rw [State.lookup_install hs, State.lookup_install hs']
    have hiff := ρ.homes_iff hi hid
    by_cases hn : i = id ∧ name = key
    · rw [if_pos hn, if_pos ⟨hiff.mp hn.1, hn.2⟩]
      exact .some hg
    · rw [if_neg hn, if_neg fun h' => hn ⟨hiff.mpr h'.1, h'.2⟩]
      exact h.lookup hi name
  · intro i i' hi name
    have hiff := ρ.homes_iff hi hid
    rw [Bool.eq_iff_iff, State.isRecorded_install, State.isRecorded_install, hiff,
      h.recorded hi name]
  · rw [hmatched, hmatched]
    exact h.matched
  · intro m m' hm
    rw [hnext, hnext]
    exact h.taken hm
  · rintro i name f hn ⟨c, hl, hc⟩
    rw [State.lookup_install hs] at hl
    split at hl
    · next he =>
        obtain ⟨-, rfl⟩ := he
        exact absurd hc (hkey hn c f (Option.some.inj hl))
    · exact h.plain hn ⟨c, hl, hc⟩
  · rintro i name f hn ⟨c, hl, hc⟩
    rw [State.lookup_install hs'] at hl
    split at hl
    · next he =>
        obtain ⟨-, rfl⟩ := he
        exact absurd hc (hkey' hn c f (Option.some.inj hl))
    · exact h.plain' hn ⟨c, hl, hc⟩
  · rw [hnext]
    exact h.nextId
  · rw [hnext]
    exact h.nextId'

theorem linker (h : State.Twin ρ w w' s s') (hw : w.Twin ρ o w') :
    (s.registry.table.linker s.world).Twin ρ (s'.registry.table.linker s'.world) where
  live {i i'} hi := by
    show (s.world.namespace? i).isSome = (s'.world.namespace? i').isSome
    rw [h.live, h.live']
    exact hw.live hi
  lookup hi name := h.lookup hi name

end State.Twin

/-! ## Steps -/

theorem trace_twins (on on' : Bool) (line line' : String) :
    (twins ρ w w').Runs (fun _ _ => True) (trace on line) (trace on' line') := by
  intro s s' hs
  have happly : ∀ (b : Bool) (l : String) (t : State), ∃ u, trace b l t = (.ok ⟨⟩, u) ∧
      t.Alike u ∧ u.matched = t.matched ∧ t.world.nextId = u.world.nextId ∧
      u.world.cache = t.world.cache := by
    intro b l t
    cases b with
    | true => exact ⟨_, rfl, ⟨rfl, rfl, rfl⟩, rfl, rfl, rfl⟩
    | false => exact ⟨t, rfl, .refl t, rfl, rfl, rfl⟩
  obtain ⟨t, ht, halike, hm, hn, hcache⟩ := happly on line s
  obtain ⟨t', ht', halike', hm', hn', -⟩ := happly on' line' s'
  rw [ht, ht']
  exact .value trivial (hs.of_alike halike halike' (by rw [hm, hm', hs.matched])
    (Nat.le_of_eq hn) (Nat.le_of_eq hn') hcache)

/-- Functions that were made: alike except for their numbers, which belong to nothing else. -/
structure NewTwin (ρ : Renumbering) (f f' : Function) : Prop where
  kin : f.Kin ρ f'
  fresh : ρ.Fresh f.id f'.id

theorem NewTwin.twin {f f' : Function} (h : NewTwin ρ f f') : f.Twin (ρ.withFunction h.fresh) f' :=
  ⟨h.kin.mono (Renumbering.le_withFunction h.fresh), .inl ⟨rfl, rfl⟩⟩

theorem Linker.Twin.mono {env env' : Linker} {σ : Renumbering} (h : env.Twin ρ env')
    (hle : ρ ≤ σ) (hhomes : σ.homes = ρ.homes) : env.Twin σ env' where
  live hi := h.live (hhomes ▸ hi)
  lookup hi name := by
    have hlookup := h.lookup (hhomes ▸ hi) name
    generalize env.lookup _ name = l at hlookup
    generalize env'.lookup _ name = l' at hlookup
    cases hlookup with
    | none => exact .none
    | some hg => exact .some (hg.mono hle)

/-- What a pass made of twins is compiled alike. -/
theorem compile_twins (hw : w.Twin ρ o w') {f f' : Function} (h : NewTwin ρ f f') :
    (twins ρ w w').Runs (Artifact.NewAlike o.nextId) (compile f) (compile f') := by
  intro s s' hs
  have henv := Linker.Twin.mono (hs.linker hw) (Renumbering.le_withFunction h.fresh) rfl
  have hcompile := Linker.compile_twin henv (SymbolTable.counts _ _) (SymbolTable.counts _ _)
    h.twin s.world.nextId s'.world.nextId
  rw [compile_apply, compile_apply]
  generalize (s.registry.table.linker s.world).compile _ f = r at hcompile
  generalize (s'.registry.table.linker s'.world).compile _ f' = r' at hcompile
  cases hcompile with
  | error e => exact .fault rfl hs
  | @ok p p' hp =>
      have hnew : o.nextId ≤ p.1.id := Nat.le_trans hw.least (Nat.le_trans hs.nextId hp.2.1)
      exact .value ⟨hp.1, hnew⟩ (hs.of_alike ⟨rfl, rfl, rfl⟩ ⟨rfl, rfl, rfl⟩ hs.matched hp.2.2.1
        hp.2.2.2 rfl)

/-! ## Deciding names -/

section

variable {table table' : Substitution} {debug debug' : Bool}
  {callee callee' : Function → Pass Artifact}

/-- Functions that are found are made artifacts alike. -/
def CalleesTwin (ρ : Renumbering) (w w' : World) (callee callee' : Function → Pass Artifact) :
    Prop :=
  ∀ f f', Finds w.lookup f → Finds w'.lookup f' → f.Twin ρ f' →
    (twins ρ w w').Runs Artifact.Alike (callee f) (callee' f')

theorem meet_twins {id id' : NamespaceId}
    (hid : ρ.homes id id') (hlive : (w.namespace? id).isSome)
    (hlive' : (w'.namespace? id').isSome) {name : String} {r r' : Callable} (hr : r.Twin ρ r') :
    (twins ρ w w').Runs (fun _ _ => True) (install id (overrideAlias name) name (.callable r))
      (install id' (overrideAlias name) name (.callable r')) :=
  fun _ _ hs => .value trivial (hs.install hid hlive hlive' name (.callable hr)
    (fun hp => absurd rfl (hp name)) fun hp => absurd rfl (hp name))

/-- A name is decided alike. -/
theorem decide_twins (htable : Callable.AllTwin ρ table table')
    (hcallee : CalleesTwin ρ w w' callee callee') {id id' : NamespaceId} (hid : ρ.homes id id')
    (hlive : (w.namespace? id).isSome) (hlive' : (w'.namespace? id').isSome) {name : String}
    (hname : PlainName name) :
    (twins ρ w w').Runs Eq (decide table debug callee id name)
      (decide table' debug' callee' id' name) := by
  intro s s' hs
  have hlookup : ∀ t i, lookup i name t = (.ok (State.lookup t i name), t) := fun _ _ => rfl
  rw [decide, decide, Run.bind_ok (hlookup s id), Run.bind_ok (hlookup s' id')]
  have hfound := hs.lookup hid name
  generalize hl : s.lookup id name = l at hfound
  generalize hl' : s'.lookup id' name = l' at hfound
  cases hfound with
  | none => exact .value rfl hs
  | @some g g' hg =>
      dsimp only
      have hentry := htable.get? name
      generalize Dictionary.get? name table = e at hentry
      generalize Dictionary.get? name table' = e' at hentry
      cases hentry with
      | @some r r' hr =>
          dsimp only
          rw [Run.bind_apply, Run.bind_apply, Run.get_apply, Run.get_apply]
          dsimp only
          rw [hs.recorded hid]
          have hmark : (twins ρ w w').Runs Eq
              (do modify fun s : State => { s with matched := Ordered.insert name s.matched }
                  return true)
              (do modify fun s : State => { s with matched := Ordered.insert name s.matched }
                  return true) :=
            (Correspondence.Runs.modify fun t t' ht =>
              ht.of_alike ⟨rfl, rfl, rfl⟩ ⟨rfl, rfl, rfl⟩
                (congrArg (Ordered.insert name) ht.matched) (Nat.le_refl _) (Nat.le_refl _)
                rfl).bind fun _ _ _ => .pure rfl
          split
          · exact hmark s s' hs
          · exact ((trace_twins _ _ _ _).bind fun _ _ _ =>
              (meet_twins hid hlive hlive' hr).bind fun _ _ _ => hmark) s s' hs
      | none =>
          cases hg with
          | constant v => exact .value rfl hs
          | @callable c c' hc =>
              dsimp only
              have hplain := hc.plain?
              generalize hf : c.plain? = p at hplain
              generalize hf' : c'.plain? = p' at hplain
              cases hplain with
              | none => exact .value rfl hs
              | @some f f' hff =>
                  have hrun := hcallee f f' (hs.plain hname ⟨c, hl, hf⟩)
                    (hs.plain' hname ⟨c', hl', hf'⟩) hff
                  have hartifact : ∀ (a : Artifact) c f, Global.callable (.artifact a) = .callable c →
                      c.plain? ≠ some f := by
                    rintro a _ f ⟨⟩ h
                    cases h
                  refine ((hrun.mapReport _).bind fun a a' ha => ?_) s s' hs
                  refine Correspondence.Runs.bind (P := fun _ _ => True) ?_ fun _ _ _ => .pure rfl
                  exact fun t t' ht => .value trivial (ht.install hid hlive hlive' name
                    (.callable (.artifact ha)) (fun _ => hartifact a) fun _ => hartifact a')

theorem decideAll_twins (htable : Callable.AllTwin ρ table table')
    (hcallee : CalleesTwin ρ w w' callee callee') {id id' : NamespaceId} (hid : ρ.homes id id')
    (hlive : (w.namespace? id).isSome) (hlive' : (w'.namespace? id').isSome)
    {names : List String} (hnames : ∀ name ∈ names, PlainName name) :
    (twins ρ w w').Runs Eq (decideAll table debug callee id names)
      (decideAll table' debug' callee' id' names) := by
  induction names with
  | nil => exact .pure rfl
  | cons name rest ih =>
      rw [decideAll, decideAll]
      have hname := hnames name List.mem_cons_self
      refine (decide_twins htable hcallee hid hlive hlive' hname).bind fun b b' hb => ?_
      refine (ih fun n hn => hnames n (List.mem_cons_of_mem _ hn)).bind fun more more' hm => ?_
      exact .pure (by rw [hb, hm])

/-- The names that the first definition of a program calls are such as a text can hold. -/
def PlainCalls (unit : Program) : Prop :=
  ∀ d span rest, unit.items = .function d span :: rest →
    ∀ name ∈ calledInOrder d.body, PlainName name

theorem substituteUnit_twins (htable : Callable.AllTwin ρ table table')
    (hcallee : CalleesTwin ρ w w' callee callee') {id id' : NamespaceId} (hid : ρ.homes id id')
    (hlive : (w.namespace? id).isSome) (hlive' : (w'.namespace? id').isSome) {unit : Program}
    (hunit : PlainCalls unit) :
    (twins ρ w w').Runs Eq (substituteUnit table debug callee id unit)
      (substituteUnit table' debug' callee' id' unit) := by
  rw [substituteUnit.eq_def, substituteUnit.eq_def]
  split
  · next d span rest hitems =>
      refine (decideAll_twins htable hcallee hid hlive hlive' (hunit d span rest hitems)).bind
        fun names names' hn => ?_
      exact .pure (by rw [hn])
  · exact .pure rfl

end

/-! ## Rewriting functions -/

end Pass

namespace Function

variable {ρ : Renumbering} {f f' : Function}

theorem Kin.extract (h : f.Kin ρ f') : f.extract = f'.extract := by
  rw [Function.extract, Function.extract, noSource, noSource, h.origin, h.name, h.nameSpan]
  simp only [unreadable, h.name]

theorem Kin.definitionIn (h : f.Kin ρ f') (unit : Program) :
    f.definitionIn unit = f'.definitionIn unit := by
  have hlocate : f.locate? unit = f'.locate? unit := by
    rw [locate?, locate?, declaredAt, declaredAt, h.origin, h.name]
  rw [Function.definitionIn.eq_def, Function.definitionIn.eq_def, hlocate, emptyUnit, emptyUnit,
    lostDefinition, lostDefinition, h.name, h.nameSpan]

theorem plainCalls_of_extract {unit : Program} (h : f.extract = .ok unit) :
    Pass.PlainCalls unit := by
  intro d span rest hitems name hname
  have hd : d.body.Tidy := tidy_of_extract h (.function d span)
    (hitems ▸ List.mem_cons_self) d span rfl
  exact Block.calls_of_within hd.uses (Pass.mem_calledInOrder.mp hname)

end Function

namespace Pass

variable {ρ : Renumbering} {o : Outset} {w w' : World} {table table' : Substitution}
  {debug debug' : Bool}

/-- Both runs go on, in namespaces that are there, or both fail since the namespace is gone. -/
theorem home_twins (hw : w.Twin ρ o w') {f f' : Function} (hf : f.Kin ρ f') {α β : Type}
    {P : α → β → Prop} {x : Pass α} {y : Pass β}
    (h : (w.namespace? f.home).isSome → (w'.namespace? f'.home).isSome →
      (twins ρ w w').Runs P x y) :
    (twins ρ w w').Runs P
      (do let s ← get
          let _ ← Run.ofOutcome (s.world.home f)
          x)
      (do let s ← get
          let _ ← Run.ofOutcome (s.world.home f')
          y) := by
  refine Correspondence.Runs.get.bind fun s s' hs => ?_
  have hlive := hw.live hf.home
  rw [← hs.live, ← hs.live'] at hlive
  rw [← hs.live, ← hs.live'] at h
  rw [World.home, World.home, ← hf.nameSpan]
  generalize s.world.namespace? f.home = l at hlive h
  generalize s'.world.namespace? f'.home = l' at hlive h
  cases l with
  | none =>
      cases l' with
      | none => exact .bind (P := fun _ _ => False) (.fail _) fun _ _ h => h.elim
      | some ns' => cases hlive
  | some ns =>
      cases l' with
      | none => cases hlive
      | some ns' => exact .bind (P := fun _ _ => True) (.pure trivial) fun _ _ _ => h rfl rfl

/-- Twins are rewritten alike, given that their callees are. -/
theorem substituteFunction_twins (hw : w.Twin ρ o w') (htable : Callable.AllTwin ρ table table')
    {callee callee' : Function → Pass Artifact} (hcallee : CalleesTwin ρ w w' callee callee')
    {f f' : Function} (hf : f.Kin ρ f') :
    (twins ρ w w').Runs (NewTwin ρ) (substituteFunction table debug callee f)
      (substituteFunction table' debug' callee' f') := by
  refine (trace_twins _ _ _ _).bind fun _ _ _ => ?_
  rw [← hf.extract]
  cases hextract : f.extract with
  | error d => exact .bind (P := fun _ _ => False) (.fail d) fun _ _ h => h.elim
  | ok unit =>
      refine Correspondence.Runs.bind (P := fun u u' => u = unit ∧ u' = unit) (.pure ⟨rfl, rfl⟩) ?_
      rintro _ _ ⟨rfl, rfl⟩
      refine home_twins hw hf fun hlive hlive' => ?_
      have hplain := Function.plainCalls_of_extract hextract
      refine (substituteUnit_twins htable hcallee hf.home hlive hlive' hplain).bind
        fun u u' hu => ?_
      subst hu
      intro s s' hs
      rw [Run.bind_apply, Run.bind_apply, Run.get_apply, Run.get_apply]
      dsimp only
      rw [Run.bind_apply, Run.bind_apply, Run.ofOutcome_apply, Run.ofOutcome_apply,
        Function.reassemble, Function.reassemble, ← hf.definitionIn]
      cases f.definitionIn u with
      | error d => exact .fault rfl hs
      | ok d =>
          have hmade : NewTwin ρ (f.withDefinition s.world.nextId d)
              (f'.withDefinition s'.world.nextId d) := by
            refine ⟨⟨rfl, hf.origin, hf.home, hf.captures, ?_⟩, fun m m' hm => ?_⟩
            · rw [Function.withDefinition, Function.withDefinition, Function.build, Function.build,
                hf.captures]
            · obtain ⟨hlt, hlt'⟩ := hs.taken hm
              exact ⟨Nat.ne_of_lt hlt, Nat.ne_of_lt hlt'⟩
          exact .value hmade (hs.of_alike ⟨rfl, rfl, rfl⟩ ⟨rfl, rfl, rfl⟩ hs.matched
            (Nat.le_succ _) (Nat.le_succ _) rfl)

theorem cycle_twin {active active' : List (Nat × String)} (h : ActiveTwin ρ active active')
    {f f' : Function} (hf : f.Twin ρ f') : cycle active f = cycle active' f' := by
  rw [cycle, cycle, h.names hf, hf.name, hf.nameSpan]

/-- A pass over twins makes functions alike. Neither run lacks fuel. -/
theorem specialize_twins (hw : w.Twin ρ o w') (htable : Callable.AllTwin ρ table table')
    {fuel fuel' : Nat} {active active' : List (Nat × String)}
    (hactive : ActiveTwin ρ active active') {f f' : Function}
    (waiting : Waiting w.bindingCount (Finds w.lookup) fuel active f)
    (waiting' : Waiting w'.bindingCount (Finds w'.lookup) fuel' active' f') (hf : f.Twin ρ f') :
    (twins ρ w w').Runs (NewTwin ρ) (specialize table debug fuel active f)
      (specialize table' debug' fuel' active' f') := by
  induction fuel generalizing fuel' active active' f f' with
  | zero =>
      have hany := waiting.of_no_fuel w.counts
      rw [specialize.eq_def, specialize.eq_def, ← hactive.any hf, if_pos hany, if_pos hany,
        cycle_twin hactive hf]
      exact .fail _
  | succ fuel ih =>
      rw [specialize.eq_def, specialize.eq_def, ← hactive.any hf, cycle_twin hactive hf]
      split
      · exact .fail _
      · next hnot =>
          cases fuel' with
          | zero =>
              rw [hactive.any hf] at hnot
              exact absurd (waiting'.of_no_fuel w'.counts) hnot
          | succ fuel' =>
              refine substituteFunction_twins hw htable (fun g g' hg hg' hgg => ?_) hf.toKin
              refine (ih (hactive.next hf) (waiting.next hnot hg) (waiting'.next ?_ hg') hgg).bind
                fun h h' hmade => (compile_twins hw hmade).mono fun a a' ha => ha.alike
              rwa [← hactive.any hf]

variable {isolation isolation' : Isolation}

theorem substitute_twins (hw : w.Twin ρ o w') (htable : Callable.AllTwin ρ table table')
    {f f' : Function} (hf : f.Twin ρ f') :
    (twins ρ w w').Ends (NewTwin ρ) (substitute table debug f (.start isolation w))
      (substitute table' debug' f' (.start isolation' w')) := by
  rw [substitute, substitute, Run.bind_apply, Run.bind_apply, Run.get_apply, Run.get_apply]
  exact specialize_twins hw htable .nil (.start _ _ f) (.start _ _ f') hf _ _ (.start hw _ _)

theorem substituteCompiled_twins (hw : w.Twin ρ o w') (htable : Callable.AllTwin ρ table table')
    {f f' : Function} (hf : f.Twin ρ f') :
    (twins ρ w w').Ends (Artifact.NewAlike o.nextId)
      (substituteCompiled table debug f (.start isolation w))
      (substituteCompiled table' debug' f' (.start isolation' w')) :=
  (substitute_twins hw htable hf).bind fun _ _ hmade => compile_twins hw hmade

end Pass

end Graft
