import Graft.Proofs.Engines
import Graft.Proofs.Requests

/-!
# Calls on engines with and without a cache

Operations on callables end alike on two engines, the second of which keeps nothing: they give the same
values and texts, artifacts alike, and the same faults. A call can come to calls of callables with
substitutions made ahead, which ask the cache in turn; all that they can ask for is told by what names
are bound to.
-/

namespace Graft

open Correspondence (keeping)

/-! ## What is asked for -/

/-- The stream of the key that a specialization asks the cache for. -/
def World.asksFor (w : World) (f : Function) (overrides : List (String × Callable)) :
    List KeyStream :=
  if w.settings.cache then [w.keyStream f (unwrapOverrides overrides)] else []

/-- The streams that a call of a gateway asks for, calls that it comes to apart. -/
def World.asks (w : World) (g : Gateway) (ks : Keywords) : List KeyStream :=
  match Request.ofKeywords g.function ks with
  | .ok r => if r.overrides.isEmpty then [] else w.asksFor g.function r.overrides
  | .error _ => []

/-- Those that a call of a callable without keyword arguments asks for. -/
def Callable.asks (w : World) : Callable → List KeyStream
  | .bound _ g overrides _ => w.asks g (.ofOverrides overrides)
  | _ => []

namespace World

variable {v w : World} {streams : List KeyStream}

/-- A name is bound to the callable. -/
def Named (w : World) (c : Callable) : Prop := ∃ id name, w.lookup id name = some (.callable c)

/-- What calls of bound callables ask for is among the streams. -/
def Asked (streams : List KeyStream) (w : World) : Prop := ∀ c, w.Named c → c.asks w ⊆ streams

theorem Same.asks (h : w.Same v) (g : Gateway) (ks : Keywords) : w.asks g ks = v.asks g ks := by
  simp only [World.asks, World.asksFor, h.settings, h.keyStream]

theorem Same.callable_asks (h : w.Same v) (c : Callable) : c.asks w = c.asks v := by
  cases c with
  | bound i g overrides d => exact h.asks g _
  | _ => rfl

theorem Same.named (h : w.Same v) (c : Callable) : w.Named c ↔ v.Named c := by
  simp only [Named, h.lookup]

theorem Asked.of_same (h : w.Asked streams) (hsame : w.Same v) : v.Asked streams := by
  intro c hc
  rw [← hsame.callable_asks]
  exact h c ((hsame.named c).mpr hc)

end World

variable {ρ : Renumbering} {streams : List KeyStream} {L : Ledger} {w w' : World}

/-! ## Evaluation -/

namespace Engine

/-- The worlds during a call that started in `w₀`: no namespace has changed. -/
def Between (ρ : Renumbering) (streams : List KeyStream) (L : Ledger) (w₀ w w' : World) : Prop :=
  w₀.Same w ∧ ∃ M, L ≤ M ∧ Engine ρ streams M w w'

theorem between (h : Engine ρ streams L w w') : Between ρ streams L w w w' :=
  ⟨.refl w, L, Ledger.le_refl L, h⟩

theorem evaluates (w₀ : World) : Evaluates ρ w₀.Named (Between ρ streams L w₀) where
  lookup := fun ⟨_, _, _, h⟩ hi name => h.twin.lookup hi name
  limit := fun ⟨_, _, _, h⟩ hi => h.limit hi
  found := fun {_ _ i name _} ⟨hsame, _⟩ hl => ⟨i, name, by rwa [hsame.lookup]⟩

section

variable {α β : Type} {states : World → World → Prop} {R : α → β → Prop}
  {p : Except Fault α × World} {q : Except Fault β × World}

theorem ends_of_keeping (hstates : ∀ s t, states s t → ∃ M, L ≤ M ∧ Engine ρ streams M s t)
    (h : (keeping states).Ends R p q) : Ends ρ streams L (fun _ => R) p q := by
  obtain ⟨M, hle, hengine⟩ := hstates _ _ h.after
  exact ⟨M, hle, hengine, h.outcomes⟩

theorem keeping_of_ends {w₀ : World} {M : Ledger} (hle : L ≤ M) (hsame : w₀.Same p.2)
    (h : Ends ρ streams M (fun _ => R) p q) : (keeping (Between ρ streams L w₀)).Ends R p q := by
  obtain ⟨N, hle', hengine, hout⟩ := h
  have hstates : Between ρ streams L w₀ p.2 q.2 := ⟨hsame, N, Ledger.le_trans hle hle', hengine⟩
  obtain ⟨r, s⟩ := p
  obtain ⟨r', t⟩ := q
  cases hout with
  | ok hab => exact .value hab hstates
  | error e => exact .fault rfl hstates

/-- A step that may fail but touches nothing. -/
theorem ends_ofOutcome (h : Engine ρ streams L w w') (o : Outcome α) :
    Ends ρ streams L (fun _ => Eq) (Run.ofOutcome o w) (Run.ofOutcome o w') :=
  ends_of_keeping (fun _ _ hst => ⟨L, Ledger.le_refl L, hst⟩)
    (Correspondence.Runs.ofOutcome o w w' h)

theorem ends_ofExcept (h : Engine ρ streams L w w') (o : Except Fault α) :
    Ends ρ streams L (fun _ => Eq) (Run.ofExcept o w) (Run.ofExcept o w') :=
  ends_of_keeping (fun _ _ hst => ⟨L, Ledger.le_refl L, hst⟩)
    (Correspondence.Runs.ofExcept o w w' h)

end

theorem trace_ends (h : Engine ρ streams L w w') (on on' : Bool) (line line' : String) :
    Ends ρ streams L (fun _ _ _ => True) (Act.trace on line w) (Act.trace on' line' w') :=
  h.ends_of_twins (Act.transparent_trace on line) (Act.transparent_trace on' line')
    (Act.trace_twins on on' line line' w w' h.twin)

/-- Compilations are alike. -/
theorem compile_ends (h : Engine ρ streams L w w') {f f' : Function} (hf : f.Twin ρ f') :
    Ends ρ streams L Made (f.compile w) (f'.compile w') :=
  h.ends_made f.transparent_compile f'.transparent_compile (fun _ _ => Function.id_lt_of_compile)
    (Function.compile_twins hf w w' h.twin)

end Engine

/-! ## Gateways -/

/-- Twins that are known on the first side. -/
structure Callable.Given (ρ : Renumbering) (L : Ledger) (c c' : Callable) : Prop where
  twin : c.Twin ρ c'
  known : c.Known L

/-- The gateways of one function, which is known on the first side. -/
structure Gateway.Given (ρ : Renumbering) (L : Ledger) (g g' : Gateway) : Prop where
  twin : g.function.Twin ρ g'.function
  known : L.functions g.function

theorem Callable.Given.mono {σ : Renumbering} {M : Ledger} {c c' : Callable} (h : c.Given ρ L c')
    (hle : ρ ≤ σ) (hle' : L ≤ M) : c.Given σ M c' := ⟨h.twin.mono hle, h.known.mono hle'⟩

/-- Keyword arguments that are twins and known on the first side. -/
structure Keywords.Given (ρ : Renumbering) (L : Ledger) (ks ks' : Keywords) : Prop where
  twin : Keywords.Twin ρ ks ks'
  known : Keywords.Known L ks

/-- What calls give is the same value, or artifacts alike. -/
inductive Product.Twin (L : Ledger) : Product → Product → Prop
  | value (v : Value) : Product.Twin L (.value v) (.value v)
  | artifact {a a' : Artifact} : Engine.Made L a a' → Product.Twin L (.artifact a) (.artifact a')

namespace Engine

variable {g g' : Gateway} {ks ks' : Keywords}

/-- Keyword arguments are sorted alike, without a change. -/
theorem request_ends (h : Engine ρ streams L w w') (hg : g.Given ρ L g') (hks : ks.Given ρ L ks') :
    Ends ρ streams L (fun _ r r' => r.Twin ρ r' ∧ Request.ofKeywords g.function ks = .ok r)
      (Run.ofOutcome (Request.ofKeywords g.function ks) w)
      (Run.ofOutcome (Request.ofKeywords g'.function ks') w') := by
  have hends : (keeping (Engine ρ streams L)).Ends _ _ _ :=
    Request.ofKeywords_twins hg.twin.toKin hks.twin w w' h
  rw [Run.ofOutcome_apply] at hends ⊢
  obtain ⟨r, r', v, v', hr, hr', hrr, hv⟩ | ⟨e, v, v', hr, hr', hv⟩ := hends.keeping_cases
  · cases ho : Request.ofKeywords g.function ks with
    | error d => rw [ho] at hr; cases hr
    | ok q =>
        rw [ho] at hr
        cases hr
        rw [hr']
        exact value hv ⟨hrr, rfl⟩
  · rw [hr, hr']
    exact hv.fault e

variable {bound bound' : BoundCall}

/-- Calls of gateways end alike, if calls that they come to do. -/
theorem callWith_ends (h : Engine ρ streams L w w') (free : CollisionFree streams)
    (hbound : ∀ M, L ≤ M → BoundCall.Twins ρ w.Named (Between ρ streams M w) bound bound')
    (hg : g.Given ρ L g') (hks : ks.Given ρ L ks') (asked : w.asks g ks ⊆ streams)
    (args : List Value) :
    Ends ρ streams L Product.Twin (g.callWith bound args ks w) (g'.callWith bound' args ks' w') := by
  rw [Gateway.callWith, Gateway.callWith]
  refine (h.request_ends hg hks).bind fun M r r' v v' hle hx hv hr => ?_
  obtain ⟨hrr, hrequest⟩ := hr
  obtain rfl : w = v := by
    rw [Run.ofOutcome_apply] at hx
    exact (Prod.mk.inj hx).2
  rw [Run.bind_apply, Run.bind_apply, Run.get_apply, Run.get_apply]
  dsimp only
  rw [← hrr.returnCallable, ← hrr.values, ← hrr.overrides.isEmpty]
  have hkin := hg.twin.toKin
  have hf := hle.functions hg.known
  rw [← hkin.arguments]
  split
  · split
    · refine (hv.trace_ends _ _ _ _).bind fun N _ _ s s' _ _ hs _ => ?_
      refine (hs.compile_ends hg.twin).bind fun N a a' t t' _ _ ht ha => ?_
      exact value ht (.artifact ha)
    · refine (hv.ends_ofOutcome _).bind fun N args' _ s s' hle' hx hs ha => ?_
      subst ha
      obtain rfl : w = s := by
        rw [Run.ofOutcome_apply] at hx
        exact (Prod.mk.inj hx).2
      have hcall := Function.callWith_twins (evaluates w) (hbound N (Ledger.le_trans hle hle')) hkin
        args' w s' hs.between
      refine (ends_of_keeping (fun _ _ hst => hst.2) hcall).bind fun _ b _ t t' _ _ ht hb => ?_
      subst hb
      exact value ht (.value b)
  · next hnone =>
      have hnodup := (Request.overrides_ofKeywords hrequest).1
      have hall := Request.known_overrides hrequest hks.known
      refine (hv.specialize_ends free hg.twin hf hrr.overrides (hall.mono hle) hnodup
        fun hcache => ?_).bind fun N a a' s s' _ _ hs ha => ?_
      · refine asked ?_
        rw [World.asks, hrequest]
        dsimp only
        rw [if_neg hnone, World.asksFor, if_pos hcache]
        exact List.mem_singleton_self _
      · split
        · exact value hs (.artifact ha)
        · refine (hs.ends_ofOutcome _).bind fun K args' _ t t' _ _ ht he => ?_
          subst he
          rw [ha.alike.call]
          refine (ht.ends_ofExcept _).bind fun _ b _ u u' _ _ hu he => ?_
          subst he
          exact value hu (.value b)

/-- Bound callables are called alike if they end alike wherever what they ask for is among the
streams. -/
theorem bound_twins {w₀ : World} (asked : w₀.Asked streams)
    (hbound : ∀ M w w', Engine ρ streams M w w' → w.Asked streams →
      ∀ g g' overrides overrides' args, g.Given ρ M g' → Callable.AllTwin ρ overrides overrides' →
        Callable.AllKnown M overrides → w.asks g (.ofOverrides overrides) ⊆ streams →
        Ends ρ streams M (fun _ => Eq) (bound g overrides args w) (bound' g' overrides' args w'))
    (transparent : ∀ g overrides args, Act.Transparent (bound g overrides args)) :
    BoundCall.Twins ρ w₀.Named (Between ρ streams L w₀) bound bound' := by
  intro i g g' overrides overrides' d args hnamed hg hoverrides w w' hw
  obtain ⟨hsame, M, hle, hengine⟩ := hw
  obtain ⟨id, name, hl⟩ := (hsame.named _).mp hnamed
  obtain ⟨hf, hall⟩ := (hengine.books.bound hl).bound
  have hasks : w.asks g (.ofOverrides overrides) ⊆ streams :=
    (asked.of_same hsame) (.bound i g overrides d) ⟨id, name, hl⟩
  refine keeping_of_ends hle (hsame.trans ((transparent g overrides args).same w)) ?_
  exact hbound M w w' hengine (asked.of_same hsame) g g' overrides overrides' args ⟨hg, hf⟩
    hoverrides hall hasks

/-- Calls with substitutions made ahead end alike. -/
theorem callBound_ends (free : CollisionFree streams) (fuel : Nat) (L : Ledger) (w w' : World)
    (h : Engine ρ streams L w w') (asked : w.Asked streams) (g g' : Gateway)
    (overrides overrides' : List (String × Callable)) (args : List Value) (hg : g.Given ρ L g')
    (hoverrides : Callable.AllTwin ρ overrides overrides') (hall : Callable.AllKnown L overrides)
    (hasks : w.asks g (.ofOverrides overrides) ⊆ streams) :
    Ends ρ streams L (fun _ => Eq) (Gateway.callBound fuel g overrides args w)
      (Gateway.callBound fuel g' overrides' args w') := by
  induction fuel generalizing L w w' g g' overrides overrides' args with
  | zero => exact h.fault .exhausted
  | succ fuel ih =>
      rw [Gateway.callBound, Gateway.callBound]
      have hks : (Keywords.ofOverrides overrides).Given ρ L (.ofOverrides overrides') :=
        ⟨Keywords.ofOverrides_twin hoverrides, Keywords.ofOverrides_known hall⟩
      refine (h.callWith_ends free (fun M _ => bound_twins asked ?_ ?_) hg hks hasks args).bind
        fun M p p' v v' _ _ hv hp => ?_
      · exact ih
      · exact Gateway.transparent_callBound fuel
      · cases hp with
        | value b => exact hv.ends_ofOutcome _
        | artifact ha =>
            rw [Product.asValue, Product.asValue, Product.notAValue, Product.notAValue,
              ha.alike.name]
            exact hv.ends_ofOutcome _

/-- Calls of gateways end alike. -/
theorem call_ends (h : Engine ρ streams L w w') (free : CollisionFree streams)
    (bound : w.Asked streams) (hg : g.Given ρ L g') (hks : ks.Given ρ L ks')
    (asked : w.asks g ks ⊆ streams) (args : List Value) :
    Ends ρ streams L Product.Twin (g.call args ks w) (g'.call args ks' w') :=
  h.callWith_ends free (fun _ _ => bound_twins bound (callBound_ends free ampleFuel)
    (Gateway.transparent_callBound ampleFuel)) hg hks asked args

/-- Calls of functions end alike. -/
theorem callFunction_ends (h : Engine ρ streams L w w') (free : CollisionFree streams)
    (bound : w.Asked streams) {f f' : Function} (hf : f.Kin ρ f') (args : List Value) :
    Ends ρ streams L (fun _ => Eq) (f.callWith (Gateway.callBound ampleFuel) args w)
      (f'.callWith (Gateway.callBound ampleFuel) args w') := by
  have hbound : BoundCall.Twins ρ w.Named (Between ρ streams L w) _ _ :=
    bound_twins bound (callBound_ends free ampleFuel) (Gateway.transparent_callBound ampleFuel)
  exact ends_of_keeping (fun _ _ hst => hst.2)
    (Function.callWith_twins (evaluates w) hbound hf args w w' h.between)

/-- Calls without keyword arguments end alike. -/
theorem apply_ends (h : Engine ρ streams L w w') (free : CollisionFree streams)
    (bound : w.Asked streams) {c c' : Callable} (hc : c.Given ρ L c') (asked : c.asks w ⊆ streams)
    (args : List Value) : Ends ρ streams L (fun _ => Eq) (c.call args w) (c'.call args w') := by
  obtain ⟨htwin, hknown⟩ := hc
  cases htwin with
  | function hf => exact h.callFunction_ends free bound hf.toKin args
  | gateway hf => exact h.callFunction_ends free bound hf.toKin args
  | artifact ha =>
      rw [Callable.call, Callable.call, Callable.callWith, Callable.callWith, ha.call]
      exact h.ends_ofExcept _
  | native n => exact h.ends_ofOutcome _
  | bound d hg hall =>
      exact callBound_ends free ampleFuel L w w' h bound _ _ _ _ args ⟨hg, hknown.bound.1⟩ hall
        hknown.bound.2 asked

/-- What explains a gateway is the same text. -/
theorem explain_ends (h : Engine ρ streams L w w') (hg : g.Given ρ L g') (hks : ks.Given ρ L ks') :
    Ends ρ streams L (fun _ => Eq) (g.explain ks w) (g'.explain ks' w') := by
  rw [Gateway.explain, Gateway.explain]
  refine (h.request_ends hg hks).bind fun M r r' v v' _ _ hv hr => ?_
  rw [Run.bind_apply, Run.bind_apply, Run.get_apply, Run.get_apply]
  dsimp only
  refine (hv.ends_of_twins (Function.transparent_explain _ _ _) (Function.transparent_explain _ _ _)
    (Function.explain_twins hg.twin hr.1.overrides v v' hv.twin)).bind fun _ d d' s s' _ _ hs hd => ?_
  subst hd
  exact value hs rfl

/-- Substitutions are made ahead alike. -/
theorem partialApply_ends (h : Engine ρ streams L w w') (hg : g.Given ρ L g')
    (hks : ks.Given ρ L ks') :
    Ends ρ streams L (Callable.Given ρ) (g.partialApply ks w) (g'.partialApply ks' w') := by
  rw [Gateway.partialApply, Gateway.partialApply]
  refine (h.request_ends hg hks).bind fun M r r' v v' hle _ hv hr => ?_
  obtain ⟨hrr, hrequest⟩ := hr
  rw [hrr.returnCallable, hrr.debug, hrr.values]
  split
  · rw [Gateway.onlyOverrides, Gateway.onlyOverrides, hg.twin.name, hg.twin.nameSpan]
    exact hv.fault _
  · refine (hv.ends_of_twins Act.transparent_freshId Act.transparent_freshId
      (Act.freshId_twins v v' hv.twin)).bind fun N i i' s s' hle' _ hs _ => ?_
    have hknown := (Request.known_overrides hrequest hks.known).mono (Ledger.le_trans hle hle')
    refine value hs ⟨?_, Callable.known_bound (hle'.functions (hle.functions hg.known)) hknown⟩
    rw [Gateway.bind, Gateway.bind, hrr.overrides.fingerprints, hg.twin.fingerprint]
    exact .bound _ hg.twin hrr.overrides

/-- Conversions are alike. -/
theorem convert_ends (h : Engine ρ streams L w w') {c c' : Callable} (hc : c.Given ρ L c') :
    Ends ρ streams L (Callable.Given ρ) (c.convert w) (c'.convert w') := by
  obtain ⟨htwin, hknown⟩ := hc
  cases htwin with
  | function hf =>
      exact (h.compile_ends hf).bind fun _ a a' v v' _ _ hv ha =>
        value hv ⟨.artifact ha.alike, Callable.known_artifact ha.known⟩
  | artifact ha => exact value h ⟨.artifact ha, hknown⟩
  | native n => exact value h ⟨.native n, hknown⟩
  | gateway hg =>
      rw [Callable.convert, Callable.convert, Callable.notPlain, Callable.notPlain,
        (Callable.Twin.gateway hg).describe]
      exact h.fault _
  | bound d hg hall =>
      rw [Callable.convert, Callable.convert, Callable.notPlain, Callable.notPlain,
        (Callable.Twin.bound d hg hall).describe]
      exact h.fault _

end Engine

end Graft
