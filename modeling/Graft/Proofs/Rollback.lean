import Graft.Gateway.Call
import Graft.Proofs.Undoing

/-!
# Operations leave the namespaces as they were

However an operation of a gateway ends, every namespace is afterwards as it was before: each step of a
pass keeps that what the pass bound can be undone, and the end of every pass undoes it.
-/

namespace Graft

variable {σ α β : Type}

/-! ## What runs preserve -/

/-- However the run ends, it preserves the property of the state. -/
def Run.Preserves (inv : σ → Prop) (x : Run σ α) : Prop := ∀ s, inv s → inv (x s).2

namespace Run.Preserves

variable {inv : σ → Prop} {x y : Run σ α}

theorem pure (a : α) : Run.Preserves inv (pure a) := fun _ h => h

theorem bind {f : α → Run σ β} (h : Run.Preserves inv x) (step : ∀ a, Run.Preserves inv (f a)) :
    Run.Preserves inv (x >>= f) := by
  intro s hs
  have hx := h s hs
  rw [Run.bind_apply]
  rcases hr : x s with ⟨e | a, t⟩
  · rw [hr] at hx
    exact hx
  · rw [hr] at hx
    exact step a t hx

theorem throw (e : Fault) : Run.Preserves inv (throw e : Run σ α) := fun _ h => h

theorem fail (d : Diagnostic) : Run.Preserves inv (Run.fail d : Run σ α) := throw _

theorem get : Run.Preserves inv get := fun _ h => h

theorem modify {f : σ → σ} (h : ∀ s, inv s → inv (f s)) : Run.Preserves inv (modify f) := h

theorem ofOutcome (o : Outcome α) : Run.Preserves inv (Run.ofOutcome o) := by
  cases o with
  | ok a => exact pure a
  | error d => exact fail d

theorem ofExcept (o : Except Fault α) : Run.Preserves inv (Run.ofExcept o) := by
  cases o with
  | ok a => exact pure a
  | error e => exact throw e

theorem mapReport (r : Diagnostic → Diagnostic) (h : Run.Preserves inv x) :
    Run.Preserves inv (Run.mapReport r x) := by
  intro s hs
  rw [Run.mapReport_apply]
  exact h s hs

theorem ite {p : Prop} [Decidable p] (hx : Run.Preserves inv x) (hy : Run.Preserves inv y) :
    Run.Preserves inv (if p then x else y) := by
  split
  · exact hx
  · exact hy

end Run.Preserves

namespace Pass

variable {inv : State → Prop} {w : World} {table : Substitution} {debug : Bool}
  {callee : Function → Pass Artifact}

/-- A property of states that only depends on what names are bound to, and survives what a pass
binds: a replacement to an alias, or an artifact to a name that was bound when its function was
found. -/
structure State.Steady (inv : State → Prop) : Prop where
  of_alike : ∀ {s t : State}, inv s → s.Alike t → inv t
  replacement : ∀ {s : State} (id : NamespaceId) (name : String) (r : Callable), inv s →
    inv (s.install id (overrideAlias name) name (.callable r))
  artifact : ∀ {s t : State} (id : NamespaceId) (name : String) (a : Artifact), inv s → inv t →
    (s.lookup id name).isSome → inv (t.install id name name (.callable (.artifact a)))

namespace State.Steady

variable (steady : State.Steady inv)
include steady

theorem trace (on : Bool) (line : String) : Run.Preserves inv (trace on line) := by
  intro s hs
  obtain ⟨t, ht, halike⟩ := trace_apply on line s
  rw [ht]
  exact steady.of_alike hs halike

theorem compile (f : Function) : Run.Preserves inv (compile f) := by
  intro s hs
  rcases h : Pass.compile f s with ⟨r, t⟩
  exact steady.of_alike hs (alike_of_compile h)

theorem decide (hcallee : ∀ f, Run.Preserves inv (callee f)) (id : NamespaceId) (name : String) :
    Run.Preserves inv (decide table debug callee id name) := by
  -- What the name is bound to is needed for the artifact that is bound to it in the end.
  intro s hs
  have hlookup : Pass.lookup id name s = (.ok (s.lookup id name), s) := rfl
  rw [Pass.decide, Run.bind_ok hlookup]
  have hmark : ∀ s : State, inv s → inv { s with matched := Ordered.insert name s.matched } :=
    fun s hs => steady.of_alike hs ⟨rfl, rfl, rfl⟩
  cases hl : s.lookup id name with
  | none => exact hs
  | some current =>
      cases Dictionary.get? name table with
      | some r =>
          refine (Run.Preserves.get.bind fun s => ?_) s hs
          refine .ite ?_ ?_
          · exact .bind (.modify hmark) fun _ => .pure _
          · exact (steady.trace _ _).bind fun _ =>
              .bind (fun _ hs => steady.replacement id name _ hs) fun _ =>
                .bind (.modify hmark) fun _ => .pure _
      | none =>
          cases current with
          | constant v => exact hs
          | callable c =>
              dsimp only
              cases c.plain? with
              | none => exact hs
              | some f =>
                  have hbound : (s.lookup id name).isSome := by simp [hl]
                  refine ((Run.Preserves.mapReport _ (hcallee f)).bind fun a => ?_) s hs
                  exact .bind (fun _ ht => steady.artifact id name a hs ht hbound) fun _ => .pure _

theorem decideAll (hcallee : ∀ f, Run.Preserves inv (callee f)) (id : NamespaceId)
    (names : List String) : Run.Preserves inv (decideAll table debug callee id names) := by
  induction names with
  | nil => exact .pure _
  | cons name rest ih =>
      exact (steady.decide hcallee id name).bind fun _ => ih.bind fun _ => .pure _

theorem substituteUnit (hcallee : ∀ f, Run.Preserves inv (callee f)) (id : NamespaceId)
    (unit : Program) : Run.Preserves inv (substituteUnit table debug callee id unit) := by
  rw [substituteUnit.eq_def]
  split
  · exact (steady.decideAll hcallee id _).bind fun _ => .pure _
  · exact .pure _

theorem substituteFunction (hcallee : ∀ f, Run.Preserves inv (callee f)) (f : Function) :
    Run.Preserves inv (substituteFunction table debug callee f) :=
  (steady.trace _ _).bind fun _ => (Run.Preserves.ofOutcome _).bind fun unit =>
    Run.Preserves.get.bind fun _ => (Run.Preserves.ofOutcome _).bind fun _ =>
      (steady.substituteUnit hcallee _ unit).bind fun _ => Run.Preserves.get.bind fun _ =>
        (Run.Preserves.ofOutcome _).bind fun _ =>
          .bind (.modify fun _ h => steady.of_alike h ⟨rfl, rfl, rfl⟩) fun _ => .pure _

theorem specialize (table : Substitution) (debug : Bool) (fuel : Nat)
    (active : List (Nat × String)) (f : Function) :
    Run.Preserves inv (specialize table debug fuel active f) := by
  induction fuel generalizing active f with
  | zero =>
      rw [specialize.eq_def]
      exact .ite (.fail _) (.throw _)
  | succ fuel ih =>
      rw [specialize.eq_def]
      exact .ite (.fail _) (steady.substituteFunction
        (fun g => (ih _ g).bind fun _ => steady.compile _) f)

end State.Steady

/-- The pass can be undone after the run if it can be before. -/
abbrev Undoable (w : World) (x : Pass α) : Prop := Run.Preserves (State.Undoes w) x

theorem State.Undoes.steady (w : World) : State.Steady (State.Undoes w) where
  of_alike hs h := hs.of_alike h
  replacement id name r hs := hs.install id (overrideAlias name) name (.callable r)
  artifact id name a _ ht _ := ht.install id name name (.callable (.artifact a))

theorem undoable_substitute (table : Substitution) (debug : Bool) (f : Function) :
    Undoable w (substitute table debug f) :=
  Run.Preserves.get.bind fun _ => (State.Undoes.steady w).specialize table debug _ _ f

theorem undoable_substituteCompiled (table : Substitution) (debug : Bool) (f : Function) :
    Undoable w (substituteCompiled table debug f) :=
  (undoable_substitute table debug f).bind fun _ => (State.Undoes.steady w).compile _

/-- Restoring counts what was recorded and puts it back. -/
theorem restore_apply (debug : Bool) (s : State) :
    ∃ t, restore debug s = (.ok s.registry.replaced.length, t) ∧
      State.Alike { s with registry := (s.registry.restore s.world).1
                           world := (s.registry.restore s.world).2 } t := by
  obtain ⟨t, ht, halike⟩ := trace_apply
    (debug && s.registry.replaced.length != 0) s!"restored {s.registry.replaced.length} binding(s)"
    { s with registry := (s.registry.restore s.world).1, world := (s.registry.restore s.world).2 }
  refine ⟨t, ?_, halike⟩
  rw [restore, Run.bind_apply, Run.get_apply]
  dsimp only
  rw [Run.bind_apply, Run.set_apply]
  dsimp only
  rw [Run.bind_ok ht]
  rfl

/-- A pass in the world, whose bindings are undone. -/
theorem within_apply {α : Type} (table : SymbolTable) (debug : Bool) (pass : Pass α) (w : World) :
    within table debug pass w =
      ((pass { world := w, registry := { table } }).1.map fun a =>
          (a, (pass { world := w, registry := { table } }).2.matched),
        (restore debug (pass { world := w, registry := { table } }).2).2.world) := by
  rw [within, Run.bind_apply, Run.get_apply]
  dsimp only [ExceptT.run, StateT.run]
  rcases pass { world := w, registry := { table } } with ⟨e | a, s⟩
  · rfl
  · rfl

end Pass

/-! ## Operations -/

theorem World.Same.touch {w s t : World} (h : w.Same s) (hnamespaces : t.namespaces = s.namespaces)
    (hsettings : t.settings = s.settings) : w.Same t := by
  refine h.trans ⟨fun i => ?_, by rw [hnamespaces], hsettings.symm⟩
  rw [World.namespace?, World.namespace?, hnamespaces]

/-- The run leaves every namespace as it was. -/
abbrev Act.Transparent (x : Act α) : Prop := ∀ w : World, Run.Preserves w.Same x

namespace Act.Transparent

variable {x : Act α}

theorem of_same (h : ∀ w : World, w.Same (x w).2) : Transparent x := fun _ s hs => hs.trans (h s)

theorem same (h : Transparent x) (w : World) : w.Same (x w).2 := h w w (.refl w)

theorem same_of_eq (h : Transparent x) {w w' : World} {r : Except Fault α} (hx : x w = (r, w')) :
    w.Same w' := by
  have hsame := h.same w
  rwa [hx] at hsame

end Act.Transparent

theorem Pass.transparent_within {pass : Pass α} (h : ∀ w, Undoable w pass) (isolation : Isolation)
    (debug : Bool) : Act.Transparent (within (.ofIsolation isolation) debug pass) := by
  refine .of_same fun w => ?_
  rw [within_apply]
  obtain ⟨t, ht, -, hnamespaces, hsettings⟩ := restore_apply debug
    (pass { world := w, registry := { table := .ofIsolation isolation } }).2
  rw [ht]
  have hundoes := h w _ (State.Undoes.start w (.ofIsolation isolation))
  exact hundoes.restore.symm.touch hnamespaces hsettings

theorem Act.transparent_trace (on : Bool) (line : String) : Act.Transparent (Act.trace on line) :=
  .of_same fun w => by
    cases on with
    | true => exact (World.Same.refl w).touch rfl rfl
    | false => exact .refl w

theorem Act.transparent_freshId : Act.Transparent Act.freshId :=
  .of_same fun w => (World.Same.refl w).touch rfl rfl

theorem Function.transparent_compile (f : Function) : Act.Transparent f.compile := by
  refine .of_same fun w => ?_
  rw [compile_apply]
  split
  · exact (World.Same.refl w).touch rfl rfl
  · exact .refl w

theorem Callable.transparent_convert (c : Callable) : Act.Transparent c.convert := by
  intro w
  cases c with
  | artifact a => exact .pure _
  | native n => exact .pure _
  | function f => exact (f.transparent_compile w).bind fun _ => .pure _
  | gateway g => exact .fail _
  | bound i g overrides d => exact .fail _

namespace Substitution

variable {isolation : Isolation} {debug : Bool}

theorem transparent_prepareReplacements (raw : Substitution) (rest : Substitution) :
    Act.Transparent (raw.prepareReplacements isolation debug rest) := by
  intro w
  induction rest with
  | nil => exact .pure _
  | cons entry rest ih =>
      obtain ⟨name, c⟩ := entry
      rw [prepareReplacements]
      split
      · exact ih
      · next f _ =>
          have hwithin := Pass.transparent_within
            (fun w => Pass.undoable_substituteCompiled (w := w) raw debug f) isolation debug
          exact (Run.Preserves.mapReport _ (hwithin w)).bind fun _ => ih.bind fun _ => .pure _

theorem transparent_convertOthers (made rest : Substitution) :
    Act.Transparent (convertOthers made rest) := by
  intro w
  induction rest with
  | nil => exact .pure _
  | cons entry rest ih =>
      obtain ⟨name, c⟩ := entry
      rw [convertOthers]
      split
      · exact (Run.Preserves.pure _).bind fun _ => ih.bind fun _ => .pure _
      · exact (Run.Preserves.mapReport _ (c.transparent_convert w)).bind fun _ =>
          ih.bind fun _ => .pure _

theorem transparent_prepare (raw : Substitution) : Act.Transparent (raw.prepare isolation debug) :=
  fun w => (transparent_prepareReplacements raw raw w).bind fun _ =>
    (transparent_convertOthers _ raw w).bind fun _ => .pure _

end Substitution

namespace Function

theorem undoable_checkMatched {w : World} (f : Function) (strict debug : Bool)
    (names : List String) : Pass.Undoable w (f.checkMatched strict debug names) := by
  induction names with
  | nil => exact .pure _
  | cons name rest ih =>
      exact .ite (.fail _) (((Pass.State.Undoes.steady w).trace _ _).bind fun _ => ih)

theorem transparent_checkAcyclic (f : Function) (overrides : List (String × Callable)) :
    Act.Transparent (f.checkAcyclic overrides) := by
  refine fun w => Run.Preserves.get.bind fun _ => (Run.Preserves.ofExcept _).bind fun g => ?_
  split
  · exact .fail _
  · exact .pure _

theorem transparent_specializeAnew (f : Function) (overrides : List (String × Callable))
    (debug : Bool) : Act.Transparent (f.specializeAnew overrides debug) := by
  refine fun w => Run.Preserves.get.bind fun _ =>
    (Substitution.transparent_prepare _ w).bind fun r => ?_
  refine .bind (Pass.transparent_within (fun w => ?_) _ _ w) fun _ => .pure _
  exact (Pass.undoable_substituteCompiled _ debug f).bind fun _ => Run.Preserves.get.bind fun _ =>
    (f.undoable_checkMatched _ debug _).bind fun _ => .pure _

theorem transparent_cached (f : Function) (key : CacheKey) (debug : Bool) :
    Act.Transparent (f.cached key debug) := by
  refine .of_same fun w => ?_
  rw [cached, Run.bind_apply, Run.get_apply]
  dsimp only
  rcases w.cache.get key with ⟨found, cache⟩
  dsimp only
  rw [Run.bind_apply, Run.set_apply]
  have hset : w.Same { w with cache } := (World.Same.refl w).touch rfl rfl
  refine Run.Preserves.ite ?_ (.pure found) _ hset
  exact (Act.transparent_trace _ _ w).bind fun _ => .pure found

theorem transparent_specialize (f : Function) (overrides : List (String × Callable))
    (debug : Bool) : Act.Transparent (f.specialize overrides debug) := by
  refine fun w => Run.Preserves.get.bind fun s => .ite ?_ ?_
  · refine (f.transparent_cached _ debug w).bind fun found => ?_
    split
    · exact .pure _
    · exact (f.transparent_checkAcyclic _ w).bind fun _ =>
        (f.transparent_specializeAnew _ debug w).bind fun a =>
          .bind (.modify fun _ h => h.touch rfl rfl) fun _ => .pure _
  · exact (f.transparent_checkAcyclic _ w).bind fun _ => f.transparent_specializeAnew _ debug w

theorem transparent_explain (f : Function) (overrides : List (String × Callable)) (debug : Bool) :
    Act.Transparent (f.explain overrides debug) := by
  refine fun w => (f.transparent_checkAcyclic _ w).bind fun _ =>
    (Substitution.transparent_prepare _ w).bind fun _ => ?_
  exact .bind (Pass.transparent_within (fun w => Pass.undoable_substitute _ debug f) _ _ w)
    fun _ => .pure _

end Function

/-! ## Calls -/

namespace Correspondence

/-- Both runs are one run, which preserves a property of the state. -/
def preserving (inv : σ → Prop) : Correspondence σ σ :=
  sameUnless (fun s t => s = t ∧ inv s) (fun _ => False) fun _ h => h

theorem preserving_iff {inv : σ → Prop} {x : Run σ α} :
    (preserving inv).Runs Eq x x ↔ Run.Preserves inv x := by
  constructor
  · intro h s hs
    obtain ⟨a, b, t, u, hx, -, -, ht⟩ | ⟨e, f, t, u, hx, -, -, ht⟩ | ⟨e, t, -, he⟩ :=
      (h s s ⟨rfl, hs⟩).cases
    · rw [hx]
      exact ht.2
    · rw [hx]
      exact ht.2
    · exact he.elim
  · rintro h s _ ⟨rfl, hs⟩
    have hx := h s hs
    rcases hr : x s with ⟨e | a, t⟩
    · rw [hr] at hx
      exact .fault rfl ⟨rfl, hx⟩
    · rw [hr] at hx
      exact .value rfl ⟨rfl, hx⟩

end Correspondence

namespace Function

variable {bound : BoundCall}

theorem transparent_callAt (hbound : ∀ g overrides args, Act.Transparent (bound g overrides args))
    (limit depth : Nat) (f : Function) (args : List Value) :
    Act.Transparent (callAt bound limit depth f args) := by
  intro w
  refine Correspondence.preserving_iff.mp ?_
  refine callAt_corresponds (fun s t hst id => by rw [hst.1]) (fun g overrides args => ?_) _ f args
  exact Correspondence.preserving_iff.mpr (hbound g overrides args w)

theorem transparent_callWith (hbound : ∀ g overrides args, Act.Transparent (bound g overrides args))
    (f : Function) (args : List Value) : Act.Transparent (f.callWith bound args) := fun w =>
  Run.Preserves.get.bind fun _ => (Run.Preserves.ofOutcome _).bind fun _ =>
    transparent_callAt hbound _ _ f args w

end Function

namespace Gateway

variable {bound : BoundCall}

theorem transparent_callWith (hbound : ∀ g overrides args, Act.Transparent (bound g overrides args))
    (g : Gateway) (args : List Value) (ks : Keywords) :
    Act.Transparent (g.callWith bound args ks) := by
  refine fun w => (Run.Preserves.ofOutcome _).bind fun r => Run.Preserves.get.bind fun _ =>
    .ite (.ite ?_ ?_) ?_
  · exact (Act.transparent_trace _ _ w).bind fun _ => (g.function.transparent_compile w).bind
      fun _ => .pure _
  · exact (Run.Preserves.ofOutcome _).bind fun args =>
      (g.function.transparent_callWith hbound args w).bind fun _ => .pure _
  · refine (g.function.transparent_specialize _ _ w).bind fun a => .ite (.pure _) ?_
    exact (Run.Preserves.ofOutcome _).bind fun _ => (Run.Preserves.ofExcept _).bind fun _ => .pure _

theorem transparent_callBound (fuel : Nat) (g : Gateway) (overrides : List (String × Callable))
    (args : List Value) : Act.Transparent (callBound fuel g overrides args) := by
  induction fuel generalizing g overrides args with
  | zero => exact fun w => .throw _
  | succ fuel ih =>
      exact fun w => (g.transparent_callWith ih args _ w).bind fun _ => .ofOutcome _

theorem transparent_call (g : Gateway) (args : List Value) (ks : Keywords) :
    Act.Transparent (g.call args ks) :=
  g.transparent_callWith (transparent_callBound ampleFuel) args ks

theorem transparent_partialApply (g : Gateway) (ks : Keywords) :
    Act.Transparent (g.partialApply ks) := fun w =>
  (Run.Preserves.ofOutcome _).bind fun _ => .ite (.fail _)
    ((Act.transparent_freshId w).bind fun _ => .pure _)

theorem transparent_explain (g : Gateway) (ks : Keywords) : Act.Transparent (g.explain ks) :=
  fun w => (Run.Preserves.ofOutcome _).bind fun _ => Run.Preserves.get.bind fun _ =>
    (g.function.transparent_explain _ _ w).bind fun _ => .pure _

end Gateway

end Graft
