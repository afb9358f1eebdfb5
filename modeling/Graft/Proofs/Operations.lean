import Graft.Proofs.Finished
import Graft.Proofs.Renumbering
import Graft.Proofs.Rollback

/-!
# What an operation leaves behind

An operation of a gateway leaves the namespaces as they were, however it ends. All that it can
change are the cache, the trace and the next number. A call without overrides looks at none of them,
whether it comes at once or after other things have happened.
-/

namespace Graft

/-! ## Worlds -/

/-- No two namespaces have one number. -/
def World.Distinct (w : World) : Prop := (w.namespaces.map Prod.fst).Nodup

/-- The worlds differ at most in the cache, the trace and the next number. -/
structure World.Alike (w w' : World) : Prop where
  namespaces : w.namespaces = w'.namespaces
  settings : w.settings = w'.settings

namespace World.Alike

variable {w w' : World}

theorem of_same (h : w.Same w') (distinct : w.Distinct) : w.Alike w' :=
  ⟨h.namespaces_eq distinct, h.settings⟩

theorem namespace? (h : w.Alike w') (id : NamespaceId) : w.namespace? id = w'.namespace? id := by
  rw [World.namespace?, h.namespaces, World.namespace?]

theorem linker (h : w.Alike w') : w.linker = w'.linker := by
  have hnamespace : w.namespace? = w'.namespace? := funext h.namespace?
  have hlookup : w.lookup = w'.lookup := by
    funext id name
    rw [lookup, h.namespace?, lookup]
  rw [World.linker, World.linker, hlookup, hnamespace, bindingCount, h.namespaces, bindingCount]

theorem update (h : w.Alike w') (id : NamespaceId) (f : Namespace → Namespace) :
    (w.update id f).Alike (w'.update id f) := by
  refine ⟨?_, h.settings⟩
  rw [World.update, h.namespaces, World.update]

end World.Alike

theorem World.Distinct.update {w : World} (h : w.Distinct) (id : NamespaceId)
    (f : Namespace → Namespace) : (w.update id f).Distinct := by
  rw [World.Distinct, World.ids_update]
  exact h

/-! ## Operations -/

/-- What can be done with a gateway, or with any callable. -/
inductive Operation where
  /-- A call; the keyword arguments may ask for the artifact instead of the value. -/
  | call (g : Gateway) (args : List Value) (ks : Keywords)
  /-- A call with substitutions made ahead. -/
  | callBound (g : Gateway) (overrides : List (String × Callable)) (args : List Value)
    (ks : Keywords)
  | bind (g : Gateway) (ks : Keywords)
  | explain (g : Gateway) (ks : Keywords)
  /-- A call with nothing but arguments. -/
  | apply (c : Callable) (args : List Value)

namespace Operation

def act : Operation → Act Unit
  | call g args ks => do let _ ← g.call args ks
  | callBound g overrides args ks => do let _ ← g.call args (.ofOverrides overrides ++ ks)
  | bind g ks => do let _ ← g.partialApply ks
  | explain g ks => do let _ ← g.explain ks
  | apply c args => do let _ ← c.call args

/-- The world after the operation, however that ended. -/
def after (o : Operation) (w : World) : World := (o.act w).2

theorem transparent (o : Operation) : Act.Transparent o.act := by
  intro w
  cases o with
  | call g args ks => exact (g.transparent_call args ks w).bind fun _ => .pure _
  | callBound g overrides args ks => exact (g.transparent_call args _ w).bind fun _ => .pure _
  | bind g ks => exact (g.transparent_partialApply ks w).bind fun _ => .pure _
  | explain g ks => exact (g.transparent_explain ks w).bind fun _ => .pure _
  | apply c args =>
      have hbound := Gateway.transparent_callBound ampleFuel
      refine .bind (x := c.call args) ?_ fun _ => .pure _
      cases c with
      | function f => exact f.transparent_callWith hbound args w
      | gateway g => exact g.function.transparent_callWith hbound args w
      | artifact a => exact .ofExcept _
      | native n => exact .ofOutcome _
      | bound i g overrides d => exact hbound g overrides args w

theorem alike_after (o : Operation) {w : World} (distinct : w.Distinct) : w.Alike (o.after w) :=
  .of_same (o.transparent.same w) distinct

theorem distinct_after (o : Operation) {w : World} (distinct : w.Distinct) :
    (o.after w).Distinct := by
  rw [World.Distinct, ← (o.alike_after distinct).namespaces]
  exact distinct

end Operation

/-- What can happen between an operation and a later call. -/
inductive Event where
  | operation (o : Operation)
  | define (id : NamespaceId) (name : String) (g : Global)
  | remove (id : NamespaceId) (name : String)
  | limitRecursion (id : NamespaceId) (limit : Nat)
  | drop (id : NamespaceId)
  | configure (settings : Settings)
  | clearCache

namespace Event

def after : Event → World → World
  | operation o, w => o.after w
  | define id name g, w => w.define id name g
  | remove id name, w => w.remove id name
  | limitRecursion id limit, w => w.update id fun ns => { ns with maxRecursion := limit }
  | drop id, w => w.drop id
  | configure settings, w => { w with settings }
  | clearCache, w => { w with cache := w.cache.clear }

theorem alike_after (e : Event) {w w' : World} (h : w.Alike w') (distinct : w.Distinct) :
    (e.after w).Alike (e.after w') ∧ (e.after w).Distinct := by
  have hupdate : ∀ id f, (w.update id f).Alike (w'.update id f) ∧ (w.update id f).Distinct :=
    fun id f => ⟨h.update id f, distinct.update id f⟩
  cases e with
  | operation o =>
      have distinct' : w'.Distinct := by
        rw [World.Distinct, ← h.namespaces]
        exact distinct
      have hw := o.alike_after distinct
      have hw' := o.alike_after distinct'
      refine ⟨⟨?_, ?_⟩, o.distinct_after distinct⟩
      · exact hw.namespaces.symm.trans (h.namespaces.trans hw'.namespaces)
      · exact hw.settings.symm.trans (h.settings.trans hw'.settings)
  | define id name g => exact hupdate id fun ns => ns.define name g
  | remove id name => exact hupdate id fun ns => ns.remove name
  | limitRecursion id limit => exact hupdate id fun ns => { ns with maxRecursion := limit }
  | drop id =>
      refine ⟨⟨?_, h.settings⟩, ?_⟩
      · rw [after, World.drop, h.namespaces, after, World.drop]
      · exact distinct.sublist (List.filter_sublist.map Prod.fst)
  | configure settings => exact ⟨⟨h.namespaces, rfl⟩, distinct⟩
  | clearCache => exact ⟨⟨h.namespaces, h.settings⟩, distinct⟩

/-- The world after some events, the first one first. -/
def afterAll (events : List Event) (w : World) : World := events.foldl (fun w e => e.after w) w

end Event

/-! ## Calls without overrides -/

inductive Product.Alike : Product → Product → Prop
  | value (v : Value) : Alike (.value v) (.value v)
  | artifact {a b : Artifact} : a.Alike b → Alike (.artifact a) (.artifact b)

/-- A call of a callable with nothing but arguments, or of a gateway with keyword arguments. -/
inductive Invocation where
  | callable (c : Callable) (args : List Value)
  | gateway (g : Gateway) (args : List Value) (ks : Keywords)

namespace Invocation

/-- The call, given how callables with substitutions made ahead are called. -/
def runWith (bound : BoundCall) : Invocation → Act Product
  | callable c args => do return .value (← c.callWith bound args)
  | gateway g args ks => g.callWith bound args ks

def run (i : Invocation) : Act Product := i.runWith (Gateway.callBound ampleFuel)

/-- The call is given no overrides. -/
def Plain : Invocation → Prop
  | callable _ _ => True
  | gateway _ _ ks => ∀ entry ∈ ks, ∀ c, entry.2 ≠ .override c

end Invocation

namespace Correspondence

end Correspondence

namespace Invocation

variable {d : Diagnostic} {h : ∀ span, d.orSpan span = d} {bound bound' : BoundCall}

/-- Calls of callables with substitutions made ahead end in a report. -/
def failing (d : Diagnostic) : BoundCall := fun _ _ _ => throw (.report d)

end Invocation

end Graft
