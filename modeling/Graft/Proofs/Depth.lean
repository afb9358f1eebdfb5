import Graft.Proofs.Observing

/-!
# How deep calls are nested

A run of a function that does not exceed the limit on nested calls does the same under every greater
number of levels: the levels are only counted, and what remains of them is looked at by nothing but
the report that there are none.
-/

namespace Graft

/-- The report that calls were nested deeper than `limit`. -/
def Fault.TooDeep (limit : Nat) : Fault → Prop
  | .report d => d.kind = .runtime ∧ d.message = s!"maximum recursion depth ({limit}) exceeded"
  | .exhausted => False

namespace Correspondence

variable {σ τ α : Type}

/-- Both runs do the same to what their states have in common, unless the first one fails in one of
certain ways. -/
def sameUnless (states : σ → τ → Prop) (escapes : Fault → Prop)
    (h : ∀ {e} span, escapes e → escapes (e.map (·.orSpan span))) : Correspondence σ τ where
  states := states
  faults := Eq
  escapes := escapes
  spans := Eq
  spans_refl _ := rfl
  faults_refl _ := rfl
  faults_orSpan := by
    rintro e _ s _ rfl rfl
    rfl
  faults_locate := by
    rintro s _ d rfl
    rfl
  escapes_orSpan := h

/-- Both runs do the same, unless the first one exceeds the limit on nested calls. -/
def deeper (limit : Nat) : Correspondence σ σ :=
  sameUnless Eq (Fault.TooDeep limit) fun {e} span h => by
    cases e with
    | report d => exact h
    | exhausted => exact h

theorem deeper_refl (limit : Nat) (x : Run σ α) : (deeper limit).Runs Eq x x := by
  rintro s _ rfl
  rcases hx : x s with ⟨e | a, t⟩
  · exact .fault rfl rfl
  · exact .value rfl rfl

/-- What corresponds is the same, or the limit was exceeded. -/
theorem deeper_eq {limit : Nat} {x y : Run σ α} (h : (deeper limit).Runs Eq x y) (s : σ) :
    (∃ e, (x s).1 = .error e ∧ e.TooDeep limit) ∨ x s = y s := by
  obtain ⟨a, b, s', t', hx, hy, rfl, rfl⟩ | ⟨e, f, s', t', hx, hy, rfl, rfl⟩ | ⟨e, s', hx, he⟩ :=
    (h s s rfl).cases
  · exact .inr (hx.trans hy.symm)
  · exact .inr (hx.trans hy.symm)
  · exact .inl ⟨e, by rw [hx], he⟩

end Correspondence

theorem World.lookup_congr {w v : World} (h : w.namespaces = v.namespaces) (id : NamespaceId)
    (name : String) : w.lookup id name = v.lookup id name := by
  rw [World.lookup, World.namespace?, h]
  rfl

/-- Scopes of one function correspond if the calls that they make do. -/
theorem Scope.Corresponds.function {f : Function} {call call' : Callable → List Value → Act Value}
    {k : Correspondence World World}
    (hs : ∀ s t, k.states s t → ∀ id name, s.lookup id name = t.lookup id name)
    (h : ∀ c args, k.Runs Eq (call c args) (call' c args)) :
    (f.scope call).Corresponds k .all id (f.scope call') := by
  have hlooks : k.Runs (Observer.SameBindings fun _ => True) (Observer.idle.lift get)
      (Observer.idle.lift get) :=
    Correspondence.Runs.get.mono fun s t hst id name => ⟨hs s t hst id name, fun _ _ => trivial⟩
  apply Observer.scope_corresponds hlooks
  intro c _ args
  exact h c args

/-- Runs of the program correspond at every level as they do at one. -/
theorem Observer.idle_follows {k : Correspondence World World}
    (hs : ∀ s t, k.states s t → ∀ id, s.namespace? id = t.namespace? id) (deepest : Nat) :
    Observer.idle.Follows .idle (fun _ => k) (fun _ => True) deepest where
  looks _ := by
    apply Correspondence.Runs.get.mono
    intro s t hst
    refine ⟨hs s t hst, fun id name => ⟨?_, fun _ _ => trivial⟩⟩
    rw [World.lookup, hs s t hst, World.lookup]
  around _ h := h

namespace Function

theorem scope_outer_apply (f : Function) (call : Callable → List Value → Act Value) (name : String)
    (span : Span) (w : World) :
    (f.scope call).outer name span w =
      match Dictionary.get? name f.captures with
      | some v => (.ok v, w)
      | none =>
        match w.lookup f.home name with
        | some (.constant v) => (.ok v, w)
        | some (.callable c) => (.error (.report (Calls.notAValue c span)), w)
        | none => (.error (.report (Calls.undefinedName name span)), w) := by
  dsimp only [scope]
  cases Dictionary.get? name f.captures with
  | some v => rfl
  | none =>
      change (match w.lookup f.home name with
        | some (.constant v) => pure v
        | some (.callable c) => Run.fail (Calls.notAValue c span)
        | none => Run.fail (Calls.undefinedName name span) : Act Value) w = _
      rcases w.lookup f.home name with _ | _ | _ <;> rfl

theorem scope_call_apply (f : Function) (call : Callable → List Value → Act Value) (name : String)
    (args : List Value) (span : Span) (w : World) :
    (f.scope call).call ⟨name, []⟩ args span w =
      match w.lookup f.home name with
      | some (.callable c) => call c args w
      | some (.constant v) => (.error (.report (Calls.notAFunction name v span)), w)
      | none =>
        match Native.builtin? name with
        | some n => ((n.call args).mapError .report, w)
        | none => (.error (.report (Calls.undefinedFunction name span)), w) := by
  change (match w.lookup f.home name with
    | some (.callable c) => call c args
    | some (.constant v) => Run.fail (Calls.notAFunction name v span)
    | none =>
      match Native.builtin? name with
      | some n => Run.ofOutcome (n.call args)
      | none => Run.fail (Calls.undefinedFunction name span) : Act Value) w = _
  rcases w.lookup f.home name with _ | _ | _
  · cases Native.builtin? name with
    | none => rfl
    | some n => exact Run.ofOutcome_apply _ w
  · rfl
  · rfl

variable {bound : BoundCall} {limit : Nat}

/-- What a call by name does in a frame that `depth` more levels are left for. -/
def callee (bound : BoundCall) (limit depth : Nat) (c : Callable) (args : List Value) : Act Value :=
  match c with
  | .function g => callAt bound limit depth g args
  | .gateway g => callAt bound limit depth g.function args
  | .artifact a => Run.ofExcept (a.call ampleFuel args)
  | .native n => Run.ofOutcome (n.call args)
  | .bound _ g overrides _ => bound g overrides args

theorem callAt_succ (depth : Nat) (f : Function) (args : List Value) :
    callAt bound limit (depth + 1) f args =
      if args.length ≠ f.arity then Run.fail (f.definition.wrongArity args.length)
      else (do
        let _ ← Run.ofOutcome ((← get).home f)
        f.definition.value (f.scope (callee bound limit depth)) ampleFuel args) := by
  rw [callAt]
  rfl

theorem callAt_corresponds {k : Correspondence World World} {bound' : BoundCall}
    (hs : ∀ s t, k.states s t → ∀ id, s.namespace? id = t.namespace? id)
    (hbound : ∀ g overrides args, k.Runs Eq (bound g overrides args) (bound' g overrides args))
    (depth : Nat) (f : Function) (args : List Value) :
    k.Runs Eq (callAt bound limit depth f args) (callAt bound' limit depth f args) := by
  rw [← Observer.idle_callAt, ← Observer.idle_callAt]
  apply (Observer.idle_follows hs (0 + depth)).callAt
  · intro n i g overrides d args _
    exact hbound g overrides args
  · exact Nat.le_refl depth
  · intro hlt
    exact absurd hlt (Nat.lt_irrefl depth)
  · exact Nat.le_refl (0 + depth)

theorem callAt_deeper {depth more : Nat} (hle : depth ≤ more) (f : Function) (args : List Value) :
    (Correspondence.deeper limit).Runs Eq (callAt bound limit depth f args)
      (callAt bound limit more f args) := by
  have hfollows := Observer.idle_follows (k := .deeper limit) (by rintro s _ rfl id; rfl) (0 + depth)
  rw [← Observer.idle_callAt, ← Observer.idle_callAt]
  apply hfollows.callAt
  · intro n i g overrides d args _
    exact Correspondence.deeper_refl limit _
  · exact hle
  · intro _ n f
    exact ⟨rfl, rfl⟩
  · exact Nat.le_refl (0 + depth)

end Function

end Graft
