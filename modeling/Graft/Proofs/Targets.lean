import Graft.Proofs.Emitting
import Graft.Proofs.Nesting
import Graft.Proofs.Redirecting

/-!
# What replacements are linked as

A pass over a function succeeds if the names that it calls can be decided, and then each of them is
linked to what the replacement was made into: to a primitive or an artifact as it is, and to an
artifact that does what the function does. Where the replacement gives a value, so does what it is
linked as.
-/

namespace Graft

namespace Pass

variable (table : Substitution) (debug : Bool) (callee : Function → Pass Artifact)
  {id : NamespaceId} {name : String} {s : State}

/-- A pass over a function that can be made again of its source succeeds if the names can be
decided. -/
theorem substituteFunction_ok {f : Function} {d : Definition} {span : Span} {names : List String}
    {P : State → Prop} (hunit : f.extract = .ok ⟨[.function d span]⟩)
    (hname : d.name.text = f.name) (hplace : f.declaredAt = some span.start)
    (hlive : (s.world.namespace? f.home).isSome)
    (hdecide : ∀ s₁, s.Alike s₁ → s₁.matched = s.matched →
      ∃ t₁, decideAll table debug callee f.home (calledInOrder d.body) s₁ = (.ok names, t₁) ∧
        P t₁) :
    ∃ g t t₁, substituteFunction table debug callee f s = (.ok g, t) ∧ P t₁ ∧ t₁.Alike t ∧
      t.matched = t₁.matched ∧ g = f.withDefinition t₁.world.nextId (Function.fixSpans
        { d with body := renameCalls names d.body
                 markers := d.markers.filter fun m => m.text ≠ "fs" }) := by
  obtain ⟨s₁, ⟨halike, hmatched⟩, hpass⟩ := substituteFunction_apply table debug callee hunit s
  obtain ⟨t₁, ht₁, hP⟩ := hdecide s₁ halike hmatched
  obtain ⟨ns, hns⟩ := Option.isSome_iff_exists.mp hlive
  have hhome : s₁.world.home f = .ok ns := by
    rw [World.home, halike.namespace?, hns]
  have hmade : f.reassemble t₁.world.nextId
      ⟨[.function { d with body := renameCalls names d.body } span]⟩ =
        .ok (f.withDefinition t₁.world.nextId (Function.fixSpans
          { d with body := renameCalls names d.body
                   markers := d.markers.filter fun m => m.text ≠ "fs" })) := by
    rw [Function.reassemble, Function.definitionIn]
    simp only [Function.locate?, List.findSome?_cons, hname, hplace, or_true, and_self, if_true]
    rfl
  refine ⟨_, { t₁ with world := { t₁.world with nextId := t₁.world.nextId + 1 } }, t₁, ?_, hP,
    ⟨rfl, rfl, rfl⟩, rfl, rfl⟩
  simp only [hpass, hhome, ht₁, hmade]

end Pass

/-- What a call of a bare name is linked to, as a callable. -/
def Compile.Target.callable : Target → Callable
  | .native n => .native n
  | .artifact a => .artifact a

/-- What compiled code calls for a callable: a primitive and an artifact as they are, a function as
an artifact that realizes it. -/
inductive LinkedAs (w : World) : Callable → Compile.Target → Prop
  | native (n : Native) : LinkedAs w (.native n) (.native n)
  | artifact (a : Artifact) : LinkedAs w (.artifact a) (.artifact a)
  | plain {c p a} : c.plain? = some p →
      (∀ limit, p.RealizedBy Fault.Alike (Function.callAt (Gateway.callBound ampleFuel) limit) w a) →
      LinkedAs w c (.artifact a)

/-- Where a call of the callable gives a value, so does a call of what it is linked as. -/
theorem LinkedAs.run_eq_ok {w : World} {c : Callable} {t : Compile.Target} {args : List Value}
    {v : Value} (h : LinkedAs w c t) (hv : (c.call args w).1 = .ok v) :
    t.run ampleFuel args = .ok v := by
  cases h with
  | native n =>
      change (Run.ofOutcome (n.call args) w).1 = .ok v at hv
      rwa [Run.ofOutcome_apply] at hv
  | artifact a =>
      change (Run.ofExcept (a.call ampleFuel args) w).1 = .ok v at hv
      rwa [Run.ofExcept_apply] at hv
  | @plain c p a hp realized =>
      have hcall : c.call args w = p.callWith (Gateway.callBound ampleFuel) args w := by
        cases c with
        | function f =>
            obtain rfl := Option.some.inj hp
            rfl
        | gateway g =>
            obtain rfl := Option.some.inj hp
            rfl
        | artifact b => cases hp
        | native n => cases hp
        | bound i g overrides d => cases hp
      rw [hcall] at hv
      have hends := Function.RealizedBy.callWith_agrees realized args fun ns e _ he => by
        rw [hv] at he
        cases he
      exact ((agreeUpTo_alike.mp hends).eq_ok_iff v).mp hv

theorem Callable.plain?_unwrapped (c : Callable) : c.unwrapped.plain? = c.plain? := by
  cases c <;> rfl

theorem LinkedAs.of_unwrapped {w : World} {c : Callable} {t : Compile.Target}
    (h : LinkedAs w c.unwrapped t) : LinkedAs w c t := by
  cases c with
  | gateway g =>
      change LinkedAs w (.function g.function) t at h
      cases h with
      | plain hp realized => exact .plain hp realized
  | _ => exact h

namespace Substitution.Prepared

variable {raw : Substitution} {u w : World} {c r : Callable}

/-- What is made for a replacement is linked at once. -/
theorem exists_target (h : Prepared raw u c r) : ∃ t : Compile.Target, r = t.callable := by
  cases h with
  | @made p a hp hmakes hr => exact ⟨.artifact a, hr⟩
  | @converted s s' hp hs hconvert =>
      cases c with
      | native n =>
          cases hconvert
          exact ⟨.native n, rfl⟩
      | artifact a =>
          cases hconvert
          exact ⟨.artifact a, rfl⟩
      | function f =>
          obtain ⟨a, s₁, -, hconvert⟩ := Run.bind_eq_ok hconvert
          cases hconvert
          exact ⟨.artifact a, rfl⟩
      | gateway g => cases hconvert
      | bound i g overrides d => cases hconvert

/-- What is made for a replacement in which no substitution is to be made is what it is linked
as. -/
theorem linkedAs {t : Compile.Target} (h : Prepared raw u c t.callable)
    (loaded : ∀ p, c = .function p → p.Loaded raw w)
    (free : ∀ p, raw.pending? c = some p → ∀ c', ¬ p.Meets raw w c') (keeps : u.Keeps w) :
    LinkedAs w c t := by
  have hbound := Gateway.transparent_callBound ampleFuel
  generalize hr : t.callable = r at h
  cases h with
  | @made p a hp hmakes hmade =>
      -- no substitution is made in it, so running it under the substitutions is running it
      subst hmade
      have hfree := free p hp
      obtain rfl := pending?_eq_some hp
      have closes : p.Closes raw w :=
        ⟨fun c' _ hc => absurd hc (hfree c'), fun c' _ _ hc => absurd hc (hfree c')⟩
      cases t with
      | native n => cases hr
      | artifact b =>
          obtain rfl := Callable.artifact.inj hr
          refine .plain rfl fun limit => ?_
          exact (hmakes.realizes hbound (fun _ => rfl) (loaded p rfl) .refl closes
            keeps).of_callUnder hbound hfree
  | @converted s s' hp hs hconvert =>
      cases c with
      | native n =>
          cases hconvert
          cases t with
          | native m =>
              obtain rfl := Callable.native.inj hr
              exact .native m
          | artifact b => cases hr
      | artifact a =>
          cases hconvert
          cases t with
          | native m => cases hr
          | artifact b =>
              obtain rfl := Callable.artifact.inj hr
              exact .artifact b
      | function f =>
          -- a function whose own name is overridden is compiled as it is
          obtain ⟨a, s₁, hcompile, hconvert⟩ := Run.bind_eq_ok hconvert
          cases hconvert
          cases t with
          | native m => cases hr
          | artifact b =>
              obtain rfl := Callable.artifact.inj hr
              have hkeeps := hs.keeps keeps
              have closed := (loaded f rfl).closed hkeeps
              exact .plain rfl (Function.compile_realizes closed .refl hcompile hkeeps
                (Gateway.callBound ampleFuel))
      | gateway g => cases hconvert
      | bound i g overrides d => cases hconvert

end Substitution.Prepared

/-- A name that is bound to a primitive or to an artifact is linked at once. -/
theorem Compile.linkName_bound {env : Linker} {callee : Function → Compile Artifact} {f : Function}
    {name : String} {t : Compile.Target}
    (h : env.lookup f.home name = some (.callable t.callable)) (span : Span) (st : Compile.State) :
    Compile.linkName env callee f name span st = .ok (t, st) := by
  rw [linkName, h]
  cases t with
  | native n => rfl
  | artifact a => rfl

/-- So is a builtin that no binding hides. -/
theorem Compile.linkName_builtin {env : Linker} {callee : Function → Compile Artifact}
    {f : Function} {name : String} {n : Native} (h : env.lookup f.home name = none)
    (hn : Native.builtin? name = some n) (span : Span) (st : Compile.State) :
    Compile.linkName env callee f name span st = .ok (.native n, st) := by
  rw [linkName, h]
  dsimp only
  rw [hn]
  rfl

/-- A function whose body is lowered to known steps is compiled to them. -/
theorem Compile.compileUnit_gives {env : Linker} {callee : Function → Compile Artifact}
    {f : Function} {steps : Steps} (hlive : env.isLive f.home = true)
    (h : (Block.lower (Compile.Context.ofFunction env callee f) f.definition.body).Gives steps)
    (st : Compile.State) :
    ∃ info st', Compile.compileUnit env callee f st =
        .ok (.mk info (Compile.layout f.definition).length steps, st') ∧
      info.definition = f.definition := by
  obtain ⟨callees, hlower⟩ := h [] st
  rw [Context.ofFunction] at hlower
  simp only [compileUnit]
  rw [if_pos hlive, bind_apply]
  dsimp only [StateT.run]
  rw [hlower]
  exact ⟨_, _, rfl, rfl⟩

end Graft
