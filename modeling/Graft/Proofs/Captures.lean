import Graft.Proofs.Coinciding
import Graft.Proofs.Linking

/-!
# Captured values

What a function closes over matters only in the names that are free in it, and in those of its own
names that it may come to before it assigned them. Functions that differ in other captured values do
the same, interpreted and compiled.
-/

namespace Graft

/-- Two collections of values are the same in the names that are free in a definition, and in the
names that it may come to before it assigned them. -/
structure Definition.SameCaptures (d : Definition) (C D : List (String × Value)) : Prop where
  free : ∀ n ∈ d.freeNames, Dictionary.get? n C = Dictionary.get? n D
  early : ∀ n ∈ d.earlyNames, Dictionary.get? n C = Dictionary.get? n D

namespace Function

variable {f : Function} {i j : Nat} {C D : List (String × Value)}

/-! ## Functions that close over other values -/

theorem scope_agreeOn (f : Function) (i j : Nat) (C D : List (String × Value))
    (call : Callable → List Value → Act Value) :
    ((f.withCaptures i C).scope call).AgreeOn
      (fun n => Dictionary.get? n C = Dictionary.get? n D) ((f.withCaptures j D).scope call) where
  reads n hn := by
    funext span
    simp only [scope, withCaptures, build, hn]
  calls := rfl

theorem callAt_succ_withCaptures (bound : BoundCall) (limit depth : Nat) (args : List Value) :
    (f.withCaptures i C).callAt bound limit (depth + 1) args =
      if args.length ≠ f.arity then Run.fail (f.definition.wrongArity args.length)
      else (do
        let _ ← Run.ofOutcome ((← get).home f)
        f.definition.value ((f.withCaptures i C).scope (callee bound limit depth)) ampleFuel
          args) :=
  callAt_succ depth _ args

/-- Only the body of the function itself comes to what it closes over: the functions that it calls
are the same. -/
theorem callAt_withCaptures (h : f.definition.SameCaptures C D) (bound : BoundCall)
    (limit depth : Nat) (args : List Value) :
    (f.withCaptures i C).callAt bound limit depth args =
      (f.withCaptures j D).callAt bound limit depth args := by
  cases depth with
  | zero =>
      rw [callAt, callAt]
      rfl
  | succ depth =>
      rw [callAt_succ_withCaptures, callAt_succ_withCaptures]
      by_cases hargs : args.length = f.arity
      · have hvalue := Definition.value_coincides
          (scope_agreeOn f i j C D (callee bound limit depth))
          (fun n hn => (Definition.free_or_early hn).elim (h.free n) (h.early n)) ampleFuel hargs
        rw [if_neg (not_not_intro hargs), if_neg (not_not_intro hargs), hvalue]
      · rw [if_pos hargs, if_pos hargs]

theorem callWith_withCaptures (h : f.definition.SameCaptures C D) (bound : BoundCall)
    (args : List Value) :
    (f.withCaptures i C).callWith bound args = (f.withCaptures j D).callWith bound args := by
  have hcall : ∀ home : Namespace,
      (f.withCaptures i C).callAt bound home.maxRecursion home.maxRecursion args =
        (f.withCaptures j D).callAt bound home.maxRecursion home.maxRecursion args :=
    fun home => callAt_withCaptures h bound _ _ args
  rw [callWith, callWith]
  simp only [hcall]
  rfl

/-! ## Compiled functions -/

/-- The functions that names are bound to call such functions only, and so does `f`. -/
theorem closed_of_numbered {w : World} (numbered : w.Numbered f) :
    w.Closed fun g => g = f ∨ w.Binds g where
  callees g _ n c _ _ hl hc := .inr ⟨g.home, n, c, hl, hc⟩
  numbered := numbered

/-- Two artifacts of functions that do the same in one world do the same. -/
theorem RealizedBy.agree {run : Runner} {v : World} {g : Function} {a b : Artifact}
    (ha : f.RealizedBy Fault.Alike run v a) (hb : g.RealizedBy Fault.Alike run v b)
    (h : ∀ d args, run d f args = run d g args)
    (args : List Value) : Agree (a.call ampleFuel args) (b.call ampleFuel args) := by
  obtain ⟨d, hfa, hgb⟩ := (ha.yields.and hb.yields).exists
  have hga := hfa args
  rw [h] at hga
  exact hga.agree.symm.trans (hgb args).agree

/-- A function that closes over other values does the same, whatever these are in names that are
neither free in it nor come to before they are assigned: a call ends in the same way, and artifacts
that were made under the same bindings give the same value or both fail. -/
theorem withCaptures_agrees (h : f.definition.SameCaptures C D) :
    (∀ args, (Callable.function (f.withCaptures i C)).call args =
        (Callable.function (f.withCaptures j D)).call args) ∧
      ∀ {w w' v v' : World} {a b : Artifact}, w.Numbered (f.withCaptures i C) →
        v.Numbered (f.withCaptures j D) → w.Keeps v →
        (f.withCaptures i C).compile w = (.ok a, w') →
        (f.withCaptures j D).compile v = (.ok b, v') →
        ∀ args, Agree (a.call ampleFuel args) (b.call ampleFuel args) := by
  refine ⟨fun args => callWith_withCaptures h _ args, ?_⟩
  intro w w' v v' a b hw hv keeps ha hb args
  let bound := Gateway.callBound ampleFuel
  have unchanged : v.Keeps v := fun id hlive => ⟨hlive, fun _ => rfl⟩
  have realized := compile_realizes (closed_of_numbered hw) (.inl rfl) ha keeps bound 0
  have realized' := compile_realizes (closed_of_numbered hv) (.inl rfl) hb unchanged bound 0
  exact realized.agree realized' (callAt_withCaptures h bound 0) args

/-- The function `fn f(x) { let b = x; if x { let a = c; } a }` of namespace 1: it reads `c` from
outside, and `a` if `x` is false. -/
def fallingBack : Function :=
  .build 2
    { name := ⟨"f", .dummy⟩, params := [⟨"x", .dummy⟩],
      body := .mk
        [.bind (.name ⟨"b", .dummy⟩) (.var "x" .dummy) .dummy,
          .branch (.var "x" .dummy)
            (.mk [.bind (.name ⟨"a", .dummy⟩) (.var "c" .dummy) .dummy] none .dummy) none .dummy]
        (some (.var "a" .dummy)) .dummy }
    .interactive 1 []

theorem freeNames_fallingBack : fallingBack.definition.freeNames = ["c"] := by decide +kernel

/-- A world whose namespace 1 binds nothing. -/
def emptyWorld : World := { nextId := 5, namespaces := [(1, { name := "m" })] }

theorem emptyWorld_numbered (f : Function) : emptyWorld.Numbered f := by
  have unbound : ∀ g, ¬ emptyWorld.Binds g := by
    rintro g ⟨id, name, c, hl, -⟩
    simp only [World.lookup, World.namespace?, emptyWorld, List.find?] at hl
    split at hl <;> cases hl
  rintro g h (rfl | hg) (rfl | hh) -
  · rfl
  · exact absurd hh (unbound h)
  all_goals exact absurd hg (unbound g)

theorem withCaptures_agrees_fallingBack :
    ∃ a w b v,
      (fallingBack.withCaptures 3 [("a", .bool true), ("b", .bool true), ("c", .unit)]).compile
        emptyWorld = (.ok a, w) ∧
      (fallingBack.withCaptures 4 [("a", .bool true), ("b", .bool false), ("c", .unit)]).compile
        emptyWorld = (.ok b, v) ∧
      (Callable.function (fallingBack.withCaptures 3
          [("a", .bool true), ("b", .bool true), ("c", .unit)])).call [.bool false] =
        (Callable.function (fallingBack.withCaptures 4
          [("a", .bool true), ("b", .bool false), ("c", .unit)])).call [.bool false] ∧
      Agree (a.call ampleFuel [.bool false]) (b.call ampleFuel [.bool false]) := by
  have same : fallingBack.definition.SameCaptures
      [("a", .bool true), ("b", .bool true), ("c", .unit)]
      [("a", .bool true), ("b", .bool false), ("c", .unit)] := by
    have hearly : fallingBack.definition.earlyNames = ["a"] := by decide +kernel
    constructor
    · rw [freeNames_fallingBack]
      exact List.forall_mem_singleton.mpr rfl
    · rw [hearly]
      exact List.forall_mem_singleton.mpr rfl
  have first : ((fallingBack.withCaptures 3
      [("a", .bool true), ("b", .bool true), ("c", .unit)]).compile emptyWorld).1.isOk = true := by
    decide +kernel
  have second : ((fallingBack.withCaptures 4
      [("a", .bool true), ("b", .bool false), ("c", .unit)]).compile emptyWorld).1.isOk = true := by
    decide +kernel
  obtain ⟨a, w, ha⟩ := Run.exists_of_isOk first
  obtain ⟨b, v, hb⟩ := Run.exists_of_isOk second
  obtain ⟨called, compiled⟩ := withCaptures_agrees (i := 3) (j := 4) same
  exact ⟨a, w, b, v, ha, hb, called _, compiled (emptyWorld_numbered _) (emptyWorld_numbered _)
    (fun _ hlive => ⟨hlive, fun _ => rfl⟩) ha hb _⟩

/-- The free names alone do not suffice: `a` is none of them, and its captured value is given where
the run comes to it before it assigned it. -/
theorem withCaptures_not_agrees :
    (∀ n ∈ fallingBack.definition.freeNames,
        Dictionary.get? n [("a", Value.bool true)] = Dictionary.get? n [("a", .bool false)]) ∧
      ((Callable.function (fallingBack.withCaptures 3 [("a", .bool true)])).call [.bool false]
        emptyWorld).1 = .ok (.bool true) ∧
      ((Callable.function (fallingBack.withCaptures 4 [("a", .bool false)])).call [.bool false]
        emptyWorld).1 = .ok (.bool false) := by
  refine ⟨?_, by rfl, by rfl⟩
  rw [freeNames_fallingBack]
  exact List.forall_mem_singleton.mpr rfl

end Function

end Graft
