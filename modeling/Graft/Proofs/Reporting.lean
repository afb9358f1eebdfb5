import Graft.Proofs.Captures
import Graft.Proofs.Finished

/-!
# Reports of compiled code

Where a call fails, its report is the same whether the function is run or its artifact. The two would
differ in a name that has a slot and is come to before it is assigned: code knows of it only whether it
has a value outside, a run also finds what else the name is bound to, and for an element that is stored
it reports the name of the array alone.

No run comes to any other name of the function outside. So nothing depends on what such a name is read
as, and it may be read as a fault that is marked: under two different marks the run ends as the code
does, or with the mark, and both are the same run.
-/

namespace Graft

open Filter (atTop)

/-! ## Marked faults -/

/-- The same fault, unless the left one is a report in the words of the mark. -/
def Fault.SameUnless (mark : String) (e f : Fault) : Prop :=
  e = f ∨ ∃ d, e = .report d ∧ d.message = mark

instance (mark : String) : Fault.Congruence (Fault.SameUnless mark) where
  refl _ := .inl rfl
  orSpan span h := by
    obtain rfl | ⟨d, rfl, hd⟩ := h
    · exact .inl rfl
    · exact .inr ⟨d.orSpan span, rfl, hd⟩

/-- No fault carries two marks. -/
theorem Fault.SameUnless.eq {mark mark' : String} {e f : Fault} (h : SameUnless mark e f)
    (h' : SameUnless mark' e f) (hne : mark ≠ mark') : e = f := by
  obtain heq | ⟨d, rfl, hd⟩ := h
  · exact heq
  · obtain heq | ⟨d', he, hd'⟩ := h'
    · exact heq
    · cases he
      exact absurd (hd.symm.trans hd') hne

theorem AgreeUpTo.eq_of_sameUnless {α : Type} {mark mark' : String} {x y : Except Fault α}
    (h : AgreeUpTo (Fault.SameUnless mark) x y) (h' : AgreeUpTo (Fault.SameUnless mark') x y)
    (hne : mark ≠ mark') : x = y := by
  cases x <;> cases y
  · exact congrArg Except.error (Fault.SameUnless.eq h h' hne)
  · exact h.elim
  · exact h.elim
  · exact congrArg Except.ok h

/-! ## Marked scopes -/

open Compile in
/-- The scope that reads the names in `early` as `scope` does. Any other name it reads as the code does
that finds its slot empty, but with the mark if there is no value outside. -/
def Scope.marked {σ : Type} (c : Context) (early : List String) (mark : String) (scope : Scope σ) :
    Scope σ where
  outer name span :=
    if name ∈ early then scope.outer name span
    else
      match c.outer? name with
      | some v => pure v
      | none => Run.fail (Diagnostic.of .runtime mark)
  call := scope.call

theorem Scope.marked_agreeOn {σ : Type} (c : Compile.Context) (early : List String) (mark : String)
    (scope : Scope σ) : scope.AgreeOn (· ∈ early) (scope.marked c early mark) where
  reads n hn := by
    funext span
    exact (if_pos hn).symm
  calls := rfl

theorem Scope.marked_yields {σ : Type} {c : Compile.Context} {early : List String} {mark : String}
    {scope : Scope σ} {s : σ} {name : String} {span : Span} {span' : Span} (hname : name ∉ early) :
    Run.Yields (Fault.SameUnless mark) s ((scope.marked c early mark).outer name span)
      (c.outerValue name span') := by
  have houter : (scope.marked c early mark).outer name span =
      match c.outer? name with
      | some v => pure v
      | none => Run.fail (Diagnostic.of .runtime mark) := if_neg hname
  rw [houter, Compile.Context.outerValue]
  cases c.outer? name with
  | some v => exact .of_eq rfl
  | none => exact ⟨.inr ⟨_, rfl, rfl⟩, rfl⟩

/-! ## Names that are come to early -/

namespace Function

/-- The name has a value outside the body: a captured one, or the constant that it is bound to. -/
def HasOuter (w : World) (f : Function) (name : String) : Prop :=
  (Dictionary.get? name f.captures).isSome ∨ ∃ v, w.lookup f.home name = some (.constant v)

/-- A name with a slot that some way through the body comes to before it is assigned has a value
outside, or is bound to nothing and not that of an array whose elements the function stores. -/
def Anchored (w : World) (f : Function) : Prop :=
  ∀ n ∈ f.definition.body.early f.params, n ∈ Compile.layout f.definition →
    f.HasOuter w n ∨ w.lookup f.home n = none ∧ n ∉ f.definition.body.stored

variable {w v : World} {f : Function} {env : Linker} {callee : Function → Compile Artifact}
  {call : Callable → List Value → Act Value} {name : String}

open Compile (Context)

/-- A value outside is what the name is read as, and what its slot starts with. -/
theorem HasOuter.yields (h : f.HasOuter w name) (henv : env.lookup f.home name = w.lookup f.home name)
    (R : Fault → Fault → Prop) [Fault.Congruence R] (span span' : Span) :
    Run.Yields R w ((f.scope call).outer name span)
      ((Context.ofFunction env callee f).outerValue name span') := by
  refine .of_eq ?_
  rw [scope_outer_apply, Context.outerValue, Context.outer?]
  dsimp only [Context.ofFunction]
  rw [henv]
  cases hcaptured : Dictionary.get? name f.captures with
  | some x => rfl
  | none =>
      obtain hsome | ⟨x, hx⟩ := h
      · rw [hcaptured] at hsome
        cases hsome
      · rw [hx]

theorem hasOuter_of_isSome (henv : env.lookup f.home name = w.lookup f.home name)
    (h : ((Context.ofFunction env callee f).outer? name).isSome) : f.HasOuter w name := by
  rw [Context.outer?] at h
  dsimp only [Context.ofFunction] at h
  rw [henv] at h
  split at h
  · next hcaptured => exact .inl (by rw [hcaptured]; rfl)
  · split at h
    · next x hx => exact .inr ⟨x, hx⟩
    · cases h

/-- A name that is bound to nothing is reported where it stands. -/
theorem yields_undefined (hnone : w.lookup f.home name = none)
    (henv : env.lookup f.home name = w.lookup f.home name) (R : Fault → Fault → Prop)
    [Fault.Congruence R] (span : Span) :
    Run.Yields R w ((f.scope call).outer name span)
      ((Context.ofFunction env callee f).outerValue name span) := by
  refine .of_eq ?_
  rw [scope_outer_apply, Context.outerValue, Context.outer?]
  dsimp only [Context.ofFunction]
  rw [henv, hnone]
  cases Dictionary.get? name f.captures <;> rfl

end Function

namespace Compile

variable {bound : BoundCall} {limit : Nat} {w v : World} {sight : Function → Prop} {g : Function}
  {callee : Function → Compile Artifact} {inv : State → Prop}

/-- Under a marked scope a function does what its code does, up to the mark. -/
theorem fits_marked (closed : w.Closed sight) (keeps : w.Keeps v) (hg : sight g)
    (anchored : g.Anchored w)
    (hcallee : ∀ h, sight h →
      Ensures inv (callee h) (h.RealizedBy Eq (Function.callAt bound limit) v))
    (hlive : w.linker.isLive g.home = true) (mark : String) :
    (Context.ofFunction w.linker callee g).Fits
      (fun d => (g.scope (Function.callee bound limit d)).marked (.ofFunction w.linker callee g)
        (g.definition.body.early g.params) mark)
      (Fault.SameUnless mark) v ampleFuel inv
      ⟨fun _ => True, fun p => True ∧ g.definition.body.Calls p⟩ g.definition.body.stored := by
  obtain ⟨-, kept⟩ := keeps g.home hlive
  have henv : ∀ n, w.linker.lookup g.home n = v.lookup g.home n := fun n => (kept n).symm
  -- what has a value outside when it is compiled has it when it runs
  have hasOuter : ∀ n, g.HasOuter w n → g.HasOuter v n := by
    intro n hn
    obtain hcaptured | ⟨x, hx⟩ := hn
    · exact .inl hcaptured
    · exact .inr ⟨x, (kept n).trans hx⟩
  apply Context.fits_of_links
  · intro d n span _ hn
    by_cases hearly : n ∈ g.definition.body.early g.params
    · have hsame := ((g.scope (Function.callee bound limit d)).marked_agreeOn
        (.ofFunction w.linker callee g) (g.definition.body.early g.params) mark).reads n hearly
      rw [← hsame]
      obtain hlocal | hsome := hn
      · obtain houter | ⟨hnone, -⟩ := anchored n hearly hlocal
        · exact (hasOuter n houter).yields (henv n) _ span span
        · exact Function.yields_undefined ((kept n).trans hnone) (henv n) _ span
      · have houter : g.HasOuter v n := Function.hasOuter_of_isSome (henv n) hsome
        exact houter.yields (henv n) _ span span
    · exact Scope.marked_yields hearly
  · intro d n span span' hn
    by_cases hearly : n ∈ g.definition.body.early g.params
    · have hsame := ((g.scope (Function.callee bound limit d)).marked_agreeOn
        (.ofFunction w.linker callee g) (g.definition.body.early g.params) mark).reads n hearly
      have hlocal : n ∈ layout g.definition := mem_layout.mpr (.inr (.inr (Ordered.mem_ofList.mpr hn)))
      rw [← hsame]
      obtain houter | ⟨-, hunstored⟩ := anchored n hearly hlocal
      · exact (hasOuter n houter).yields (henv n) _ span span'
      · exact absurd hn hunstored
    · exact Scope.marked_yields hearly
  · intro n span hn
    have hserves := keeps.serves closed Eq (Function.callAt bound limit) hg hlive hn.2
    apply (linkName_ensures_of_serves (Function.calling_callee bound limit) hcallee hserves span).mono
    intro t ht
    filter_upwards [ht] with d hd args
    exact (hd args).mono .inl
  · intro d p args span hp
    simp only [Scope.marked, Function.scope, hp]

/-- What a unit is compiled to reports what a run of it reports, if its callees do. -/
theorem compileUnit_reports (closed : w.Closed sight) (keeps : w.Keeps v)
    (hinv : ∀ st n, inv st → inv { st with nextId := n }) (hg : sight g) (anchored : g.Anchored w)
    (hcallee : ∀ h, sight h →
      Ensures inv (callee h) (h.RealizedBy Eq (Function.callAt bound limit) v)) :
    Ensures inv (compileUnit w.linker callee g)
      (g.RealizedBy Eq (Function.callAt bound limit) v) := by
  have uses : Names.Within ⟨fun _ => True, fun p => True ∧ g.definition.body.Calls p⟩
      g.definition.body.subterms := Block.within_calls (Names.within_all _)
  intro st a st' h hi
  have marked := fun mark => compileUnit_ensures uses
    (fun hlive => fits_marked closed keeps hg anchored hcallee hlive mark) hinv st a st' h hi
  obtain ⟨hi', hlive, hd, hone⟩ := marked "0"
  obtain ⟨-, -, -, htwo⟩ := marked "1"
  refine ⟨hi', Function.realizedBy_of_value (fun d args => Function.callAt_succ d g args)
    (keeps g.home hlive).1 (by rw [hd]) (fun given => by rw [hd]) ?_⟩
  filter_upwards [hone, htwo] with d hone htwo args hargs
  -- Both marked scopes agree with the scope itself on all that the body comes to.
  have hsame : ∀ mark, g.definition.value (g.scope (Function.callee bound limit d)) ampleFuel args =
      g.definition.value ((g.scope (Function.callee bound limit d)).marked
        (.ofFunction w.linker callee g) (g.definition.body.early g.params) mark) ampleFuel args :=
    fun mark => Definition.value_coincides (Scope.marked_agreeOn _ _ mark _) (fun _ hn => hn) _ hargs
  have honeEnds := hone args hargs
  have htwoEnds := htwo args hargs
  rw [← hsame] at honeEnds htwoEnds
  have heq := honeEnds.1.eq_of_sameUnless htwoEnds.1 (by decide)
  exact ⟨agreeUpTo_eq.mpr heq, honeEnds.2⟩

end Compile

namespace Function

variable {w w' v : World} {f : Function} {a : Artifact}

theorem binds_of_reaches {g : Function} (hg : f.Reaches [] w g) : g = f ∨ w.Binds g := by
  cases hg with
  | refl => exact .inl rfl
  | step _ _ _ hl hc => exact .inr ⟨_, _, _, hl, hc⟩

theorem closed_reaches (numbered : w.Numbered f) : w.Closed (f.Reaches [] w) where
  callees _ hg _ _ _ hcalls hl hc := .step hg hcalls rfl hl hc
  numbered g h hg hh := numbered g h (binds_of_reaches hg) (binds_of_reaches hh)

/-- Compiled code reports what a run reports: as long as the bindings stay, a call of the artifact
ends as the call of the function does, with the same value or the same fault, unless calls are nested
too deep for the interpreter. In every function that the call can come to, what is come to before it
is assigned is anchored outside. -/
theorem compile_reports (numbered : w.Numbered f) (anchored : ∀ g, f.Reaches [] w g → g.Anchored w)
    (h : f.compile w = (.ok a, w')) (keeps : w.Keeps v) (args : List Value)
    (within : ¬ f.ExceedsLimit args v) :
    ((Callable.function f).call args v).1 = a.call ampleFuel args := by
  have closed := closed_reaches numbered
  have realized : ∀ bound limit, f.RealizedBy Eq (callAt bound limit) v a := by
    intro bound limit
    have hunit : ∀ callee g, f.Reaches [] w g →
        (∀ h, f.Reaches [] w h → Compile.Ensures
          (Compile.Kept Eq (callAt bound limit) v (f.Reaches [] w)) (callee h)
          (h.RealizedBy Eq (callAt bound limit) v)) →
        Compile.Ensures (Compile.Kept Eq (callAt bound limit) v (f.Reaches [] w))
          (Compile.compileUnit w.linker callee g) (g.RealizedBy Eq (callAt bound limit) v) :=
      fun callee g hg hcallee =>
        Compile.compileUnit_reports closed keeps (fun _ _ hkept => hkept) hg (anchored g hg) hcallee
    obtain ⟨st, hst, -⟩ := compile_eq_ok h
    exact (Compile.function_realizes closed.numbered hunit _ [] f .refl _ a st hst
      fun _ hm => absurd hm List.not_mem_nil).2
  exact agreeUpTo_eq.mp (RealizedBy.call_agrees realized args within)

theorem reaches_emptyWorld {g : Function} (hg : f.Reaches [] emptyWorld g) : g = f := by
  obtain heq | ⟨id, name, c, hl, -⟩ := binds_of_reaches hg
  · exact heq
  · simp only [World.lookup, World.namespace?, emptyWorld, List.find?] at hl
    split at hl <;> cases hl

/-- If `x` is false, `a` is read before it is assigned and is bound to nothing. -/
theorem compile_reports_fallingBack :
    ∃ a w', (fallingBack.withCaptures 3 [("c", .unit)]).compile emptyWorld = (.ok a, w') ∧
      a.call ampleFuel [.bool false] = .error (.report (Calls.undefinedName "a" .dummy)) ∧
      ((Callable.function (fallingBack.withCaptures 3 [("c", .unit)])).call [.bool false]
        emptyWorld).1 = a.call ampleFuel [.bool false] := by
  have hok : ((fallingBack.withCaptures 3 [("c", .unit)]).compile emptyWorld).1.isOk = true := by
    decide +kernel
  obtain ⟨a, w', h⟩ := Run.exists_of_isOk hok
  have hrun : ((Callable.function (fallingBack.withCaptures 3 [("c", .unit)])).call [.bool false]
      emptyWorld).1 = .error (.report (Calls.undefinedName "a" .dummy)) := by rfl
  have hsame : ((Callable.function (fallingBack.withCaptures 3 [("c", .unit)])).call [.bool false]
      emptyWorld).1 = a.call ampleFuel [.bool false] := by
    apply compile_reports (emptyWorld_numbered _) _ h fun _ hlive => ⟨hlive, fun _ => rfl⟩
    · rintro ⟨ns, e, hns, he, hdeep⟩
      cases hrun.symm.trans he
      cases hns
      exact absurd hdeep.1 (by decide)
    · intro g hg n hn hlocal
      obtain rfl := reaches_emptyWorld hg
      have hearly : fallingBack.definition.body.early fallingBack.params = ["c", "a"] := by
        decide +kernel
      have hn : n ∈ ["c", "a"] := hearly ▸ hn
      obtain rfl | rfl : n = "c" ∨ n = "a" := by simpa using hn
      · exact absurd hlocal (by decide +kernel)
      · exact .inr ⟨rfl, by decide +kernel⟩
  exact ⟨a, w', h, hsame.symm.trans hrun, hsame⟩

/-- The function `fn f(x) { if x { let a = true; } a[0] = 1; }` of namespace 1, whose assignment and the
name in it stand at different places. -/
def storingEarly : Function :=
  .build 2
    { name := ⟨"f", .dummy⟩, params := [⟨"x", .dummy⟩],
      body := .mk
        [.branch (.var "x" .dummy)
            (.mk [.bind (.name ⟨"a", .dummy⟩) (.bool true .dummy) .dummy] none .dummy) none .dummy,
          .assign (.index ⟨"a", ⟨32, 33⟩⟩ (.num 0 .dummy) ⟨32, 36⟩) (.num 1 .dummy) .dummy]
        none .dummy }
    .interactive 1 []

/-- The run reports an array that is not defined where its name stands, the code where the element
does. -/
theorem compile_not_reports : ¬ ∀ (f : Function) (w w' v : World) (a : Artifact) (args : List Value),
    w.Numbered f → f.compile w = (.ok a, w') → w.Keeps v → ¬ f.ExceedsLimit args v →
      ((Callable.function f).call args v).1 = a.call ampleFuel args := by
  intro h
  have hok : (storingEarly.compile emptyWorld).1.isOk = true := by decide +kernel
  obtain ⟨a, w', hcompile⟩ := Run.exists_of_isOk hok
  have hrun : ((Callable.function storingEarly).call [.bool false] emptyWorld).1 =
      .error (.report (Calls.undefinedName "a" ⟨32, 33⟩)) := by rfl
  have hcode : ((storingEarly.compile emptyWorld).1.bind fun a =>
      (a.call ampleFuel [.bool false]).map fun _ => ()) =
        .error (.report (Calls.undefinedName "a" ⟨32, 36⟩)) := by decide +kernel
  rw [hcompile] at hcode
  have hsame := h storingEarly emptyWorld w' emptyWorld a [.bool false] (emptyWorld_numbered _)
    hcompile (fun _ hlive => ⟨hlive, fun _ => rfl⟩) (by
      rintro ⟨ns, e, hns, he, hdeep⟩
      cases hrun.symm.trans he
      exact absurd hdeep.1 (by decide))
  have hends : (a.call ampleFuel [.bool false]).map (fun _ => ()) =
      .error (.report (Calls.undefinedName "a" ⟨32, 36⟩)) := hcode
  rw [← hsame, hrun] at hends
  cases hends

end Function

end Graft
