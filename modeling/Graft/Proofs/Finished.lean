import Graft.Proofs.Specializing

/-!
# Passes with finished replacements

If every replacement is an artifact or a primitive, one pass over a function makes the substitutions
in the function and in all that it calls, whatever the pass binds names to on the way. Functions are
read again from their source; one whose source is another function is specialized as that one.
-/

namespace Graft

open Filter (atTop)

variable {raw table : Substitution} {v w : World} {f : Function} {a : Artifact}

/-- Every replacement is an artifact or a primitive. -/
def Substitution.Finished (table : Substitution) : Prop :=
  ∀ n c, Dictionary.get? n table = some c → (∃ a, c = .artifact a) ∨ ∃ m, c = .native m

/-- What a run of `f` comes to by calls of bare names that no replacement is given for. -/
inductive Function.Reaches (raw : Substitution) (v : World) (f : Function) : Function → Prop
  | refl : Reaches raw v f f
  | step {g h n c} : Reaches raw v f g → g.definition.body.Calls ⟨n, []⟩ →
      Dictionary.get? n raw = none → v.lookup g.home n = some (.callable c) →
      c.plain? = some h → Reaches raw v f h

namespace Pass

/-- A pass starts with the bindings of the world. -/
theorem Sound.start (keeps : w.Keeps v) (made : Function → Artifact → Prop) (table : Substitution)
    (isolation : Isolation) :
    Sound made v table { world := w, registry := { table := .ofIsolation isolation } } where
  live id hid := (keeps id hid).1
  names id n hid _ := by
    refine .inl ?_
    rw [(keeps id hid).2 n]
    cases isolation with
    | separate => rfl
    | shared => exact Option.or_self
  aliases id n hr := by cases hr

/-- A finished replacement is linked as it is. -/
theorem Setting.of_finished (finished : table.Finished)
    (readsBack : ∀ g, f.Reaches table v g → g.ReadsBack) (bound : BoundCall) (limit : Nat) :
    Setting table table bound limit v (f.Reaches table v) fun _ => False where
  readsBack := readsBack
  callees g hg n c h hcalls hl hc hfree := .step hg hcalls hfree hl hc
  keys n h := h
  answers g hg n r hcalls _ hr := by
    refine ⟨r, hr, ?_⟩
    obtain ⟨a, rfl⟩ | ⟨m, rfl⟩ := finished n r hr
    · constructor
      · exact fun m hm => nomatch hm
      · intro b hb
        cases hb
        exact .of_forall fun d args => Run.Yields.ofExcept _
      · exact fun h hh => nomatch hh
    · constructor
      · intro b hb
        cases hb
        exact .of_forall fun d args => Run.Yields.ofOutcome _
      · exact fun b hb => nomatch hb
      · exact fun h hh => nomatch hh
  untouched := .of_none

/-- One pass implements substitution: if every replacement is finished, the artifact that a pass
makes of a function does what the function does under the substitutions, for as long as the bindings
stay. The functions that a run can come to are read again from their source as they are. -/
theorem substituteCompiled_specializes {isolation : Isolation} {debug : Bool} {s : State}
    (finished : table.Finished) (keeps : w.Keeps v)
    (readsBack : ∀ g, f.Reaches table v g → g.ReadsBack)
    (h : substituteCompiled table debug f
      { world := w, registry := { table := .ofIsolation isolation } } = (.ok a, s)) :
    f.SpecializedBy table v a :=
  Function.RealizedBy.specializedBy fun limit =>
    (Setting.of_finished finished readsBack _ limit).substituteCompiled_realizes .refl
      (Sound.start keeps _ table isolation) h

/-- The definition that is read from a part of a text. -/
def readAt (text : SourceText) (span : Span) : Definition :=
  match Program.ofScan (Scan.range text.text span.start span.stop) with
  | .ok ⟨[.function d _]⟩ => d
  | _ => default

/-- The function of namespace 1 that an item of a text defines. -/
def loadAt (text : SourceText) (id : Nat) (span : Span) : Function :=
  .build id (readAt text span) (.source text span) 1 []

def isOneFunction : Outcome Program → Bool
  | .ok ⟨[.function _ _]⟩ => true
  | _ => false

theorem readsBack_loadAt {text : SourceText} {id : Nat} {span : Span}
    (h : isOneFunction (loadAt text id span).extract = true) : (loadAt text id span).ReadsBack := by
  intro unit hunit
  rw [hunit] at h
  rw [isOneFunction.eq_def] at h
  split at h
  · next d s hd =>
      cases hd
      refine ⟨s, ?_⟩
      have hscan : Program.ofScan (Scan.range text.text span.start span.stop) =
          .ok ⟨[.function d s]⟩ := by
        rw [Function.extract] at hunit
        dsimp only [loadAt, Function.build] at hunit
        split at hunit
        · next hscan =>
            cases hunit
            exact hscan
        · cases hunit
      rw [loadAt, Function.build, readAt, hscan]
  · cases h

/-- A text of three functions, each of which but the last calls the next one. -/
def chainText : SourceText := ⟨"m.fst", "fn f(x) { h(x) }\nfn h(x) { g(x) }\nfn g(x) { !x }\n"⟩

def chainFirst : Function := loadAt chainText 2 ⟨0, 16⟩

def chainSecond : Function := loadAt chainText 3 ⟨17, 33⟩

def chainLast : Function := loadAt chainText 4 ⟨34, 48⟩

def chainWorld : World :=
  { nextId := 5
    namespaces := [(1, { name := "m"
                         globals := [("f", .callable (.function chainFirst)),
                           ("h", .callable (.function chainSecond)),
                           ("g", .callable (.function chainLast))] })] }

/-- The last function is replaced by a primitive. -/
def chainTable : Substitution := [("g", .native (.math .sqrt))]

theorem reaches_chainFirst {g : Function} (h : chainFirst.Reaches chainTable chainWorld g) :
    g = chainFirst ∨ g = chainSecond := by
  induction h with
  | refl => exact .inl rfl
  | @step g h n c _ hcalls hfree hl hc ih =>
      rw [Block.calls_iff] at hcalls
      obtain rfl | rfl := ih
      · have hsites : chainFirst.definition.body.callSites.map CallSite.callee = [⟨"h", []⟩] := by
          decide +kernel
        rw [hsites, List.mem_singleton] at hcalls
        cases hcalls
        refine .inr ?_
        cases hl
        exact (Option.some.inj hc).symm
      · have hsites : chainSecond.definition.body.callSites.map CallSite.callee = [⟨"g", []⟩] := by
          decide +kernel
        rw [hsites, List.mem_singleton] at hcalls
        cases hcalls
        cases hfree

theorem substituteCompiled_specializes_chain :
    ∃ a s, substituteCompiled chainTable false chainFirst
        { world := chainWorld, registry := { table := .ofIsolation .shared } } = (.ok a, s) ∧
      chainFirst.SpecializedBy chainTable chainWorld a := by
  have hok : (substituteCompiled chainTable false chainFirst
      { world := chainWorld, registry := { table := .ofIsolation .shared } }).1.isOk = true := by
    decide +kernel
  rcases h : substituteCompiled chainTable false chainFirst
    { world := chainWorld, registry := { table := .ofIsolation .shared } } with ⟨e | a, s⟩
  · rw [h] at hok
    cases hok
  · refine ⟨a, s, rfl, substituteCompiled_specializes ?_ ?_ ?_ h⟩
    · intro n c hn
      rw [chainTable, Dictionary.get?] at hn
      split at hn
      · cases hn
        exact .inr ⟨_, rfl⟩
      · cases hn
    · exact fun id hlive => ⟨hlive, fun _ => rfl⟩
    · intro g hg
      obtain rfl | rfl := reaches_chainFirst hg
      · exact readsBack_loadAt (by decide +kernel)
      · exact readsBack_loadAt (by decide +kernel)

/-- The unit `fn f(x) { x }`, as if it stood at the start of the text. -/
def chainUnit : Program :=
  ⟨[.function
    { markers := [], name := ⟨"f", .dummy⟩, params := [⟨"x", .dummy⟩],
      body := .mk [] (some (.var "x" .dummy)) .dummy } ⟨0, 14⟩]⟩

def isBool (b : Bool) : Except Fault Value → Bool
  | .ok (.bool c) => b == c
  | _ => false

theorem eq_ok_of_isBool {b : Bool} {x : Except Fault Value} (h : isBool b x = true) :
    x = .ok (.bool b) := by
  rw [isBool.eq_def] at h
  split at h
  · rw [beq_iff_eq.mp h]
  · cases h

/-- A function that was made of a changed unit is read again as it was before, so a pass over it
specializes another function. -/
theorem substituteCompiled_not_specializes :
    ∃ f a s, chainFirst.reassemble 5 chainUnit = .ok f ∧
      substituteCompiled [] false f
        { world := chainWorld, registry := { table := .ofIsolation .separate } } = (.ok a, s) ∧
      ¬ f.SpecializedBy [] chainWorld a := by
  have hcheck : ((chainFirst.reassemble 5 chainUnit).toOption.any fun f =>
      (substituteCompiled [] false f
        { world := chainWorld, registry := { table := .ofIsolation .separate } }).1.toOption.any
          fun a => isBool false (a.call ampleFuel [.bool true]) &&
            isBool true (f.callUnder [] (Gateway.callBound ampleFuel) 1000 1000 [.bool true]
              chainWorld).1) = true := by decide +kernel
  cases hf : chainFirst.reassemble 5 chainUnit with
  | error d =>
      rw [hf] at hcheck
      cases hcheck
  | ok f =>
      rw [hf] at hcheck
      dsimp only [Except.toOption, Option.any_some] at hcheck
      rcases h : substituteCompiled [] false f
        { world := chainWorld, registry := { table := .ofIsolation .separate } } with ⟨e | a, s⟩
      · rw [h] at hcheck
        cases hcheck
      · rw [h] at hcheck
        obtain ⟨ha, hrun⟩ := Bool.and_eq_true_iff.mp hcheck
        refine ⟨f, a, s, rfl, h, fun hspecialized => ?_⟩
        have hagree := hspecialized.agrees 1000 1000 [.bool true]
        rw [eq_ok_of_isBool ha, eq_ok_of_isBool hrun] at hagree
        have heq : Value.bool true = Value.bool false := hagree fun e he => nomatch he
        cases heq

end Pass

end Graft
