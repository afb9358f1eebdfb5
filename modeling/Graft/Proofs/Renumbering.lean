import Graft.Proofs.Linking
import Graft.Proofs.Twins
import Graft.Proofs.Waiting

/-!
# Compilation from other numbers

Artifacts are numbered as they are made, so compiling a function twice gives two artifacts. They are
alike: what they were made from, what is known of their callees and what calls of them give is the
same. The runs of a compilation are compared step by step from states that differ in the numbers,
and in artifacts alike.
-/

namespace Graft

variable {α β γ δ : Type}

/-! ## What code does -/

/-- Targets that calls are linked to, which nothing but numbers tells apart. -/
inductive Compile.Target.Alike : Target → Target → Prop
  | native (n : Native) : Alike (.native n) (.native n)
  | artifact {a b : Artifact} : a.Alike b → Alike (.artifact a) (.artifact b)

theorem Compile.Target.Alike.fingerprint {t u : Target} (h : t.Alike u) :
    t.fingerprint = u.fingerprint := by
  cases h with
  | native n => rfl
  | artifact h => exact h.fingerprint

/-- The same code, as far as runs of it tell. -/
structure Code.Alike (c d : Code) : Prop where
  span : c.span = d.span
  run : ∀ fuel, Code.run fuel c = Code.run fuel d

theorem Code.Alike.refl (c : Code) : c.Alike c := ⟨rfl, fun _ => rfl⟩

structure Code.AllAlike (cs ds : List Code) : Prop where
  values : ∀ fuel, Code.runAll fuel cs = Code.runAll fuel ds
  numbers : ∀ fuel, Code.runNumbers fuel cs = Code.runNumbers fuel ds

def Code.OptionAlike : Option Code → Option Code → Prop
  | none, none => True
  | some c, some d => c.Alike d
  | _, _ => False

def Store.Alike (p q : Store) : Prop := ∀ fuel, Store.run fuel p = Store.run fuel q

structure Store.AllAlike (ps qs : List Store) : Prop where
  length : ps.length = qs.length
  run : ∀ fuel, Store.runAll fuel ps = Store.runAll fuel qs

def Step.Alike (x y : Step) : Prop := ∀ fuel, Step.run fuel x = Step.run fuel y

def Step.AllAlike (xs ys : List Step) : Prop := ∀ fuel, Step.runAll fuel xs = Step.runAll fuel ys

structure Steps.Alike (b c : Steps) : Prop where
  run : ∀ fuel, Steps.run fuel b = Steps.run fuel c
  value : ∀ fuel, Steps.value fuel b = Steps.value fuel c

/-! ## Runs of the compiler -/

namespace Compile

/-- What is kept was made of functions whose numbers belong together, and the next numbers are not
below `n` and `n'`. -/
structure State.Twin (ρ : Renumbering) (n n' : Nat) (st st' : State) : Prop where
  done : List.Forall₂
    (fun entry entry' => ρ.functions entry.1 entry'.1 ∧ entry.2.Alike entry'.2) st.done st'.done
  least : n ≤ st.nextId
  least' : n' ≤ st'.nextId

/-- Both runs give something, related by `P`, or both end in the same fault. -/
inductive Ends (S : State → State → Prop) (P : α → β → Prop) :
    Except Fault (α × State) → Except Fault (β × State) → Prop
  | value {a b st st'} : P a b → S st st' → Ends S P (.ok (a, st)) (.ok (b, st'))
  | fault (e : Fault) : Ends S P (.error e) (.error e)

/-- Started in states related by `S`, both runs end alike. -/
def Twins (S : State → State → Prop) (P : α → β → Prop) (x : Compile α) (y : Compile β) : Prop :=
  ∀ st st', S st st' → Ends S P (x st) (y st')

namespace Twins

variable {S : State → State → Prop} {P : α → β → Prop} {Q : γ → δ → Prop}

theorem pure {a : α} {b : β} (h : P a b) : Twins S P (pure a) (pure b) := fun _ _ hs => .value h hs

theorem throw (e : Fault) : Twins S P (throw e) (throw e) := fun _ _ _ => .fault e

theorem bind {x : Compile α} {y : Compile β} {f : α → Compile γ} {g : β → Compile δ}
    (h : Twins S P x y) (step : ∀ a b, P a b → Twins S Q (f a) (g b)) :
    Twins S Q (x >>= f) (y >>= g) := by
  intro st st' hs
  have hxy := h st st' hs
  rw [bind_apply, bind_apply]
  generalize x st = r at hxy
  generalize y st' = r' at hxy
  cases hxy with
  | value ha ht => exact step _ _ ha _ _ ht
  | fault e => exact .fault e

theorem tryThrow {x : Compile α} {y : Compile β} (h : Twins S P x y) (f : Fault → Fault) :
    Twins S P (tryCatch x fun e => MonadExcept.throw (f e))
      (tryCatch y fun e => MonadExcept.throw (f e)) := by
  intro st st' hs
  have hxy := h st st' hs
  simp only [tryCatch, tryCatchThe, MonadExceptOf.tryCatch]
  generalize x st = r at hxy
  generalize y st' = r' at hxy
  cases hxy with
  | value ha ht => exact .value ha ht
  | fault e => exact .fault (f e)

end Twins

end Compile

/-- The same of steps that record callees: what they record is the same. -/
def Lower.Twins (S : Compile.State → Compile.State → Prop) (P : α → β → Prop) (x : Lower α)
    (y : Lower β) : Prop :=
  ∀ callees, Compile.Twins S (fun r r' => P r.1 r'.1 ∧ r.2 = r'.2) (x callees) (y callees)

namespace Lower.Twins

variable {S : Compile.State → Compile.State → Prop} {P : α → β → Prop} {Q : γ → δ → Prop}

theorem pure {a : α} {b : β} (h : P a b) : Lower.Twins S P (pure a) (pure b) :=
  fun _ => .pure ⟨h, rfl⟩

theorem bind {x : Lower α} {y : Lower β} {f : α → Lower γ} {g : β → Lower δ}
    (h : Lower.Twins S P x y) (step : ∀ a b, P a b → Lower.Twins S Q (f a) (g b)) :
    Lower.Twins S Q (x >>= f) (y >>= g) := by
  intro callees
  show Compile.Twins S _ (x callees >>= fun r => f r.1 r.2) (y callees >>= fun r => g r.1 r.2)
  refine (h callees).bind fun r r' hr => ?_
  rw [← hr.2]
  exact step r.1 r'.1 hr.1 r.2

theorem mono {P' : α → β → Prop} {x : Lower α} {y : Lower β} (h : Lower.Twins S P x y)
    (hp : ∀ a b, P a b → P' a b) : Lower.Twins S P' x y := by
  intro callees st st' hs
  have hxy := h callees st st' hs
  generalize x callees st = r at hxy
  generalize y callees st' = r' at hxy
  cases hxy with
  | value hr ht => exact .value ⟨hp _ _ hr.1, hr.2⟩ ht
  | fault e => exact .fault e

theorem ofOutcome (o : Outcome α) :
    Lower.Twins S Eq (Compile.ofOutcome o) (Compile.ofOutcome o) := by
  cases o with
  | ok a => exact .pure rfl
  | error d => exact fun _ => .throw _

theorem lift {x : Compile α} {y : Compile β} (h : Compile.Twins S P x y) :
    Lower.Twins S P (liftM x : Lower α) (liftM y : Lower β) := by
  intro callees
  show Compile.Twins S _ (x >>= fun a => Pure.pure (a, callees))
    (y >>= fun b => Pure.pure (b, callees))
  exact h.bind fun a b hab => .pure ⟨hab, rfl⟩

theorem record (name : String) (d : Digest) :
    Lower.Twins S (fun _ _ => True) (Compile.record name d) (Compile.record name d) :=
  fun _ => .pure ⟨trivial, rfl⟩

end Lower.Twins

/-! ## Lowering -/

namespace Compile

/-- What lowering learns of the surroundings is the same, and names are linked alike. -/
structure Context.Twin (S : State → State → Prop) (c c' : Context) : Prop where
  layout : c.layout = c'.layout
  outer : c.outer? = c'.outer?
  reads : ∀ name span, variable_ c name span = variable_ c' name span
  link : ∀ name span, Twins S Target.Alike (c.link name span) (c'.link name span)

namespace Context.Twin

variable {S : State → State → Prop} {c c' : Context}

theorem slot (h : c.Twin S c') : c.slot = c'.slot := by
  funext name
  rw [Context.slot, h.layout, Context.slot]

theorem target (h : c.Twin S c') (p : Path) (span : Span) :
    Lower.Twins S Target.Alike (target c p span) (target c' p span) := by
  rw [Compile.target, Compile.target]
  cases p.single? with
  | none =>
      refine (Lower.Twins.ofOutcome _).bind fun n m hnm => ?_
      subst hnm
      exact .pure (.native n)
  | some name =>
      refine (Lower.Twins.lift (h.link name span)).bind fun t u htu => ?_
      rw [htu.fingerprint]
      exact (Lower.Twins.record name u.fingerprint).bind fun _ _ _ => .pure htu

end Context.Twin

end Compile

section

variable {S : Compile.State → Compile.State → Prop} {c c' : Compile.Context} (h : c.Twin S c')

theorem Expr.lowerAll_twins {es : List Expr}
    (ih : ∀ e ∈ es, Lower.Twins S Code.Alike (e.lower c) (e.lower c')) :
    Lower.Twins S Code.AllAlike (Expr.lower.lowerAll c es)
      (Expr.lower.lowerAll c' es) := by
  induction es with
  | nil =>
      rw [Expr.lower.lowerAll, Expr.lower.lowerAll]
      exact .pure ⟨fun _ => rfl, fun _ => rfl⟩
  | cons e rest ihrest =>
      rw [Expr.lower.lowerAll, Expr.lower.lowerAll]
      refine (ih e List.mem_cons_self).bind fun x y hxy => ?_
      refine (ihrest fun e' he => ih e' (List.mem_cons_of_mem e he)).bind fun xs ys hs => ?_
      refine .pure ⟨fun fuel => ?_, fun fuel => ?_⟩
      · rw [Code.runAll, Code.runAll, hxy.run, hs.values]
      · rw [Code.runNumbers, Code.runNumbers, hxy.run, hxy.span, hs.numbers]

include h

/-- Lowering an expression gives the same code, except for the numbers of what it is linked to. -/
theorem Expr.lower_twins (e : Expr) :
    Lower.Twins S Code.Alike (e.lower c) (e.lower c') := by
  induction e with
  | num x span =>
      rw [Expr.lower, Expr.lower]
      exact .pure (.refl _)
  | bool b span =>
      rw [Expr.lower, Expr.lower]
      exact .pure (.refl _)
  | var n span =>
      rw [Expr.lower, Expr.lower, h.reads]
      exact (Lower.Twins.ofOutcome _).mono fun x y hxy => hxy ▸ .refl x
  | path p span =>
      rw [Expr.lower, Expr.lower]
      refine (Lower.Twins.ofOutcome _).bind fun v w hvw => ?_
      subst hvw
      exact .pure (.refl _)
  | binary op l r span ihl ihr =>
      rw [Expr.lower, Expr.lower]
      refine ihl.bind fun x x' hx => ihr.bind fun y y' hy => ?_
      cases op
      all_goals
        refine .pure ⟨rfl, fun fuel => ?_⟩
        simp only [Code.run, hx.run, hx.span, hy.run, hy.span]
  | unary op x span ih =>
      rw [Expr.lower, Expr.lower]
      refine ih.bind fun y y' hy => .pure ⟨rfl, fun fuel => ?_⟩
      rw [Code.run, Code.run, hy.run]
  | call callee calleeSpan args span ih =>
      rw [Expr.lower, Expr.lower]
      refine (h.target callee calleeSpan).bind fun t u htu => ?_
      refine (lowerAll_twins ih).bind fun xs ys hs => ?_
      cases htu with
      | native n =>
          refine .pure ⟨rfl, fun fuel => ?_⟩
          rw [Code.run, Code.run, hs.values]
      | artifact hab =>
          refine .pure ⟨rfl, fun fuel => ?_⟩
          simp only [Code.run, hs.values, hab.call]
  | index x i span ihx ihi =>
      rw [Expr.lower, Expr.lower]
      refine ihx.bind fun y y' hy => ihi.bind fun z z' hz => .pure ⟨rfl, fun fuel => ?_⟩
      rw [Code.run, Code.run, hy.run, hz.run, hz.span]
  | slice x a b span ihx iha ihb =>
      rw [Expr.lower, Expr.lower]
      refine ihx.bind fun y y' hy => iha.bind fun z z' hz => ihb.bind fun u u' hu => ?_
      refine .pure ⟨rfl, fun fuel => ?_⟩
      rw [Code.run, Code.run, hy.run, hz.run, hz.span, hu.run, hu.span]
  | array es span ih =>
      rw [Expr.lower, Expr.lower]
      refine (lowerAll_twins ih).bind fun xs ys hs => .pure ⟨rfl, fun fuel => ?_⟩
      rw [Code.run, Code.run, hs.numbers]
  | tuple es span ih =>
      rw [Expr.lower, Expr.lower]
      refine (lowerAll_twins ih).bind fun xs ys hs => .pure ⟨rfl, fun fuel => ?_⟩
      rw [Code.run, Code.run, hs.values]

theorem Place.lower_twins (p : Place) :
    Lower.Twins S Store.Alike (p.lower c) (p.lower c') := by
  cases p with
  | var n span =>
      rw [Place.lower, Place.lower, h.slot]
      exact .pure fun _ => rfl
  | discard span =>
      rw [Place.lower, Place.lower]
      exact .pure fun _ => rfl
  | index base i span =>
      rw [Place.lower, Place.lower, h.slot, h.outer]
      refine (Expr.lower_twins h i).bind fun x y hxy => .pure fun fuel => ?_
      funext v
      rw [Store.run, Store.run, hxy.run, hxy.span]

theorem Place.lowerPlaces_twins (ps : List Place) :
    Lower.Twins S Store.AllAlike (Compile.lowerPlaces c ps)
      (Compile.lowerPlaces c' ps) := by
  induction ps with
  | nil =>
      rw [Compile.lowerPlaces, Compile.lowerPlaces]
      exact .pure ⟨rfl, fun _ => rfl⟩
  | cons p rest ih =>
      rw [Compile.lowerPlaces, Compile.lowerPlaces]
      refine (p.lower_twins h).bind fun x y hxy => ih.bind fun xs ys hs => ?_
      refine .pure ⟨congrArg Nat.succ hs.length, fun fuel => ?_⟩
      funext vs
      cases vs with
      | nil => rfl
      | cons v vs => rw [Store.runAll, Store.runAll, hxy fuel, hs.run]

theorem Expr.lowerOption_twins (e : Option Expr) :
    Lower.Twins S Code.OptionAlike (Compile.lowerOption c e)
      (Compile.lowerOption c' e) := by
  cases e with
  | none => exact .pure trivial
  | some e => exact (Expr.lower_twins h e).bind fun _ _ hxy => .pure hxy

omit h in
theorem Block.lowerAll_twins {ss : List Stmt}
    (ih : ∀ x ∈ ss, Lower.Twins S Step.Alike (x.lower c) (x.lower c')) :
    Lower.Twins S Step.AllAlike (Block.lowerAll c ss) (Block.lowerAll c' ss) := by
  induction ss with
  | nil =>
      rw [Block.lowerAll, Block.lowerAll]
      exact .pure fun _ => rfl
  | cons x rest ihrest =>
      rw [Block.lowerAll, Block.lowerAll]
      refine (ih x List.mem_cons_self).bind fun y y' hy => ?_
      refine (ihrest fun z hz => ih z (List.mem_cons_of_mem x hz)).bind fun ys ys' hs => ?_
      refine .pure fun fuel => ?_
      rw [Step.runAll, Step.runAll, hy fuel, hs fuel]

/-- Lowering a block gives the same steps, except for the numbers of what they are linked to. -/
theorem Block.lower_twins (b : Block) :
    Lower.Twins S Steps.Alike (b.lower c) (b.lower c') := by
  refine Block.induction
    (fun x => Lower.Twins S Step.Alike (x.lower c) (x.lower c'))
    (fun b => Lower.Twins S Steps.Alike (b.lower c) (b.lower c'))
    ?bind ?assign ?assignTuple ?branch ?branchElse ?forRange ?whileLoop ?eval ?give ?mk b
  case bind =>
    intro target e span
    cases target with
    | name n =>
        rw [Stmt.lower, Stmt.lower, h.slot]
        refine (Expr.lower_twins h e).bind fun x y hxy => .pure fun fuel => ?_
        rw [Step.run, Step.run, hxy.run]
    | names ns =>
        rw [Stmt.lower, Stmt.lower, h.slot]
        refine (Expr.lower_twins h e).bind fun x y hxy => .pure fun fuel => ?_
        rw [Step.run, Step.run, hxy.run]
  case assign =>
    intro p e span
    rw [Stmt.lower, Stmt.lower]
    refine (Expr.lower_twins h e).bind fun x y hxy => ?_
    refine (p.lower_twins h).bind fun q r hqr => .pure fun fuel => ?_
    rw [Step.run, Step.run, hxy.run, hqr fuel]
  case assignTuple =>
    intro ps e span
    rw [Stmt.lower, Stmt.lower]
    refine (Expr.lower_twins h e).bind fun x y hxy => ?_
    refine (Place.lowerPlaces_twins h ps).bind fun qs rs hqr => .pure fun fuel => ?_
    rw [Step.run, Step.run, hxy.run, hqr.length, hqr.run]
  case branch =>
    intro e yes span ihy
    rw [Stmt.lower, Stmt.lower]
    refine (Expr.lower_twins h e).bind fun x y hxy => ?_
    refine ihy.bind fun b b' hb => .pure fun fuel => ?_
    rw [Step.run, Step.run, hxy.run, hxy.span, hb.run]
  case branchElse =>
    intro e yes no span ihy ihn
    rw [Stmt.lower, Stmt.lower]
    refine (Expr.lower_twins h e).bind fun x y hxy => ?_
    refine ihy.bind fun b b' hb => ihn.bind fun d d' hd => .pure fun fuel => ?_
    rw [Step.run, Step.run, hxy.run, hxy.span, hb.run, hd.run]
  case forRange =>
    intro v a b body span ih
    rw [Stmt.lower, Stmt.lower, h.slot]
    refine (Expr.lower_twins h a).bind fun x x' hx => ?_
    refine (Expr.lower_twins h b).bind fun y y' hy => ?_
    refine ih.bind fun d d' hd => .pure fun fuel => ?_
    rw [Step.run, Step.run, hx.run, hx.span, hy.run, hy.span, hd.run]
  case whileLoop =>
    intro e body span ih
    rw [Stmt.lower, Stmt.lower]
    refine (Expr.lower_twins h e).bind fun x y hxy => ?_
    refine ih.bind fun d d' hd => .pure fun fuel => ?_
    rw [Step.run, Step.run, hxy.run, hxy.span, hd.run]
  case eval =>
    intro e span
    rw [Stmt.lower, Stmt.lower]
    refine (Expr.lower_twins h e).bind fun x y hxy => .pure fun fuel => ?_
    rw [Step.run, Step.run, hxy.run]
  case give =>
    intro v span
    rw [Stmt.lower, Stmt.lower]
    refine (Expr.lowerOption_twins h v).bind fun x y hxy => .pure fun fuel => ?_
    cases x <;> cases y
    · rfl
    · exact hxy.elim
    · exact hxy.elim
    · rw [Step.run, Step.run, hxy.run]
  case mk =>
    intro ss tail span ih
    rw [Block.lower, Block.lower]
    refine (Block.lowerAll_twins ih).bind fun xs ys hs => ?_
    refine (Expr.lowerOption_twins h tail).bind fun x y hxy => ?_
    refine .pure ⟨fun fuel => ?_, fun fuel => ?_⟩
    all_goals cases x <;> cases y
    all_goals first | exact hxy.elim | skip
    · rw [Steps.run, Steps.run, hs fuel]
    · rw [Steps.run, Steps.run, hs fuel, hxy.run]
    · rw [Steps.value, Steps.value, hs fuel]
    · rw [Steps.value, Steps.value, hs fuel, hxy.run]

end

/-! ## Functions -/

namespace Compile

variable {ρ : Renumbering} {env env' : Linker} {callee callee' : Function → Compile Artifact}
  {S : State → State → Prop} {f f' : Function}

/-- Callees that are found under one name are compiled alike. -/
def CalleesTwin (ρ : Renumbering) (env env' : Linker) (S : State → State → Prop)
    (callee callee' : Function → Compile Artifact) : Prop :=
  ∀ g g', Finds env.lookup g → Finds env'.lookup g' → g.Twin ρ g' →
    Twins S Artifact.Alike (callee g) (callee' g')

theorem linkName_twins (henv : env.Twin ρ env') (h : CalleesTwin ρ env env' S callee callee')
    (hf : f.Kin ρ f') (name : String) (span : Span) :
    Twins S Target.Alike (linkName env callee f name span)
      (linkName env' callee' f' name span) := by
  have compiled : ∀ g g', Finds env.lookup g → Finds env'.lookup g' → g.Twin ρ g' →
      Twins S Target.Alike
        (tryCatch (do return Target.artifact (← callee g)) fun e =>
          throw (e.map fun d => d.withNote ("while compiling `" ++ f.name ++ "`")))
        (tryCatch (do return Target.artifact (← callee' g')) fun e =>
          throw (e.map fun d => d.withNote ("while compiling `" ++ f.name ++ "`"))) :=
    fun g g' hg hg' hgg =>
      ((h g g' hg hg' hgg).bind fun a b hab => .pure (.artifact hab)).tryThrow _
  rw [linkName, linkName, ← hf.name]
  have hlookup := henv.lookup hf.home name
  generalize hl : env.lookup f.home name = l at hlookup
  generalize hl' : env'.lookup f'.home name = l' at hlookup
  cases hlookup with
  | none =>
      dsimp only
      cases Native.builtin? name with
      | none => exact .throw _
      | some n => exact .pure (.native n)
  | some hg =>
      cases hg with
      | constant v => exact .throw _
      | callable hc =>
          cases hc with
          | function hgg =>
              exact compiled _ _ ⟨_, _, _, hl, rfl⟩ ⟨_, _, _, hl', rfl⟩ hgg
          | gateway hgg =>
              exact compiled _ _ ⟨_, _, _, hl, rfl⟩ ⟨_, _, _, hl', rfl⟩ hgg
          | artifact hab => exact .pure (.artifact hab)
          | native n => exact .pure (.native n)
          | bound d hg hall =>
              dsimp only
              rw [notLinkable, notLinkable, (Callable.Twin.bound d hg hall).describe]
              exact .throw _

theorem ofFunction_twin (henv : env.Twin ρ env') (h : CalleesTwin ρ env env' S callee callee')
    (hf : f.Kin ρ f') :
    (Context.ofFunction env callee f).Twin S (Context.ofFunction env' callee' f') := by
  have houter : (Context.ofFunction env callee f).outer? =
      (Context.ofFunction env' callee' f').outer? := by
    funext name
    dsimp only [Context.outer?, Context.ofFunction]
    rw [hf.captures]
    cases Dictionary.get? name f'.captures with
    | some v => rfl
    | none =>
        have hlookup := henv.lookup hf.home name
        generalize env.lookup f.home name = l at hlookup ⊢
        generalize env'.lookup f'.home name = l' at hlookup ⊢
        cases hlookup with
        | none => rfl
        | some hg => cases hg <;> rfl
  have hlayout : (Context.ofFunction env callee f).layout =
      (Context.ofFunction env' callee' f').layout := congrArg layout hf.definition
  refine ⟨hlayout, houter, fun name span => ?_, linkName_twins henv h hf⟩
  rw [variable_, variable_, Context.slot, Context.slot, houter, hlayout]
  dsimp only [Context.ofFunction]
  rw [hf.captures]
  cases Dictionary.get? name f'.captures with
  | some v => rfl
  | none =>
      have hlookup := henv.lookup hf.home name
      generalize env.lookup f.home name = l at hlookup ⊢
      generalize env'.lookup f'.home name = l' at hlookup ⊢
      cases hlookup with
      | none => rfl
      | some hg =>
          cases hg with
          | constant v => rfl
          | callable hc =>
              dsimp only
              rw [Calls.notAValue, hc.describe, Calls.notAValue]

theorem compileUnit_twins (henv : env.Twin ρ env') {n n' : Nat}
    (h : CalleesTwin ρ env env' (State.Twin ρ n n') callee callee') (hf : f.Kin ρ f') :
    Twins (State.Twin ρ n n') (fun a b => a.Alike b ∧ n ≤ a.id) (compileUnit env callee f)
      (compileUnit env' callee' f') := by
  rw [compileUnit, compileUnit, henv.live hf.home, ← hf.nameSpan]
  split
  · have hbody : Lower.Twins (State.Twin ρ n n') Steps.Alike
        (f.definition.body.lower (Context.ofFunction env callee f))
        (f'.definition.body.lower (Context.ofFunction env' callee' f')) := by
      rw [← hf.definition]
      exact Block.lower_twins (ofFunction_twin henv h hf) _
    refine (hbody []).bind fun r r' hr => ?_
    obtain ⟨hsteps, hcallees⟩ := hr
    intro st st' hs
    refine .value ⟨⟨hf.definition, hcallees, ?_, fun fuel args => ?_⟩, hs.least⟩ ⟨hs.done, ?_, ?_⟩
    · show Digest.ofArtifact _ _ = Digest.ofArtifact _ _
      rw [hcallees, hf.fingerprint]
    · rw [Artifact.call, Artifact.call, hsteps.value, hf.definition]
    · exact Nat.le_succ_of_le hs.least
    · exact Nat.le_succ_of_le hs.least'
  · exact .throw _

theorem State.Twin.find? {n n' : Nat} {st st' : State} (h : st.Twin ρ n n' st') {id id' : Nat}
    (hid : ρ.functions id id') :
    (∃ a b, (st.done.find? fun entry => entry.1 = id) = some (id, a) ∧
      (st'.done.find? fun entry => entry.1 = id') = some (id', b) ∧ a.Alike b) ∨
    (st.done.find? fun entry => entry.1 = id) = none ∧
      (st'.done.find? fun entry => entry.1 = id') = none := by
  have hdone := h.done
  generalize st.done = l at hdone
  generalize st'.done = l' at hdone
  induction hdone with
  | nil => exact .inr ⟨rfl, rfl⟩
  | @cons entry entry' _ _ hentry _ ih =>
      obtain ⟨i, a⟩ := entry
      obtain ⟨j, b⟩ := entry'
      obtain ⟨hij, hab⟩ : ρ.functions i j ∧ a.Alike b := hentry
      have hiff := ρ.functions_iff hij hid
      by_cases hi : i = id
      · obtain rfl := hiff.mp hi
        subst hi
        exact .inl ⟨a, b, by simp, by simp, hab⟩
      · have hj : ¬ j = id' := fun hj => hi (hiff.mpr hj)
        rw [List.find?_cons_of_neg (by simpa using hi),
          List.find?_cons_of_neg (by simpa using hj)]
        exact ih

end Compile

/-- The functions that wait on two sides, in the same order. -/
def ActiveTwin (ρ : Renumbering) (active active' : List (Nat × String)) : Prop :=
  List.Forall₂ (fun entry entry' => ρ.functions entry.1 entry'.1 ∧ entry.2 = entry'.2) active active'

namespace ActiveTwin

variable {ρ : Renumbering} {active active' : List (Nat × String)} {f f' : Function}

theorem any (h : ActiveTwin ρ active active') (hf : f.Twin ρ f') :
    (active.any fun entry => entry.1 = f.id) = active'.any fun entry => entry.1 = f'.id := by
  induction h with
  | nil => rfl
  | cons hentry _ ih =>
      rw [List.any_cons, List.any_cons, ih]
      congr 1
      exact decide_eq_decide.mpr (ρ.functions_iff hentry.1 hf.number)

theorem next (h : ActiveTwin ρ active active') (hf : f.Twin ρ f') :
    ActiveTwin ρ (active ++ [(f.id, f.name)]) (active' ++ [(f'.id, f'.name)]) := by
  induction h with
  | nil => exact .cons ⟨hf.number, hf.name⟩ .nil
  | cons hentry _ ih => exact .cons hentry ih

/-- The names on the chain that comes back to a function. -/
theorem names (h : ActiveTwin ρ active active') (hf : f.Twin ρ f') :
    (active.dropWhile fun entry => entry.1 ≠ f.id).map Prod.snd =
      (active'.dropWhile fun entry => entry.1 ≠ f'.id).map Prod.snd := by
  have hmap : ∀ {l l' : List (Nat × String)}, ActiveTwin ρ l l' →
      l.map Prod.snd = l'.map Prod.snd := by
    intro l l' hl
    induction hl with
    | nil => rfl
    | cons hentry _ ih => rw [List.map_cons, List.map_cons, hentry.2, ih]
  induction h with
  | nil => rfl
  | @cons entry entry' l l' hentry hrest ih =>
      have hiff := ρ.functions_iff hentry.1 hf.number
      by_cases hid : entry.1 = f.id
      · rw [List.dropWhile_cons_of_neg (by simpa using hid),
          List.dropWhile_cons_of_neg (by simpa using hiff.mp hid)]
        exact hmap (.cons hentry hrest)
      · rw [List.dropWhile_cons_of_pos (by simpa using hid),
          List.dropWhile_cons_of_pos (by simpa using fun h => hid (hiff.mpr h))]
        exact ih

end ActiveTwin

namespace Compile

variable {ρ : Renumbering} {env env' : Linker} {f f' : Function}

theorem cycle_twin {active active' : List (Nat × String)} (h : ActiveTwin ρ active active')
    (hf : f.Twin ρ f') : cycle active f = cycle active' f' := by
  rw [cycle, cycle, h.names hf, hf.name, hf.nameSpan]

/-- Twins are compiled alike where names are bound to twins. Neither run lacks fuel. -/
theorem function_twins (henv : env.Twin ρ env') (counts : Counts env.bound (Finds env.lookup))
    (counts' : Counts env'.bound (Finds env'.lookup)) {n n' fuel fuel' : Nat}
    {active active' : List (Nat × String)} (hactive : ActiveTwin ρ active active')
    (waiting : Waiting env.bound (Finds env.lookup) fuel active f)
    (waiting' : Waiting env'.bound (Finds env'.lookup) fuel' active' f') (hf : f.Twin ρ f') :
    Twins (State.Twin ρ n n') Artifact.Alike (function env fuel active f)
      (function env' fuel' active' f') := by
  induction fuel generalizing fuel' active active' f f' with
  | zero =>
      intro st st' hs
      have hany := waiting.of_no_fuel counts
      rw [function_apply, function_apply, ← hactive.any hf, if_pos hany, if_pos hany,
        cycle_twin hactive hf]
      rcases hs.find? hf.number with ⟨a, b, ha, hb, hab⟩ | ⟨ha, hb⟩
      · rw [ha, hb]
        exact .value hab hs
      · rw [ha, hb]
        exact .fault _
  | succ fuel ih =>
      intro st st' hs
      rw [function_apply, function_apply, ← hactive.any hf, cycle_twin hactive hf]
      rcases hs.find? hf.number with ⟨a, b, ha, hb, hab⟩ | ⟨ha, hb⟩
      · rw [ha, hb]
        exact .value hab hs
      · rw [ha, hb]
        dsimp only
        split
        · exact .fault _
        · next hnot =>
            cases fuel' with
            | zero =>
                rw [hactive.any hf] at hnot
                exact absurd (waiting'.of_no_fuel counts') hnot
            | succ fuel' =>
                dsimp only
                have hcallees : CalleesTwin ρ env env' (State.Twin ρ n n')
                    (function env fuel (active ++ [(f.id, f.name)]))
                    (function env' fuel' (active' ++ [(f'.id, f'.name)])) :=
                  fun g g' hg hg' hgg => ih (hactive.next hf) (waiting.next hnot hg)
                    (waiting'.next (by rwa [← hactive.any hf]) hg') hgg
                have hunit := compileUnit_twins henv hcallees hf.toKin st st' hs
                generalize compileUnit env _ f st = r at hunit
                generalize compileUnit env' _ f' st' = r' at hunit
                cases hunit with
                | value hab ht =>
                    exact .value hab.1 ⟨.cons ⟨hf.number, hab.1⟩ ht.done, ht.least, ht.least'⟩
                | fault e => exact .fault e

end Compile

/-- Values of the same, or the same fault. -/
inductive Outcomes (P : α → β → Prop) : Except Fault α → Except Fault β → Prop
  | ok {a b} : P a b → Outcomes P (.ok a) (.ok b)
  | error (e : Fault) : Outcomes P (.error e) (.error e)

namespace Linker

variable {env env' : Linker} {f f' : Function} {n n' m : Nat} {a : Artifact}

theorem compile_eq_ok (h : env.compile n f = .ok (a, m)) :
    a.info.definition = f.definition ∧ a.id < m := by
  obtain ⟨st, hunit, rfl⟩ := unit_of_compile h
  obtain ⟨-, steps, callees, st₁, -, rfl, rfl⟩ := Compile.compileUnit_eq_ok hunit
  exact ⟨rfl, Nat.lt_succ_self _⟩

/-- Twins are compiled alike, from whatever numbers on. The numbers do not go back. -/
theorem compile_twin {ρ : Renumbering} (henv : env.Twin ρ env')
    (counts : Counts env.bound (Finds env.lookup))
    (counts' : Counts env'.bound (Finds env'.lookup)) (hf : f.Twin ρ f') (n n' : Nat) :
    Outcomes (fun r r' => r.1.Alike r'.1 ∧ n ≤ r.1.id ∧ n ≤ r.2 ∧ n' ≤ r'.2) (env.compile n f)
      (env'.compile n' f') := by
  have hnot : ¬ (([] : List (Nat × String)).any fun entry => entry.1 = f.id) = true := by simp
  have hnot' : ¬ (([] : List (Nat × String)).any fun entry => entry.1 = f'.id) = true := by simp
  have hcallees : Compile.CalleesTwin ρ env env' (Compile.State.Twin ρ n n')
      (Compile.function env env.bound ([] ++ [(f.id, f.name)]))
      (Compile.function env' env'.bound ([] ++ [(f'.id, f'.name)])) :=
    fun g g' hg hg' hgg => Compile.function_twins henv counts counts'
      (ActiveTwin.next .nil hf) ((Waiting.start _ _ f).next hnot hg)
      ((Waiting.start _ _ f').next hnot' hg') hgg
  have hcompile := Compile.compileUnit_twins henv hcallees hf.toKin { nextId := n } { nextId := n' }
    ⟨.nil, Nat.le_refl n, Nat.le_refl n'⟩
  rw [compile_eq_compileUnit, compile_eq_compileUnit]
  change Compile.Ends _ _
    (Compile.compileUnit env (Compile.function env env.bound [(f.id, f.name)]) f { nextId := n })
    (Compile.compileUnit env' (Compile.function env' env'.bound [(f'.id, f'.name)]) f'
      { nextId := n' }) at hcompile
  generalize Compile.compileUnit env _ f { nextId := n } = r at hcompile
  generalize Compile.compileUnit env' _ f' { nextId := n' } = r' at hcompile
  cases hcompile with
  | value hab ht => exact .ok ⟨hab.1, hab.2, ht.least, ht.least'⟩
  | fault e => exact .error e

end Linker

namespace Renumbering

/-- Every number belongs to itself. -/
def same : Renumbering where
  functions := Eq
  homes := Eq
  functions_iff := by rintro m _ n _ rfl rfl; rfl
  homes_iff := by rintro i _ j _ rfl rfl; rfl

end Renumbering

end Graft
