import Graft.Proofs.Agreement
import Graft.Proofs.Retouching

/-!
# Correspondence of runs

Two runs correspond when they take corresponding states to corresponding ends. A correspondence says
which states and which faults belong together, and with which faults the first run may escape from
the comparison. The evaluator keeps correspondence: if what two scopes do corresponds, so does what
a tree means under them, even if the second tree has other spans and calls other paths.
-/

namespace Graft

variable {σ τ α β γ δ : Type}

structure Correspondence (σ τ : Type) where
  states : σ → τ → Prop
  faults : Fault → Fault → Prop
  /-- The faults of the first run after which nothing is said of the second. -/
  escapes : Fault → Prop
  /-- The spans of what is compared. -/
  spans : Span → Span → Prop
  spans_refl : ∀ span, spans span span
  faults_refl : ∀ e, faults e e
  faults_orSpan : ∀ {e f span span'}, spans span span' → faults e f →
    faults (e.map (·.orSpan span)) (f.map (·.orSpan span'))
  faults_locate : ∀ {span span'} (d : Diagnostic), spans span span' →
    faults (.report (d.locate span)) (.report (d.locate span'))
  escapes_orSpan : ∀ {e} span, escapes e → escapes (e.map (·.orSpan span))

namespace Correspondence

variable {k : Correspondence σ τ} {P : α → β → Prop} {Q : γ → δ → Prop}

/-- The ends of two runs, their values related by `P`. -/
inductive Ends (k : Correspondence σ τ) (P : α → β → Prop) :
    Except Fault α × σ → Except Fault β × τ → Prop
  | value {a b s t} : P a b → k.states s t → Ends k P (.ok a, s) (.ok b, t)
  | fault {e f s t} : k.faults e f → k.states s t → Ends k P (.error e, s) (.error f, t)
  | escape {e s q} : k.escapes e → Ends k P (.error e, s) q

theorem Ends.cases {p : Except Fault α × σ} {q : Except Fault β × τ} (h : k.Ends P p q) :
    (∃ a b s t, p = (.ok a, s) ∧ q = (.ok b, t) ∧ P a b ∧ k.states s t) ∨
    (∃ e f s t, p = (.error e, s) ∧ q = (.error f, t) ∧ k.faults e f ∧ k.states s t) ∨
    (∃ e s, p = (.error e, s) ∧ k.escapes e) := by
  cases h with
  | value ha ht => exact .inl ⟨_, _, _, _, rfl, rfl, ha, ht⟩
  | fault hf ht => exact .inr (.inl ⟨_, _, _, _, rfl, rfl, hf, ht⟩)
  | escape he => exact .inr (.inr ⟨_, _, rfl, he⟩)

theorem Ends.mono {P' : α → β → Prop} {p : Except Fault α × σ} {q : Except Fault β × τ}
    (h : k.Ends P p q) (hp : ∀ a b, P a b → P' a b) : k.Ends P' p q := by
  cases h with
  | value hab hst => exact .value (hp _ _ hab) hst
  | fault hef hst => exact .fault hef hst
  | escape he => exact .escape he

/-- Started in corresponding states, both runs come to corresponding ends. -/
def Runs (k : Correspondence σ τ) (P : α → β → Prop) (x : Run σ α) (y : Run τ β) : Prop :=
  ∀ s t, k.states s t → k.Ends P (x s) (y t)

namespace Runs

theorem pure {a : α} {b : β} (h : P a b) : k.Runs P (pure a) (pure b) :=
  fun _ _ hs => .value h hs

theorem bind {x : Run σ α} {y : Run τ β} {f : α → Run σ γ} {g : β → Run τ δ}
    (h : k.Runs P x y) (step : ∀ a b, P a b → k.Runs Q (f a) (g b)) :
    k.Runs Q (x >>= f) (y >>= g) := by
  intro s t hs
  rw [Run.bind_apply, Run.bind_apply]
  obtain ⟨a, b, s', t', hx, hy, ha, ht⟩ | ⟨e, f, s', t', hx, hy, hf, ht⟩ | ⟨e, s', hx, he⟩ :=
    (h s t hs).cases
  · rw [hx, hy]
    exact step a b ha s' t' ht
  · rw [hx, hy]
    exact .fault hf ht
  · rw [hx]
    exact .escape he

theorem mono {P' : α → β → Prop} {x : Run σ α} {y : Run τ β} (h : k.Runs P x y)
    (hp : ∀ a b, P a b → P' a b) : k.Runs P' x y := fun s t hst => (h s t hst).mono hp

theorem throw {e f : Fault} (h : k.faults e f) : k.Runs P (throw e) (throw f) :=
  fun _ _ hs => .fault h hs

theorem fail (d : Diagnostic) : k.Runs P (Run.fail d) (Run.fail d) := throw (k.faults_refl _)

theorem get : k.Runs k.states get get := fun _ _ hs => .value hs hs

theorem ofOutcome (o : Outcome α) : k.Runs Eq (Run.ofOutcome o) (Run.ofOutcome o) := by
  cases o with
  | ok a => exact pure rfl
  | error d => exact fail d

/-- What follows an outcome only has to correspond on its value. -/
theorem afterOutcome {o : Outcome α} {f : α → Run σ γ} {g : α → Run τ δ}
    (h : ∀ a, o = .ok a → k.Runs Q (f a) (g a)) :
    k.Runs Q (Run.ofOutcome o >>= f) (Run.ofOutcome o >>= g) := by
  cases o with
  | ok a => exact h a rfl
  | error d => exact fail d

theorem ofExcept (o : Except Fault α) : k.Runs Eq (Run.ofExcept o) (Run.ofExcept o) := by
  cases o with
  | ok a => exact pure rfl
  | error e => exact throw (k.faults_refl e)

theorem orSpan {x : Run σ α} {y : Run τ β} (h : k.Runs P x y) {span span' : Span}
    (hspan : k.spans span span') : k.Runs P (Run.orSpan span x) (Run.orSpan span' y) := by
  intro s t hs
  rw [Run.orSpan_apply, Run.orSpan_apply]
  obtain ⟨a, b, s', t', hx, hy, ha, ht⟩ | ⟨e, f, s', t', hx, hy, hf, ht⟩ | ⟨e, s', hx, he⟩ :=
    (h s t hs).cases
  · rw [hx, hy]
    exact .value ha ht
  · rw [hx, hy]
    exact .fault (k.faults_orSpan hspan hf) ht
  · rw [hx]
    exact .escape (k.escapes_orSpan span he)

end Runs

/-! ## Steps of bodies -/

/-- Two steps of function bodies that do the same to the local variables. -/
def Steps (k : Correspondence σ τ) (x : Eval σ α) (y : Eval τ α) : Prop :=
  ∀ locals, k.Runs Eq (x locals) (y locals)

namespace Steps

theorem pure (a : α) : k.Steps (pure a) (pure a) := fun _ => .pure rfl

theorem bind {x : Eval σ α} {y : Eval τ α} {f : α → Eval σ β} {g : α → Eval τ β}
    (h : k.Steps x y) (step : ∀ a, k.Steps (f a) (g a)) : k.Steps (x >>= f) (y >>= g) := by
  intro locals
  refine (h locals).bind fun p q hpq => ?_
  subst hpq
  exact step p.1 p.2

theorem get : k.Steps get get := fun _ => .pure rfl

theorem modify (f : Locals → Locals) :
    k.Steps (modify f : Eval σ PUnit) (modify f) := fun _ => .pure rfl

theorem lift {x : Run σ α} {y : Run τ α} (h : k.Runs Eq x y) :
    k.Steps (liftM x : Eval σ α) (liftM y) := by
  intro locals s t hs
  rw [Eval.lift_apply, Eval.lift_apply]
  obtain ⟨a, b, s', t', hx, hy, ha, ht⟩ | ⟨e, f, s', t', hx, hy, hf, ht⟩ | ⟨e, s', hx, he⟩ :=
    (h s t hs).cases
  · subst ha
    rw [hx, hy]
    exact .value rfl ht
  · rw [hx, hy]
    exact .fault hf ht
  · rw [hx]
    exact .escape he

theorem at_error {span span' : Span} (hspan : k.spans span span') {d d' : Diagnostic}
    (h : k.faults (.report d) (.report d')) :
    k.Steps (Eval.at_ span (.error d) : Eval σ α) (Eval.at_ span' (.error d')) :=
  fun _ => .throw (k.faults_orSpan hspan h)

theorem at_ {span span' : Span} (hspan : k.spans span span') (o : Outcome α) :
    k.Steps (Eval.at_ span o) (Eval.at_ span' o) := by
  cases o with
  | ok a => exact pure a
  | error d => exact at_error hspan (k.faults_refl _)

theorem andThen {x : Eval σ Flow} {y : Eval τ Flow} (h : k.Steps x y) (flow : Flow) :
    k.Steps (flow.andThen x) (flow.andThen y) := by
  cases flow with
  | next => exact h
  | give v => exact .pure _

theorem forLoop {name : String} {body : Eval σ Flow} {body' : Eval τ Flow}
    (h : k.Steps body body') (count : Nat) (i : Int) :
    k.Steps (Eval.forLoop name body count i) (Eval.forLoop name body' count i) := by
  induction count generalizing i with
  | zero => exact fun _ _ _ hs => .value rfl hs
  | succ count ih =>
      rw [Eval.forLoop_succ, Eval.forLoop_succ]
      refine (modify _).bind fun _ => ?_
      exact h.bind fun flow => (ih (i + 1)).andThen flow

theorem whileLoop {test : Eval σ Bool} {test' : Eval τ Bool} {body : Eval σ Flow}
    {body' : Eval τ Flow} (ht : k.Steps test test') (h : k.Steps body body') (fuel : Nat) :
    k.Steps (Eval.whileLoop test body fuel) (Eval.whileLoop test' body' fuel) := by
  induction fuel with
  | zero => exact fun _ _ _ hs => .fault (k.faults_refl _) hs
  | succ fuel ih =>
      rw [Eval.whileLoop_succ, Eval.whileLoop_succ]
      refine ht.bind fun go => ?_
      cases go with
      | false => exact .pure _
      | true => exact h.bind fun flow => ih.andThen flow

end Steps

end Correspondence

/-! ## Expressions -/

/-- What two scopes do corresponds: reading a name and calling a path. -/
structure Scope.Corresponds (k : Correspondence σ τ) (N : Names) (rename : Path → Path)
    (scope : Scope σ) (scope' : Scope τ) : Prop where
  reads : ∀ n {span span'}, k.spans span span' →
    k.Runs Eq (scope.outer n span) (scope'.outer n span')
  calls : ∀ p args span, N.calls p →
    k.Runs Eq (scope.call p args span) (scope'.call (rename p) args span)

section

variable {k : Correspondence σ τ} {N : Names} {rename : Path → Path} {respan : Span → Span}
  {scope : Scope σ} {scope' : Scope τ}

/-- An operation whose report belongs to an expression. -/
theorem Expr.at_corresponds (hspan : ∀ s, k.spans s (respan s)) (e : Expr) (o : Outcome α) :
    k.Steps (Eval.at_ e.span o) (Eval.at_ (e.retouch rename respan).span o) := by
  rw [retouch_span]
  exact .at_ (hspan e.span) o

theorem Expr.evalAll_corresponds (hspan : ∀ s, k.spans s (respan s)) {es : List Expr}
    (h : ∀ e ∈ es, k.Steps (e.eval scope) ((e.retouch rename respan).eval scope')) :
    k.Steps (Expr.eval.evalAll scope es)
        (Expr.eval.evalAll scope' (Expr.retouchAll rename respan es)) ∧
      k.Steps (Expr.eval.evalNumbers scope es)
        (Expr.eval.evalNumbers scope' (Expr.retouchAll rename respan es)) := by
  induction es with
  | nil => exact ⟨.pure _, .pure _⟩
  | cons e rest ih =>
      obtain ⟨hall, hnum⟩ := ih fun e' he => h e' (List.mem_cons_of_mem e he)
      have he := h e List.mem_cons_self
      change k.Steps _ (Expr.eval.evalAll scope'
          (e.retouch rename respan :: Expr.retouchAll rename respan rest)) ∧
        k.Steps _ (Expr.eval.evalNumbers scope'
          (e.retouch rename respan :: Expr.retouchAll rename respan rest))
      rw [Expr.eval.evalAll, Expr.eval.evalNumbers, Expr.eval.evalAll, Expr.eval.evalNumbers]
      exact ⟨he.bind fun v => hall.bind fun vs => .pure _,
        he.bind fun v => (e.at_corresponds hspan _).bind fun x => hnum.bind fun xs => .pure _⟩

theorem Path.constant_corresponds (p : Path) {span span' : Span} (hspan : k.spans span span') :
    k.Steps (Eval.at_ span (p.constant? span)) (Eval.at_ span' (p.constant? span')) := by
  rw [Path.constant?, Path.constant?]
  split
  · split
    · exact .pure _
    · exact .at_error hspan (k.faults_locate _ hspan)
  · exact .at_error hspan (k.faults_locate _ hspan)

theorem Expr.eval_corresponds (hspan : ∀ s, k.spans s (respan s))
    (h : scope.Corresponds k N rename scope') (e : Expr) (hN : N.Within e.subterms) :
    k.Steps (e.eval scope) ((e.retouch rename respan).eval scope') := by
  induction e with
  | num x s => exact .pure _
  | bool b s => exact .pure _
  | var n s =>
      change k.Steps ((Expr.var n s).eval scope) ((Expr.var n (respan s)).eval scope')
      rw [Expr.eval, Expr.eval]
      refine Correspondence.Steps.get.bind fun locals => ?_
      cases locals.get? n with
      | some v => exact .pure v
      | none => exact .lift (h.reads n (hspan s))
  | path p s => exact p.constant_corresponds (hspan s)
  | binary op l r s ihl ihr =>
      rw [Expr.subterms, Names.within_append, Names.within_append] at hN
      have ihl := ihl hN.1.1
      have ihr := ihr hN.1.2
      change k.Steps ((Expr.binary op l r s).eval scope)
        ((Expr.binary op (l.retouch rename respan) (r.retouch rename respan)
          (respan s)).eval scope')
      cases op
      case and =>
        rw [Expr.eval, Expr.eval]
        refine ihl.bind fun v => (l.at_corresponds hspan _).bind fun b => ?_
        cases b with
        | false => exact .pure _
        | true => exact ihr.bind fun w => (r.at_corresponds hspan _).bind fun c => .pure _
      case or =>
        rw [Expr.eval, Expr.eval]
        refine ihl.bind fun v => (l.at_corresponds hspan _).bind fun b => ?_
        cases b with
        | false => exact ihr.bind fun w => (r.at_corresponds hspan _).bind fun c => .pure _
        | true => exact .pure _
      all_goals
        simp only [Expr.eval]
        exact ihl.bind fun v => ihr.bind fun w => .at_ (hspan s) _
  | unary op x s ih =>
      rw [Expr.subterms, Names.within_append] at hN
      change k.Steps ((Expr.unary op x s).eval scope)
        ((Expr.unary op (x.retouch rename respan) (respan s)).eval scope')
      rw [Expr.eval, Expr.eval]
      exact (ih hN.1).bind fun v => .at_ (hspan s) _
  | call callee calleeSpan args s ih =>
      rw [Expr.subterms, Names.within_append] at hN
      have hargs := Names.within_exprs.mp hN.1
      have hcallee : N.calls callee := hN.2 _ (List.mem_singleton_self _)
      change k.Steps ((Expr.call callee calleeSpan args s).eval scope)
        ((Expr.call (rename callee) calleeSpan (retouchAll rename respan args)
          (respan s)).eval scope')
      rw [Expr.eval, Expr.eval]
      exact (evalAll_corresponds hspan fun e he => ih e he (hargs e he)).1.bind fun vs =>
        .lift ((h.calls callee vs calleeSpan hcallee).orSpan (hspan s))
  | index x i s ihx ihi =>
      rw [Expr.subterms, Names.within_append, Names.within_append] at hN
      change k.Steps ((Expr.index x i s).eval scope)
        ((Expr.index (x.retouch rename respan) (i.retouch rename respan) (respan s)).eval scope')
      rw [Expr.eval, Expr.eval]
      refine (ihx hN.1.1).bind fun v => (ihi hN.1.2).bind fun w => ?_
      refine (i.at_corresponds hspan _).bind fun n => ?_
      exact .at_ (hspan s) _
  | slice x a b s ihx iha ihb =>
      rw [Expr.subterms, Names.within_append, Names.within_append, Names.within_append] at hN
      change k.Steps ((Expr.slice x a b s).eval scope)
        ((Expr.slice (x.retouch rename respan) (a.retouch rename respan)
          (b.retouch rename respan) (respan s)).eval scope')
      rw [Expr.eval, Expr.eval]
      refine (ihx hN.1.1.1).bind fun v => (iha hN.1.1.2).bind fun w => ?_
      refine (a.at_corresponds hspan _).bind fun m => (ihb hN.1.2).bind fun u => ?_
      refine (b.at_corresponds hspan _).bind fun n => ?_
      exact .at_ (hspan s) _
  | array es s ih =>
      rw [Expr.subterms, Names.within_append] at hN
      have hes := Names.within_exprs.mp hN.1
      change k.Steps ((Expr.array es s).eval scope)
        ((Expr.array (retouchAll rename respan es) (respan s)).eval scope')
      rw [Expr.eval, Expr.eval]
      exact (evalAll_corresponds hspan fun e he => ih e he (hes e he)).2.bind fun xs => .pure _
  | tuple es s ih =>
      rw [Expr.subterms, Names.within_append] at hN
      have hes := Names.within_exprs.mp hN.1
      change k.Steps ((Expr.tuple es s).eval scope)
        ((Expr.tuple (retouchAll rename respan es) (respan s)).eval scope')
      rw [Expr.eval, Expr.eval]
      exact (evalAll_corresponds hspan fun e he => ih e he (hes e he)).1.bind fun vs => .pure _

/-! ## Statements and blocks -/

theorem Place.assign_corresponds (hspan : ∀ s, k.spans s (respan s))
    (h : scope.Corresponds k N rename scope') (p : Place) (hN : N.Within p.subterms)
    (v : Value) : k.Steps (p.assign scope v) ((p.retouch rename respan).assign scope' v) := by
  cases p with
  | var n s => exact .modify _
  | discard s => exact .pure _
  | index base i s =>
      change k.Steps ((Place.index base i s).assign scope v)
        ((Place.index base (i.retouch rename respan) s).assign scope' v)
      rw [Place.assign, Place.assign]
      refine (i.eval_corresponds hspan h hN).bind fun w => ?_
      refine (i.at_corresponds hspan _).bind fun n => ?_
      refine Correspondence.Steps.get.bind fun locals => ?_
      cases locals.get? base.text with
      | some w => exact (Correspondence.Steps.at_ (k.spans_refl s) _).bind fun x => .modify _
      | none =>
          refine (Correspondence.Steps.lift (h.reads base.text (k.spans_refl base.span))).bind
            fun w => (Correspondence.Steps.modify _).bind fun _ => ?_
          exact (Correspondence.Steps.at_ (k.spans_refl s) _).bind fun x => .modify _

theorem Place.assignAll_corresponds (hspan : ∀ s, k.spans s (respan s))
    (h : scope.Corresponds k N rename scope') (ps : List Place)
    (hN : N.Within (ps.flatMap Place.subterms)) (vs : List Value) :
    k.Steps (Place.assignAll scope ps vs)
      (Place.assignAll scope' (ps.map (Place.retouch rename respan)) vs) := by
  induction ps generalizing vs with
  | nil => cases vs <;> exact .pure _
  | cons p rest ih =>
      cases vs with
      | nil => exact .pure _
      | cons v vs =>
          rw [List.flatMap_cons, Names.within_append] at hN
          rw [List.map_cons, Place.assignAll, Place.assignAll]
          exact (p.assign_corresponds hspan h hN.1 v).bind fun _ => ih hN.2 vs

theorem Expr.test_corresponds (hspan : ∀ s, k.spans s (respan s))
    (h : scope.Corresponds k N rename scope') (e : Expr) (hN : N.Within e.subterms) :
    k.Steps (e.test scope) ((e.retouch rename respan).test scope') :=
  (e.eval_corresponds hspan h hN).bind fun _ => e.at_corresponds hspan _

theorem Block.execAll_corresponds {fuel : Nat} {ss : List Stmt}
    (h : ∀ x ∈ ss, k.Steps (x.exec scope fuel) ((x.retouch rename respan).exec scope' fuel)) :
    k.Steps (Block.execAll scope fuel ss)
      (Block.execAll scope' fuel (ss.map (Stmt.retouch rename respan))) := by
  induction ss with
  | nil => exact .pure _
  | cons x rest ih =>
      rw [List.map_cons, Block.execAll, Block.execAll]
      refine (h x List.mem_cons_self).bind fun flow => ?_
      cases flow with
      | next => exact ih fun y hy => h y (List.mem_cons_of_mem x hy)
      | give v => exact .pure _

theorem Block.exec_corresponds (hspan : ∀ s, k.spans s (respan s))
    (h : scope.Corresponds k N rename scope') (fuel : Nat) (b : Block)
    (hN : N.Within b.subterms) :
    k.Steps (b.exec scope fuel) ((b.retouch rename respan).exec scope' fuel) ∧
      k.Steps (b.value scope fuel) ((b.retouch rename respan).value scope' fuel) := by
  revert hN
  refine Block.induction
    (fun x => N.Within x.subterms →
      k.Steps (x.exec scope fuel) ((x.retouch rename respan).exec scope' fuel))
    (fun b => N.Within b.subterms →
      k.Steps (b.exec scope fuel) ((b.retouch rename respan).exec scope' fuel) ∧
        k.Steps (b.value scope fuel) ((b.retouch rename respan).value scope' fuel))
    ?bind ?assign ?assignTuple ?branch ?branchElse ?forRange ?whileLoop ?eval ?give ?mk b
  case bind =>
    intro target e s hN
    have he := e.eval_corresponds hspan h hN
    cases target with
    | name n =>
        change k.Steps _ ((Stmt.bind (.name n) (e.retouch rename respan) s).exec scope' fuel)
        rw [Stmt.exec, Stmt.exec]
        exact he.bind fun v => (Correspondence.Steps.modify _).bind fun _ => .pure _
    | names ns =>
        change k.Steps _ ((Stmt.bind (.names ns) (e.retouch rename respan) s).exec scope' fuel)
        rw [Stmt.exec, Stmt.exec]
        exact he.bind fun v => (Correspondence.Steps.at_ (k.spans_refl s) _).bind fun parts =>
          (Correspondence.Steps.modify _).bind fun _ => .pure _
  case assign =>
    intro p e s hN
    obtain ⟨hp, he⟩ := Names.within_append.mp hN
    change k.Steps _ ((Stmt.assign (p.retouch rename respan) (e.retouch rename respan) s).exec
      scope' fuel)
    rw [Stmt.exec, Stmt.exec]
    exact (e.eval_corresponds hspan h he).bind fun v =>
      (p.assign_corresponds hspan h hp v).bind fun _ => .pure _
  case assignTuple =>
    intro ps e s hN
    obtain ⟨hps, he⟩ := Names.within_append.mp hN
    rw [Stmt.retouch_assignTuple, Stmt.exec, Stmt.exec, List.length_map]
    exact (e.eval_corresponds hspan h he).bind fun v =>
      (Correspondence.Steps.at_ (k.spans_refl s) _).bind fun parts =>
        (Place.assignAll_corresponds hspan h ps hps parts).bind fun _ => .pure _
  case branch =>
    intro c yes s ih hN
    obtain ⟨hc, hyes⟩ := Names.within_append.mp hN
    change k.Steps _ ((Stmt.branch (c.retouch rename respan) (yes.retouch rename respan) none
      s).exec scope' fuel)
    rw [Stmt.exec, Stmt.exec]
    refine (c.test_corresponds hspan h hc).bind fun b => ?_
    cases b with
    | true => exact (ih hyes).1
    | false => exact .pure _
  case branchElse =>
    intro c yes no s ihy ihn hN
    obtain ⟨hcy, hno⟩ := Names.within_append.mp hN
    obtain ⟨hc, hyes⟩ := Names.within_append.mp hcy
    change k.Steps _ ((Stmt.branch (c.retouch rename respan) (yes.retouch rename respan)
      (some (no.retouch rename respan)) s).exec scope' fuel)
    rw [Stmt.exec, Stmt.exec]
    refine (c.test_corresponds hspan h hc).bind fun b => ?_
    cases b with
    | true => exact (ihy hyes).1
    | false => exact (ihn hno).1
  case forRange =>
    intro v a b body s ih hN
    obtain ⟨hab, hbody⟩ := Names.within_append.mp hN
    obtain ⟨ha, hb⟩ := Names.within_append.mp hab
    change k.Steps _ ((Stmt.forRange v (a.retouch rename respan) (b.retouch rename respan)
      (body.retouch rename respan) s).exec scope' fuel)
    rw [Stmt.exec, Stmt.exec]
    exact (a.eval_corresponds hspan h ha).bind fun _ => (a.at_corresponds hspan _).bind fun m =>
      (b.eval_corresponds hspan h hb).bind fun _ => (b.at_corresponds hspan _).bind fun n =>
        (ih hbody).1.forLoop _ _
  case whileLoop =>
    intro c body s ih hN
    obtain ⟨hc, hbody⟩ := Names.within_append.mp hN
    change k.Steps _ ((Stmt.whileLoop (c.retouch rename respan) (body.retouch rename respan)
      s).exec scope' fuel)
    rw [Stmt.exec, Stmt.exec]
    exact (c.test_corresponds hspan h hc).whileLoop (ih hbody).1 fuel
  case eval =>
    intro e s hN
    change k.Steps _ ((Stmt.eval (e.retouch rename respan) s).exec scope' fuel)
    rw [Stmt.exec, Stmt.exec]
    exact (e.eval_corresponds hspan h hN).bind fun _ => .pure _
  case give =>
    intro v s hN
    cases v with
    | none => exact .pure _
    | some e =>
        change k.Steps _ ((Stmt.give (some (e.retouch rename respan)) s).exec scope' fuel)
        rw [Stmt.exec, Stmt.exec]
        exact (e.eval_corresponds hspan h hN).bind fun _ => .pure _
  case mk =>
    intro ss tail s ih hN
    simp only [Block.retouch_mk, Block.exec, Block.value, Block.stmts, Block.tail]
    cases tail with
    | none =>
        have hss := Block.execAll_corresponds fun x hx =>
          ih x hx (Names.within_stmts.mp hN x hx)
        refine ⟨hss.bind fun flow => ?_, hss.bind fun flow => ?_⟩
        · cases flow <;> exact .pure _
        · cases flow <;> exact .pure _
    | some e =>
        obtain ⟨hall, he⟩ := Names.within_append.mp hN
        have hss := Block.execAll_corresponds fun x hx =>
          ih x hx (Names.within_stmts.mp hall x hx)
        have hx := e.eval_corresponds hspan h he
        refine ⟨hss.bind fun flow => ?_, hss.bind fun flow => ?_⟩
        · cases flow with
          | next => exact hx.bind fun _ => .pure _
          | give v => exact .pure _
        · cases flow with
          | next => exact hx
          | give v => exact .pure _

/-- The value of a function, whose body was touched. -/
theorem Definition.value_corresponds (hspan : ∀ s, k.spans s (respan s))
    (h : scope.Corresponds k N rename scope') {d d' : Definition}
    (hN : N.Within d.body.subterms) (hparams : d'.params = d.params)
    (hbody : d'.body = d.body.retouch rename respan) (fuel : Nat) (args : List Value) :
    k.Runs Eq (d.value scope fuel args) (d'.value scope' fuel args) := by
  rw [Definition.value, Definition.value, hparams, hbody]
  refine ((Block.exec_corresponds hspan h fuel d.body hN).2 _).bind fun p q hpq => ?_
  subst hpq
  exact .pure rfl

end

/-- The same function under scopes that correspond. -/
theorem Definition.value_corresponds_self {k : Correspondence σ τ} {N : Names} {scope : Scope σ}
    {scope' : Scope τ} (h : scope.Corresponds k N id scope') {d : Definition}
    (hN : N.Within d.body.subterms) (fuel : Nat) (args : List Value) :
    k.Runs Eq (d.value scope fuel args) (d.value scope' fuel args) :=
  Definition.value_corresponds k.spans_refl h hN rfl d.body.retouch_id.symm fuel args

/-! ## Agreement -/

namespace Correspondence

/-- Both runs agree, whatever their reports say, and do the same to the state. -/
def agreement : Correspondence σ σ where
  states := Eq
  faults := Fault.Alike
  escapes _ := False
  spans _ _ := True
  spans_refl _ := trivial
  faults_refl := .refl
  faults_orSpan _ h := (h.map_left _).map_right _
  faults_locate _ _ := trivial
  escapes_orSpan _ h := h

theorem agreement_refl (x : Run σ α) : agreement.Runs Eq x x := by
  rintro s _ rfl
  rcases x s with ⟨e | a, t⟩
  · exact .fault (.refl e) rfl
  · exact .value rfl rfl

/-- What one run gives the other gives as well. -/
theorem yields_of_agreement {x y : Run σ α} {z : Except Fault α} {s : σ}
    (h : agreement.Runs Eq x y) (hy : Run.Yields Fault.Alike s y z) :
    Run.Yields Fault.Alike s x z := by
  obtain ⟨hagree, hkeep⟩ := hy
  obtain ⟨a, b, s', t', hx, hy', rfl, rfl⟩ | ⟨e, f, s', t', hx, hy', hf, rfl⟩ | ⟨e, s', -, he⟩ :=
    (h s s rfl).cases
  · rw [Run.Yields, hx]
    rw [hy'] at hagree hkeep
    exact ⟨hagree, hkeep⟩
  · rw [hy'] at hagree hkeep
    rw [Run.Yields, hx]
    exact ⟨agreeUpTo_alike.mpr (Agree.trans (y := .error f) hf (agreeUpTo_alike.mp hagree)), hkeep⟩
  · exact he.elim

end Correspondence

end Graft
