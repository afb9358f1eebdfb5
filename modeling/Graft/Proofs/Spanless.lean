import Graft.Proofs.Correspondence

/-!
# Evaluation without spans

Spans are there for reports. Without them a tree means the same: under scopes that do the same
wherever a name or a call stands, its evaluation gives the same values, or fails as well.
-/

namespace Graft

open Correspondence (agreement)

variable {σ : Type}

/-- What the scopes do agrees, wherever the names and the calls stand. -/
structure Scope.Matches (N : Names) (scope scope' : Scope σ) : Prop where
  reads : ∀ n span span', agreement.Runs Eq (scope.outer n span) (scope'.outer n span')
  calls : ∀ p args span span', N.calls p →
    agreement.Runs Eq (scope.call p args span) (scope'.call p args span')

/-- An operation on values, wherever it stands. -/
theorem Eval.at_agrees {α : Type} (span span' : Span) (o : Outcome α) :
    agreement.Steps (Eval.at_ span o : Eval σ α) (Eval.at_ span' o) := .at_ trivial o

section

variable {N : Names} {scope scope' : Scope σ}

/-! ## Expressions -/

theorem Expr.evalAll_erase {es : List Expr}
    (h : ∀ e ∈ es, agreement.Steps (e.eval scope) (e.erase.eval scope')) :
    agreement.Steps (eval.evalAll scope es) (eval.evalAll scope' (erase.eraseAll es)) ∧
      agreement.Steps (eval.evalNumbers scope es)
        (eval.evalNumbers scope' (erase.eraseAll es)) := by
  induction es with
  | nil => exact ⟨.pure _, .pure _⟩
  | cons e rest ih =>
      obtain ⟨hall, hnumbers⟩ := ih fun e' he => h e' (List.mem_cons_of_mem e he)
      have he := h e List.mem_cons_self
      rw [erase.eraseAll, eval.evalAll, eval.evalAll, eval.evalNumbers, eval.evalNumbers]
      exact ⟨he.bind fun v => hall.bind fun vs => .pure _,
        he.bind fun v => (Eval.at_agrees _ _ _).bind fun x => hnumbers.bind fun xs => .pure _⟩

theorem Expr.eval_erase (h : scope.Matches N scope') (e : Expr) (hN : N.Within e.subterms) :
    agreement.Steps (e.eval scope) (e.erase.eval scope') := by
  induction e with
  | num x s => exact .pure _
  | bool b s => exact .pure _
  | var n s =>
      rw [erase, eval, eval]
      refine Correspondence.Steps.get.bind fun locals => ?_
      cases locals.get? n with
      | some v => exact .pure v
      | none => exact .lift (h.reads n s .dummy)
  | path p s => exact p.constant_corresponds trivial
  | binary op l r s ihl ihr =>
      rw [subterms, Names.within_append, Names.within_append] at hN
      have ihl := ihl hN.1.1
      have ihr := ihr hN.1.2
      rw [erase]
      -- the logical operators look at their right operand only if the left one does not decide
      cases op
      case and =>
        rw [eval, eval]
        refine ihl.bind fun v => (Eval.at_agrees _ _ _).bind fun b => ?_
        cases b with
        | false => exact .pure _
        | true => exact ihr.bind fun w => (Eval.at_agrees _ _ _).bind fun c => .pure _
      case or =>
        rw [eval, eval]
        refine ihl.bind fun v => (Eval.at_agrees _ _ _).bind fun b => ?_
        cases b with
        | false => exact ihr.bind fun w => (Eval.at_agrees _ _ _).bind fun c => .pure _
        | true => exact .pure _
      all_goals
        simp only [eval]
        exact ihl.bind fun v => ihr.bind fun w => Eval.at_agrees _ _ _
  | unary op x s ih =>
      rw [subterms, Names.within_append] at hN
      rw [erase, eval, eval]
      exact (ih hN.1).bind fun v => Eval.at_agrees _ _ _
  | call callee calleeSpan args s ih =>
      rw [subterms, Names.within_append] at hN
      have hargs := Names.within_exprs.mp hN.1
      have hcallee : N.calls callee := hN.2 _ (List.mem_singleton_self _)
      rw [erase, eval, eval]
      refine (evalAll_erase fun e he => ih e he (hargs e he)).1.bind fun vs => .lift ?_
      exact (h.calls callee vs calleeSpan .dummy hcallee).orSpan trivial
  | index x i s ihx ihi =>
      rw [subterms, Names.within_append, Names.within_append] at hN
      rw [erase, eval, eval]
      refine (ihx hN.1.1).bind fun v => (ihi hN.1.2).bind fun w => ?_
      exact (Eval.at_agrees _ _ _).bind fun n => Eval.at_agrees _ _ _
  | slice x a b s ihx iha ihb =>
      rw [subterms, Names.within_append, Names.within_append, Names.within_append] at hN
      rw [erase, eval, eval]
      refine (ihx hN.1.1.1).bind fun v => (iha hN.1.1.2).bind fun w => ?_
      refine (Eval.at_agrees _ _ _).bind fun m => (ihb hN.1.2).bind fun u => ?_
      exact (Eval.at_agrees _ _ _).bind fun n => Eval.at_agrees _ _ _
  | array es s ih =>
      rw [subterms, Names.within_append] at hN
      have hes := Names.within_exprs.mp hN.1
      rw [erase, eval, eval]
      exact (evalAll_erase fun e he => ih e he (hes e he)).2.bind fun xs => .pure _
  | tuple es s ih =>
      rw [subterms, Names.within_append] at hN
      have hes := Names.within_exprs.mp hN.1
      rw [erase, eval, eval]
      exact (evalAll_erase fun e he => ih e he (hes e he)).1.bind fun vs => .pure _

theorem Expr.test_erase (h : scope.Matches N scope') (e : Expr) (hN : N.Within e.subterms) :
    agreement.Steps (e.test scope) (e.erase.test scope') :=
  (e.eval_erase h hN).bind fun _ => Eval.at_agrees _ _ _

/-! ## Statements -/

theorem Place.assign_erase (h : scope.Matches N scope') (p : Place) (hN : N.Within p.subterms)
    (v : Value) : agreement.Steps (p.assign scope v) (p.erase.assign scope' v) := by
  cases p with
  | var n s => exact .modify _
  | discard s => exact .pure _
  | index base i s =>
      rw [erase, assign, assign]
      refine (i.eval_erase h hN).bind fun w => (Eval.at_agrees _ _ _).bind fun n => ?_
      refine Correspondence.Steps.get.bind fun locals => ?_
      cases locals.get? base.text with
      | some w => exact (Eval.at_agrees _ _ _).bind fun x => .modify _
      | none =>
          refine (Correspondence.Steps.lift (h.reads base.text base.span .dummy)).bind fun w => ?_
          exact (Correspondence.Steps.modify _).bind fun _ =>
            (Eval.at_agrees _ _ _).bind fun x => .modify _

theorem Place.assignAll_erase (h : scope.Matches N scope') (ps : List Place)
    (hN : N.Within (ps.flatMap Place.subterms)) (vs : List Value) :
    agreement.Steps (Place.assignAll scope ps vs)
      (Place.assignAll scope' (ps.map Place.erase) vs) := by
  induction ps generalizing vs with
  | nil => cases vs <;> exact .pure _
  | cons p rest ih =>
      cases vs with
      | nil => exact .pure _
      | cons v vs =>
          rw [List.flatMap_cons, Names.within_append] at hN
          rw [List.map_cons, assignAll, assignAll]
          exact (p.assign_erase h hN.1 v).bind fun _ => ih hN.2 vs

theorem Block.execAll_erase {fuel : Nat} {ss : List Stmt}
    (h : ∀ x ∈ ss, agreement.Steps (x.exec scope fuel) (x.erase.exec scope' fuel)) :
    agreement.Steps (Block.execAll scope fuel ss)
      (Block.execAll scope' fuel (Block.eraseAll ss)) := by
  induction ss with
  | nil => exact .pure _
  | cons x rest ih =>
      rw [eraseAll, execAll, execAll]
      refine (h x List.mem_cons_self).bind fun flow => ?_
      cases flow with
      | next => exact ih fun y hy => h y (List.mem_cons_of_mem x hy)
      | give v => exact .pure _

theorem Block.exec_erase (h : scope.Matches N scope') (fuel : Nat) (b : Block)
    (hN : N.Within b.subterms) :
    agreement.Steps (b.exec scope fuel) (b.erase.exec scope' fuel) ∧
      agreement.Steps (b.value scope fuel) (b.erase.value scope' fuel) := by
  revert hN
  refine Block.induction
    (fun x => N.Within x.subterms →
      agreement.Steps (x.exec scope fuel) (x.erase.exec scope' fuel))
    (fun b => N.Within b.subterms →
      agreement.Steps (b.exec scope fuel) (b.erase.exec scope' fuel) ∧
        agreement.Steps (b.value scope fuel) (b.erase.value scope' fuel))
    ?bind ?assign ?assignTuple ?branch ?branchElse ?forRange ?whileLoop ?eval ?give ?mk b
  case bind =>
    intro target e s hN
    have he := e.eval_erase h hN
    cases target with
    | name n =>
        rw [Stmt.erase, Pattern.erase, Stmt.exec, Stmt.exec]
        exact he.bind fun v => (Correspondence.Steps.modify _).bind fun _ => .pure _
    | names ns =>
        have htexts : (ns.map fun n => (⟨n.text, .dummy⟩ : Ident)).map Ident.text =
            ns.map Ident.text := by
          rw [List.map_map]
          rfl
        rw [Stmt.erase, Pattern.erase, Stmt.exec, Stmt.exec, List.length_map, htexts]
        exact he.bind fun v => (Eval.at_agrees _ _ _).bind fun parts =>
          (Correspondence.Steps.modify _).bind fun _ => .pure _
  case assign =>
    intro p e s hN
    obtain ⟨hp, he⟩ := Names.within_append.mp hN
    rw [Stmt.erase, Stmt.exec, Stmt.exec]
    exact (e.eval_erase h he).bind fun v => (p.assign_erase h hp v).bind fun _ => .pure _
  case assignTuple =>
    intro ps e s hN
    obtain ⟨hps, he⟩ := Names.within_append.mp hN
    rw [Stmt.erase, Stmt.exec, Stmt.exec, List.length_map]
    exact (e.eval_erase h he).bind fun v => (Eval.at_agrees _ _ _).bind fun parts =>
      (Place.assignAll_erase h ps hps parts).bind fun _ => .pure _
  case branch =>
    intro c yes s ih hN
    obtain ⟨hc, hyes⟩ := Names.within_append.mp hN
    rw [Stmt.erase, Stmt.exec, Stmt.exec]
    refine (c.test_erase h hc).bind fun b => ?_
    cases b with
    | true => exact (ih hyes).1
    | false => exact .pure _
  case branchElse =>
    intro c yes no s ihy ihn hN
    obtain ⟨hcy, hno⟩ := Names.within_append.mp hN
    obtain ⟨hc, hyes⟩ := Names.within_append.mp hcy
    rw [Stmt.erase, Stmt.exec, Stmt.exec]
    refine (c.test_erase h hc).bind fun b => ?_
    cases b with
    | true => exact (ihy hyes).1
    | false => exact (ihn hno).1
  case forRange =>
    intro v a b body s ih hN
    obtain ⟨hab, hbody⟩ := Names.within_append.mp hN
    obtain ⟨ha, hb⟩ := Names.within_append.mp hab
    rw [Stmt.erase, Stmt.exec, Stmt.exec]
    exact (a.eval_erase h ha).bind fun _ => (Eval.at_agrees _ _ _).bind fun m =>
      (b.eval_erase h hb).bind fun _ => (Eval.at_agrees _ _ _).bind fun n =>
        (ih hbody).1.forLoop _ _
  case whileLoop =>
    intro c body s ih hN
    obtain ⟨hc, hbody⟩ := Names.within_append.mp hN
    rw [Stmt.erase, Stmt.exec, Stmt.exec]
    exact (c.test_erase h hc).whileLoop (ih hbody).1 fuel
  case eval =>
    intro e s hN
    rw [Stmt.erase, Stmt.exec, Stmt.exec]
    exact (e.eval_erase h hN).bind fun _ => .pure _
  case give =>
    intro v s hN
    cases v with
    | none => exact .pure _
    | some e =>
        rw [Stmt.erase, Option.map_some, Stmt.exec, Stmt.exec]
        exact (e.eval_erase h hN).bind fun _ => .pure _
  case mk =>
    intro ss tail s ih hN
    simp only [Block.erase, Block.exec, Block.value, Block.stmts, Block.tail]
    cases tail with
    | none =>
        have hss := Block.execAll_erase fun x hx => ih x hx (Names.within_stmts.mp hN x hx)
        refine ⟨hss.bind fun flow => ?_, hss.bind fun flow => ?_⟩
        · cases flow <;> exact .pure _
        · cases flow <;> exact .pure _
    | some e =>
        obtain ⟨hall, he⟩ := Names.within_append.mp hN
        have hss := Block.execAll_erase fun x hx => ih x hx (Names.within_stmts.mp hall x hx)
        have hx := e.eval_erase h he
        refine ⟨hss.bind fun flow => ?_, hss.bind fun flow => ?_⟩
        · cases flow with
          | next => exact hx.bind fun _ => .pure _
          | give v => exact .pure _
        · cases flow with
          | next => exact hx
          | give v => exact .pure _

/-! ## Functions -/

/-- The value of a function does not depend on the spans in it. -/
theorem Definition.value_erase (h : scope.Matches N scope') (d : Definition)
    (hN : N.Within d.body.subterms) (fuel : Nat) (args : List Value) :
    agreement.Runs Eq (d.value scope fuel args) (d.erase.value scope' fuel args) := by
  have hparams : d.erase.params.map Ident.text = d.params.map Ident.text := by
    rw [erase, List.map_map]
    rfl
  rw [value, value, hparams]
  refine ((Block.exec_erase h fuel d.body hN).2 _).bind fun p q hpq => ?_
  rw [hpq]
  exact .pure rfl

end

end Graft
