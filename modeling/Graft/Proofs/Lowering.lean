import Graft.Proofs.Simulation
import Graft.Proofs.Trees
import Mathlib.Order.Filter.AtTopBot.Basic

/-!
# Lowered code simulates the tree

Code that lowering makes of a tree simulates the evaluation of the tree, provided that each callee it
is linked to does what a call of its name does. A callee may need some levels of nesting, so the
statements are about every scope from some depth on; a tree has finitely many callees, so one depth
serves for all.
-/

namespace Graft

open Filter (atTop)

variable {σ α β : Type}

/-! ## Steps of compilation -/

/-- A step that starts where `inv` holds and succeeds keeps `inv`; its result satisfies `post`. -/
def Compile.Ensures (inv : Compile.State → Prop) (m : Compile α) (post : α → Prop) : Prop :=
  ∀ st a st', m st = .ok (a, st') → inv st → inv st' ∧ post a

/-- The same of a step that records callees. -/
def Lower.Ensures (inv : Compile.State → Prop) (m : Lower α) (post : α → Prop) : Prop :=
  ∀ callees st a callees' st', m callees st = .ok ((a, callees'), st') → inv st →
    inv st' ∧ post a

namespace Compile

theorem bind_apply (m : Compile α) (f : α → Compile β) (st : State) :
    (m >>= f) st = match m st with
      | .ok (a, st) => f a st
      | .error e => .error e := by
  simp only [bind, StateT.bind, Except.bind]
  rcases m st with _ | _ <;> rfl

theorem tryThrow_apply (m : Compile α) (f : Fault → Fault) (st : State) :
    (tryCatch m fun e => MonadExcept.throw (f e)) st = (m st).mapError f := by
  simp only [tryCatch, tryCatchThe, MonadExceptOf.tryCatch]
  rcases m st with _ | _ <;> rfl

namespace Ensures

variable {inv : State → Prop}

theorem pure {a : α} {post : α → Prop} (h : post a) : Ensures inv (pure a) post := by
  intro st b st' hb hi
  cases hb
  exact ⟨hi, h⟩

theorem throw (e : Fault) (post : α → Prop) : Ensures inv (throw e) post :=
  fun _ _ _ h => nomatch h

theorem bind {m : Compile α} {f : α → Compile β} {mid : α → Prop} {post : β → Prop}
    (h : Ensures inv m mid) (k : ∀ a, mid a → Ensures inv (f a) post) :
    Ensures inv (m >>= f) post := by
  intro st b st' hb hi
  rw [bind_apply] at hb
  split at hb
  · next a st₁ hm =>
      obtain ⟨hi₁, ha⟩ := h st a st₁ hm hi
      exact k a ha st₁ b st' hb hi₁
  · cases hb

theorem mono {m : Compile α} {post post' : α → Prop} (h : Ensures inv m post)
    (hp : ∀ a, post a → post' a) : Ensures inv m post' :=
  fun st a st' hm hi => (h st a st' hm hi).imp_right (hp a)

/-- A step whose faults are changed. -/
theorem tryThrow {m : Compile α} {post : α → Prop} (h : Ensures inv m post) (f : Fault → Fault) :
    Ensures inv (tryCatch m fun e => MonadExcept.throw (f e)) post := by
  intro st a st' ha hi
  refine h st a st' ?_ hi
  rw [tryThrow_apply] at ha
  rcases hm : m st with e | r
  · rw [hm] at ha
    cases ha
  · rwa [hm] at ha

end Ensures

end Compile

namespace Lower

variable {inv : Compile.State → Prop}

theorem bind_apply (m : Lower α) (f : α → Lower β) (callees : List (String × Digest))
    (st : Compile.State) :
    (m >>= f) callees st = match m callees st with
      | .ok ((a, callees), st) => f a callees st
      | .error e => .error e := by
  simp only [bind, StateT.bind, Except.bind]
  rcases m callees st with _ | _ <;> rfl

theorem lift_apply (m : Compile α) (callees : List (String × Digest)) (st : Compile.State) :
    (liftM m : Lower α) callees st = match m st with
      | .ok (a, st) => .ok ((a, callees), st)
      | .error e => .error e := by
  simp only [liftM, monadLift, MonadLift.monadLift, StateT.lift, Bind.bind, StateT.bind, Except.bind]
  rcases m st with _ | _ <;> rfl

namespace Ensures

theorem pure {a : α} {post : α → Prop} (h : post a) : Ensures inv (pure a) post := by
  intro callees st b callees' st' hb hi
  cases hb
  exact ⟨hi, h⟩

theorem bind {m : Lower α} {f : α → Lower β} {mid : α → Prop} {post : β → Prop}
    (h : Ensures inv m mid) (k : ∀ a, mid a → Ensures inv (f a) post) :
    Ensures inv (m >>= f) post := by
  intro callees st b callees' st' hb hi
  rw [bind_apply] at hb
  rcases hm : m callees st with e | ⟨⟨a, callees₁⟩, st₁⟩
  · rw [hm] at hb
    cases hb
  · rw [hm] at hb
    obtain ⟨hi₁, ha⟩ := h callees st a callees₁ st₁ hm hi
    exact k a ha callees₁ st₁ b callees' st' hb hi₁

theorem mono {m : Lower α} {post post' : α → Prop} (h : Ensures inv m post)
    (hp : ∀ a, post a → post' a) : Ensures inv m post' :=
  fun callees st a callees' st' hm hi =>
    (h callees st a callees' st' hm hi).imp_right (hp a)

theorem ofOutcome (o : Outcome α) : Ensures inv (Compile.ofOutcome o) fun a => o = .ok a := by
  intro callees st a callees' st' h hi
  cases o with
  | ok b =>
      cases h
      exact ⟨hi, rfl⟩
  | error d => cases h

theorem lift {m : Compile α} {post : α → Prop} (h : Compile.Ensures inv m post) :
    Ensures inv (liftM m : Lower α) post := by
  intro callees st a callees' st' hm hi
  rw [lift_apply] at hm
  rcases hms : m st with e | ⟨b, st₁⟩
  · rw [hms] at hm
    cases hm
  · rw [hms] at hm
    cases hm
    exact h st a st' hms hi

theorem record (name : String) (d : Digest) :
    Ensures inv (Compile.record name d) fun _ => True := by
  intro callees st a callees' st' h hi
  cases h
  exact ⟨hi, trivial⟩

theorem lowerOption_none (c : Compile.Context) :
    Ensures inv (Compile.lowerOption c none) fun code => code = none := pure rfl

end Ensures

end Lower

/-! ## What lowering relies on -/

namespace Compile

/-- The value that a call of a target gives. -/
def Target.run (fuel : Nat) (args : List Value) : Target → Except Fault Value
  | .native n => (n.call args).mapError .report
  | .artifact a => a.call fuel args

/-- What a name that is not local is read as. -/
def Context.outerValue (c : Context) (name : String) (span : Span) : Except Fault Value :=
  match c.outer? name with
  | some v => .ok v
  | none => .error (.report (Calls.undefinedName name span))

/-- The scopes give, in the state `s`, what code of the context is linked to: the names are read at
once, and called from some depth on. The arrays in `stored` are read where the name stands when an
element of them is assigned, the code reports them where the element does. -/
structure Context.Fits (c : Context) (scope : Nat → Scope σ) (R : Fault → Fault → Prop) (s : σ)
    (fuel : Nat) (inv : State → Prop) (N : Names) (stored : List String) : Prop where
  reads : ∀ d name span, N.reads name → name ∈ c.layout ∨ (c.outer? name).isSome →
    Run.Yields R s ((scope d).outer name span) (c.outerValue name span)
  stores : ∀ d name span span', name ∈ stored →
    Run.Yields R s ((scope d).outer name span) (c.outerValue name span')
  links : ∀ callee calleeSpan, N.calls callee →
    Lower.Ensures inv (target c callee calleeSpan) fun t =>
      ∀ᶠ d in atTop, ∀ args,
        Run.Yields R s ((scope d).call callee args calleeSpan) (t.run fuel args)

end Compile

/-! ## Expressions -/

section

variable {c : Compile.Context} {scope : Nat → Scope σ} {R : Fault → Fault → Prop} {s : σ}
  {fuel : Nat} {inv : Compile.State → Prop} {N : Names} {stored : List String}

/-- What is shown of an expression and its code, which stands in the same place. -/
abbrev Expr.Lowers (c : Compile.Context) (scope : Nat → Scope σ) (R : Fault → Fault → Prop) (s : σ)
    (fuel : Nat) (inv : Compile.State → Prop) (e : Expr) : Prop :=
  Lower.Ensures inv (e.lower c) fun code => code.span = e.span ∧
    ∀ᶠ d in atTop, Simulates R c.layout s (e.eval (scope d)) (Code.run fuel code)

theorem Expr.lower_var (fits : c.Fits scope R s fuel inv N stored) (n : String) (span : Span)
    (hn : N.reads n) :
    (Expr.var n span).Lowers c scope R s fuel inv := by
  rw [Expr.Lowers, Expr.lower]
  refine (Lower.Ensures.ofOutcome _).mono fun code hcode => ?_
  rw [Compile.variable_] at hcode
  split at hcode
  · next hlocal =>
      cases hcode
      have hmem : n ∈ c.layout := List.contains_iff_mem.mp hlocal
      refine ⟨rfl, .of_forall fun d => ?_⟩
      rw [Expr.eval, Code.run]
      exact .read hmem (fits.reads d n span hn (.inl hmem))
  · next hlocal =>
      have hnot : n ∉ c.layout := fun hm => hlocal (List.contains_iff_mem.mpr hm)
      have hconst : ∃ v, code = .constant v span ∧ c.outer? n = some v := by
        rw [Compile.Context.outer?]
        split at hcode
        · cases hcode
          exact ⟨_, rfl, rfl⟩
        · split at hcode
          · next hg =>
              cases hcode
              exact ⟨_, rfl, by rw [hg]⟩
          · cases hcode
          · cases hcode
      obtain ⟨v, rfl, hv⟩ := hconst
      refine ⟨rfl, .of_forall fun d => ?_⟩
      have hread := fits.reads d n span hn (.inr (by rw [hv]; rfl))
      rw [Compile.Context.outerValue, hv] at hread
      rw [Expr.eval, Code.run]
      exact .outer hnot hread

variable [Fault.Congruence R]

theorem Expr.lowerAll_simulates {es : List Expr}
    (h : ∀ e ∈ es, e.Lowers c scope R s fuel inv) :
    Lower.Ensures inv (Expr.lower.lowerAll c es) fun codes =>
      ∀ᶠ d in atTop,
        Simulates R c.layout s (Expr.eval.evalAll (scope d) es) (Code.runAll fuel codes) ∧
          Simulates R c.layout s (Expr.eval.evalNumbers (scope d) es)
            (Code.runNumbers fuel codes) := by
  induction es with
  | nil =>
      rw [Expr.lower.lowerAll]
      refine .pure (.of_forall fun d => ?_)
      rw [Expr.eval.evalAll, Code.runAll, Expr.eval.evalNumbers, Code.runNumbers]
      exact ⟨.pure _, .pure _⟩
  | cons e rest ih =>
      rw [Expr.lower.lowerAll]
      refine (h e List.mem_cons_self).bind ?_
      rintro code ⟨hspan, hcode⟩
      refine (ih fun e' he => h e' (List.mem_cons_of_mem e he)).bind fun codes hcodes => ?_
      refine .pure ?_
      filter_upwards [hcode, hcodes] with d he hes
      rw [Expr.eval.evalAll, Code.runAll, Expr.eval.evalNumbers, Code.runNumbers, hspan]
      exact ⟨he.bind fun v => hes.1.map _,
        he.bind fun v => (Simulates.at_ _ _).bind fun x => hes.2.map _⟩

theorem Expr.lower_simulates (fits : c.Fits scope R s fuel inv N stored) (e : Expr)
    (he : N.Within e.subterms) : e.Lowers c scope R s fuel inv := by
  induction e with
  | num x span =>
      rw [Expr.Lowers, Expr.lower]
      refine .pure ⟨rfl, .of_forall fun d => ?_⟩
      rw [Expr.eval, Code.run]
      exact .pure _
  | bool b span =>
      rw [Expr.Lowers, Expr.lower]
      refine .pure ⟨rfl, .of_forall fun d => ?_⟩
      rw [Expr.eval, Code.run]
      exact .pure _
  | var n span => exact lower_var fits n span (he _ (List.mem_singleton_self _))
  | path p span =>
      rw [Expr.Lowers, Expr.lower]
      refine (Lower.Ensures.ofOutcome _).bind fun v hv => .pure ⟨rfl, .of_forall fun d => ?_⟩
      rw [Expr.eval, Code.run, hv]
      exact .pure _
  | binary op l r span ihl ihr =>
      rw [Expr.subterms, Names.within_append, Names.within_append] at he
      rw [Expr.Lowers, Expr.lower]
      refine (ihl he.1.1).bind ?_
      rintro left ⟨hspanl, hleft⟩
      refine (ihr he.1.2).bind ?_
      rintro right ⟨hspanr, hright⟩
      -- The logical operators look at their right operand only if the left one does not decide.
      cases op
      case and =>
        refine .pure ⟨rfl, ?_⟩
        filter_upwards [hleft, hright] with d hl hr
        rw [Expr.eval, Code.run, hspanl, hspanr]
        refine hl.bind fun a => (Simulates.at_ _ _).bind fun b => ?_
        cases b with
        | false => exact .pure _
        | true => exact hr.bind fun a => (Simulates.at_ _ _).map _
      case or =>
        refine .pure ⟨rfl, ?_⟩
        filter_upwards [hleft, hright] with d hl hr
        rw [Expr.eval, Code.run, hspanl, hspanr]
        refine hl.bind fun a => (Simulates.at_ _ _).bind fun b => ?_
        cases b with
        | false => exact hr.bind fun a => (Simulates.at_ _ _).map _
        | true => exact .pure _
      all_goals
        refine .pure ⟨rfl, ?_⟩
        filter_upwards [hleft, hright] with d hl hr
        simp only [Expr.eval, Code.run]
        exact hl.bind fun a => hr.bind fun b => .at_ _ _
  | unary op x span ih =>
      rw [Expr.subterms, Names.within_append] at he
      rw [Expr.Lowers, Expr.lower]
      refine (ih he.1).bind ?_
      rintro code ⟨-, hcode⟩
      refine .pure ⟨rfl, ?_⟩
      filter_upwards [hcode] with d hx
      rw [Expr.eval, Code.run]
      exact hx.bind fun v => .at_ _ _
  | call callee calleeSpan args span ih =>
      rw [Expr.subterms, Names.within_append] at he
      have hcallee : N.calls callee := he.2 _ (List.mem_singleton_self _)
      have hargs := Names.within_exprs.mp he.1
      rw [Expr.Lowers, Expr.lower]
      refine (fits.links callee calleeSpan hcallee).bind fun t ht => ?_
      refine (lowerAll_simulates fun e hm => ih e hm (hargs e hm)).bind fun codes hcodes => ?_
      cases t with
      | native n =>
          refine .pure ⟨rfl, ?_⟩
          filter_upwards [ht, hcodes] with d ht hcodes
          rw [Expr.eval, Code.run]
          exact hcodes.1.bind fun values => .native (ht values) span
      | artifact a =>
          refine .pure ⟨rfl, ?_⟩
          filter_upwards [ht, hcodes] with d ht hcodes
          rw [Expr.eval, Code.run]
          exact hcodes.1.bind fun values => .linked (ht values) span
  | index x i span ihx ihi =>
      rw [Expr.subterms, Names.within_append, Names.within_append] at he
      rw [Expr.Lowers, Expr.lower]
      refine (ihx he.1.1).bind ?_
      rintro base ⟨-, hbase⟩
      refine (ihi he.1.2).bind ?_
      rintro at_ ⟨hspan, hat⟩
      refine .pure ⟨rfl, ?_⟩
      filter_upwards [hbase, hat] with d hx hi
      rw [Expr.eval, Code.run, hspan]
      exact hx.bind fun v => hi.bind fun w => (Simulates.at_ _ _).bind fun n => .at_ _ _
  | slice x a b span ihx iha ihb =>
      rw [Expr.subterms, Names.within_append, Names.within_append, Names.within_append] at he
      rw [Expr.Lowers, Expr.lower]
      refine (ihx he.1.1.1).bind ?_
      rintro base ⟨-, hbase⟩
      refine (iha he.1.1.2).bind ?_
      rintro first ⟨hspana, hfirst⟩
      refine (ihb he.1.2).bind ?_
      rintro last ⟨hspanb, hlast⟩
      refine .pure ⟨rfl, ?_⟩
      filter_upwards [hbase, hfirst, hlast] with d hx ha hb
      rw [Expr.eval, Code.run, hspana, hspanb]
      exact hx.bind fun v => ha.bind fun w => (Simulates.at_ _ _).bind fun m =>
        hb.bind fun u => (Simulates.at_ _ _).bind fun n => .at_ _ _
  | array es span ih =>
      rw [Expr.subterms, Names.within_append] at he
      have hes := Names.within_exprs.mp he.1
      rw [Expr.Lowers, Expr.lower]
      refine (lowerAll_simulates fun e hm => ih e hm (hes e hm)).bind
        fun codes hcodes => .pure ⟨rfl, ?_⟩
      filter_upwards [hcodes] with d hcodes
      rw [Expr.eval, Code.run]
      exact hcodes.2.map _
  | tuple es span ih =>
      rw [Expr.subterms, Names.within_append] at he
      have hes := Names.within_exprs.mp he.1
      rw [Expr.Lowers, Expr.lower]
      refine (lowerAll_simulates fun e hm => ih e hm (hes e hm)).bind
        fun codes hcodes => .pure ⟨rfl, ?_⟩
      filter_upwards [hcodes] with d hcodes
      rw [Expr.eval, Code.run]
      exact hcodes.1.map _

/-! ## Places -/

/-- A place is admitted if the name that is stored under has a slot; an array is among those that
are stored into. -/
def Place.Admitted (c : Compile.Context) (stored : List String) : Place → Prop
  | .var n _ => n ∈ c.layout
  | .discard _ => True
  | .index base _ _ => base.text ∈ c.layout ∧ base.text ∈ stored

theorem Place.lower_simulates (fits : c.Fits scope R s fuel inv N stored) (p : Place)
    (hp : p.Admitted c stored) (hc : N.Within p.subterms) :
    Lower.Ensures inv (p.lower c) fun store =>
      ∀ᶠ d in atTop, ∀ v, Simulates R c.layout s (p.assign (scope d) v) (Store.run fuel store v) := by
  cases p with
  | var n span =>
      rw [Place.lower]
      refine .pure (.of_forall fun d v => ?_)
      rw [Place.assign, Store.run]
      exact .set hp v
  | discard span =>
      rw [Place.lower]
      refine .pure (.of_forall fun d v => ?_)
      rw [Place.assign, Store.run]
      exact .pure _
  | index base i span =>
      rw [Place.lower]
      refine (Expr.lower_simulates fits i hc).bind ?_
      rintro code ⟨hspan, hcode⟩
      refine .pure ?_
      filter_upwards [hcode] with d hi v
      rw [Place.assign, Store.run, hspan]
      refine hi.bind fun w => (Simulates.at_ _ _).bind fun n => ?_
      exact .store hp.1 (fits.stores d base.text base.span span hp.2) span fun x => x.store n v

theorem Place.lowerPlaces_simulates (fits : c.Fits scope R s fuel inv N stored) {ps : List Place}
    (hp : ∀ p ∈ ps, p.Admitted c stored)
    (hc : N.Within (ps.flatMap Place.subterms)) :
    Lower.Ensures inv (Compile.lowerPlaces c ps) fun stores =>
      stores.length = ps.length ∧ ∀ᶠ d in atTop, ∀ vs,
        Simulates R c.layout s (Place.assignAll (scope d) ps vs) (Store.runAll fuel stores vs) := by
  induction ps with
  | nil =>
      rw [Compile.lowerPlaces]
      refine .pure ⟨rfl, .of_forall fun d vs => ?_⟩
      rw [Place.assignAll, Store.runAll]
      · exact .pure _
      · exact fun _ _ _ _ h => nomatch h
      · exact fun _ _ _ _ h => nomatch h
  | cons p rest ih =>
      rw [List.flatMap_cons, Names.within_append] at hc
      rw [Compile.lowerPlaces]
      refine (p.lower_simulates fits (hp p List.mem_cons_self) hc.1).bind fun store hstore => ?_
      refine (ih (fun q hq => hp q (List.mem_cons_of_mem p hq)) hc.2).bind fun stores hstores => ?_
      refine .pure ⟨congrArg Nat.succ hstores.1, ?_⟩
      filter_upwards [hstore, hstores.2] with d h hs vs
      cases vs with
      | nil => exact .pure _
      | cons v vs => exact (h v).bind fun _ => hs vs

/-! ## Statements and blocks -/

/-- What statements and blocks must satisfy: every name that they bind or store under has a slot, and
every name that they read or call is one of `N`. -/
structure Compile.Context.Admits (c : Compile.Context) (N : Names) (stored binders : List String)
    (places : List Place) (es : List Expr) : Prop where
  binds : ∀ n ∈ binders, n ∈ c.layout
  stores : ∀ p ∈ places, p.Admitted c stored
  uses : N.Within es

abbrev Stmt.Admitted (c : Compile.Context) (N : Names) (stored : List String) (x : Stmt) : Prop :=
  c.Admits N stored x.binders x.places x.subterms

abbrev Block.Admitted (c : Compile.Context) (N : Names) (stored : List String) (b : Block) : Prop :=
  c.Admits N stored b.binders b.places b.subterms

theorem Stmt.Admitted.of_all {ss : List Stmt}
    (h : c.Admits N stored (Block.bindersAll ss) (Block.placesAll ss) (Block.subtermsAll ss)) :
    ∀ x ∈ ss, x.Admitted c N stored := by
  induction ss with
  | nil => exact fun _ hx => absurd hx List.not_mem_nil
  | cons x rest ih =>
      have hc := Names.within_append.mp h.uses
      intro y hy
      rcases List.mem_cons.mp hy with rfl | hy
      · exact ⟨fun n hn => h.binds n (List.mem_append_left _ hn),
          fun p hp => h.stores p (List.mem_append_left _ hp), hc.1⟩
      · exact ih ⟨fun n hn => h.binds n (List.mem_append_right _ hn),
          fun p hp => h.stores p (List.mem_append_right _ hp), hc.2⟩ y hy

/-- A condition, and what depends on it. -/
theorem Expr.test_bind_simulates {d : Nat} {e : Expr} {code : Code} (hspan : code.span = e.span)
    (h : Simulates R c.layout s (e.eval (scope d)) (Code.run fuel code)) {f : Bool → Eval σ α}
    {g : Bool → Exec α} (k : ∀ b, Simulates R c.layout s (f b) (g b)) :
    Simulates R c.layout s (e.test (scope d) >>= f)
      (do g (← Exec.at_ code.span (← Code.run fuel code).asBool)) := by
  rw [Expr.test, bind_assoc, hspan]
  exact h.bind fun v => (Simulates.at_ _ _).bind k

/-- What is shown of a statement and its code. -/
abbrev Stmt.Lowers (c : Compile.Context) (scope : Nat → Scope σ) (R : Fault → Fault → Prop) (s : σ)
    (fuel : Nat) (inv : Compile.State → Prop) (x : Stmt) : Prop :=
  Lower.Ensures inv (x.lower c) fun step =>
    ∀ᶠ d in atTop, Simulates R c.layout s (x.exec (scope d) fuel) (Step.run fuel step)

/-- What is shown of a block and its code: within a function, and as a body. -/
abbrev Block.Lowers (c : Compile.Context) (scope : Nat → Scope σ) (R : Fault → Fault → Prop) (s : σ)
    (fuel : Nat) (inv : Compile.State → Prop) (b : Block) : Prop :=
  Lower.Ensures inv (b.lower c) fun steps =>
    ∀ᶠ d in atTop, Simulates R c.layout s (b.exec (scope d) fuel) (Steps.run fuel steps) ∧
      Simulates R c.layout s (b.value (scope d) fuel) (Steps.value fuel steps)

omit [Fault.Congruence R] in
theorem Block.lowerAll_simulates {ss : List Stmt} (h : ∀ x ∈ ss, x.Lowers c scope R s fuel inv) :
    Lower.Ensures inv (Block.lowerAll c ss) fun steps =>
      ∀ᶠ d in atTop,
        Simulates R c.layout s (Block.execAll (scope d) fuel ss) (Step.runAll fuel steps) := by
  induction ss with
  | nil =>
      rw [Block.lowerAll]
      refine .pure (.of_forall fun d => ?_)
      rw [Block.execAll, Step.runAll]
      exact .pure _
  | cons x rest ih =>
      rw [Block.lowerAll]
      refine (h x List.mem_cons_self).bind fun step hstep => ?_
      refine (ih fun y hy => h y (List.mem_cons_of_mem x hy)).bind fun steps hsteps => .pure ?_
      filter_upwards [hstep, hsteps] with d hx hs
      rw [Block.execAll, Step.runAll]
      refine hx.bind fun flow => ?_
      cases flow with
      | next => exact hs
      | give v => exact .pure _

theorem Block.lower_simulates (fits : c.Fits scope R s fuel inv N stored) (b : Block)
    (hb : b.Admitted c N stored) : b.Lowers c scope R s fuel inv := by
  revert hb
  refine Block.induction (fun x => x.Admitted c N stored → x.Lowers c scope R s fuel inv)
    (fun b => b.Admitted c N stored → b.Lowers c scope R s fuel inv)
    ?bind ?assign ?assignTuple ?branch ?branchElse ?forRange ?whileLoop ?eval ?give ?mk b
  case bind =>
    intro target e span h
    have he := Expr.lower_simulates fits e h.uses
    cases target with
    | name n =>
        rw [Stmt.Lowers, Stmt.lower]
        refine he.bind ?_
        rintro code ⟨-, hcode⟩
        refine .pure ?_
        filter_upwards [hcode] with d hx
        rw [Stmt.exec, Step.run]
        have hn : n.text ∈ c.layout := h.binds n.text (by simp [Stmt.binders, Pattern.idents])
        exact hx.bind fun v => (Simulates.set hn v).bind fun _ => .pure _
    | names ns =>
        rw [Stmt.Lowers, Stmt.lower]
        refine he.bind ?_
        rintro code ⟨-, hcode⟩
        refine .pure ?_
        filter_upwards [hcode] with d hx
        rw [Stmt.exec, Step.run, List.length_map]
        have hn : ∀ n ∈ ns.map Ident.text, n ∈ c.layout := fun n hn =>
          h.binds n (by simpa [Stmt.binders, Pattern.idents] using hn)
        refine hx.bind fun v => (Simulates.at_ _ _).bind fun parts => ?_
        have hset := Simulates.setAll (R := R) (s := s) hn parts
        rw [List.map_map] at hset
        exact hset.bind fun _ => .pure _
  case assign =>
    intro p e span h
    have hc := Names.within_append.mp h.uses
    rw [Stmt.Lowers, Stmt.lower]
    refine (Expr.lower_simulates fits e hc.2).bind ?_
    rintro code ⟨-, hcode⟩
    refine (p.lower_simulates fits (h.stores p (List.mem_singleton_self p)) hc.1).bind
      fun store hstore => .pure ?_
    filter_upwards [hcode, hstore] with d hx hp
    rw [Stmt.exec, Step.run]
    exact hx.bind fun v => (hp v).bind fun _ => .pure _
  case assignTuple =>
    intro ps e span h
    have hc := Names.within_append.mp h.uses
    rw [Stmt.Lowers, Stmt.lower]
    refine (Expr.lower_simulates fits e hc.2).bind ?_
    rintro code ⟨-, hcode⟩
    refine (Place.lowerPlaces_simulates fits h.stores hc.1).bind fun stores hstores => .pure ?_
    filter_upwards [hcode, hstores.2] with d hx hps
    rw [Stmt.exec, Step.run, hstores.1]
    exact hx.bind fun v => (Simulates.at_ _ _).bind fun parts =>
      (hps parts).bind fun _ => .pure _
  case branch =>
    intro e yes span ihy h
    have hc := Names.within_append.mp h.uses
    rw [Stmt.Lowers, Stmt.lower]
    refine (Expr.lower_simulates fits e hc.1).bind ?_
    rintro condition ⟨hspan, hcond⟩
    refine (ihy ⟨h.binds, h.stores, hc.2⟩).bind fun steps hsteps => .pure ?_
    filter_upwards [hcond, hsteps] with d hx hy
    rw [Stmt.exec, Step.run]
    refine Expr.test_bind_simulates hspan hx fun b => ?_
    cases b with
    | true => exact hy.1
    | false => exact .pure _
  case branchElse =>
    intro e yes no span ihy ihn h
    have hc := Names.within_append.mp h.uses
    have hcy := Names.within_append.mp hc.1
    have hyes : yes.Admitted c N stored :=
      ⟨fun n hn => h.binds n (List.mem_append_left _ hn),
        fun p hp => h.stores p (List.mem_append_left _ hp), hcy.2⟩
    have hno : no.Admitted c N stored :=
      ⟨fun n hn => h.binds n (List.mem_append_right _ hn),
        fun p hp => h.stores p (List.mem_append_right _ hp), hc.2⟩
    rw [Stmt.Lowers, Stmt.lower]
    refine (Expr.lower_simulates fits e hcy.1).bind ?_
    rintro condition ⟨hspan, hcond⟩
    refine (ihy hyes).bind fun steps hsteps => (ihn hno).bind fun steps' hsteps' => .pure ?_
    filter_upwards [hcond, hsteps, hsteps'] with d hx hy hn
    rw [Stmt.exec, Step.run]
    refine Expr.test_bind_simulates hspan hx fun b => ?_
    cases b with
    | true => exact hy.1
    | false => exact hn.1
  case forRange =>
    intro v a b body span ih h
    have hc := Names.within_append.mp h.uses
    have hab := Names.within_append.mp hc.1
    have hbody : body.Admitted c N stored :=
      ⟨fun n hn => h.binds n (List.mem_cons_of_mem _ hn), h.stores, hc.2⟩
    have hv : v.text ∈ c.layout := h.binds v.text List.mem_cons_self
    rw [Stmt.Lowers, Stmt.lower]
    refine (Expr.lower_simulates fits a hab.1).bind ?_
    rintro first ⟨hspana, hfirst⟩
    refine (Expr.lower_simulates fits b hab.2).bind ?_
    rintro last ⟨hspanb, hlast⟩
    refine (ih hbody).bind fun steps hsteps => .pure ?_
    filter_upwards [hfirst, hlast, hsteps] with d ha hb hs
    rw [Stmt.exec, Step.run, hspana, hspanb]
    exact ha.bind fun _ => (Simulates.at_ _ _).bind fun m => hb.bind fun _ =>
      (Simulates.at_ _ _).bind fun n => .forLoop hv hs.1 _ _
  case whileLoop =>
    intro e body span ih h
    have hc := Names.within_append.mp h.uses
    rw [Stmt.Lowers, Stmt.lower]
    refine (Expr.lower_simulates fits e hc.1).bind ?_
    rintro condition ⟨hspan, hcond⟩
    refine (ih ⟨h.binds, h.stores, hc.2⟩).bind fun steps hsteps => .pure ?_
    filter_upwards [hcond, hsteps] with d hx hs
    rw [Stmt.exec, Step.run, hspan]
    exact .whileLoop (hx.bind fun _ => .at_ _ _) hs.1 fuel
  case eval =>
    intro e span h
    rw [Stmt.Lowers, Stmt.lower]
    refine (Expr.lower_simulates fits e h.uses).bind ?_
    rintro code ⟨-, hcode⟩
    refine .pure ?_
    filter_upwards [hcode] with d hx
    rw [Stmt.exec, Step.run]
    exact hx.bind fun _ => .pure _
  case give =>
    intro v span h
    rw [Stmt.Lowers, Stmt.lower]
    cases v with
    | none =>
        refine (Lower.Ensures.lowerOption_none c).bind fun code hcode => .pure ?_
        refine .of_forall fun d => ?_
        rw [hcode, Stmt.exec, Step.run]
        exact .pure _
    | some e =>
        rw [Compile.lowerOption, bind_assoc]
        refine (Expr.lower_simulates fits e h.uses).bind ?_
        rintro code ⟨-, hcode⟩
        refine .pure ?_
        filter_upwards [hcode] with d hx
        rw [Stmt.exec, Step.run]
        exact hx.map _
  case mk =>
    intro ss tail span ih h
    rw [Block.Lowers, Block.lower]
    cases tail with
    | none =>
        have hss := Stmt.Admitted.of_all h
        have hlower := Block.lowerAll_simulates fun x hx => ih x hx (hss x hx)
        refine hlower.bind fun steps hsteps => ?_
        refine (Lower.Ensures.lowerOption_none c).bind fun code hcode => .pure ?_
        filter_upwards [hsteps] with d hs
        rw [hcode, Block.exec, Steps.run, Block.value, Steps.value, Block.stmts, Block.tail]
        refine ⟨?_, hs.bind fun flow => ?_⟩
        · rw [← bind_pure (Step.runAll fuel steps)]
          refine hs.bind fun flow => ?_
          cases flow <;> exact .pure _
        · cases flow <;> exact .pure _
    | some e =>
        have hc := Names.within_append.mp h.uses
        have hss : ∀ x ∈ ss, x.Admitted c N stored := Stmt.Admitted.of_all ⟨h.binds, h.stores, hc.1⟩
        have hlower := Block.lowerAll_simulates fun x hx => ih x hx (hss x hx)
        refine hlower.bind fun steps hsteps => ?_
        rw [Compile.lowerOption, bind_assoc]
        refine (Expr.lower_simulates fits e hc.2).bind ?_
        rintro code ⟨-, hcode⟩
        refine .pure ?_
        filter_upwards [hsteps, hcode] with d hs hx
        rw [Block.exec, Steps.run, Block.value, Steps.value, Block.stmts, Block.tail]
        refine ⟨hs.bind fun flow => ?_, hs.bind fun flow => ?_⟩
        · cases flow with
          | next => exact hx.bind fun _ => .pure _
          | give v => exact .pure _
        · cases flow with
          | next => exact hx
          | give v => exact .pure _

end

end Graft
