import Graft.Proofs.EarlyReads

/-!
# Coinciding runs

Under two scopes that make the same calls and read the same in the names that are early in a tree,
the tree does the same: it gives the same value or fails with the same report, and leaves the same
local variables and the same state. Along the run the names that are known to be assigned have
values, so no other name is read from outside.
-/

namespace Graft

variable {σ α β : Type}

/-! ## Local variables that have values -/

/-- All the names have values. -/
def Locals.Covers (names : List String) (l : Locals) : Prop := ∀ n ∈ names, (l.get? n).isSome

namespace Locals.Covers

variable {l : Locals} {names more : List String}

theorem mono (h : l.Covers names) (hsub : more ⊆ names) : l.Covers more := fun n hn => h n (hsub hn)

theorem set (h : l.Covers names) (m : String) (v : Value) : (l.set m v).Covers (names ++ [m]) := by
  intro n hn
  by_cases hm : n = m
  · rw [hm, get?_set_self]
    rfl
  · rw [get?_set_of_ne hm]
    exact h n ((List.mem_append.mp hn).resolve_right fun hn => hm (List.mem_singleton.mp hn))

theorem setAll (h : l.Covers names) {vs : List Value} (hlen : vs.length = more.length) :
    (l.setAll more vs).Covers (names ++ more) := by
  intro n hn
  rw [get?_setAll l n hlen]
  split
  · next hmem =>
      have hlt : Compile.slotOf n more < vs.length := hlen ▸ Compile.slotOf_lt hmem
      rw [List.getElem?_eq_getElem hlt]
      rfl
  · next hmem => exact h n ((List.mem_append.mp hn).resolve_right hmem)

end Locals.Covers

/-! ## Steps that do the same -/

/-- Started with local variables as in `pre`, both steps do the same, and a value that they give
comes with local variables as in `post`. -/
def Eval.Coincide (pre : Locals → Prop) (post : α → Locals → Prop) (x y : Eval σ α) : Prop :=
  ∀ l, pre l → ∀ s, x l s = y l s ∧ ∀ a l' t, x l s = (.ok (a, l'), t) → post a l'

/-- The local variables are as in `post` if the next statement follows. -/
def Flow.After (post : Locals → Prop) : Flow → Locals → Prop
  | .next, l => post l
  | .give _, _ => True

namespace Eval.Coincide

variable {pre inv : Locals → Prop} {post : α → Locals → Prop} {mid : β → Locals → Prop}

theorem pure {a : α} (h : ∀ l, pre l → post a l) :
    Coincide pre post (pure a : Eval σ α) (pure a) := by
  intro l hl s
  refine ⟨rfl, fun b l' t hb => ?_⟩
  cases hb
  exact h l hl

theorem bind {x y : Eval σ β} {f g : β → Eval σ α} (h : Coincide pre mid x y)
    (step : ∀ b, Coincide (mid b) post (f b) (g b)) : Coincide pre post (x >>= f) (y >>= g) := by
  intro l hl s
  obtain ⟨heq, hmid⟩ := h l hl s
  rw [bind_apply, bind_apply, ← heq]
  rcases hx : x l s with ⟨e | ⟨b, l'⟩, t⟩
  · exact ⟨rfl, fun _ _ _ he => nomatch he⟩
  · exact step b l' (hmid b l' t hx) t

theorem mono {post' : α → Locals → Prop} {x y : Eval σ α} (h : Coincide pre post x y)
    (himp : ∀ a l, post a l → post' a l) : Coincide pre post' x y := fun l hl s =>
  ⟨(h l hl s).1, fun a l' t hx => himp a l' ((h l hl s).2 a l' t hx)⟩

/-- What holds if the next statement follows may be weakened. -/
theorem next {inv' : Locals → Prop} {x y : Eval σ Flow} (h : Coincide pre (Flow.After inv) x y)
    (himp : ∀ l, inv l → inv' l) : Coincide pre (Flow.After inv') x y := by
  refine h.mono fun flow l hl => ?_
  cases flow with
  | next => exact himp l hl
  | give v => trivial

theorem get : Coincide pre (fun a l => a = l ∧ pre l) (get : Eval σ Locals) get := by
  intro l hl s
  refine ⟨rfl, fun b l' t hb => ?_⟩
  cases hb
  exact ⟨rfl, hl⟩

theorem modify {inv' : Locals → Prop} {f : Locals → Locals} (h : ∀ l, inv l → inv' (f l)) :
    Coincide inv (fun _ => inv') (modify f : Eval σ PUnit) (modify f) := by
  intro l hl s
  refine ⟨rfl, fun b l' t hb => ?_⟩
  cases hb
  exact h l hl

theorem at_ (span : Span) (o : Outcome α) :
    Coincide pre (fun a l => o = .ok a ∧ pre l) (Eval.at_ span o : Eval σ α)
      (Eval.at_ span o) := by
  cases o with
  | ok a => exact pure fun l hl => ⟨rfl, hl⟩
  | error d => exact fun l hl s => ⟨rfl, fun _ _ _ he => nomatch he⟩

/-- An operation on values leaves the local variables as they are. -/
theorem check {span : Span} {o : Outcome α} :
    Coincide inv (fun _ => inv) (Eval.at_ span o : Eval σ α) (Eval.at_ span o) :=
  (at_ span o).mono fun _ _ hl => hl.2

theorem lift (x : Run σ α) : Coincide inv (fun _ => inv) (liftM x : Eval σ α) (liftM x) := by
  intro l hl s
  refine ⟨rfl, fun a l' t ha => ?_⟩
  rw [lift_apply] at ha
  rcases hx : x s with ⟨e | b, u⟩
  · rw [hx] at ha
    cases ha
  · rw [hx] at ha
    cases ha
    exact hl

theorem andThen {x y : Eval σ Flow} (h : Coincide inv (Flow.After inv) x y) (flow : Flow) :
    Coincide (flow.After inv) (Flow.After inv) (flow.andThen x) (flow.andThen y) := by
  cases flow with
  | next => exact h
  | give v => exact pure fun _ _ => trivial

/-- Loops whose rounds coincide and keep an invariant. -/
theorem forLoop {name : String} {body body' : Eval σ Flow}
    (hset : ∀ v l, inv l → pre (l.set name v))
    (h : Coincide pre (Flow.After inv) body body') (count : Nat) (i : Int) :
    Coincide inv (Flow.After inv) (Eval.forLoop name body count i)
      (Eval.forLoop name body' count i) := by
  induction count generalizing i with
  | zero => exact pure fun _ hl => hl
  | succ count ih =>
      rw [forLoop_succ, forLoop_succ]
      exact (modify (hset _)).bind fun _ => h.bind fun flow => (ih (i + 1)).andThen flow

theorem whileLoop {test test' : Eval σ Bool} {body body' : Eval σ Flow}
    (ht : Coincide inv (fun _ => inv) test test') (h : Coincide inv (Flow.After inv) body body')
    (fuel : Nat) :
    Coincide inv (Flow.After inv) (Eval.whileLoop test body fuel)
      (Eval.whileLoop test' body' fuel) := by
  induction fuel with
  | zero => exact fun l hl s => ⟨rfl, fun _ _ _ he => nomatch he⟩
  | succ fuel ih =>
      rw [whileLoop_succ, whileLoop_succ]
      refine ht.bind fun go => ?_
      cases go with
      | false => exact pure fun _ hl => hl
      | true => exact h.bind fun flow => ih.andThen flow

end Eval.Coincide

/-! ## Expressions -/

/-- Two scopes that make the same calls, and read the same in the names of `N`. -/
structure Scope.AgreeOn (N : String → Prop) (scope scope' : Scope σ) : Prop where
  reads : ∀ n, N n → scope.outer n = scope'.outer n
  calls : scope.call = scope'.call

/-- All names that are known or in `N`, and all paths. -/
def Names.knownOr (known : List String) (N : String → Prop) : Names :=
  ⟨fun n => n ∈ known ∨ N n, fun _ => True⟩

section

variable {N : String → Prop} {scope scope' : Scope σ} {known : List String}

theorem Expr.within_of_early {e : Expr} (h : ∀ n ∈ e.early known, N n) :
    (Names.knownOr known N).Within e.subterms := by
  intro x hx
  cases x with
  | var n s =>
      by_cases hn : n ∈ known
      · exact .inl hn
      · exact .inr (h n (mem_early.mpr ⟨mem_reads.mpr ⟨s, hx⟩, hn⟩))
  | _ => trivial

open Eval (Coincide)

theorem Expr.evalAll_coincides {es : List Expr}
    (h : ∀ e ∈ es, Coincide (Locals.Covers known) (fun _ => Locals.Covers known)
      (e.eval scope) (e.eval scope')) :
    Coincide (Locals.Covers known) (fun _ => Locals.Covers known) (eval.evalAll scope es)
        (eval.evalAll scope' es) ∧
      Coincide (Locals.Covers known) (fun _ => Locals.Covers known) (eval.evalNumbers scope es)
        (eval.evalNumbers scope' es) := by
  induction es with
  | nil => exact ⟨.pure fun _ hl => hl, .pure fun _ hl => hl⟩
  | cons e rest ih =>
      obtain ⟨hall, hnum⟩ := ih fun x hx => h x (List.mem_cons_of_mem e hx)
      have he := h e List.mem_cons_self
      rw [eval.evalAll, eval.evalNumbers, eval.evalAll, eval.evalNumbers]
      exact ⟨he.bind fun v => hall.bind fun vs => .pure fun _ hl => hl,
        he.bind fun v => Coincide.check.bind fun x => hnum.bind fun xs => .pure fun _ hl => hl⟩

theorem Expr.eval_coincides (h : scope.AgreeOn N scope') (e : Expr)
    (hN : (Names.knownOr known N).Within e.subterms) :
    Coincide (Locals.Covers known) (fun _ => Locals.Covers known) (e.eval scope)
      (e.eval scope') := by
  induction e with
  | num x s => exact .pure fun _ hl => hl
  | bool b s => exact .pure fun _ hl => hl
  | var n s =>
      rw [Expr.eval, Expr.eval]
      refine Coincide.get.bind fun a => ?_
      rcases ha : a.get? n with _ | v
      · -- A name without a value is none that is known.
        rcases hN _ (List.mem_singleton_self _) with hn | hn
        · rintro l ⟨rfl, hl⟩
          rw [Locals.Covers] at hl
          simpa [ha] using hl n hn
        · rw [h.reads n hn]
          exact (Coincide.lift _).mono fun _ _ hl => hl.2
      · exact .pure fun _ hl => hl.2
  | path p s => exact .check
  | binary op l r s ihl ihr =>
      rw [Expr.subterms, Names.within_append, Names.within_append] at hN
      have ihl := ihl hN.1.1
      have ihr := ihr hN.1.2
      cases op
      case and =>
        rw [Expr.eval, Expr.eval]
        refine ihl.bind fun v => Coincide.check.bind fun b => ?_
        cases b with
        | false => exact .pure fun _ hl => hl
        | true => exact ihr.bind fun w => Coincide.check.bind fun c => .pure fun _ hl => hl
      case or =>
        rw [Expr.eval, Expr.eval]
        refine ihl.bind fun v => Coincide.check.bind fun b => ?_
        cases b with
        | false => exact ihr.bind fun w => Coincide.check.bind fun c => .pure fun _ hl => hl
        | true => exact .pure fun _ hl => hl
      all_goals
        simp only [Expr.eval]
        exact ihl.bind fun v => ihr.bind fun w => .check
  | unary op x s ih =>
      rw [Expr.subterms, Names.within_append] at hN
      rw [Expr.eval, Expr.eval]
      exact (ih hN.1).bind fun v => .check
  | call callee calleeSpan args s ih =>
      rw [Expr.subterms, Names.within_append] at hN
      have hargs := Names.within_exprs.mp hN.1
      rw [Expr.eval, Expr.eval, h.calls]
      exact (evalAll_coincides fun e he => ih e he (hargs e he)).1.bind fun vs =>
        .lift _
  | index x i s ihx ihi =>
      rw [Expr.subterms, Names.within_append, Names.within_append] at hN
      rw [Expr.eval, Expr.eval]
      exact (ihx hN.1.1).bind fun v => (ihi hN.1.2).bind fun w => Coincide.check.bind fun n =>
        .check
  | slice x a b s ihx iha ihb =>
      rw [Expr.subterms, Names.within_append, Names.within_append, Names.within_append] at hN
      rw [Expr.eval, Expr.eval]
      exact (ihx hN.1.1.1).bind fun v => (iha hN.1.1.2).bind fun w => Coincide.check.bind fun m =>
        (ihb hN.1.2).bind fun u => Coincide.check.bind fun n => .check
  | array es s ih =>
      rw [Expr.subterms, Names.within_append] at hN
      have hes := Names.within_exprs.mp hN.1
      rw [Expr.eval, Expr.eval]
      exact (evalAll_coincides fun e he => ih e he (hes e he)).2.bind fun xs =>
        .pure fun _ hl => hl
  | tuple es s ih =>
      rw [Expr.subterms, Names.within_append] at hN
      have hes := Names.within_exprs.mp hN.1
      rw [Expr.eval, Expr.eval]
      exact (evalAll_coincides fun e he => ih e he (hes e he)).1.bind fun xs =>
        .pure fun _ hl => hl

/-! ## Places -/

theorem Place.assign_coincides (h : scope.AgreeOn N scope') {p : Place}
    (hp : ∀ n ∈ p.early known, N n) (v : Value) :
    Coincide (Locals.Covers known) (fun _ => Locals.Covers (known ++ p.names)) (p.assign scope v)
      (p.assign scope' v) := by
  cases p with
  | var n s => exact .modify fun l hl => hl.set n v
  | discard s => exact .pure fun l hl => by simpa [Place.names] using hl
  | index base i s =>
      obtain ⟨hi, hbase⟩ := List.forall_mem_append.mp hp
      have stored : ∀ w n, Coincide (Locals.Covers known)
          (fun _ => Locals.Covers (known ++ [base.text]))
          (do modify (Locals.set base.text (← Eval.at_ s (Value.store w n v))) : Eval σ Unit)
          (do modify (Locals.set base.text (← Eval.at_ s (Value.store w n v)))) := fun w n =>
        Coincide.check.bind fun x => .modify fun l hl => hl.set _ x
      rw [Place.assign, Place.assign]
      refine (i.eval_coincides h (Expr.within_of_early hi)).bind fun w => ?_
      refine Coincide.check.bind fun n => Coincide.get.bind fun a => ?_
      rcases ha : a.get? base.text with _ | w
      · -- The array is taken from outside, and is local from here on.
        by_cases hn : base.text ∈ known
        · rintro l ⟨rfl, hl⟩
          simpa [ha] using hl _ hn
        · rw [h.reads base.text (hbase _ (by simpa using hn))]
          refine (Coincide.lift _).bind fun w => ?_
          refine (Coincide.modify fun l hl => ?_).bind fun _ => stored w n
          exact (hl.2.set base.text w).mono (List.subset_append_left _ _)
      · exact fun l hl => stored w n l hl.2

theorem Place.assignAll_coincides (h : scope.AgreeOn N scope') {ps : List Place}
    (hps : ∀ n ∈ earlyAll known ps, N n) {vs : List Value} (hlen : vs.length = ps.length) :
    Coincide (Locals.Covers known) (fun _ => Locals.Covers (known ++ ps.flatMap Place.names))
      (assignAll scope ps vs) (assignAll scope' ps vs) := by
  induction ps generalizing known vs with
  | nil => exact .pure fun l hl => by simpa using hl
  | cons p ps ih =>
      obtain ⟨v, vs, rfl⟩ := List.exists_cons_of_length_eq_add_one hlen
      obtain ⟨hp, hps⟩ := List.forall_mem_append.mp hps
      rw [Place.assignAll, Place.assignAll, List.flatMap_cons, ← List.append_assoc]
      exact (assign_coincides h hp v).bind fun _ => ih hps (Nat.succ.inj hlen)

theorem Value.length_of_unpack {v : Value} {count : Nat} {parts : List Value}
    (h : v.unpack count = .ok parts) : parts.length = count := by
  have checked : ∀ ws : List Value,
      (if ws.length = count then .ok ws else .error (wrongParts count ws.length)) =
        (.ok parts : Outcome (List Value)) → parts.length = count := by
    intro ws hws
    split at hws
    · next hlen =>
        cases hws
        exact hlen
    · cases hws
  cases v with
  | tuple vs => exact checked _ h
  | array xs => exact checked _ h
  | _ => cases h

/-! ## Statements and blocks -/

/-- A way leads here, and the names that are known or settled on all such ways have values. -/
def Settled.Reached (known : List String) (settled : Option (List String)) (l : Locals) : Prop :=
  ∃ a, settled = some a ∧ l.Covers (known ++ a)

namespace Settled.Reached

variable {l : Locals} {yes no : Option (List String)}

theorem covers (h : Reached known yes l) : l.Covers known := by
  obtain ⟨a, -, hl⟩ := h
  exact hl.mono (List.subset_append_left _ _)

theorem start (h : l.Covers known) : Reached known (some []) l := ⟨[], rfl, by simpa using h⟩

theorem meet_left (h : Reached known yes l) : Reached known (meet yes no) l := by
  obtain ⟨a, rfl, hl⟩ := h
  cases no with
  | none => exact ⟨a, rfl, hl⟩
  | some b =>
      refine ⟨_, rfl, hl.mono (List.append_subset.mpr ⟨List.subset_append_left _ _, ?_⟩)⟩
      exact List.subset_append_of_subset_right _ fun n hn => (List.mem_filter.mp hn).1

theorem meet_right (h : Reached known no l) : Reached known (meet yes no) l := by
  obtain ⟨b, rfl, hl⟩ := h
  cases yes with
  | none => exact ⟨b, rfl, hl⟩
  | some a =>
      refine ⟨_, rfl, hl.mono (List.append_subset.mpr ⟨List.subset_append_left _ _, ?_⟩)⟩
      exact List.subset_append_of_subset_right _ fun n hn => by
        simpa using (List.mem_filter.mp hn).2

/-- Steps that coincide on every way that leads here. -/
theorem coincide {settled : Option (List String)} {post : α → Locals → Prop} {x y : Eval σ α}
    (h : ∀ a, settled = some a → Coincide (Locals.Covers (known ++ a)) post x y) :
    Coincide (Reached known settled) post x y := by
  rintro l ⟨a, ha, hl⟩
  exact h a ha l hl

end Settled.Reached

open Settled (Reached)

/-- The steps of the statements coincide, if those of each of them do. -/
theorem Block.execAll_coincides {fuel : Nat} {ss : List Stmt}
    (ih : ∀ x ∈ ss, ∀ known, (∀ n ∈ x.early known, N n) →
      Coincide (Locals.Covers known) (Flow.After (Reached known x.settled))
        (x.exec scope fuel) (x.exec scope' fuel))
    (hss : ∀ n ∈ Block.earlyAll known ss, N n) :
    Coincide (Locals.Covers known) (Flow.After (Reached known (Block.settledAll ss)))
      (Block.execAll scope fuel ss) (Block.execAll scope' fuel ss) := by
  induction ss generalizing known with
  | nil => exact .pure fun l hl => Reached.start hl
  | cons x ss ihs =>
      obtain ⟨hx, hrest⟩ := List.forall_mem_append.mp hss
      rw [Block.execAll, Block.execAll]
      refine (ih x List.mem_cons_self known hx).bind fun flow => ?_
      cases flow with
      | give v => exact .pure fun _ _ => trivial
      | next =>
          refine Reached.coincide fun a ha => ?_
          rw [ha] at hrest
          refine (ihs (fun y hy => ih y (List.mem_cons_of_mem x hy)) hrest).next fun l hl => ?_
          obtain ⟨b, hb, hl⟩ := hl
          exact ⟨a ++ b, by rw [Block.settledAll, ha, hb]; rfl, by rwa [← List.append_assoc]⟩

theorem Block.exec_coincides (h : scope.AgreeOn N scope') (fuel : Nat) (b : Block)
    (known : List String) (hb : ∀ n ∈ b.early known, N n) :
    Coincide (Locals.Covers known) (Flow.After (Reached known b.settled)) (b.exec scope fuel)
        (b.exec scope' fuel) ∧
      Coincide (Locals.Covers known) (fun _ _ => True) (b.value scope fuel)
        (b.value scope' fuel) := by
  have expr : ∀ {known : List String} (e : Expr), (∀ n ∈ e.early known, N n) →
      Coincide (Locals.Covers known) (fun _ => Locals.Covers known) (e.eval scope)
        (e.eval scope') := fun e he => e.eval_coincides h (Expr.within_of_early he)
  have test : ∀ {known : List String} (e : Expr), (∀ n ∈ e.early known, N n) →
      Coincide (Locals.Covers known) (fun _ => Locals.Covers known) (e.test scope)
        (e.test scope') := fun e he => (expr e he).bind fun v => .check
  revert known
  refine Block.induction
    (fun x => ∀ known, (∀ n ∈ x.early known, N n) →
      Coincide (Locals.Covers known) (Flow.After (Reached known x.settled)) (x.exec scope fuel)
        (x.exec scope' fuel))
    (fun b => ∀ known, (∀ n ∈ b.early known, N n) →
      Coincide (Locals.Covers known) (Flow.After (Reached known b.settled)) (b.exec scope fuel)
          (b.exec scope' fuel) ∧
        Coincide (Locals.Covers known) (fun _ _ => True) (b.value scope fuel)
          (b.value scope' fuel))
    ?bind ?assign ?assignTuple ?branch ?branchElse ?forRange ?whileLoop ?eval ?give ?mk b
  case bind =>
    intro target e s known he
    cases target with
    | name n =>
        rw [Stmt.exec, Stmt.exec]
        exact (expr e he).bind fun v => (Coincide.modify fun l hl => hl.set n.text v).bind fun _ =>
          .pure fun l hl => ⟨[n.text], rfl, hl⟩
    | names ns =>
        rw [Stmt.exec, Stmt.exec]
        refine (expr e he).bind fun v => (Coincide.at_ s _).bind fun parts => ?_
        refine (Coincide.modify fun l hl => ?_).bind fun _ =>
          .pure fun l hl => ⟨ns.map Ident.text, rfl, hl⟩
        exact hl.2.setAll (by simpa using Value.length_of_unpack hl.1)
  case assign =>
    intro p e s known hx
    obtain ⟨he, hp⟩ := List.forall_mem_append.mp hx
    rw [Stmt.exec, Stmt.exec]
    exact (expr e he).bind fun v => (p.assign_coincides h hp v).bind fun _ =>
      .pure fun l hl => ⟨p.names, rfl, hl⟩
  case assignTuple =>
    intro ps e s known hx
    obtain ⟨he, hps⟩ := List.forall_mem_append.mp hx
    rw [Stmt.exec, Stmt.exec]
    refine (expr e he).bind fun v => (Coincide.at_ s _).bind fun parts => ?_
    rintro l ⟨hparts, hl⟩
    exact ((Place.assignAll_coincides h hps (Value.length_of_unpack hparts)).bind fun _ =>
      .pure fun l hl => ⟨_, rfl, hl⟩) l hl
  case branch =>
    intro c yes s ih known hx
    obtain ⟨hc, hyes⟩ := List.forall_mem_append.mp hx
    rw [Stmt.exec, Stmt.exec]
    refine (test c hc).bind fun b => ?_
    cases b with
    | true => exact (ih known hyes).1.next fun l hl => Reached.start hl.covers
    | false => exact .pure fun l hl => Reached.start hl
  case branchElse =>
    intro c yes no s ihy ihn known hx
    obtain ⟨hc, hx⟩ := List.forall_mem_append.mp hx
    obtain ⟨hyes, hno⟩ := List.forall_mem_append.mp hx
    rw [Stmt.exec, Stmt.exec]
    refine (test c hc).bind fun b => ?_
    cases b with
    | true => exact (ihy known hyes).1.next fun l hl => hl.meet_left
    | false => exact (ihn known hno).1.next fun l hl => hl.meet_right
  case forRange =>
    intro v a b body s ih known hx
    obtain ⟨ha, hx⟩ := List.forall_mem_append.mp hx
    obtain ⟨hb, hbody⟩ := List.forall_mem_append.mp hx
    -- Every round starts with the names that were known before the loop, and the counter.
    have round : Coincide (Locals.Covers (known ++ [v.text])) (Flow.After (Locals.Covers known))
        (body.exec scope fuel) (body.exec scope' fuel) :=
      (ih _ hbody).1.next fun l hl => hl.covers.mono (List.subset_append_left _ _)
    rw [Stmt.exec, Stmt.exec]
    refine (expr a ha).bind fun _ => Coincide.check.bind fun first => ?_
    refine (expr b hb).bind fun _ => Coincide.check.bind fun last => ?_
    exact (round.forLoop (fun x l hl => hl.set v.text x) _ _).next fun l hl => Reached.start hl
  case whileLoop =>
    intro c body s ih known hx
    obtain ⟨hc, hbody⟩ := List.forall_mem_append.mp hx
    have round : Coincide (Locals.Covers known) (Flow.After (Locals.Covers known))
        (body.exec scope fuel) (body.exec scope' fuel) :=
      (ih _ hbody).1.next fun l hl => hl.covers
    rw [Stmt.exec, Stmt.exec]
    exact ((test c hc).whileLoop round fuel).next fun l hl => Reached.start hl
  case eval =>
    intro e s known he
    rw [Stmt.exec, Stmt.exec]
    exact (expr e he).bind fun _ => .pure fun l hl => Reached.start hl
  case give =>
    intro v s known he
    cases v with
    | none => exact .pure fun _ _ => trivial
    | some e =>
        rw [Stmt.exec, Stmt.exec]
        exact (expr e he).bind fun _ => .pure fun _ _ => trivial
  case mk =>
    intro ss tail s ih known hb
    simp only [Block.exec, Block.value, Block.stmts, Block.tail]
    cases tail with
    | none =>
        have hss := Block.execAll_coincides ih hb
        refine ⟨hss.bind fun flow => ?_, hss.bind fun flow => ?_⟩
        · cases flow with
          | next => exact .pure fun _ hl => hl
          | give v => exact .pure fun _ _ => trivial
        · cases flow <;> exact .pure fun _ _ => trivial
    | some e =>
        obtain ⟨hall, he⟩ := List.forall_mem_append.mp hb
        have hss := Block.execAll_coincides ih hall
        refine ⟨hss.bind fun flow => ?_, hss.bind fun flow => ?_⟩
        · cases flow with
          | next =>
              refine Reached.coincide fun a ha => ?_
              rw [ha] at he
              exact (expr e he).bind fun _ => .pure fun l hl => ⟨a, ha, hl⟩
          | give v => exact .pure fun _ _ => trivial
        · cases flow with
          | next =>
              refine Reached.coincide fun a ha => ?_
              rw [ha] at he
              exact (expr e he).mono fun _ _ _ => trivial
          | give v => exact .pure fun _ _ => trivial

/-- A definition has the same value under scopes that agree on what is early in its body. -/
theorem Definition.value_coincides (h : scope.AgreeOn N scope') {d : Definition}
    (hd : ∀ n ∈ d.body.early (d.params.map Ident.text), N n) (fuel : Nat) {args : List Value}
    (hargs : args.length = d.params.length) :
    d.value scope fuel args = d.value scope' fuel args := by
  have start : (Locals.setAll [] (d.params.map Ident.text) args).Covers
      (d.params.map Ident.text) := by
    have hempty : Locals.Covers [] [] := fun _ hn => nomatch hn
    have hlen : args.length = (d.params.map Ident.text).length := by simpa using hargs
    simpa using hempty.setAll hlen
  funext s
  rw [Definition.value, Definition.value, Run.bind_apply, Run.bind_apply]
  dsimp only [StateT.run]
  rw [((d.body.exec_coincides h fuel _ hd).2 _ start s).1]

end

end Graft
