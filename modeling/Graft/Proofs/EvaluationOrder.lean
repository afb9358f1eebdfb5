import Graft.Proofs.Callees
import Graft.Proofs.Coinciding
import Graft.Proofs.Depth

/-!
# The calls of a frame

A run of a body that notes every path when it is called makes the same steps as the run, and what it
notes are the calls of that frame, in the order in which they are made. Without branches, loops,
`return` and logical operators these are the calls of the body, in the order of the tree but for
assignments: a value is computed before the index of the place that it is stored in.
-/

namespace Graft

variable {σ α β : Type}

/-! ## Runs with notes -/

/-- The run, beside notes that it does not touch. -/
def Run.beside (x : Run σ α) : Run (σ × List Path) α := fun (s, calls) =>
  let (r, s) := x s
  (r, (s, calls))

/-- The scope that notes each path when it is called. What the callee calls in turn is not noted. -/
def Scope.noting (scope : Scope σ) : Scope (σ × List Path) where
  outer name span := (scope.outer name span).beside
  call p args span := do
    modify fun (s, calls) => (s, calls ++ [p])
    (scope.call p args span).beside

/-- Calls a function when `depth` more levels are left out of `limit`, and notes the calls that its
body makes. -/
def Function.noteAt (bound : BoundCall) (limit : Nat) (depth : Nat) (f : Function)
    (args : List Value) : Run (World × List Path) Value := do
  if args.length ≠ f.arity then Run.fail (f.definition.wrongArity args.length)
  else
    match depth with
    | 0 => Run.fail (f.tooDeep limit)
    | depth + 1 =>
      let _ ← Run.ofOutcome ((← get).1.home f)
      f.definition.value (f.scope (callee bound limit depth)).noting ampleFuel args

/-! ## Without the notes -/

/-- The second run does what the first one does, and takes notes. -/
def Correspondence.notes : Correspondence σ (σ × List Path) :=
  sameUnless (fun s t => t.1 = s) (fun _ => False) fun _ h => h

theorem Run.beside_notes (x : Run σ α) : Correspondence.notes.Runs Eq x x.beside := by
  rintro _ ⟨s, calls⟩ rfl
  rw [beside]
  rcases x s with ⟨e | a, t⟩
  · exact .fault rfl rfl
  · exact .value rfl rfl

theorem Scope.noting_corresponds (scope : Scope σ) :
    scope.Corresponds .notes .all id scope.noting where
  reads n := by
    rintro span _ rfl
    exact (scope.outer n span).beside_notes
  calls p args span _ := by
    rintro _ ⟨s, calls⟩ rfl
    exact (scope.call p args span).beside_notes s (s, calls ++ [p]) rfl

/-- Without its notes, a call that notes is the call. -/
theorem Function.noteAt_notes (bound : BoundCall) (limit depth : Nat) (f : Function)
    (args : List Value) :
    Correspondence.notes.Runs Eq (f.callAt bound limit depth args)
      (f.noteAt bound limit depth args) := by
  cases depth with
  | zero =>
      rw [callAt, noteAt]
      split
      · exact .fail _
      · exact .fail _
  | succ depth =>
      rw [callAt_succ, noteAt]
      split
      · exact .fail _
      · refine Correspondence.Runs.get.bind fun w t hw => ?_
        rw [show t.1 = w from hw]
        exact .afterOutcome fun _ _ =>
          Definition.value_corresponds_self (Scope.noting_corresponds _) (Names.within_all _) _ _

/-! ## What is noted -/

/-- A run of the step that gives something notes the calls, whatever was noted before. -/
def Eval.Makes (m : Eval (σ × List Path) α) (calls : List Path) : Prop :=
  ∀ locals s made r t, m locals (s, made) = (.ok r, t) → t.2 = made ++ calls

namespace Eval.Makes

variable {m : Eval (σ × List Path) α} {f : α → Eval (σ × List Path) β} {calls more : List Path}

theorem pure (a : α) : Eval.Makes (pure a : Eval (σ × List Path) α) [] := by
  intro locals s made r t h
  cases h
  exact (List.append_nil made).symm

theorem get : Eval.Makes (get : Eval (σ × List Path) Locals) [] := by
  intro locals s made r t h
  cases h
  exact (List.append_nil made).symm

theorem modify (g : Locals → Locals) :
    Eval.Makes (modify g : Eval (σ × List Path) PUnit) [] := by
  intro locals s made r t h
  cases h
  exact (List.append_nil made).symm

theorem at_ (span : Span) (o : Outcome α) :
    Eval.Makes (Eval.at_ span o : Eval (σ × List Path) α) [] := by
  cases o with
  | ok a => exact pure a
  | error d => exact fun locals s made r t h => nomatch h

/-- What follows an operation on values may count on what it gives. -/
theorem ofOutcome {o : Outcome α} {span : Span} (k : ∀ a, o = .ok a → (f a).Makes calls) :
    Eval.Makes (Eval.at_ span o >>= f) calls := by
  intro locals s made r t ht
  cases o with
  | ok a => exact k a rfl locals s made r t ht
  | error d => cases ht

theorem bind (h : m.Makes calls) (k : ∀ a, (f a).Makes more) : (m >>= f).Makes (calls ++ more) := by
  intro locals s made r t ht
  rw [bind_apply] at ht
  rcases hm : m locals (s, made) with ⟨e | ⟨a, locals'⟩, s', made'⟩
  · rw [hm] at ht
    cases ht
  · rw [hm] at ht
    obtain rfl : made' = made ++ calls := h _ _ _ _ _ hm
    rw [← List.append_assoc]
    exact k a _ _ _ _ _ ht

/-- A step that makes no calls comes first. -/
theorem quiet (h : m.Makes []) (k : ∀ a, (f a).Makes calls) : (m >>= f).Makes calls := h.bind k

/-- Only steps that make no calls follow. -/
theorem last (h : m.Makes calls) (k : ∀ a, (f a).Makes []) : (m >>= f).Makes calls := by
  have both := h.bind k
  rwa [List.append_nil] at both

theorem outer (scope : Scope σ) (name : String) (span : Span) :
    Eval.Makes (liftM (scope.noting.outer name span) : Eval (σ × List Path) Value) [] := by
  intro locals s made r t h
  rw [lift_apply, Prod.mk.injEq] at h
  rw [← h.2, List.append_nil]
  rfl

/-- A path is noted when it is called. -/
theorem call (scope : Scope σ) (p : Path) (args : List Value) (span span' : Span) :
    Eval.Makes (liftM (Run.orSpan span' (scope.noting.call p args span)) :
      Eval (σ × List Path) Value) [p] := by
  intro locals s made r t h
  rw [lift_apply, Run.orSpan_apply, Prod.mk.injEq] at h
  rw [← h.2]
  rfl

end Eval.Makes

/-- The paths that are called by the calls among the expressions. -/
def calleesIn (es : List Expr) : List Path := (sitesIn es).map CallSite.callee

@[simp] theorem calleesIn_append (es fs : List Expr) :
    calleesIn (es ++ fs) = calleesIn es ++ calleesIn fs := by
  rw [calleesIn, sitesIn_append, List.map_append]
  rfl

theorem calleesIn_part {e : Expr} (h : e.site? = none) (es : List Expr) :
    calleesIn (es ++ [e]) = calleesIn es := by rw [calleesIn, sitesIn_part h, calleesIn]

/-- Whether it is left to the left operand if the right one is evaluated. -/
def Expr.isLogical : Expr → Bool
  | .binary .and _ _ _ | .binary .or _ _ _ => true
  | _ => false

/-- All parts of the expression are evaluated whenever it is. -/
abbrev Expr.Strict (e : Expr) : Prop := e.Throughout fun x => x.isLogical = false

instance (e : Expr) : Decidable e.Strict :=
  inferInstanceAs (Decidable (∀ x ∈ e.subterms, x.isLogical = false))

section

variable {scope : Scope σ}

theorem Expr.evalAll_makes {es : List Expr}
    (h : ∀ e ∈ es, (e.eval scope.noting).Makes (calleesIn e.subterms)) :
    (eval.evalAll scope.noting es).Makes (calleesIn (subterms.subtermsAll es)) ∧
      (eval.evalNumbers scope.noting es).Makes (calleesIn (subterms.subtermsAll es)) := by
  induction es with
  | nil => exact ⟨.pure _, .pure _⟩
  | cons e rest ih =>
      obtain ⟨hall, hnum⟩ := ih fun x hx => h x (List.mem_cons_of_mem e hx)
      have he := h e List.mem_cons_self
      rw [eval.evalAll, eval.evalNumbers, subterms.subtermsAll, calleesIn_append]
      exact ⟨he.bind fun _ => hall.last fun _ => .pure _,
        he.bind fun _ => (Eval.Makes.at_ _ _).quiet fun _ => hnum.last fun _ => .pure _⟩

/-- An expression makes its calls in the order of the tree. -/
theorem Expr.eval_makes (e : Expr) (h : e.Strict) :
    (e.eval scope.noting).Makes (calleesIn e.subterms) := by
  induction e with
  | num x s => exact .pure _
  | bool b s => exact .pure _
  | path p s => exact .at_ _ _
  | var n s =>
      rw [eval]
      refine Eval.Makes.get.quiet fun locals => ?_
      cases locals.get? n with
      | some v => exact .pure v
      | none => exact .outer scope n s
  | binary op l r s ihl ihr =>
      obtain ⟨hl, hr, hop⟩ := throughout_binary.mp h
      have ihl := ihl hl
      have ihr := ihr hr
      rw [subterms, calleesIn_part rfl, calleesIn_append]
      cases op
      case and | or => cases hop
      all_goals
        simp only [eval]
        exact ihl.bind fun _ => ihr.last fun _ => .at_ _ _
  | unary op x s ih =>
      rw [subterms, calleesIn_part rfl, eval]
      exact (ih (throughout_unary.mp h).1).last fun _ => .at_ _ _
  | call callee calleeSpan args s ih =>
      have hargs := (throughout_call.mp h).1
      rw [subterms, calleesIn_append, eval]
      exact (evalAll_makes fun e he => ih e he (hargs e he)).1.bind fun vs =>
        .call scope callee vs calleeSpan s
  | index x i s ihx ihi =>
      obtain ⟨hx, hi, -⟩ := throughout_index.mp h
      rw [subterms, calleesIn_part rfl, calleesIn_append, eval]
      exact (ihx hx).bind fun _ => (ihi hi).last fun _ =>
        (Eval.Makes.at_ _ _).quiet fun _ => .at_ _ _
  | slice x a b s ihx iha ihb =>
      obtain ⟨hx, ha, hb, -⟩ := throughout_slice.mp h
      rw [subterms, calleesIn_part rfl, calleesIn_append, calleesIn_append, List.append_assoc, eval]
      exact (ihx hx).bind fun _ => (iha ha).bind fun _ =>
        (Eval.Makes.at_ _ _).quiet fun _ => (ihb hb).last fun _ =>
          (Eval.Makes.at_ _ _).quiet fun _ => .at_ _ _
  | array es s ih =>
      have hes := (throughout_array.mp h).1
      rw [subterms, calleesIn_part rfl, eval]
      exact (evalAll_makes fun e he => ih e he (hes e he)).2.last fun _ => .pure _
  | tuple es s ih =>
      have hes := (throughout_tuple.mp h).1
      rw [subterms, calleesIn_part rfl, eval]
      exact (evalAll_makes fun e he => ih e he (hes e he)).1.last fun _ => .pure _

/-- The calls of a store are those of the index. -/
theorem Place.assign_makes (p : Place) (h : ∀ x ∈ p.subterms, x.isLogical = false) (v : Value) :
    (p.assign scope.noting v).Makes (calleesIn p.subterms) := by
  cases p with
  | var n s => exact .modify _
  | discard s => exact .pure _
  | index base i s =>
      rw [assign]
      refine (i.eval_makes h).last fun _ => (Eval.Makes.at_ _ _).quiet fun n =>
        Eval.Makes.get.quiet fun locals => ?_
      cases locals.get? base.text with
      | some w => exact (Eval.Makes.at_ _ _).quiet fun _ => .modify _
      | none =>
          refine (Eval.Makes.outer scope _ _).quiet fun _ => ?_
          refine (Eval.Makes.modify _).quiet fun _ => ?_
          exact (Eval.Makes.at_ _ _).quiet fun _ => .modify _

/-- As many values as places are stored one after another. -/
theorem Place.assignAll_makes (ps : List Place)
    (h : ∀ p ∈ ps, ∀ x ∈ p.subterms, x.isLogical = false) (vs : List Value)
    (hvs : vs.length = ps.length) :
    (Place.assignAll scope.noting ps vs).Makes (calleesIn (ps.flatMap Place.subterms)) := by
  induction ps generalizing vs with
  | nil => cases vs <;> exact .pure _
  | cons p rest ih =>
      cases vs with
      | nil => cases hvs
      | cons v vs =>
          rw [assignAll, List.flatMap_cons, calleesIn_append]
          exact (p.assign_makes (h p List.mem_cons_self) v).bind fun _ =>
            ih (fun q hq => h q (List.mem_cons_of_mem p hq)) vs (Nat.succ.inj hvs)

end

/-! ## Straight bodies -/

/-- The places that a statement stores into, and the value that it stores there. -/
def Stmt.assignment? : Stmt → Option (List Place × Expr)
  | .assign p e _ => some ([p], e)
  | .assignTuple ps e _ => some (ps, e)
  | _ => none

/-- The paths that a run of the statement calls: the value of an assignment comes before the indices
of its places. -/
def Stmt.callsMade (x : Stmt) : List Path :=
  match x.assignment? with
  | some (ps, e) => calleesIn e.subterms ++ calleesIn (ps.flatMap Place.subterms)
  | none => calleesIn x.subterms

/-- The paths that a run of the body calls. -/
def Block.callsMade (b : Block) : List Path :=
  b.stmts.flatMap Stmt.callsMade ++ b.tail.elim [] fun e => calleesIn e.subterms

/-- Whether the statement is neither a branch nor a loop nor a `return`. -/
def Stmt.isStraight : Stmt → Bool
  | .bind .. | .assign .. | .assignTuple .. | .eval .. => true
  | _ => false

/-- The body has no branches, loops, `return` and logical operators. -/
structure Block.Straight (b : Block) : Prop where
  stmts : ∀ x ∈ b.stmts, x.isStraight = true
  strict : b.Throughout fun e => e.isLogical = false

section

variable {scope : Scope σ} {fuel : Nat}

/-- A straight statement makes its calls, and the next one follows. -/
theorem Stmt.exec_makes {x : Stmt} (hx : x.isStraight = true)
    (h : x.Throughout fun e => e.isLogical = false) {k : Flow → Eval (σ × List Path) α}
    {calls : List Path} (hk : (k .next).Makes calls) :
    (x.exec scope.noting fuel >>= k).Makes (x.callsMade ++ calls) := by
  cases x with
  | bind target e s =>
      have he : (e.eval scope.noting).Makes (calleesIn e.subterms) := e.eval_makes h
      cases target with
      | name n =>
          rw [exec]
          simp only [bind_assoc, pure_bind]
          exact he.bind fun _ => (Eval.Makes.modify _).quiet fun _ => hk
      | names ns =>
          rw [exec]
          simp only [bind_assoc, pure_bind]
          exact he.bind fun _ => (Eval.Makes.at_ _ _).quiet fun _ =>
            (Eval.Makes.modify _).quiet fun _ => hk
  | assign p e s =>
      obtain ⟨hp, he⟩ := throughout_assign.mp h
      have hcalls : (assign p e s).callsMade =
          calleesIn e.subterms ++ calleesIn p.subterms := by
        simp [callsMade, assignment?]
      rw [hcalls, List.append_assoc, exec]
      simp only [bind_assoc, pure_bind]
      exact (e.eval_makes he).bind fun v => (p.assign_makes hp v).bind fun _ => hk
  | assignTuple ps e s =>
      obtain ⟨hps, he⟩ := throughout_assignTuple.mp h
      rw [callsMade, assignment?, List.append_assoc, exec]
      simp only [bind_assoc, pure_bind]
      exact (e.eval_makes he).bind fun v => .ofOutcome fun parts hparts =>
        (Place.assignAll_makes ps hps parts (Value.length_of_unpack hparts)).bind fun _ => hk
  | eval e s =>
      rw [exec]
      simp only [bind_assoc, pure_bind]
      exact (e.eval_makes h).bind fun _ => hk
  | branch _ _ _ _ | forRange _ _ _ _ _ | whileLoop _ _ _ | give _ _ => cases hx

theorem Block.execAll_makes {ss : List Stmt} (hss : ∀ x ∈ ss, x.isStraight = true)
    (h : ∀ x ∈ ss, x.Throughout fun e => e.isLogical = false)
    {k : Flow → Eval (σ × List Path) α} {calls : List Path} (hk : (k .next).Makes calls) :
    (Block.execAll scope.noting fuel ss >>= k).Makes (ss.flatMap Stmt.callsMade ++ calls) := by
  induction ss with
  | nil => exact hk
  | cons x rest ih =>
      rw [execAll, bind_assoc, List.flatMap_cons, List.append_assoc]
      exact Stmt.exec_makes (hss x List.mem_cons_self) (h x List.mem_cons_self)
        (ih (fun y hy => hss y (List.mem_cons_of_mem x hy))
          fun y hy => h y (List.mem_cons_of_mem x hy))

/-- A straight body makes its calls in order. -/
theorem Block.value_makes {b : Block} (h : b.Straight) :
    (b.value scope.noting fuel).Makes b.callsMade := by
  obtain ⟨ss, tail, s⟩ := b
  obtain ⟨hss, htail⟩ := throughout_mk.mp h.strict
  rw [value, callsMade]
  refine execAll_makes h.stmts hss ?_
  cases tail with
  | none => exact .pure _
  | some e => exact e.eval_makes (htail e rfl)

end

/-! ## The order of the tree -/

/-- It makes no difference whether the calls of the value come before those of the places. -/
def Stmt.Commutes (x : Stmt) : Prop :=
  ∀ ps e, x.assignment? = some (ps, e) →
    calleesIn e.subterms ++ calleesIn (ps.flatMap Place.subterms) =
      calleesIn (ps.flatMap Place.subterms) ++ calleesIn e.subterms

theorem Stmt.subterms_of_assignment {x : Stmt} {ps : List Place} {e : Expr}
    (h : x.assignment? = some (ps, e)) :
    x.subterms = ps.flatMap Place.subterms ++ e.subterms := by
  cases x with
  | assign p e s =>
      cases h
      simp [subterms]
  | assignTuple ps e s =>
      cases h
      rfl
  | _ => cases h

/-- The calls of a statement are made in the order of the tree, or as many of them in another one. -/
theorem Stmt.callsMade_eq_iff (x : Stmt) : x.callsMade = calleesIn x.subterms ↔ x.Commutes := by
  rw [callsMade, Commutes]
  cases h : x.assignment? with
  | none => simp
  | some target =>
      obtain ⟨ps, e⟩ := target
      simp [subterms_of_assignment h]

theorem Stmt.length_callsMade (x : Stmt) : x.callsMade.length = (calleesIn x.subterms).length := by
  rw [callsMade]
  cases h : x.assignment? with
  | none => rfl
  | some target =>
      obtain ⟨ps, e⟩ := target
      dsimp only
      rw [subterms_of_assignment h, calleesIn_append, List.length_append, List.length_append,
        Nat.add_comm]

theorem Block.flatMap_callsMade_eq_iff (ss : List Stmt) :
    ss.flatMap Stmt.callsMade = calleesIn (subtermsAll ss) ↔ ∀ x ∈ ss, x.Commutes := by
  -- every statement contributes equally many calls to both sides
  induction ss with
  | nil => exact ⟨fun _ x hx => absurd hx List.not_mem_nil, fun _ => rfl⟩
  | cons x rest ih =>
      rw [subtermsAll, calleesIn_append, List.flatMap_cons, List.forall_mem_cons,
        ← Stmt.callsMade_eq_iff, ← ih]
      refine ⟨fun h => List.append_inj h x.length_callsMade, ?_⟩
      rintro ⟨hx, hrest⟩
      rw [hx, hrest]

theorem Block.callsMade_eq_iff (b : Block) :
    b.callsMade = b.callSites.map CallSite.callee ↔ ∀ x ∈ b.stmts, x.Commutes := by
  obtain ⟨ss, tail, s⟩ := b
  rw [callSites_eq, ← calleesIn, callsMade, ← flatMap_callsMade_eq_iff]
  cases tail with
  | none =>
      rw [subterms]
      exact (congrArg (· = _) (List.append_nil _)).to_iff
  | some e =>
      rw [subterms, calleesIn_append]
      exact List.append_left_inj _

/-! ## Frames -/

namespace Function

variable {bound : BoundCall} {limit depth : Nat} {f : Function} {args : List Value} {w w' : World}
  {v : Value} {calls : List Path}

/-- What a frame of a straight function notes are the calls of the body. -/
theorem noteAt_makes (h : f.definition.body.Straight)
    (hrun : f.noteAt bound limit depth args (w, []) = (.ok v, (w', calls))) :
    calls = f.definition.body.callsMade := by
  cases depth with
  | zero =>
      rw [noteAt] at hrun
      split at hrun <;> cases hrun
  | succ depth =>
      rw [noteAt] at hrun
      split at hrun
      · cases hrun
      · obtain ⟨u, t, hget, hrun⟩ := Run.bind_eq_ok hrun
        cases hget
        obtain ⟨ns, t, hhome, hrun⟩ := Run.bind_eq_ok hrun
        rw [Run.ofOutcome_apply, Prod.mk.injEq] at hhome
        obtain ⟨-, rfl⟩ := hhome
        rw [Definition.value] at hrun
        obtain ⟨⟨r, locals⟩, t, hvalue, hrun⟩ := Run.bind_eq_ok hrun
        cases hrun
        exact Block.value_makes h _ _ _ _ _ hvalue

/-- A run that gives a value gives it with notes as well. -/
theorem exists_noteAt (h : f.callAt bound limit depth args w = (.ok v, w')) :
    ∃ calls, f.noteAt bound limit depth args (w, []) = (.ok v, (w', calls)) := by
  have hends := noteAt_notes bound limit depth f args w (w, []) rfl
  rw [h] at hends
  rcases hnoted : f.noteAt bound limit depth args (w, []) with ⟨r, t, calls⟩
  rw [hnoted] at hends
  cases hends with
  | value hv hs =>
      cases hv
      cases hs
      exact ⟨calls, rfl⟩

/-- A run of a straight function that gives a value makes, in its own frame, the calls of the body,
those of the value of an assignment before those of its places. That is the order in which the call
sites are listed just if the two commute in every assignment of the body, as they do where the value
makes no calls or the indices make none. -/
theorem noteAt_callSites_iff (straight : f.definition.body.Straight)
    (h : f.callAt bound limit depth args w = (.ok v, w')) :
    f.noteAt bound limit depth args (w, []) = (.ok v, (w', f.definition.body.callsMade)) ∧
      (f.definition.body.callsMade = f.definition.body.callSites.map CallSite.callee ↔
        ∀ x ∈ f.definition.body.stmts, x.Commutes) := by
  obtain ⟨calls, hnoted⟩ := exists_noteAt h
  refine ⟨?_, Block.callsMade_eq_iff _⟩
  rw [hnoted, noteAt_makes straight hnoted]

/-- The function `fn f(x) { x[abs(0)] = value; len(x) }` of namespace 1. -/
def storing (value : Expr) : Function :=
  .build 2
    { markers := [], name := ⟨"f", .dummy⟩, params := [⟨"x", .dummy⟩],
      body := .mk
        [.assign (.index ⟨"x", .dummy⟩ (.call ⟨"abs", []⟩ .dummy [.num 0 .dummy] .dummy) .dummy)
          value .dummy]
        (some (.call ⟨"len", []⟩ .dummy [.var "x" .dummy] .dummy)) .dummy }
    .interactive 1 []

theorem storing_straight {value : Expr} (h : value.Strict) :
    (storing value).definition.body.Straight := by
  refine ⟨List.forall_mem_singleton.mpr rfl, Block.throughout_mk.mpr ⟨?_, fun e he => ?_⟩⟩
  · have hindex : (Expr.call ⟨"abs", []⟩ .dummy [.num 0 .dummy] .dummy).Strict := by decide
    exact List.forall_mem_singleton.mpr (Stmt.throughout_assign.mpr ⟨hindex, h⟩)
  · cases he
    decide

/-- Only that namespace is there, and no name is bound in it. -/
def storingWorld : World := { nextId := 3, namespaces := [(1, { name := "m" })] }

/-- The function that stores `abs(4)` calls `abs` on both sides of the assignment. -/
def storingAbs : Function := storing (.call ⟨"abs", []⟩ .dummy [.num 4 .dummy] .dummy)

theorem noteAt_callSites_iff_storing :
    storingAbs.definition.body.Straight ∧
      ∃ v w', storingAbs.callAt (Gateway.callBound ampleFuel) 1 1 [.array #[5]] storingWorld =
          (.ok v, w') ∧
        storingAbs.noteAt (Gateway.callBound ampleFuel) 1 1 [.array #[5]] (storingWorld, []) =
          (.ok v, (w', storingAbs.definition.body.callSites.map CallSite.callee)) := by
  have straight : storingAbs.definition.body.Straight := storing_straight (by decide)
  have hok : (storingAbs.callAt (Gateway.callBound ampleFuel) 1 1 [.array #[5]]
      storingWorld).1.isOk = true := by decide +kernel
  obtain ⟨v, w', h⟩ := Run.exists_of_isOk hok
  obtain ⟨hnoted, hiff⟩ := noteAt_callSites_iff straight h
  refine ⟨straight, v, w', h, ?_⟩
  rw [hnoted, hiff.mpr ?_]
  intro x hx ps e hassign
  cases List.mem_singleton.mp hx
  cases hassign
  rfl

/-- The function that stores `len(x)` calls `abs` for the index after `len` for the value. -/
def storingLen : Function := storing (.call ⟨"len", []⟩ .dummy [.var "x" .dummy] .dummy)

/-- Calls are made in another order than the one in which the call sites are listed. -/
theorem noteAt_not_callSites :
    storingLen.definition.body.Straight ∧
      (∃ v w', storingLen.callAt (Gateway.callBound ampleFuel) 1 1 [.array #[5]] storingWorld =
          (.ok v, w') ∧
        storingLen.noteAt (Gateway.callBound ampleFuel) 1 1 [.array #[5]] (storingWorld, []) =
          (.ok v, (w', [⟨"len", []⟩, ⟨"abs", []⟩, ⟨"len", []⟩]))) ∧
      storingLen.definition.body.callSites.map CallSite.callee =
        [⟨"abs", []⟩, ⟨"len", []⟩, ⟨"len", []⟩] := by
  have straight : storingLen.definition.body.Straight := storing_straight (by decide)
  have hok : (storingLen.callAt (Gateway.callBound ampleFuel) 1 1 [.array #[5]]
      storingWorld).1.isOk = true := by decide +kernel
  obtain ⟨v, w', h⟩ := Run.exists_of_isOk hok
  obtain ⟨calls, hnoted⟩ := exists_noteAt h
  refine ⟨straight, ⟨v, w', h, ?_⟩, by decide⟩
  rw [hnoted, noteAt_makes straight hnoted]
  rfl

end Function

end Graft
