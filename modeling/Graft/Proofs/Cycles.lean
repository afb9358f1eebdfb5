import Graft.Proofs.Linking
import Graft.Proofs.Waiting
import Mathlib.Logic.Relation

/-!
# Cycles of calls

A function calls into another one if it calls a bare name that the other one, or a gateway of it, is
bound to. A compilation descends along these calls. It fails if it can come to a cycle, since then
some call comes back to a function that waits; and if it can come to none, it never says so.
-/

namespace Graft

/-! ## Calls that lead into functions -/

namespace Function

variable {lookup : NamespaceId → String → Option Global} {excluded : List String}
  {f g h : Function}

/-- The function calls a bare name, not one of the excluded ones, that the other function or a
gateway of it is bound to. -/
def CallsInto (lookup : NamespaceId → String → Option Global) (excluded : List String)
    (f g : Function) : Prop :=
  ∃ n c, n ∉ excluded ∧ f.definition.body.Calls ⟨n, []⟩ ∧
    lookup f.home n = some (.callable c) ∧ c.plain? = some g

/-- The other function is come to by any number of calls. -/
abbrev ComesTo (lookup : NamespaceId → String → Option Global) (excluded : List String) :
    Function → Function → Prop :=
  Relation.ReflTransGen (CallsInto lookup excluded)

/-- A cycle of calls can be come to. -/
def Cyclic (lookup : NamespaceId → String → Option Global) (excluded : List String)
    (f : Function) : Prop :=
  ∃ g, f.ComesTo lookup excluded g ∧ Relation.TransGen (CallsInto lookup excluded) g g

/-- Every chain of calls from the function ends. -/
abbrev Ends (lookup : NamespaceId → String → Option Global) (excluded : List String)
    (f : Function) : Prop :=
  Acc (fun g f => CallsInto lookup excluded f g) f

theorem CallsInto.finds (h : CallsInto lookup excluded f g) : Finds lookup g := by
  obtain ⟨n, c, -, -, hl, hc⟩ := h
  exact ⟨f.home, n, c, hl, hc⟩

theorem Ends.not_cycle (hf : f.Ends lookup excluded) :
    ¬ Relation.TransGen (CallsInto lookup excluded) f f := by
  induction hf with
  | intro f _ ih =>
      intro hcycle
      obtain ⟨g, hg, hback⟩ := Relation.TransGen.head'_iff.mp hcycle
      exact ih g hg (.tail' hback hg)

theorem Ends.of_comesTo (hf : f.Ends lookup excluded) (h : f.ComesTo lookup excluded g) :
    g.Ends lookup excluded := by
  induction h with
  | refl => exact hf
  | tail _ hcall ih => exact ih.inv hcall

theorem Ends.not_cyclic (hf : f.Ends lookup excluded) : ¬ f.Cyclic lookup excluded :=
  fun ⟨_, hcomes, hcycle⟩ => (hf.of_comesTo hcomes).not_cycle hcycle

/-- No two functions that are come to have one number. -/
def Numbered (lookup : NamespaceId → String → Option Global) (excluded : List String)
    (f : Function) : Prop :=
  ∀ g h, f.ComesTo lookup excluded g → f.ComesTo lookup excluded h → g.id = h.id → g = h

/-- Each function that waits was come to, and comes to `g` by some calls. -/
def Lead (lookup : NamespaceId → String → Option Global) (excluded : List String) (f : Function)
    (active : List (Nat × String)) (g : Function) : Prop :=
  ∀ entry ∈ active, ∃ h, f.ComesTo lookup excluded h ∧ h.id = entry.1 ∧
    Relation.TransGen (CallsInto lookup excluded) h g

namespace Lead

variable {active : List (Nat × String)}

theorem start (f g : Function) : f.Lead lookup excluded [] g := fun _ h => absurd h List.not_mem_nil

/-- A function that waits is called. -/
theorem next (h : f.Lead lookup excluded active g) (hg : f.ComesTo lookup excluded g)
    {k : Function} (hcall : g.CallsInto lookup excluded k) :
    f.Lead lookup excluded (active ++ [(g.id, g.name)]) k := by
  intro entry hentry
  rcases List.mem_append.mp hentry with hentry | hentry
  · obtain ⟨g', hg', hid, hpath⟩ := h entry hentry
    exact ⟨g', hg', hid, hpath.tail hcall⟩
  · rw [List.mem_singleton.mp hentry]
    exact ⟨g, hg, rfl, .single hcall⟩

/-- A function that comes back to itself is on a cycle. -/
theorem cyclic (h : f.Lead lookup excluded active g) (numbered : f.Numbered lookup excluded)
    (hg : f.ComesTo lookup excluded g)
    (hactive : (active.any fun entry => entry.1 = g.id) = true) : f.Cyclic lookup excluded := by
  obtain ⟨entry, hentry, hid⟩ := List.any_eq_true.mp hactive
  obtain ⟨g', hg', hsame, hpath⟩ := h entry hentry
  obtain rfl := numbered g' g hg' hg (hsame.trans (of_decide_eq_true hid))
  exact ⟨g', hg', hpath⟩

end Lead

end Function

/-! ## What a report tells -/

/-- The report tells of calls that come back to their first function. -/
def Diagnostic.TellsCycle (d : Diagnostic) : Prop :=
  d.kind = .unsupported ∧ ∃ names,
    d.message = "cannot specialize recursive call graph " ++ Calls.chain names ∨
      d.message = "cannot compile recursive call graph " ++ Calls.chain names

/-- A report that tells of a cycle only if there is one. -/
def Fault.Fair (cyclic : Prop) (e : Fault) : Prop :=
  ∃ d, e = .report d ∧ (d.TellsCycle → cyclic)

/-- A run that ends: with a report if there is a cycle, and with a report that tells of a cycle only
if there is one. -/
structure Detects {α : Type} (cyclic : Prop) (r : Except Fault α) : Prop where
  fails : cyclic → ∃ e, r = .error e
  fair : ∀ e, r = .error e → e.Fair cyclic

namespace Fault.Fair

variable {cyclic : Prop} {d : Diagnostic}

theorem of_kind (h : d.kind ≠ .unsupported) : (report d).Fair cyclic :=
  ⟨d, rfl, fun htells => absurd htells.1 h⟩

theorem withNote {e : Fault} (h : e.Fair cyclic) (note : String) :
    (e.map fun d => d.withNote note).Fair cyclic := by
  obtain ⟨d, rfl, hd⟩ := h
  exact ⟨d.withNote note, rfl, hd⟩

end Fault.Fair

/-- That a callable cannot be linked tells of no cycle: the messages differ in what cannot be done. -/
theorem Compile.notLinkable_fair {cyclic : Prop} (c : Callable) (span : Span) :
    (Fault.report (notLinkable c span)).Fair cyclic := by
  refine ⟨_, rfl, fun ⟨_, names, h⟩ => ?_⟩
  have hhead : (notLinkable c span).message.toList.take 8 = "cannot l".toList := by
    change (("cannot link " ++ c.describe) ++ " into compiled code").toList.take 8 = _
    rw [String.append_assoc, String.toList_append]
    rfl
  rcases h with h | h
  all_goals
    rw [h, String.toList_append] at hhead
    exact absurd hhead (by simp)

/-! ## Steps of compilation that may fail -/

variable {α β : Type} {inv : Compile.State → Prop} {fault : Fault → Prop}

/-- A step that starts where `inv` holds keeps `inv` and gives what satisfies `post`, or it fails with
a fault that satisfies `fault`. -/
structure Compile.Behaves (inv : Compile.State → Prop) (fault : Fault → Prop) (m : Compile α)
    (post : α → Prop) : Prop where
  ensures : Compile.Ensures inv m post
  faults : ∀ st e, m st = .error e → inv st → fault e

/-- The same of a step that records callees. -/
structure Lower.Behaves (inv : Compile.State → Prop) (fault : Fault → Prop) (m : Lower α)
    (post : α → Prop) : Prop where
  ensures : Lower.Ensures inv m post
  faults : ∀ callees st e, m callees st = .error e → inv st → fault e

namespace Compile.Behaves

theorem pure {a : α} {post : α → Prop} (h : post a) : Behaves inv fault (pure a) post :=
  ⟨.pure h, fun _ _ h => nomatch h⟩

theorem throw {e : Fault} (h : fault e) (post : α → Prop) : Behaves inv fault (throw e) post := by
  refine ⟨.throw e post, fun st e' he _ => ?_⟩
  cases he
  exact h

theorem bind {m : Compile α} {f : α → Compile β} {mid : α → Prop} {post : β → Prop}
    (h : Behaves inv fault m mid) (k : ∀ a, mid a → Behaves inv fault (f a) post) :
    Behaves inv fault (m >>= f) post := by
  refine ⟨h.ensures.bind fun a ha => (k a ha).ensures, fun st e he hi => ?_⟩
  rw [bind_apply] at he
  split at he
  · next a st₁ hm =>
      obtain ⟨hi₁, ha⟩ := h.ensures st a st₁ hm hi
      exact (k a ha).faults st₁ e he hi₁
  · next e' hm =>
      cases he
      exact h.faults st e hm hi

theorem tryThrow {m : Compile α} {post : α → Prop} (h : Behaves inv fault m post)
    {f : Fault → Fault} (hf : ∀ e, fault e → fault (f e)) :
    Behaves inv fault (tryCatch m fun e => MonadExcept.throw (f e)) post := by
  refine ⟨h.ensures.tryThrow f, fun st e he hi => ?_⟩
  rw [tryThrow_apply] at he
  rcases hm : m st with e' | r
  · rw [hm] at he
    cases he
    exact hf e' (h.faults st e' hm hi)
  · rw [hm] at he
    cases he

end Compile.Behaves

namespace Lower.Behaves

theorem pure {a : α} {post : α → Prop} (h : post a) : Behaves inv fault (pure a) post :=
  ⟨.pure h, fun _ _ _ h => nomatch h⟩

theorem bind {m : Lower α} {f : α → Lower β} {mid : α → Prop} {post : β → Prop}
    (h : Behaves inv fault m mid) (k : ∀ a, mid a → Behaves inv fault (f a) post) :
    Behaves inv fault (m >>= f) post := by
  refine ⟨h.ensures.bind fun a ha => (k a ha).ensures, fun callees st e he hi => ?_⟩
  rw [bind_apply] at he
  rcases hm : m callees st with e' | ⟨⟨a, callees₁⟩, st₁⟩
  · rw [hm] at he
    cases he
    exact h.faults callees st e hm hi
  · rw [hm] at he
    obtain ⟨hi₁, ha⟩ := h.ensures callees st a callees₁ st₁ hm hi
    exact (k a ha).faults callees₁ st₁ e he hi₁

theorem mono {m : Lower α} {post post' : α → Prop} (h : Behaves inv fault m post)
    (hp : ∀ a, post a → post' a) : Behaves inv fault m post' :=
  ⟨h.ensures.mono hp, h.faults⟩

theorem ofOutcome {o : Outcome α} (h : ∀ d, o = .error d → fault (.report d)) :
    Behaves inv fault (Compile.ofOutcome o) fun _ => True := by
  refine ⟨(Ensures.ofOutcome o).mono fun _ _ => trivial, fun callees st e he _ => ?_⟩
  cases o with
  | ok a => cases he
  | error d =>
      cases he
      exact h d rfl

theorem lift {m : Compile α} {post : α → Prop} (h : Compile.Behaves inv fault m post) :
    Behaves inv fault (liftM m : Lower α) post := by
  refine ⟨.lift h.ensures, fun callees st e he hi => ?_⟩
  rw [lift_apply] at he
  rcases hm : m st with e' | r
  · rw [hm] at he
    cases he
    exact h.faults st e hm hi
  · rw [hm] at he
    cases he

theorem record (name : String) (d : Digest) :
    Behaves inv fault (Compile.record name d) fun _ => True :=
  ⟨.record name d, fun _ _ _ h => nomatch h⟩

end Lower.Behaves

/-! ## Trees whose calls may not be linked -/

section

variable {c : Compile.Context} {N : Names} {Q : Path → Prop}

/-- Every path that is called satisfies `Q`. -/
abbrev Names.calling (Q : Path → Prop) : Names := ⟨fun _ => True, Q⟩

/-- What the lowering of a tree with the given expressions does: if it succeeds, every path that is
called satisfies `Q`. -/
abbrev Lower.Reaches (inv : Compile.State → Prop) (fault : Fault → Prop) (Q : Path → Prop)
    (es : List Expr) (m : Lower α) : Prop :=
  Lower.Behaves inv fault m fun _ => (Names.calling Q).Within es

theorem Compile.variable_fair (fair : ∀ d, d.kind ≠ .unsupported → fault (.report d)) {n : String}
    {span : Span} {d : Diagnostic} (h : variable_ c n span = .error d) : fault (.report d) := by
  rw [variable_] at h
  split at h
  · cases h
  · split at h
    · cases h
    · split at h
      · cases h
      all_goals
        cases h
        exact fair _ (by rintro ⟨⟩)

theorem Path.constant?_fair (fair : ∀ d, d.kind ≠ .unsupported → fault (.report d)) {p : Path}
    {span : Span} {d : Diagnostic} (h : p.constant? span = .error d) : fault (.report d) := by
  rw [constant?.eq_def] at h
  split at h
  · split at h
    · cases h
    · cases h
      exact fair _ (by rintro ⟨⟩)
  · cases h
    exact fair _ (by rintro ⟨⟩)

theorem Expr.lowerAll_behaves {es : List Expr}
    (h : ∀ e ∈ es, Lower.Reaches inv fault Q e.subterms (e.lower c)) :
    Lower.Reaches inv fault Q (Expr.subterms.subtermsAll es) (Expr.lower.lowerAll c es) := by
  induction es with
  | nil =>
      rw [Expr.lower.lowerAll]
      exact .pure fun _ he => absurd he List.not_mem_nil
  | cons e rest ih =>
      rw [Expr.lower.lowerAll]
      refine (h e List.mem_cons_self).bind fun _ hcode => ?_
      refine (ih fun e' he => h e' (List.mem_cons_of_mem e he)).bind fun _ hcodes => ?_
      exact .pure (Names.within_append.mpr ⟨hcode, hcodes⟩)

theorem Expr.lower_behaves (fair : ∀ d, d.kind ≠ .unsupported → fault (.report d))
    (links : ∀ p span, N.calls p → Lower.Behaves inv fault (Compile.target c p span) fun _ => Q p)
    (e : Expr) (he : N.Within e.subterms) :
    Lower.Reaches inv fault Q e.subterms (e.lower c) := by
  -- An expression that is no call adds nothing to what its parts call.
  have leaf : ∀ e : Expr, (Names.calling Q).Admits e → (Names.calling Q).Within [e] :=
    fun e he => List.forall_mem_singleton.mpr he
  induction e with
  | num x span | bool b span =>
      rw [Expr.lower, Expr.subterms]
      exact .pure (leaf _ trivial)
  | var n span =>
      rw [Expr.lower, Expr.subterms]
      exact (Lower.Behaves.ofOutcome fun _ h => Compile.variable_fair fair h).mono fun _ _ =>
        leaf _ trivial
  | path p span =>
      rw [Expr.lower, Expr.subterms]
      exact (Lower.Behaves.ofOutcome fun _ h => Path.constant?_fair fair h).bind fun _ _ =>
        .pure (leaf _ trivial)
  | binary op l r span ihl ihr =>
      rw [Expr.subterms, Names.within_append, Names.within_append] at he
      rw [Expr.lower, Expr.subterms]
      refine (ihl he.1.1).bind fun _ hl => (ihr he.1.2).bind fun _ hr => ?_
      have hall := Names.within_append.mpr ⟨Names.within_append.mpr ⟨hl, hr⟩,
        leaf (.binary op l r span) trivial⟩
      cases op <;> exact .pure hall
  | unary op x span ih =>
      rw [Expr.subterms, Names.within_append] at he
      rw [Expr.lower, Expr.subterms]
      exact (ih he.1).bind fun _ hx => .pure (Names.within_append.mpr ⟨hx, leaf _ trivial⟩)
  | call callee calleeSpan args span ih =>
      rw [Expr.subterms, Names.within_append] at he
      have hargs := Names.within_exprs.mp he.1
      rw [Expr.lower, Expr.subterms]
      refine (links callee calleeSpan (he.2 _ (List.mem_singleton_self _))).bind fun t ht => ?_
      refine (lowerAll_behaves fun e hm => ih e hm (hargs e hm)).bind fun _ hcodes => ?_
      have hall := Names.within_append.mpr ⟨hcodes, leaf (.call callee calleeSpan args span) ht⟩
      cases t <;> exact .pure hall
  | index x i span ihx ihi =>
      rw [Expr.subterms, Names.within_append, Names.within_append] at he
      rw [Expr.lower, Expr.subterms]
      exact (ihx he.1.1).bind fun _ hx => (ihi he.1.2).bind fun _ hi =>
        .pure (Names.within_append.mpr ⟨Names.within_append.mpr ⟨hx, hi⟩, leaf _ trivial⟩)
  | slice x a b span ihx iha ihb =>
      rw [Expr.subterms, Names.within_append, Names.within_append, Names.within_append] at he
      rw [Expr.lower, Expr.subterms]
      refine (ihx he.1.1.1).bind fun _ hx => (iha he.1.1.2).bind fun _ ha => ?_
      refine (ihb he.1.2).bind fun _ hb => .pure ?_
      exact Names.within_append.mpr ⟨Names.within_append.mpr
        ⟨Names.within_append.mpr ⟨hx, ha⟩, hb⟩, leaf _ trivial⟩
  | array es span ih | tuple es span ih =>
      rw [Expr.subterms, Names.within_append] at he
      have hes := Names.within_exprs.mp he.1
      rw [Expr.lower, Expr.subterms]
      refine (lowerAll_behaves fun e hm => ih e hm (hes e hm)).bind fun _ hcodes => ?_
      exact .pure (Names.within_append.mpr ⟨hcodes, leaf _ trivial⟩)

theorem Place.lower_behaves (fair : ∀ d, d.kind ≠ .unsupported → fault (.report d))
    (links : ∀ p span, N.calls p → Lower.Behaves inv fault (Compile.target c p span) fun _ => Q p)
    (p : Place) (hp : N.Within p.subterms) :
    Lower.Reaches inv fault Q p.subterms (p.lower c) := by
  cases p with
  | var n span | discard span =>
      rw [Place.lower]
      exact .pure fun _ he => absurd he List.not_mem_nil
  | index base i span =>
      rw [Place.lower, Place.subterms]
      exact (Expr.lower_behaves fair links i hp).bind fun _ hi => .pure hi

theorem Place.lowerPlaces_behaves (fair : ∀ d, d.kind ≠ .unsupported → fault (.report d))
    (links : ∀ p span, N.calls p → Lower.Behaves inv fault (Compile.target c p span) fun _ => Q p)
    {ps : List Place} (hps : N.Within (ps.flatMap Place.subterms)) :
    Lower.Reaches inv fault Q (ps.flatMap Place.subterms) (Compile.lowerPlaces c ps) := by
  induction ps with
  | nil =>
      rw [Compile.lowerPlaces]
      exact .pure fun _ he => absurd he List.not_mem_nil
  | cons p rest ih =>
      rw [List.flatMap_cons, Names.within_append] at hps
      rw [Compile.lowerPlaces, List.flatMap_cons]
      refine (p.lower_behaves fair links hps.1).bind fun _ hp => (ih hps.2).bind fun _ hrest => ?_
      exact .pure (Names.within_append.mpr ⟨hp, hrest⟩)

theorem Block.lowerAll_behaves {ss : List Stmt}
    (h : ∀ x ∈ ss, Lower.Reaches inv fault Q x.subterms (x.lower c)) :
    Lower.Reaches inv fault Q (Block.subtermsAll ss) (Block.lowerAll c ss) := by
  induction ss with
  | nil =>
      rw [Block.lowerAll]
      exact .pure fun _ he => absurd he List.not_mem_nil
  | cons x rest ih =>
      rw [Block.lowerAll, Block.subtermsAll]
      refine (h x List.mem_cons_self).bind fun _ hx => ?_
      refine (ih fun y hy => h y (List.mem_cons_of_mem x hy)).bind fun _ hrest => ?_
      exact .pure (Names.within_append.mpr ⟨hx, hrest⟩)

/-- If a body is lowered, everything that it calls was linked; and it fails only as linking does, or
because a name cannot be read. -/
theorem Block.lower_behaves (fair : ∀ d, d.kind ≠ .unsupported → fault (.report d))
    (links : ∀ p span, N.calls p → Lower.Behaves inv fault (Compile.target c p span) fun _ => Q p)
    (b : Block) (hb : N.Within b.subterms) :
    Lower.Reaches inv fault Q b.subterms (b.lower c) := by
  have expr := fun e he => Expr.lower_behaves fair links e he
  revert hb
  refine Block.induction
    (fun x => N.Within x.subterms → Lower.Reaches inv fault Q x.subterms (x.lower c))
    (fun b => N.Within b.subterms → Lower.Reaches inv fault Q b.subterms (b.lower c))
    ?bind ?assign ?assignTuple ?branch ?branchElse ?forRange ?whileLoop ?eval ?give ?mk b
  case bind =>
    intro target e span h
    rw [Stmt.subterms] at h ⊢
    cases target <;> exact (expr e h).bind fun _ he => .pure he
  case assign =>
    intro p e span h
    rw [Stmt.subterms] at h ⊢
    have hc := Names.within_append.mp h
    refine (expr e hc.2).bind fun _ he => (p.lower_behaves fair links hc.1).bind fun _ hp => ?_
    exact .pure (Names.within_append.mpr ⟨hp, he⟩)
  case assignTuple =>
    intro ps e span h
    rw [Stmt.subterms] at h ⊢
    have hc := Names.within_append.mp h
    refine (expr e hc.2).bind fun _ he => ?_
    refine (Place.lowerPlaces_behaves fair links hc.1).bind fun _ hps => ?_
    exact .pure (Names.within_append.mpr ⟨hps, he⟩)
  case branch =>
    intro e yes span ihy h
    rw [Stmt.subterms] at h ⊢
    have hc := Names.within_append.mp h
    refine (expr e hc.1).bind fun _ he => (ihy hc.2).bind fun _ hyes => ?_
    exact .pure (Names.within_append.mpr ⟨he, hyes⟩)
  case branchElse =>
    intro e yes no span ihy ihn h
    rw [Stmt.subterms] at h ⊢
    have hc := Names.within_append.mp h
    have hcy := Names.within_append.mp hc.1
    refine (expr e hcy.1).bind fun _ he => (ihy hcy.2).bind fun _ hyes => ?_
    refine (ihn hc.2).bind fun _ hno => .pure ?_
    exact Names.within_append.mpr ⟨Names.within_append.mpr ⟨he, hyes⟩, hno⟩
  case forRange =>
    intro v a b body span ih h
    rw [Stmt.subterms] at h ⊢
    have hc := Names.within_append.mp h
    have hab := Names.within_append.mp hc.1
    refine (expr a hab.1).bind fun _ ha => (expr b hab.2).bind fun _ hb => ?_
    refine (ih hc.2).bind fun _ hbody => .pure ?_
    exact Names.within_append.mpr ⟨Names.within_append.mpr ⟨ha, hb⟩, hbody⟩
  case whileLoop =>
    intro e body span ih h
    rw [Stmt.subterms] at h ⊢
    have hc := Names.within_append.mp h
    refine (expr e hc.1).bind fun _ he => (ih hc.2).bind fun _ hbody => ?_
    exact .pure (Names.within_append.mpr ⟨he, hbody⟩)
  case eval =>
    intro e span h
    rw [Stmt.subterms] at h ⊢
    exact (expr e h).bind fun _ he => .pure he
  case give =>
    intro v span h
    rw [Stmt.lower]
    cases v with
    | none => exact .pure fun _ he => absurd he List.not_mem_nil
    | some e =>
        rw [Stmt.subterms] at h ⊢
        rw [Compile.lowerOption, bind_assoc]
        exact (expr e h).bind fun _ he => .pure he
  case mk =>
    intro ss tail span ih h
    rw [Block.lower]
    cases tail with
    | none =>
        rw [Block.subterms] at h ⊢
        have hss := Block.lowerAll_behaves fun x hx => ih x hx (Names.within_stmts.mp h x hx)
        exact hss.bind fun _ hss => .pure hss
    | some e =>
        rw [Block.subterms] at h ⊢
        have hc := Names.within_append.mp h
        have hss := Block.lowerAll_behaves fun x hx => ih x hx (Names.within_stmts.mp hc.1 x hx)
        refine hss.bind fun _ hss => ?_
        rw [Compile.lowerOption, bind_assoc]
        exact (expr e hc.2).bind fun _ he => .pure (Names.within_append.mpr ⟨hss, he⟩)

end

/-! ## Compilation -/

namespace Compile

variable {env : Linker} {callee : Function → Compile Artifact} {f g : Function} {cyclic : Prop}

/-- If a bare name is linked, so is a function that is bound to it. -/
theorem linkName_behaves {name : String} {Q : Prop}
    (fair : ∀ e, e.Fair cyclic → fault e) (note : ∀ e s, fault e → fault (e.map (·.withNote s)))
    (function : ∀ c g, env.lookup f.home name = some (.callable c) → c.plain? = some g →
      Behaves inv fault (callee g) fun _ => Q)
    (other : (∀ c g, env.lookup f.home name = some (.callable c) → c.plain? ≠ some g) → Q)
    (span : Span) : Behaves inv fault (linkName env callee f name span) fun _ => Q := by
  have compiled : ∀ c g, env.lookup f.home name = some (.callable c) → c.plain? = some g →
      Behaves inv fault (tryCatch (do return Target.artifact (← callee g)) fun e =>
          throw (e.map fun d => d.withNote ("while compiling `" ++ f.name ++ "`"))) fun _ => Q :=
    fun c g hl hg => .tryThrow ((function c g hl hg).bind fun _ hQ => .pure hQ) fun e => note e _
  rw [linkName]
  rcases hl : env.lookup f.home name with _ | v | c
  · dsimp only
    have hQ : Q := other fun c g h => by rw [hl] at h; cases h
    cases Native.builtin? name with
    | none =>
        exact .throw
          (fair (.report (Calls.undefinedFunction name span)) (.of_kind (by rintro ⟨⟩))) _
    | some n => exact .pure hQ
  · exact .throw (fair (.report (Calls.notAFunction name v span)) (.of_kind (by rintro ⟨⟩))) _
  · cases c with
    | function g => exact compiled _ g hl rfl
    | gateway g => exact compiled _ g.function hl rfl
    | artifact a | native n =>
        refine .pure (other fun c g h hc => ?_)
        rw [hl] at h
        cases h
        cases hc
    | bound i g overrides d => exact .throw (fair _ (notLinkable_fair _ _)) _

/-- If a function is compiled, the bare names that it calls were linked. -/
theorem compileUnit_behaves {Q : String → Prop}
    (fair : ∀ d, d.kind ≠ .unsupported → fault (.report d))
    (links : ∀ n span, f.definition.body.Calls ⟨n, []⟩ →
      Behaves inv fault (linkName env callee f n span) fun _ => Q n)
    (hinv : ∀ st n, inv st → inv { st with nextId := n }) :
    Behaves inv fault (compileUnit env callee f) fun _ =>
      ∀ n, f.definition.body.Calls ⟨n, []⟩ → Q n := by
  -- only the names that the body calls are linked
  let N : Names := ⟨Names.all.reads, fun p => Names.all.calls p ∧ f.definition.body.Calls p⟩
  have target : ∀ p span, N.calls p →
      Lower.Behaves inv fault (target (Context.ofFunction env callee f) p span) fun _ =>
        ∀ n, p = ⟨n, []⟩ → Q n := by
    intro p span hp
    rw [Compile.target]
    cases hs : p.single? with
    | none =>
        have hmember : ∀ d, Calls.member? p span = .error d → fault (.report d) := by
          intro d h
          rw [Calls.member?] at h
          split at h
          · split at h
            · cases h
            · cases h
              exact fair _ (by rintro ⟨⟩)
          · cases h
            exact fair _ (by rintro ⟨⟩)
        refine (Lower.Behaves.ofOutcome hmember).bind fun _ _ => .pure fun n hn => ?_
        rw [Path.single?_eq_some.mpr hn] at hs
        cases hs
    | some n =>
        obtain rfl := Path.single?_eq_some.mp hs
        refine (Lower.Behaves.lift (links n span hp.2)).bind fun t hQ => ?_
        refine (Lower.Behaves.record _ _).bind fun _ _ => .pure fun m hm => ?_
        cases hm
        exact hQ
  have hbody := f.definition.body.lower_behaves fair target (Block.within_calls (Names.within_all _))
  -- a unit fails as its body does, or because its namespace is gone
  refine ⟨fun st a st' h hi => ?_, fun st e h hi => ?_⟩
  · obtain ⟨-, steps, callees, st₁, hl, rfl, -⟩ := compileUnit_eq_ok h
    obtain ⟨hi₁, hcalls⟩ := hbody.ensures [] st steps callees st₁ hl hi
    exact ⟨hinv _ _ hi₁, fun n hn => Block.calls_of_within hcalls hn n rfl⟩
  · simp only [compileUnit] at h
    by_cases hlive : env.isLive f.home = true
    · rw [if_pos hlive, bind_apply] at h
      dsimp only [StateT.run] at h
      split at h
      · cases h
      · next e' hl =>
          cases h
          exact hbody.faults [] st e hl hi
    · rw [if_neg hlive] at h
      cases h
      exact fair (homeGone.orSpan f.nameSpan) (by rintro ⟨⟩)

/-- What is kept was made of functions from which every chain of calls ends. -/
def Ended (env : Linker) (f : Function) (st : State) : Prop :=
  ∀ entry ∈ st.done, ∃ g, f.ComesTo env.lookup [] g ∧ g.id = entry.1 ∧ g.Ends env.lookup []

/-- What is kept for a function tells that its chains of calls end; otherwise its unit is compiled,
unless the function waits already or no fuel is left. -/
theorem function_behaves_of_unit {fuel : Nat} {active : List (Nat × String)}
    (numbered : f.Numbered env.lookup [])
    (hg : f.ComesTo env.lookup [] g)
    (hcycle : (active.any fun entry => entry.1 = g.id) = true → f.Cyclic env.lookup [])
    (hunit : ¬ (active.any fun entry => entry.1 = g.id) = true → ∃ n, fuel = n + 1 ∧
      Behaves (Ended env f) (Fault.Fair (f.Cyclic env.lookup []))
        (compileUnit env (function env n (active ++ [(g.id, g.name)])) g) fun _ =>
          g.Ends env.lookup []) :
    Behaves (Ended env f) (Fault.Fair (f.Cyclic env.lookup [])) (function env fuel active g) fun _ =>
      g.Ends env.lookup [] := by
  refine ⟨fun st a st' h hi => ?_, fun st e h hi => ?_⟩
  · obtain ⟨entry, hfind, rfl, rfl⟩ | ⟨-, hactive, n, st₁, rfl, hb, rfl⟩ := function_eq_ok h
    · obtain ⟨g', hg', hsame, hends⟩ := hi entry (List.mem_of_find?_eq_some hfind)
      have hid : entry.1 = g.id := by simpa using List.find?_some hfind
      obtain rfl := numbered g' g hg' hg (hsame.trans hid)
      exact ⟨hi, hends⟩
    · obtain ⟨n', hn', hbehaves⟩ := hunit hactive
      cases hn'
      obtain ⟨hi₁, hends⟩ := hbehaves.ensures st a st₁ hb hi
      refine ⟨fun entry hentry => ?_, hends⟩
      rcases List.mem_cons.mp hentry with rfl | hentry
      · exact ⟨g, hg, rfl, hends⟩
      · exact hi₁ entry hentry
  · rw [function_apply] at h
    split at h
    · cases h
    · split at h
      · next hactive =>
          cases h
          exact ⟨_, rfl, fun _ => hcycle hactive⟩
      · next hactive =>
          obtain ⟨n, rfl, hbehaves⟩ := hunit hactive
          dsimp only at h
          split at h
          · cases h
          · next e' he =>
              cases h
              exact hbehaves.faults st e he hi

/-- If a function is compiled, every chain of calls from it ends. A function that waits already is on
a cycle. -/
theorem function_behaves (counts : Counts env.bound (Finds env.lookup))
    (numbered : f.Numbered env.lookup [])
    {fuel : Nat} {active : List (Nat × String)} (hg : f.ComesTo env.lookup [] g)
    (hwaiting : Waiting env.bound (Finds env.lookup) fuel active g)
    (hlead : f.Lead env.lookup [] active g) :
    Behaves (Ended env f) (Fault.Fair (f.Cyclic env.lookup [])) (function env fuel active g) fun _ =>
      g.Ends env.lookup [] := by
  induction fuel generalizing active g with
  | zero =>
      exact function_behaves_of_unit numbered hg (hlead.cyclic numbered hg) fun hactive =>
        absurd (hwaiting.of_no_fuel counts) hactive
  | succ fuel ih =>
      refine function_behaves_of_unit numbered hg (hlead.cyclic numbered hg)
        fun hactive => ⟨fuel, rfl, ?_⟩
      have links : ∀ n span, g.definition.body.Calls ⟨n, []⟩ →
          Behaves (Ended env f) (Fault.Fair (f.Cyclic env.lookup []))
            (linkName env (function env fuel (active ++ [(g.id, g.name)])) g n span) fun _ =>
              ∀ c h, env.lookup g.home n = some (.callable c) → c.plain? = some h →
                h.Ends env.lookup [] := by
        intro n span hn
        refine linkName_behaves (fun e he => he) (fun e s he => he.withNote s) (fun c h hl hc => ?_)
          (fun hnone c h hl hc => absurd hc (hnone c h hl)) span
        have hcall : g.CallsInto env.lookup [] h := ⟨n, c, List.not_mem_nil, hn, hl, hc⟩
        have hcallee := ih (hg.tail hcall) (hwaiting.next hactive hcall.finds) (hlead.next hg hcall)
        refine ⟨hcallee.ensures.mono fun a hends c' h' hl' hc' => ?_, hcallee.faults⟩
        rw [hl] at hl'
        cases hl'
        rw [hc] at hc'
        cases hc'
        exact hends
      have hunit := compileUnit_behaves (fun d => .of_kind) links fun st n hst => hst
      refine ⟨hunit.ensures.mono fun a hlinked => .intro g fun h hcall => ?_, hunit.faults⟩
      obtain ⟨n, c, -, hn, hl, hc⟩ := hcall
      exact hlinked n hn c h hl hc

end Compile

/-- A compilation fails if it can come to a cycle of calls, and says so only then. -/
theorem Linker.compile_detects {env : Linker} {f : Function}
    (counts : Counts env.bound (Finds env.lookup))
    (numbered : f.Numbered env.lookup [])
    (nextId : Nat) : Detects (f.Cyclic env.lookup []) (env.compile nextId f) := by
  have h := Compile.function_behaves counts numbered .refl (.start _ _ f) (.start f f)
  have hstart : Compile.Ended env f { nextId } := fun _ h => absurd h List.not_mem_nil
  rw [compile_eq]
  rcases hrun : Compile.function env (env.bound + 1) [] f { nextId } with e | ⟨a, st⟩
  · refine ⟨fun _ => ⟨e, rfl⟩, fun e' he => ?_⟩
    cases he
    exact h.faults _ e hrun hstart
  · have hends := (h.ensures _ a st hrun hstart).2
    exact ⟨fun hcyclic => absurd hcyclic hends.not_cyclic, fun e he => nomatch he⟩

/-- A compilation of a function that calls into none finds no cycle. -/
theorem Linker.compile_detects_of_leaf {env : Linker} {f : Function}
    (counts : Counts env.bound (Finds env.lookup)) (leaf : ∀ g, ¬ f.CallsInto env.lookup [] g)
    (nextId : Nat) : Detects False (env.compile nextId f) := by
  have hself : ∀ g, f.ComesTo env.lookup [] g → g = f := by
    intro g hg
    rcases Relation.ReflTransGen.cases_head hg with rfl | ⟨h, hcall, -⟩
    · rfl
    · exact absurd hcall (leaf h)
  have hcyclic : f.Cyclic env.lookup [] ↔ False := by
    refine iff_false_intro fun ⟨g, hg, hcycle⟩ => ?_
    obtain rfl := hself g hg
    obtain ⟨h, hcall, -⟩ := Relation.TransGen.head'_iff.mp hcycle
    exact leaf h hcall
  rw [← hcyclic]
  exact compile_detects counts (fun g h hg hh _ => (hself g hg).trans (hself h hh).symm) nextId

end Graft
