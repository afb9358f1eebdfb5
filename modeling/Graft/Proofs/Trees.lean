import Graft.Tree.Names

/-!
# Induction on trees

What holds of an expression whenever it holds of its parts holds of all expressions. The parts of a
call, an array or a tuple are the members of a list. Statements and blocks come together: what is to
be shown of each is given apart.

What a run of a tree asks of the world outside are the names that the tree reads and the paths that
it calls; `Names` bounds them.
-/

namespace Graft

@[elab_as_elim, induction_eliminator]
theorem Expr.induction {motive : Expr → Prop}
    (num : ∀ x s, motive (.num x s))
    (bool : ∀ b s, motive (.bool b s))
    (var : ∀ n s, motive (.var n s))
    (path : ∀ p s, motive (.path p s))
    (binary : ∀ op l r s, motive l → motive r → motive (.binary op l r s))
    (unary : ∀ op e s, motive e → motive (.unary op e s))
    (call : ∀ callee calleeSpan args s, (∀ e ∈ args, motive e) →
      motive (.call callee calleeSpan args s))
    (index : ∀ e i s, motive e → motive i → motive (.index e i s))
    (slice : ∀ e a b s, motive e → motive a → motive b → motive (.slice e a b s))
    (array : ∀ es s, (∀ e ∈ es, motive e) → motive (.array es s))
    (tuple : ∀ es s, (∀ e ∈ es, motive e) → motive (.tuple es s)) :
    ∀ e, motive e := by
  intro e
  refine Expr.rec (motive_1 := motive) (motive_2 := fun es => ∀ e ∈ es, motive e)
    num bool var path binary unary call index slice array tuple ?nil ?cons e
  case nil => exact fun _ h => absurd h List.not_mem_nil
  case cons =>
    intro head tail hhead htail e he
    rcases List.mem_cons.mp he with rfl | he
    · exact hhead
    · exact htail e he

theorem Block.induction (stmt : Stmt → Prop) (block : Block → Prop)
    (bind : ∀ t e s, stmt (.bind t e s))
    (assign : ∀ p e s, stmt (.assign p e s))
    (assignTuple : ∀ ps e s, stmt (.assignTuple ps e s))
    (branch : ∀ c yes s, block yes → stmt (.branch c yes none s))
    (branchElse : ∀ c yes no s, block yes → block no → stmt (.branch c yes (some no) s))
    (forRange : ∀ v a b body s, block body → stmt (.forRange v a b body s))
    (whileLoop : ∀ c body s, block body → stmt (.whileLoop c body s))
    (eval : ∀ e s, stmt (.eval e s))
    (give : ∀ v s, stmt (.give v s))
    (mk : ∀ ss t s, (∀ x ∈ ss, stmt x) → block (.mk ss t s)) :
    ∀ b, block b := by
  intro b
  refine Block.rec (motive_1 := stmt) (motive_2 := block)
    (motive_3 := fun no => ∀ n ∈ no, block n) (motive_4 := fun ss => ∀ x ∈ ss, stmt x)
    bind assign assignTuple ?branch forRange whileLoop eval give mk ?none ?some ?nil ?cons b
  case branch =>
    intro c yes no s hyes hno
    cases no with
    | none => exact branch c yes s hyes
    | some n => exact branchElse c yes n s hyes (hno n rfl)
  case none => exact fun _ h => nomatch h
  case some =>
    intro n hn m hm
    cases hm
    exact hn
  case nil => exact fun _ h => absurd h List.not_mem_nil
  case cons =>
    intro head tail hhead htail x hx
    rcases List.mem_cons.mp hx with rfl | hx
    · exact hhead
    · exact htail x hx

/-! ## What holds of every part -/

/-- `N` holds of the expression and of all its parts. -/
def Expr.Throughout (N : Expr → Prop) (e : Expr) : Prop := ∀ x ∈ e.subterms, N x

/-- `N` holds of every expression in the statement. -/
def Stmt.Throughout (N : Expr → Prop) (x : Stmt) : Prop := ∀ e ∈ x.subterms, N e

/-- `N` holds of every expression in the block. -/
def Block.Throughout (N : Expr → Prop) (b : Block) : Prop := ∀ e ∈ b.subterms, N e

section

variable {N : Expr → Prop}

theorem Expr.Throughout.self {e : Expr} (h : e.Throughout N) : N e := by
  apply h
  cases e with
  | num _ _ | bool _ _ | var _ _ | path _ _ => exact List.mem_singleton_self _
  | _ => exact List.mem_append_right _ (List.mem_singleton_self _)

theorem Expr.throughout_all {es : List Expr} :
    (∀ x ∈ subterms.subtermsAll es, N x) ↔ ∀ e ∈ es, e.Throughout N := by
  induction es with
  | nil => simp [subterms.subtermsAll]
  | cons e es ih => simp [subterms.subtermsAll, or_imp, forall_and, ih, Throughout]

theorem Expr.throughout_node {e : Expr} {parts : List Expr} (h : e.subterms = parts ++ [e]) :
    e.Throughout N ↔ (∀ x ∈ parts, N x) ∧ N e := by
  unfold Throughout
  rw [h, List.forall_mem_append]
  simp

theorem Expr.throughout_leaf {e : Expr} (h : e.subterms = [e]) : e.Throughout N ↔ N e := by
  unfold Throughout
  rw [h]
  exact List.forall_mem_singleton

section

variable {e l r i a b : Expr} {es : List Expr} {s t : Span}

theorem Expr.throughout_num {x : Float} : (num x s).Throughout N ↔ N (num x s) := throughout_leaf rfl

theorem Expr.throughout_bool {x : Bool} : (bool x s).Throughout N ↔ N (bool x s) :=
  throughout_leaf rfl

theorem Expr.throughout_var {n : String} : (var n s).Throughout N ↔ N (var n s) :=
  throughout_leaf rfl

theorem Expr.throughout_path {p : Path} : (path p s).Throughout N ↔ N (path p s) :=
  throughout_leaf rfl

theorem Expr.throughout_binary {op : BinaryOp} : (binary op l r s).Throughout N ↔
    l.Throughout N ∧ r.Throughout N ∧ N (binary op l r s) := by
  rw [throughout_node rfl, List.forall_mem_append]
  exact and_assoc

theorem Expr.throughout_unary {op : UnaryOp} :
    (unary op e s).Throughout N ↔ e.Throughout N ∧ N (unary op e s) :=
  throughout_node rfl

theorem Expr.throughout_call {p : Path} :
    (call p t es s).Throughout N ↔ (∀ e ∈ es, e.Throughout N) ∧ N (call p t es s) := by
  rw [throughout_node rfl, throughout_all]

theorem Expr.throughout_index : (index e i s).Throughout N ↔
    e.Throughout N ∧ i.Throughout N ∧ N (index e i s) := by
  rw [throughout_node rfl, List.forall_mem_append]
  exact and_assoc

theorem Expr.throughout_slice : (slice e a b s).Throughout N ↔
    e.Throughout N ∧ a.Throughout N ∧ b.Throughout N ∧ N (slice e a b s) := by
  rw [throughout_node rfl, List.forall_mem_append, List.forall_mem_append, and_assoc, and_assoc]
  rfl

theorem Expr.throughout_array :
    (array es s).Throughout N ↔ (∀ e ∈ es, e.Throughout N) ∧ N (array es s) := by
  rw [throughout_node rfl, throughout_all]

theorem Expr.throughout_tuple :
    (tuple es s).Throughout N ↔ (∀ e ∈ es, e.Throughout N) ∧ N (tuple es s) := by
  rw [throughout_node rfl, throughout_all]

end

theorem Block.throughout_all {ss : List Stmt} :
    (∀ e ∈ subtermsAll ss, N e) ↔ ∀ x ∈ ss, x.Throughout N := by
  induction ss with
  | nil => simp [subtermsAll]
  | cons x ss ih => simp [subtermsAll, or_imp, forall_and, ih, Stmt.Throughout]

theorem Block.throughout_mk {ss : List Stmt} {tail : Option Expr} {s : Span} :
    (Block.mk ss tail s).Throughout N ↔
      (∀ x ∈ ss, x.Throughout N) ∧ ∀ e ∈ tail, e.Throughout N := by
  cases tail <;>
    simp [Block.Throughout, Block.subterms, or_imp, forall_and, throughout_all, Expr.Throughout]

section

variable {p : Place} {ps : List Place} {e c a b : Expr} {yes no body : Block} {s : Span}

theorem Stmt.throughout_assign : (assign p e s).Throughout N ↔
    (∀ x ∈ p.subterms, N x) ∧ e.Throughout N := List.forall_mem_append

theorem Stmt.throughout_assignTuple : (assignTuple ps e s).Throughout N ↔
    (∀ p ∈ ps, ∀ x ∈ p.subterms, N x) ∧ e.Throughout N :=
  List.forall_mem_append.trans (and_congr_left' List.forall_mem_flatMap)

theorem Stmt.throughout_branch :
    (branch c yes none s).Throughout N ↔ c.Throughout N ∧ yes.Throughout N :=
  List.forall_mem_append

theorem Stmt.throughout_branchElse : (branch c yes (some no) s).Throughout N ↔
    c.Throughout N ∧ yes.Throughout N ∧ no.Throughout N :=
  List.forall_mem_append.trans ((and_congr_left' List.forall_mem_append).trans and_assoc)

theorem Stmt.throughout_forRange {v : Ident} : (forRange v a b body s).Throughout N ↔
    a.Throughout N ∧ b.Throughout N ∧ body.Throughout N :=
  List.forall_mem_append.trans ((and_congr_left' List.forall_mem_append).trans and_assoc)

theorem Stmt.throughout_whileLoop :
    (whileLoop c body s).Throughout N ↔ c.Throughout N ∧ body.Throughout N :=
  List.forall_mem_append

end

/-! What holds of every part holds of every part of each part. -/

theorem Expr.Throughout.parts {e : Expr} (h : e.Throughout N) : e.Throughout (Throughout N) := by
  induction e with
  | num x s => exact throughout_num.mpr h
  | bool b s => exact throughout_bool.mpr h
  | var n s => exact throughout_var.mpr h
  | path p s => exact throughout_path.mpr h
  | binary op l r s ihl ihr =>
      obtain ⟨hl, hr, -⟩ := throughout_binary.mp h
      exact throughout_binary.mpr ⟨ihl hl, ihr hr, h⟩
  | unary op x s ih =>
      obtain ⟨hx, -⟩ := throughout_unary.mp h
      exact throughout_unary.mpr ⟨ih hx, h⟩
  | call p t args s ih =>
      obtain ⟨hargs, -⟩ := throughout_call.mp h
      exact throughout_call.mpr ⟨fun x hx => ih x hx (hargs x hx), h⟩
  | index x i s ihx ihi =>
      obtain ⟨hx, hi, -⟩ := throughout_index.mp h
      exact throughout_index.mpr ⟨ihx hx, ihi hi, h⟩
  | slice x a b s ihx iha ihb =>
      obtain ⟨hx, ha, hb, -⟩ := throughout_slice.mp h
      exact throughout_slice.mpr ⟨ihx hx, iha ha, ihb hb, h⟩
  | array es s ih =>
      obtain ⟨hes, -⟩ := throughout_array.mp h
      exact throughout_array.mpr ⟨fun x hx => ih x hx (hes x hx), h⟩
  | tuple es s ih =>
      obtain ⟨hes, -⟩ := throughout_tuple.mp h
      exact throughout_tuple.mpr ⟨fun x hx => ih x hx (hes x hx), h⟩

theorem Place.throughout_parts {p : Place} (h : ∀ x ∈ p.subterms, N x) :
    ∀ x ∈ p.subterms, x.Throughout N := by
  cases p with
  | index base i s => exact Expr.Throughout.parts h
  | _ => exact fun x hx => absurd hx List.not_mem_nil

theorem Block.Throughout.parts {b : Block} (h : b.Throughout N) :
    b.Throughout (Expr.Throughout N) := by
  revert h
  refine Block.induction
    (fun x => x.Throughout N → x.Throughout (Expr.Throughout N))
    (fun b => b.Throughout N → b.Throughout (Expr.Throughout N))
    ?bind ?assign ?assignTuple ?branch ?branchElse ?forRange ?whileLoop ?eval ?give ?mk b
  case bind => exact fun t e s h => Expr.Throughout.parts h
  case assign =>
    intro p e s h
    obtain ⟨hp, he⟩ := Stmt.throughout_assign.mp h
    exact Stmt.throughout_assign.mpr ⟨p.throughout_parts hp, Expr.Throughout.parts he⟩
  case assignTuple =>
    intro ps e s h
    obtain ⟨hps, he⟩ := Stmt.throughout_assignTuple.mp h
    exact Stmt.throughout_assignTuple.mpr
      ⟨fun p hp => p.throughout_parts (hps p hp), Expr.Throughout.parts he⟩
  case branch =>
    intro c yes s ih h
    obtain ⟨hc, hyes⟩ := Stmt.throughout_branch.mp h
    exact Stmt.throughout_branch.mpr ⟨hc.parts, ih hyes⟩
  case branchElse =>
    intro c yes no s ihyes ihno h
    obtain ⟨hc, hyes, hno⟩ := Stmt.throughout_branchElse.mp h
    exact Stmt.throughout_branchElse.mpr ⟨hc.parts, ihyes hyes, ihno hno⟩
  case forRange =>
    intro v a b body s ih h
    obtain ⟨ha, hb, hbody⟩ := Stmt.throughout_forRange.mp h
    exact Stmt.throughout_forRange.mpr ⟨ha.parts, hb.parts, ih hbody⟩
  case whileLoop =>
    intro c body s ih h
    obtain ⟨hc, hbody⟩ := Stmt.throughout_whileLoop.mp h
    exact Stmt.throughout_whileLoop.mpr ⟨hc.parts, ih hbody⟩
  case eval => exact fun e s h => Expr.Throughout.parts h
  case give =>
    intro v s h
    cases v with
    | none => exact fun x hx => absurd hx List.not_mem_nil
    | some e => exact Expr.Throughout.parts h
  case mk =>
    intro ss tail s ih h
    obtain ⟨hss, htail⟩ := Block.throughout_mk.mp h
    exact Block.throughout_mk.mpr
      ⟨fun x hx => ih x hx (hss x hx), fun e he => (htail e he).parts⟩

end

/-! ## Trees that stay as they are -/

section

variable {f : Expr → Id Expr}

/-- What leaves every part of an expression as it is leaves the expression as it is. -/
theorem Expr.mapM_eq_self {e : Expr} (h : e.Throughout fun x => f x = x) : e.mapM f = e := by
  have all : ∀ es : List Expr, (∀ e ∈ es, e.mapM f = e) → mapM.mapAllM f es = es := by
    intro es hes
    induction es with
    | nil => rfl
    | cons e es ih =>
        show e.mapM f :: mapM.mapAllM f es = _
        rw [hes e List.mem_cons_self, ih fun x hx => hes x (List.mem_cons_of_mem e hx)]
  induction e with
  | num x s => exact h.self
  | bool b s => exact h.self
  | var n s => exact h.self
  | path p s => exact h.self
  | binary op l r s ihl ihr =>
      obtain ⟨hl, hr, hself⟩ := throughout_binary.mp h
      show f (binary op (l.mapM f) (r.mapM f) s) = _
      rw [ihl hl, ihr hr, hself]
  | unary op x s ih =>
      obtain ⟨hx, hself⟩ := throughout_unary.mp h
      show f (unary op (x.mapM f) s) = _
      rw [ih hx, hself]
  | call callee calleeSpan args s ih =>
      obtain ⟨hargs, hself⟩ := throughout_call.mp h
      show f (call callee calleeSpan (mapM.mapAllM f args) s) = _
      rw [all args fun x hx => ih x hx (hargs x hx), hself]
  | index x i s ihx ihi =>
      obtain ⟨hx, hi, hself⟩ := throughout_index.mp h
      show f (index (x.mapM f) (i.mapM f) s) = _
      rw [ihx hx, ihi hi, hself]
  | slice x a b s ihx iha ihb =>
      obtain ⟨hx, ha, hb, hself⟩ := throughout_slice.mp h
      show f (slice (x.mapM f) (a.mapM f) (b.mapM f) s) = _
      rw [ihx hx, iha ha, ihb hb, hself]
  | array es s ih =>
      obtain ⟨hes, hself⟩ := throughout_array.mp h
      show f (array (mapM.mapAllM f es) s) = _
      rw [all es fun x hx => ih x hx (hes x hx), hself]
  | tuple es s ih =>
      obtain ⟨hes, hself⟩ := throughout_tuple.mp h
      show f (tuple (mapM.mapAllM f es) s) = _
      rw [all es fun x hx => ih x hx (hes x hx), hself]

theorem Place.mapM_eq_self {p : Place} (h : ∀ x ∈ p.subterms, f x = x) : p.mapM f = p := by
  cases p with
  | index base i s => exact congrArg (Place.index base · s) (Expr.mapM_eq_self h)
  | var n s => rfl
  | discard s => rfl

/-- What leaves every expression of a block as it is leaves the block as it is. -/
theorem Block.mapM_eq_self {b : Block} (h : b.Throughout fun x => f x = x) : b.mapM f = b := by
  revert h
  refine Block.induction (fun x => (x.Throughout fun e => f e = e) → x.mapM f = x)
    (fun b => (b.Throughout fun e => f e = e) → b.mapM f = b)
    ?bind ?assign ?assignTuple ?branch ?branchElse ?forRange ?whileLoop ?eval ?give ?mk b
  case bind => exact fun t e s h => congrArg (Stmt.bind t · s) (Expr.mapM_eq_self h)
  case assign =>
    intro p e s h
    obtain ⟨hp, he⟩ := Stmt.throughout_assign.mp h
    show Stmt.assign (p.mapM f) (e.mapM f) s = _
    rw [Place.mapM_eq_self hp, Expr.mapM_eq_self he]
  case assignTuple =>
    intro ps e s h
    obtain ⟨hps, he⟩ := Stmt.throughout_assignTuple.mp h
    have hps : (ps.mapM (m := Id) (Place.mapM f)).run = ps := by
      rw [List.idRun_mapM]
      exact (List.map_congr_left fun p hp => Place.mapM_eq_self (hps p hp)).trans (List.map_id ps)
    show Stmt.assignTuple (ps.mapM (m := Id) (Place.mapM f)).run (e.mapM f) s = _
    rw [hps, Expr.mapM_eq_self he]
  case branch =>
    intro c yes s ih h
    obtain ⟨hc, hyes⟩ := Stmt.throughout_branch.mp h
    show Stmt.branch (c.mapM f) (yes.mapM f) none s = _
    rw [Expr.mapM_eq_self hc, ih hyes]
  case branchElse =>
    intro c yes no s ihyes ihno h
    obtain ⟨hc, hyes, hno⟩ := Stmt.throughout_branchElse.mp h
    show Stmt.branch (c.mapM f) (yes.mapM f) (some (no.mapM f)) s = _
    rw [Expr.mapM_eq_self hc, ihyes hyes, ihno hno]
  case forRange =>
    intro v a b body s ih h
    obtain ⟨ha, hb, hbody⟩ := Stmt.throughout_forRange.mp h
    show Stmt.forRange v (a.mapM f) (b.mapM f) (body.mapM f) s = _
    rw [Expr.mapM_eq_self ha, Expr.mapM_eq_self hb, ih hbody]
  case whileLoop =>
    intro c body s ih h
    obtain ⟨hc, hbody⟩ := Stmt.throughout_whileLoop.mp h
    show Stmt.whileLoop (c.mapM f) (body.mapM f) s = _
    rw [Expr.mapM_eq_self hc, ih hbody]
  case eval => exact fun e s h => congrArg (Stmt.eval · s) (Expr.mapM_eq_self h)
  case give =>
    intro v s h
    cases v with
    | none => rfl
    | some e => exact congrArg (fun e => Stmt.give (some e) s) (Expr.mapM_eq_self h)
  case mk =>
    intro ss tail s ih h
    obtain ⟨hss, htail⟩ := Block.throughout_mk.mp h
    have hall : ∀ ss : List Stmt, (∀ x ∈ ss, x.mapM f = x) → Block.mapAllM f ss = ss := by
      intro ss hss
      induction ss with
      | nil => rfl
      | cons x ss ih =>
          show x.mapM f :: Block.mapAllM f ss = _
          rw [hss x List.mem_cons_self, ih fun y hy => hss y (List.mem_cons_of_mem x hy)]
    have hstay := hall ss fun x hx => ih x hx (hss x hx)
    cases tail with
    | none => exact congrArg (Block.mk · none s) hstay
    | some e =>
        show Block.mk (Block.mapAllM f ss) (some (e.mapM f)) s = _
        rw [hstay, Expr.mapM_eq_self (htail e rfl)]

end

/-! ## Names that a tree uses -/

/-- Names that may be read from outside, and paths that may be called. -/
structure Names where
  reads : String → Prop
  calls : Path → Prop

namespace Names

/-- All names and paths. -/
def all : Names := ⟨fun _ => True, fun _ => True⟩

/-- What an expression itself, its parts apart, reads or calls is among the names. -/
def Admits (N : Names) : Expr → Prop
  | .var n _ => N.reads n
  | .call p _ _ _ => N.calls p
  | _ => True

def Within (N : Names) (es : List Expr) : Prop := ∀ e ∈ es, N.Admits e

theorem within_all (es : List Expr) : all.Within es := by
  intro e _
  cases e <;> trivial

theorem within_append {N : Names} {es fs : List Expr} :
    N.Within (es ++ fs) ↔ N.Within es ∧ N.Within fs := List.forall_mem_append

theorem within_exprs {N : Names} {es : List Expr} :
    N.Within (Expr.subterms.subtermsAll es) ↔ ∀ e ∈ es, N.Within e.subterms :=
  Expr.throughout_all

theorem within_stmts {N : Names} {ss : List Stmt} :
    N.Within (Block.subtermsAll ss) ↔ ∀ x ∈ ss, N.Within x.subterms :=
  Block.throughout_all

end Names

/-! ## Calls -/

/-- The body calls the path somewhere. -/
def Block.Calls (b : Block) (p : Path) : Prop := ∃ site ∈ b.callSites, site.callee = p

theorem Block.calls_iff {b : Block} {p : Path} :
    b.Calls p ↔ p ∈ b.callSites.map CallSite.callee :=
  List.mem_map.symm

theorem Block.calls_of_within {N : Names} {b : Block} {p : Path} (h : N.Within b.subterms)
    (hp : b.Calls p) : N.calls p := by
  obtain ⟨site, hsite, rfl⟩ := hp
  obtain ⟨e, he, hcall⟩ := List.mem_filterMap.mp hsite
  have hN := h e he
  cases e with
  | call callee calleeSpan args span =>
      cases hcall
      exact hN
  | _ => cases hcall

theorem Block.within_calls {N : Names} {b : Block} (h : N.Within b.subterms) :
    Names.Within ⟨N.reads, fun p => N.calls p ∧ b.Calls p⟩ b.subterms := by
  intro e he
  have hN := h e he
  cases e with
  | var n s => exact hN
  | call callee calleeSpan args s =>
      exact ⟨hN, ⟨callee, calleeSpan⟩, List.mem_filterMap.mpr ⟨_, he, rfl⟩, rfl⟩
  | num _ _ => trivial
  | bool _ _ => trivial
  | path _ _ => trivial
  | binary _ _ _ _ => trivial
  | unary _ _ _ => trivial
  | index _ _ _ => trivial
  | slice _ _ _ _ => trivial
  | array _ _ => trivial
  | tuple _ _ => trivial

end Graft
