import Graft.Proofs.Trees

/-!
# Trees with other spans and other callees

A tree is touched when its expressions get other spans and its calls other callees, and nothing else
of it changes. Touching it keeps its shape: its parts are the parts of the tree, touched.
-/

namespace Graft

/-- The expression with another span, and, if it is a call, with another callee. -/
def Expr.touch (rename : Path → Path) (respan : Span → Span) : Expr → Expr
  | .call callee calleeSpan args s => .call (rename callee) calleeSpan args (respan s)
  | e => e.withSpan (respan e.span)

/-- The tree with every expression touched. -/
abbrev Expr.retouch (rename : Path → Path) (respan : Span → Span) (e : Expr) : Expr :=
  (e.mapM (m := Id) fun e => Pure.pure (e.touch rename respan)).run

abbrev Expr.retouchAll (rename : Path → Path) (respan : Span → Span) (es : List Expr) : List Expr :=
  (Expr.mapM.mapAllM (m := Id) (fun e => Pure.pure (e.touch rename respan)) es).run

abbrev Place.retouch (rename : Path → Path) (respan : Span → Span) (p : Place) : Place :=
  (p.mapM (m := Id) fun e => Pure.pure (e.touch rename respan)).run

abbrev Stmt.retouch (rename : Path → Path) (respan : Span → Span) (x : Stmt) : Stmt :=
  (x.mapM (m := Id) fun e => Pure.pure (e.touch rename respan)).run

abbrev Block.retouch (rename : Path → Path) (respan : Span → Span) (b : Block) : Block :=
  (b.mapM (m := Id) fun e => Pure.pure (e.touch rename respan)).run

variable {rename : Path → Path} {respan : Span → Span}

/-! ## Shape -/

theorem Expr.retouch_span (e : Expr) : (e.retouch rename respan).span = respan e.span := by
  cases e <;> rfl

theorem Stmt.retouch_assignTuple (ps : List Place) (e : Expr) (s : Span) :
    (Stmt.assignTuple ps e s).retouch rename respan =
      .assignTuple (ps.map (Place.retouch rename respan)) (e.retouch rename respan) s := by
  have hps : (ps.mapM (m := Id) (Place.mapM fun e => Pure.pure (e.touch rename respan))).run =
      ps.map (Place.retouch rename respan) := by
    simp [List.idRun_mapM]
  rw [← hps]
  rfl

theorem Block.retouch_mk (ss : List Stmt) (tail : Option Expr) (s : Span) :
    (Block.mk ss tail s).retouch rename respan =
      .mk (ss.map (Stmt.retouch rename respan)) (tail.map (Expr.retouch rename respan)) s := by
  have hss : (Block.mapAllM (m := Id) (fun e => Pure.pure (e.touch rename respan)) ss).run =
      ss.map (Stmt.retouch rename respan) := by
    induction ss with
    | nil => rfl
    | cons x rest ih =>
        rw [List.map_cons, ← ih]
        rfl
  rw [← hss]
  cases tail <;> rfl

/-! ## Parts -/

theorem Expr.retouch_subterms (e : Expr) :
    (e.retouch rename respan).subterms = e.subterms.map (Expr.retouch rename respan) := by
  have all : ∀ es : List Expr,
      (∀ e ∈ es, (e.retouch rename respan).subterms = e.subterms.map (Expr.retouch rename respan)) →
      Expr.subterms.subtermsAll (Expr.retouchAll rename respan es) =
        (Expr.subterms.subtermsAll es).map (Expr.retouch rename respan) := by
    intro es
    induction es with
    | nil => exact fun _ => rfl
    | cons e rest ih =>
        intro h
        have he := h e List.mem_cons_self
        have hrest := ih fun e' hm => h e' (List.mem_cons_of_mem e hm)
        change (e.retouch rename respan).subterms ++
          Expr.subterms.subtermsAll (Expr.retouchAll rename respan rest) = _
        rw [he, hrest, Expr.subterms.subtermsAll, List.map_append]
  induction e with
  | num x s => rfl
  | bool b s => rfl
  | var n s => rfl
  | path p s => rfl
  | binary op l r s ihl ihr =>
      change (l.retouch rename respan).subterms ++ (r.retouch rename respan).subterms ++ [_] = _
      rw [ihl, ihr, subterms, List.map_append, List.map_append]
      rfl
  | unary op x s ih =>
      change (x.retouch rename respan).subterms ++ [_] = _
      rw [ih, subterms, List.map_append]
      rfl
  | call callee calleeSpan args s ih =>
      change Expr.subterms.subtermsAll (retouchAll rename respan args) ++ [_] = _
      rw [all args ih, subterms, List.map_append]
      rfl
  | index x i s ihx ihi =>
      change (x.retouch rename respan).subterms ++ (i.retouch rename respan).subterms ++ [_] = _
      rw [ihx, ihi, subterms, List.map_append, List.map_append]
      rfl
  | slice x a b s ihx iha ihb =>
      change (x.retouch rename respan).subterms ++ (a.retouch rename respan).subterms ++
        (b.retouch rename respan).subterms ++ [_] = _
      rw [ihx, iha, ihb, subterms, List.map_append, List.map_append, List.map_append]
      rfl
  | array es s ih =>
      change Expr.subterms.subtermsAll (retouchAll rename respan es) ++ [_] = _
      rw [all es ih, subterms, List.map_append]
      rfl
  | tuple es s ih =>
      change Expr.subterms.subtermsAll (retouchAll rename respan es) ++ [_] = _
      rw [all es ih, subterms, List.map_append]
      rfl

theorem Place.retouch_subterms (p : Place) :
    (p.retouch rename respan).subterms = p.subterms.map (Expr.retouch rename respan) := by
  cases p with
  | var n s => rfl
  | discard s => rfl
  | index base i s => exact i.retouch_subterms

/-- The parts of a touched block are its parts, touched, and so are the places that it assigns to. -/
theorem Block.retouch_parts (b : Block) :
    (b.retouch rename respan).subterms = b.subterms.map (Expr.retouch rename respan) ∧
      (b.retouch rename respan).places = b.places.map (Place.retouch rename respan) := by
  have all : ∀ ss : List Stmt,
      (∀ x ∈ ss, (x.retouch rename respan).subterms =
          x.subterms.map (Expr.retouch rename respan) ∧
        (x.retouch rename respan).places = x.places.map (Place.retouch rename respan)) →
      Block.subtermsAll (ss.map (Stmt.retouch rename respan)) =
          (Block.subtermsAll ss).map (Expr.retouch rename respan) ∧
        Block.placesAll (ss.map (Stmt.retouch rename respan)) =
          (Block.placesAll ss).map (Place.retouch rename respan) := by
    intro ss
    induction ss with
    | nil => exact fun _ => ⟨rfl, rfl⟩
    | cons x rest ih =>
        intro h
        obtain ⟨hes, hps⟩ := h x List.mem_cons_self
        obtain ⟨hes', hps'⟩ := ih fun y hm => h y (List.mem_cons_of_mem x hm)
        rw [List.map_cons, Block.subtermsAll, Block.placesAll, hes, hps, hes', hps',
          Block.subtermsAll, Block.placesAll, List.map_append, List.map_append]
        exact ⟨rfl, rfl⟩
  refine Block.induction
    (fun x => (x.retouch rename respan).subterms =
        x.subterms.map (Expr.retouch rename respan) ∧
      (x.retouch rename respan).places = x.places.map (Place.retouch rename respan))
    (fun b => (b.retouch rename respan).subterms =
        b.subterms.map (Expr.retouch rename respan) ∧
      (b.retouch rename respan).places = b.places.map (Place.retouch rename respan))
    ?bind ?assign ?assignTuple ?branch ?branchElse ?forRange ?whileLoop ?eval ?give ?mk b
  case bind =>
    intro t e s
    exact ⟨e.retouch_subterms, rfl⟩
  case assign =>
    intro p e s
    refine ⟨?_, rfl⟩
    change (p.retouch rename respan).subterms ++ (e.retouch rename respan).subterms = _
    rw [p.retouch_subterms, e.retouch_subterms, Stmt.subterms, List.map_append]
  case assignTuple =>
    intro ps e s
    rw [Stmt.retouch_assignTuple]
    refine ⟨?_, rfl⟩
    rw [Stmt.subterms, Stmt.subterms, e.retouch_subterms, List.map_append, List.flatMap_map,
      List.map_flatMap]
    simp only [Place.retouch_subterms]
  case branch =>
    intro c yes s ih
    refine ⟨?_, ih.2⟩
    change (c.retouch rename respan).subterms ++ (yes.retouch rename respan).subterms = _
    rw [c.retouch_subterms, ih.1, Stmt.subterms, List.map_append]
  case branchElse =>
    intro c yes no s ihy ihn
    constructor
    · change (c.retouch rename respan).subterms ++ (yes.retouch rename respan).subterms ++
        (no.retouch rename respan).subterms = _
      rw [c.retouch_subterms, ihy.1, ihn.1, Stmt.subterms, List.map_append, List.map_append]
    · change (yes.retouch rename respan).places ++ (no.retouch rename respan).places = _
      rw [ihy.2, ihn.2, Stmt.places, List.map_append]
  case forRange =>
    intro v a b body s ih
    refine ⟨?_, ih.2⟩
    change (a.retouch rename respan).subterms ++ (b.retouch rename respan).subterms ++
      (body.retouch rename respan).subterms = _
    rw [a.retouch_subterms, b.retouch_subterms, ih.1, Stmt.subterms, List.map_append,
      List.map_append]
  case whileLoop =>
    intro c body s ih
    refine ⟨?_, ih.2⟩
    change (c.retouch rename respan).subterms ++ (body.retouch rename respan).subterms = _
    rw [c.retouch_subterms, ih.1, Stmt.subterms, List.map_append]
  case eval =>
    intro e s
    exact ⟨e.retouch_subterms, rfl⟩
  case give =>
    intro v s
    cases v with
    | none => exact ⟨rfl, rfl⟩
    | some e => exact ⟨e.retouch_subterms, rfl⟩
  case mk =>
    intro ss tail s ih
    obtain ⟨hes, hps⟩ := all ss ih
    rw [Block.retouch_mk]
    refine ⟨?_, hps⟩
    cases tail with
    | none => exact hes
    | some e =>
        rw [Option.map_some, Block.subterms, hes, e.retouch_subterms, Block.subterms,
          List.map_append]

/-- What a touched tree calls are the renamed callees of the tree. -/
theorem Block.retouch_within {N : Names} {b : Block} (h : N.Within b.subterms) :
    Names.Within ⟨N.reads, fun p => ∃ q, N.calls q ∧ rename q = p⟩
      (b.retouch rename respan).subterms := by
  rw [b.retouch_parts.1]
  intro e he
  obtain ⟨x, hx, rfl⟩ := List.mem_map.mp he
  have hN := h x hx
  cases x with
  | var n s => exact hN
  | call callee calleeSpan args s => exact ⟨callee, hN, rfl⟩
  | num _ _ => trivial
  | bool _ _ => trivial
  | path _ _ => trivial
  | binary _ _ _ _ => trivial
  | unary _ _ _ => trivial
  | index _ _ _ => trivial
  | slice _ _ _ _ => trivial
  | array _ _ => trivial
  | tuple _ _ => trivial

theorem Block.retouch_stored (b : Block) : (b.retouch rename respan).stored = b.stored := by
  rw [Block.stored, Block.stored, b.retouch_parts.2, List.filterMap_map]
  congr 1
  funext p
  cases p <;> rfl

/-! ## Trees that stay as they are -/

theorem Expr.touch_id (e : Expr) : e.touch id id = e := by
  cases e <;> rfl

theorem Block.retouch_id (b : Block) : b.retouch id id = b := mapM_eq_self fun x _ => x.touch_id

end Graft
