import Graft.Tree.Walk
import Mathlib

/-!
# Trees as nodes with children

Expressions, places, statements and blocks taken as one sort of thing: a node has children, from
left to right, and can be built again from other children of the same sorts. The two walks of a tree
are the same on every node: the children in order, and then, if it is one, the expression itself.
-/

namespace Graft

/-! ## Parts of expressions -/

namespace Expr

/-- The expressions that an expression is made of, from left to right. -/
def parts : Expr → List Expr
  | num .. | bool .. | var .. | path .. => []
  | binary _ l r _ => [l, r]
  | unary _ e _ => [e]
  | call _ _ args _ => args
  | index e i _ => [e, i]
  | slice e a b _ => [e, a, b]
  | array es _ | tuple es _ => es

/-- The expression made of other parts, as many as it has. -/
def withParts : Expr → List Expr → Expr
  | binary op _ _ s, [l, r] => binary op l r s
  | unary op _ s, [e] => unary op e s
  | call c cs _ s, args => call c cs args s
  | index _ _ s, [e, i] => index e i s
  | slice _ _ _ s, [e, a, b] => slice e a b s
  | array _ s, es => array es s
  | tuple _ s, es => tuple es s
  | e, _ => e

theorem withParts_parts (e : Expr) : e.withParts e.parts = e := by
  cases e <;> rfl

variable {e : Expr} {es fs : List Expr}

theorem parts_withParts (h : es.length = e.parts.length) : (e.withParts es).parts = es := by
  cases e with
  | num | bool | var | path => exact (List.length_eq_zero_iff.mp h).symm
  | unary =>
    obtain ⟨_, rfl⟩ := List.length_eq_one_iff.mp h
    rfl
  | binary | index =>
    obtain ⟨_, _, rfl⟩ := List.length_eq_two.mp h
    rfl
  | slice =>
    obtain ⟨_, _, _, rfl⟩ := List.length_eq_three.mp h
    rfl
  | call | array | tuple => rfl

theorem withParts_withParts (h : es.length = e.parts.length) (h' : fs.length = e.parts.length) :
    (e.withParts es).withParts fs = e.withParts fs := by
  cases e with
  | num | bool | var | path => rfl
  | unary =>
    obtain ⟨_, rfl⟩ := List.length_eq_one_iff.mp h
    obtain ⟨_, rfl⟩ := List.length_eq_one_iff.mp h'
    rfl
  | binary | index =>
    obtain ⟨_, _, rfl⟩ := List.length_eq_two.mp h
    obtain ⟨_, _, rfl⟩ := List.length_eq_two.mp h'
    rfl
  | slice =>
    obtain ⟨_, _, _, rfl⟩ := List.length_eq_three.mp h
    obtain ⟨_, _, _, rfl⟩ := List.length_eq_three.mp h'
    rfl
  | call | array | tuple => rfl

theorem sizeOf_lt_of_mem_parts {p : Expr} (h : p ∈ e.parts) : sizeOf p < sizeOf e := by
  cases e with
  | num | bool | var | path => cases h
  | unary | binary | index | slice =>
    simp only [parts, List.mem_cons, List.not_mem_nil, or_false] at h
    rcases h with rfl | rfl | rfl <;> simp <;> omega
  | call | array | tuple =>
    have := List.sizeOf_lt_of_mem h
    simp only [parts] at this
    simp
    omega

end Expr

/-! ## Nodes -/

/-- A node of a tree. -/
inductive Node where
  | expr (e : Expr)
  | place (p : Place)
  | stmt (x : Stmt)
  | block (b : Block)

namespace Node

/-- The expressions among nodes. -/
def exprs (cs : List Node) : List Expr :=
  cs.filterMap fun
    | expr e => some e
    | _ => none

def places (cs : List Node) : List Place :=
  cs.filterMap fun
    | place p => some p
    | _ => none

def stmts (cs : List Node) : List Stmt :=
  cs.filterMap fun
    | stmt x => some x
    | _ => none

/-- The block that a node is. -/
def toBlock : Node → Block
  | block b => b
  | _ => default

/-- The nodes that a node is made of, from left to right. -/
def children : Node → List Node
  | expr e => e.parts.map expr
  | place (.index _ i _) => [expr i]
  | place _ => []
  | stmt (.bind _ e _) | stmt (.eval e _) => [expr e]
  | stmt (.assign p e _) => [place p, expr e]
  | stmt (.assignTuple ps e _) => ps.map place ++ [expr e]
  | stmt (.branch c y none _) => [expr c, block y]
  | stmt (.branch c y (some n) _) => [expr c, block y, block n]
  | stmt (.forRange _ a b body _) => [expr a, expr b, block body]
  | stmt (.whileLoop c body _) => [expr c, block body]
  | stmt (.give v _) => v.toList.map expr
  | block (.mk ss t _) => ss.map stmt ++ t.toList.map expr

/-- The node made of other children, of the sorts of those it has. -/
def rebuild : Node → List Node → Node
  | expr e, cs => expr (e.withParts (exprs cs))
  | place (.index base _ s), [expr i] => place (.index base i s)
  | stmt (.bind t _ s), [expr e] => stmt (.bind t e s)
  | stmt (.eval _ s), [expr e] => stmt (.eval e s)
  | stmt (.assign _ _ s), [place p, expr e] => stmt (.assign p e s)
  | stmt (.assignTuple _ e s), cs =>
    stmt (.assignTuple (places cs) ((exprs cs).headD e) s)
  | stmt (.branch _ _ none s), [expr c, block y] => stmt (.branch c y none s)
  | stmt (.branch _ _ (some _) s), [expr c, block y, block n] => stmt (.branch c y (some n) s)
  | stmt (.forRange v _ _ _ s), [expr a, expr b, block body] => stmt (.forRange v a b body s)
  | stmt (.whileLoop _ _ s), [expr c, block body] => stmt (.whileLoop c body s)
  | stmt (.give _ s), cs => stmt (.give (exprs cs).head? s)
  | block (.mk _ _ s), cs => block (.mk (stmts cs) (exprs cs).head? s)
  | n, _ => n

/-- Nodes of one sort. -/
inductive Alike : Node → Node → Prop where
  | expr {e e' : Expr} : Alike (expr e) (expr e')
  | place {p p' : Place} : Alike (place p) (place p')
  | stmt {x x' : Stmt} : Alike (stmt x) (stmt x')
  | block {b b' : Block} : Alike (block b) (block b')

theorem Alike.refl (n : Node) : Alike n n := by
  cases n <;> constructor

theorem Alike.trans {a b c : Node} (h : Alike a b) (h' : Alike b c) : Alike a c := by
  cases h <;> cases h' <;> constructor

/-- The nodes can be the children of the node. -/
def Fits (n : Node) (cs : List Node) : Prop := List.Forall₂ Alike n.children cs

variable {n : Node} {cs ds : List Node}

theorem fits_children (n : Node) : n.Fits n.children :=
  List.forall₂_same.mpr fun c _ => .refl c

/-- What is like nodes of one sort are nodes of that sort. -/
theorem exists_map {α : Type} {make : α → Node}
    (sort : ∀ {a n}, Alike (make a) n → ∃ b, n = make b) {as : List α}
    (h : List.Forall₂ Alike (as.map make) cs) :
    ∃ bs : List α, bs.length = as.length ∧ cs = bs.map make := by
  induction as generalizing cs with
  | nil =>
    cases h
    exact ⟨[], rfl, rfl⟩
  | cons a as ih =>
    rw [List.map_cons] at h
    cases h with
    | cons hhead htail =>
      obtain ⟨b, rfl⟩ := sort hhead
      obtain ⟨bs, hlength, rfl⟩ := ih htail
      exact ⟨b :: bs, congrArg (· + 1) hlength, rfl⟩

theorem Alike.exists_expr {e : Expr} (h : Alike (Node.expr e) n) : ∃ e', n = Node.expr e' := by
  cases h
  exact ⟨_, rfl⟩

theorem Alike.exists_place {p : Place} (h : Alike (Node.place p) n) : ∃ p', n = Node.place p' := by
  cases h
  exact ⟨_, rfl⟩

theorem Alike.exists_stmt {x : Stmt} (h : Alike (Node.stmt x) n) : ∃ x', n = Node.stmt x' := by
  cases h
  exact ⟨_, rfl⟩

@[simp] theorem exprs_append : exprs (cs ++ ds) = exprs cs ++ exprs ds := List.filterMap_append

@[simp] theorem places_append : places (cs ++ ds) = places cs ++ places ds := List.filterMap_append

@[simp] theorem stmts_append : stmts (cs ++ ds) = stmts cs ++ stmts ds := List.filterMap_append

@[simp] theorem exprs_exprs (es : List Expr) : exprs (es.map expr) = es := by
  rw [exprs, List.filterMap_map]
  exact List.filterMap_some

@[simp] theorem places_places (ps : List Place) : places (ps.map place) = ps := by
  rw [places, List.filterMap_map]
  exact List.filterMap_some

@[simp] theorem stmts_stmts (xs : List Stmt) : stmts (xs.map stmt) = xs := by
  rw [stmts, List.filterMap_map]
  exact List.filterMap_some

@[simp] theorem exprs_places (ps : List Place) : exprs (ps.map place) = [] := by
  rw [exprs, List.filterMap_map]
  exact List.filterMap_eq_nil_iff.mpr fun _ _ => rfl

@[simp] theorem exprs_stmts (xs : List Stmt) : exprs (xs.map stmt) = [] := by
  rw [exprs, List.filterMap_map]
  exact List.filterMap_eq_nil_iff.mpr fun _ _ => rfl

@[simp] theorem places_exprs (es : List Expr) : places (es.map expr) = [] := by
  rw [places, List.filterMap_map]
  exact List.filterMap_eq_nil_iff.mpr fun _ _ => rfl

@[simp] theorem stmts_exprs (es : List Expr) : stmts (es.map expr) = [] := by
  rw [stmts, List.filterMap_map]
  exact List.filterMap_eq_nil_iff.mpr fun _ _ => rfl

theorem exists_append {as bs : List Node} (h : List.Forall₂ Alike (as ++ bs) cs) :
    ∃ xs ys, cs = xs ++ ys ∧ List.Forall₂ Alike as xs ∧ List.Forall₂ Alike bs ys := by
  refine ⟨cs.take as.length, cs.drop as.length, (List.take_append_drop ..).symm, ?_, ?_⟩
  · simpa using List.forall₂_take as.length h
  · simpa using List.forall₂_drop as.length h

/-- The children of a tuple assignment are places and a value. -/
theorem Fits.exists_assignTuple {ps : List Place} {e : Expr} {s : Span}
    (h : (stmt (.assignTuple ps e s)).Fits cs) :
    ∃ (qs : List Place) (f : Expr), cs = qs.map place ++ [f].map expr := by
  obtain ⟨xs, ys, rfl, hplaces, hvalue⟩ := exists_append h
  obtain ⟨qs, -, rfl⟩ := exists_map Alike.exists_place hplaces
  obtain _ | ⟨⟨⟩, ⟨⟩⟩ := hvalue
  exact ⟨qs, _, rfl⟩

/-- The children of a block are statements and at most one expression. -/
theorem Fits.exists_block {xs : List Stmt} {t : Option Expr} {s : Span}
    (h : (block (.mk xs t s)).Fits cs) :
    ∃ (ys : List Stmt) (u : Option Expr), cs = ys.map stmt ++ u.toList.map expr := by
  obtain ⟨_, _, rfl, hstmts, htail⟩ := exists_append h
  obtain ⟨ys, -, rfl⟩ := exists_map Alike.exists_stmt hstmts
  obtain ⟨fs, hlength, rfl⟩ := exists_map Alike.exists_expr htail
  match t, fs with
  | none, [] => exact ⟨ys, none, rfl⟩
  | some _, [f] => exact ⟨ys, some f, rfl⟩

theorem rebuild_expr (e : Expr) (cs : List Node) :
    (expr e).rebuild cs = expr (e.withParts (exprs cs)) := rfl

theorem rebuild_assignTuple {ps qs : List Place} {e f : Expr} {s : Span} :
    (stmt (.assignTuple ps e s)).rebuild (qs.map place ++ [f].map expr) =
      stmt (.assignTuple qs f s) := by
  show stmt (.assignTuple (places _) ((exprs _).headD e) s) = _
  rw [places_append, exprs_append, places_places, exprs_places, places_exprs, exprs_exprs,
    List.append_nil, List.nil_append]
  rfl

theorem rebuild_block {xs ys : List Stmt} {t u : Option Expr} {s : Span} :
    (block (.mk xs t s)).rebuild (ys.map stmt ++ u.toList.map expr) = block (.mk ys u s) := by
  show block (.mk (stmts _) (exprs _).head? s) = _
  rw [stmts_append, exprs_append, stmts_stmts, exprs_stmts, stmts_exprs, exprs_exprs,
    List.append_nil, List.nil_append]
  cases u <;> rfl

theorem rebuild_children (n : Node) : n.rebuild n.children = n := by
  match n with
  | expr e => rw [children, rebuild_expr, exprs_exprs, Expr.withParts_parts]
  | place (.var ..) | place (.discard ..) | place (.index ..) => rfl
  | stmt (.bind ..) | stmt (.eval ..) | stmt (.assign ..) | stmt (.branch _ _ none _)
  | stmt (.branch _ _ (some _) _) | stmt (.forRange ..) | stmt (.whileLoop ..)
  | stmt (.give none _) | stmt (.give (some _) _) => rfl
  | stmt (.assignTuple ..) => exact rebuild_assignTuple
  | block (.mk ..) => exact rebuild_block

theorem children_rebuild (h : n.Fits cs) : (n.rebuild cs).children = cs := by
  match n with
  | expr e =>
    obtain ⟨es, hlength, rfl⟩ := exists_map Alike.exists_expr h
    rw [rebuild_expr, exprs_exprs, children, Expr.parts_withParts (by simpa using hlength)]
  | place (.var ..) | place (.discard ..) | stmt (.give none _) =>
    cases h
    rfl
  | place (.index ..) | stmt (.bind ..) | stmt (.eval ..) | stmt (.give (some _) _) =>
    obtain _ | ⟨⟨⟩, ⟨⟩⟩ := h
    rfl
  | stmt (.assign ..) | stmt (.branch _ _ none _) | stmt (.whileLoop ..) =>
    obtain _ | ⟨⟨⟩, _ | ⟨⟨⟩, ⟨⟩⟩⟩ := h
    rfl
  | stmt (.branch _ _ (some _) _) | stmt (.forRange ..) =>
    obtain _ | ⟨⟨⟩, _ | ⟨⟨⟩, _ | ⟨⟨⟩, ⟨⟩⟩⟩⟩ := h
    rfl
  | stmt (.assignTuple ..) =>
    obtain ⟨qs, f, rfl⟩ := h.exists_assignTuple
    rw [rebuild_assignTuple]
    rfl
  | block (.mk ..) =>
    obtain ⟨ys, u, rfl⟩ := h.exists_block
    rw [rebuild_block]
    rfl

theorem rebuild_rebuild (h : n.Fits cs) (h' : n.Fits ds) :
    (n.rebuild cs).rebuild ds = n.rebuild ds := by
  match n with
  | expr e =>
    obtain ⟨es, hlength, rfl⟩ := exists_map Alike.exists_expr h
    obtain ⟨fs, hlength', rfl⟩ := exists_map Alike.exists_expr h'
    rw [rebuild_expr, rebuild_expr, rebuild_expr, exprs_exprs, exprs_exprs,
      Expr.withParts_withParts (by simpa using hlength) (by simpa using hlength')]
  | place (.var ..) | place (.discard ..) | stmt (.give none _) =>
    cases h
    rfl
  | place (.index ..) | stmt (.bind ..) | stmt (.eval ..) | stmt (.give (some _) _) =>
    obtain _ | ⟨⟨⟩, ⟨⟩⟩ := h
    obtain _ | ⟨⟨⟩, ⟨⟩⟩ := h'
    rfl
  | stmt (.assign ..) | stmt (.branch _ _ none _) | stmt (.whileLoop ..) =>
    obtain _ | ⟨⟨⟩, _ | ⟨⟨⟩, ⟨⟩⟩⟩ := h
    obtain _ | ⟨⟨⟩, _ | ⟨⟨⟩, ⟨⟩⟩⟩ := h'
    rfl
  | stmt (.branch _ _ (some _) _) | stmt (.forRange ..) =>
    obtain _ | ⟨⟨⟩, _ | ⟨⟨⟩, _ | ⟨⟨⟩, ⟨⟩⟩⟩⟩ := h
    obtain _ | ⟨⟨⟩, _ | ⟨⟨⟩, _ | ⟨⟨⟩, ⟨⟩⟩⟩⟩ := h'
    rfl
  | stmt (.assignTuple ..) =>
    obtain ⟨qs, f, rfl⟩ := h.exists_assignTuple
    obtain ⟨qs', f', rfl⟩ := h'.exists_assignTuple
    rw [rebuild_assignTuple, rebuild_assignTuple, rebuild_assignTuple]
  | block (.mk ..) =>
    obtain ⟨ys, u, rfl⟩ := h.exists_block
    obtain ⟨ys', u', rfl⟩ := h'.exists_block
    rw [rebuild_block, rebuild_block, rebuild_block]

/-! ## Both walks -/

theorem sizeOf_lt_of_mem_children {c : Node} (h : c ∈ n.children) : sizeOf c < sizeOf n := by
  match n with
  | expr e =>
    obtain ⟨f, hf, rfl⟩ := List.mem_map.mp h
    have := Expr.sizeOf_lt_of_mem_parts hf
    simp only [expr.sizeOf_spec]
    omega
  | place (.var ..) | place (.discard ..) | stmt (.give none _) => cases h
  | place (.index ..) | stmt (.bind ..) | stmt (.eval ..) | stmt (.give (some _) _) =>
    obtain rfl := List.mem_singleton.mp h
    simp
    omega
  | stmt (.assign ..) | stmt (.branch _ _ none _) | stmt (.whileLoop ..) =>
    simp only [children, List.mem_cons, List.not_mem_nil, or_false] at h
    rcases h with rfl | rfl <;> simp <;> omega
  | stmt (.branch _ _ (some _) _) | stmt (.forRange ..) =>
    simp only [children, List.mem_cons, List.not_mem_nil, or_false] at h
    rcases h with rfl | rfl | rfl <;> simp <;> omega
  | stmt (.assignTuple ps e s) =>
    rcases List.mem_append.mp h with h | h
    · obtain ⟨p, hp, rfl⟩ := List.mem_map.mp h
      have := List.sizeOf_lt_of_mem hp
      simp
      omega
    · obtain rfl := List.mem_singleton.mp h
      simp
      omega
  | block (.mk ss t s) =>
    rcases List.mem_append.mp h with h | h
    · obtain ⟨x, hx, rfl⟩ := List.mem_map.mp h
      have := List.sizeOf_lt_of_mem hx
      simp
      omega
    · obtain ⟨e, he, rfl⟩ := List.mem_map.mp h
      obtain rfl := Option.mem_toList.mp he
      simp
      omega

/-- What holds of a node whenever it holds of its children holds of all nodes. -/
theorem induction {motive : Node → Prop}
    (step : ∀ n, (∀ c ∈ n.children, motive c) → motive n) (n : Node) : motive n :=
  step n fun c hc =>
    have := sizeOf_lt_of_mem_children hc
    induction step c
termination_by sizeOf n

/-- The expressions that are read in a node, in order. -/
def subterms : Node → List Expr
  | expr e => e.subterms
  | place p => p.subterms
  | stmt x => x.subterms
  | block b => b.subterms

/-- The expression that a node is. -/
def own : Node → List Expr
  | expr e => [e]
  | _ => []

theorem subtermsAll_eq (es : List Expr) :
    Expr.subterms.subtermsAll es = (es.map expr).flatMap subterms := by
  induction es with
  | nil => rfl
  | cons e es ih =>
    rw [Expr.subterms.subtermsAll, ih]
    rfl

theorem blockSubtermsAll_eq (ss : List Stmt) :
    Block.subtermsAll ss = (ss.map stmt).flatMap subterms := by
  induction ss with
  | nil => rfl
  | cons x ss ih =>
    rw [Block.subtermsAll, ih]
    rfl

/-- Reading a node reads its children in order and then the node. -/
theorem subterms_eq (n : Node) : n.subterms = n.children.flatMap subterms ++ n.own := by
  match n with
  | expr e =>
    cases e with
    | num | bool | var | path => rfl
    | unary | binary | index | slice =>
      simp [subterms, Expr.subterms, children, Expr.parts, own]
    | call | array | tuple =>
      rw [subterms, Expr.subterms, subtermsAll_eq]
      rfl
  | place (.var ..) | place (.discard ..) | stmt (.give none _) => rfl
  | place (.index ..) | stmt (.bind ..) | stmt (.eval ..) | stmt (.give (some _) _)
  | stmt (.assign ..) | stmt (.branch _ _ none _) | stmt (.whileLoop ..)
  | stmt (.branch _ _ (some _) _) | stmt (.forRange ..) =>
    simp [subterms, Place.subterms, Stmt.subterms, children, own]
  | stmt (.assignTuple ps e s) =>
    simp [subterms, Stmt.subterms, children, own, List.flatMap_map]
  | block (.mk ss none s) =>
    simp [subterms, Block.subterms, children, own, blockSubtermsAll_eq]
  | block (.mk ss (some e) s) =>
    simp [subterms, Block.subterms, children, own, blockSubtermsAll_eq]

variable {m : Type → Type} [Monad m]

/-- Rebuilds the node from its parts upwards. -/
def mapM (f : Expr → m Expr) : Node → m Node
  | expr e => expr <$> e.mapM f
  | place p => place <$> p.mapM f
  | stmt x => stmt <$> x.mapM f
  | block b => block <$> b.mapM f

/-- The step on a node whose children are done. -/
def finish (f : Expr → m Expr) : Node → m Node
  | expr e => expr <$> f e
  | n => pure n

theorem mapAllM_eq [LawfulMonad m] (f : Expr → m Expr) (es : List Expr) :
    (es.map expr).mapM (mapM f) = Expr.mapM.mapAllM f es >>= fun fs => pure (fs.map expr) := by
  induction es with
  | nil => simp only [List.map_nil, List.mapM_nil, Expr.mapM.mapAllM, pure_bind]
  | cons e es ih =>
    simp only [List.map_cons, List.mapM_cons, ih, mapM, Expr.mapM.mapAllM, map_eq_pure_bind,
      bind_assoc, pure_bind]

theorem mapM_places [LawfulMonad m] (f : Expr → m Expr) (ps : List Place) :
    (ps.map place).mapM (mapM f) =
      ps.mapM (Place.mapM f) >>= fun qs => pure (qs.map place) := by
  induction ps with
  | nil => simp only [List.map_nil, List.mapM_nil, pure_bind]
  | cons p ps ih =>
    simp only [List.map_cons, List.mapM_cons, ih, mapM, map_eq_pure_bind, bind_assoc, pure_bind]

theorem mapM_stmts [LawfulMonad m] (f : Expr → m Expr) (ss : List Stmt) :
    (ss.map stmt).mapM (mapM f) =
      Block.mapAllM f ss >>= fun xs => pure (xs.map stmt) := by
  induction ss with
  | nil => simp only [List.map_nil, List.mapM_nil, Block.mapAllM, pure_bind]
  | cons x ss ih =>
    simp only [List.map_cons, List.mapM_cons, ih, mapM, Block.mapAllM, map_eq_pure_bind,
      bind_assoc, pure_bind]

/-- Rebuilding a node rebuilds its children in order and then takes the step on the node. -/
theorem mapM_eq [LawfulMonad m] (f : Expr → m Expr) (n : Node) :
    n.mapM f = n.children.mapM (mapM f) >>= fun cs => (n.rebuild cs).finish f := by
  match n with
  | expr e =>
    cases e with
    | num | bool | var | path =>
      simp only [mapM, Expr.mapM, children, Expr.parts, rebuild_expr, finish, List.map_nil,
        List.mapM_nil, pure_bind]
      rfl
    | unary | binary | index | slice =>
      simp only [mapM, Expr.mapM, children, Expr.parts, rebuild_expr, finish, List.map_cons,
        List.map_nil, List.mapM_cons, List.mapM_nil, map_eq_pure_bind, bind_assoc, pure_bind]
      rfl
    | call | array | tuple =>
      simp only [mapM, Expr.mapM, children, Expr.parts, rebuild_expr, finish, mapAllM_eq,
        exprs_exprs, map_eq_pure_bind, bind_assoc, pure_bind]
      rfl
  | place (.var ..) | place (.discard ..) =>
    simp only [mapM, Place.mapM, children, List.mapM_nil, map_pure, pure_bind]
    rfl
  | stmt (.give none _) =>
    simp only [mapM, Stmt.mapM, children, Option.toList, List.map_nil, List.mapM_nil, map_pure,
      pure_bind]
    rfl
  | place (.index ..) | stmt (.bind ..) | stmt (.eval ..) | stmt (.give (some _) _)
  | stmt (.assign ..) | stmt (.branch _ _ none _) | stmt (.whileLoop ..)
  | stmt (.branch _ _ (some _) _) | stmt (.forRange ..) =>
    simp only [mapM, Place.mapM, Stmt.mapM, children, Option.toList, List.map_cons, List.map_nil,
      List.mapM_cons, List.mapM_nil, map_eq_pure_bind, bind_assoc, pure_bind]
    rfl
  | stmt (.assignTuple ps e s) =>
    simp only [mapM, Stmt.mapM, children, List.mapM_append, mapM_places, List.mapM_cons,
      List.mapM_nil, map_eq_pure_bind, bind_assoc, pure_bind]
    refine bind_congr fun qs => bind_congr fun v => ?_
    exact congrArg (finish f) (@rebuild_assignTuple ps qs e v s).symm
  | block (.mk ss none s) =>
    simp only [mapM, Block.mapM, children, Option.toList, List.mapM_append, mapM_stmts,
      List.map_nil, List.mapM_nil, map_eq_pure_bind, bind_assoc, pure_bind]
    refine bind_congr fun xs => ?_
    exact congrArg (finish f) (@rebuild_block ss xs none none s).symm
  | block (.mk ss (some e) s) =>
    simp only [mapM, Block.mapM, children, Option.toList, List.mapM_append, mapM_stmts,
      List.map_cons, List.map_nil, List.mapM_cons, List.mapM_nil, map_eq_pure_bind, bind_assoc,
      pure_bind]
    refine bind_congr fun xs => bind_congr fun t => ?_
    exact congrArg (finish f) (@rebuild_block ss xs (some e) (some t) s).symm

end Node

end Graft
