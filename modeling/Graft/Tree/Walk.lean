import Graft.Tree.Basic

/-!
# Walking trees

`subterms` lists every expression of a tree, each after its own parts, and otherwise from left to
right. `mapM` rebuilds a tree in the same order, giving each expression, its parts already rebuilt,
to a step that may fail or keep a state.
-/

namespace Graft

namespace Expr

/-- The expression and all its parts, parts first. -/
def subterms : Expr → List Expr
  | e@(.num ..) | e@(.bool ..) | e@(.var ..) | e@(.path ..) => [e]
  | e@(.binary _ l r _) => l.subterms ++ r.subterms ++ [e]
  | e@(.unary _ x _) => x.subterms ++ [e]
  | e@(.call _ _ args _) => subtermsAll args ++ [e]
  | e@(.index x i _) => x.subterms ++ i.subterms ++ [e]
  | e@(.slice x a b _) => x.subterms ++ a.subterms ++ b.subterms ++ [e]
  | e@(.array es _) => subtermsAll es ++ [e]
  | e@(.tuple es _) => subtermsAll es ++ [e]
where
  subtermsAll : List Expr → List Expr
    | [] => []
    | e :: es => e.subterms ++ subtermsAll es

/-- Rebuilds the expression from its parts upwards. -/
def mapM {m : Type → Type} [Monad m] (f : Expr → m Expr) : Expr → m Expr
  | .num x s => f (.num x s)
  | .bool b s => f (.bool b s)
  | .var n s => f (.var n s)
  | .path p s => f (.path p s)
  | .binary op l r s => do f (.binary op (← l.mapM f) (← r.mapM f) s)
  | .unary op e s => do f (.unary op (← e.mapM f) s)
  | .call c cs args s => do f (.call c cs (← mapAllM f args) s)
  | .index e i s => do f (.index (← e.mapM f) (← i.mapM f) s)
  | .slice e a b s => do f (.slice (← e.mapM f) (← a.mapM f) (← b.mapM f) s)
  | .array es s => do f (.array (← mapAllM f es) s)
  | .tuple es s => do f (.tuple (← mapAllM f es) s)
where
  mapAllM {m : Type → Type} [Monad m] (f : Expr → m Expr) : List Expr → m (List Expr)
    | [] => pure []
    | e :: es => do return (← e.mapM f) :: (← mapAllM f es)

end Expr

namespace Place

/-- The expressions in a place: those of its index. -/
def subterms : Place → List Expr
  | .index _ i _ => i.subterms
  | _ => []

def mapM {m : Type → Type} [Monad m] (f : Expr → m Expr) : Place → m Place
  | .index base i s => do return .index base (← i.mapM f) s
  | p => pure p

end Place

mutual

def Stmt.subterms : Stmt → List Expr
  | .bind _ e _ => e.subterms
  | .assign p e _ => p.subterms ++ e.subterms
  | .assignTuple ps e _ => ps.flatMap Place.subterms ++ e.subterms
  | .branch c y none _ => c.subterms ++ Block.subterms y
  | .branch c y (some n) _ => c.subterms ++ Block.subterms y ++ Block.subterms n
  | .forRange _ a b body _ => a.subterms ++ b.subterms ++ Block.subterms body
  | .whileLoop c body _ => c.subterms ++ Block.subterms body
  | .eval e _ => e.subterms
  | .give (some e) _ => e.subterms
  | .give none _ => []
  termination_by structural s => s

/-- Every expression of the block, parts first. -/
def Block.subterms : Block → List Expr
  | .mk ss none _ => Block.subtermsAll ss
  | .mk ss (some e) _ => Block.subtermsAll ss ++ e.subterms
  termination_by structural b => b

def Block.subtermsAll : List Stmt → List Expr
  | [] => []
  | s :: ss => Stmt.subterms s ++ Block.subtermsAll ss
  termination_by structural ss => ss

end

mutual

def Stmt.mapM {m : Type → Type} [Monad m] (f : Expr → m Expr) : Stmt → m Stmt
  | .bind t e s => do return .bind t (← e.mapM f) s
  | .assign p e s => do return .assign (← p.mapM f) (← e.mapM f) s
  | .assignTuple ps e s => do return .assignTuple (← ps.mapM (Place.mapM f)) (← e.mapM f) s
  | .branch c y none s => do return .branch (← c.mapM f) (← Block.mapM f y) none s
  | .branch c y (some n) s => do
    return .branch (← c.mapM f) (← Block.mapM f y) (some (← Block.mapM f n)) s
  | .forRange v a b body s => do
    return .forRange v (← a.mapM f) (← b.mapM f) (← Block.mapM f body) s
  | .whileLoop c body s => do return .whileLoop (← c.mapM f) (← Block.mapM f body) s
  | .eval e s => do return .eval (← e.mapM f) s
  | .give (some e) s => do return .give (some (← e.mapM f)) s
  | .give none s => pure (.give none s)
  termination_by structural s => s

/-- Rebuilds the block, every expression from its parts upwards. -/
def Block.mapM {m : Type → Type} [Monad m] (f : Expr → m Expr) : Block → m Block
  | .mk ss none s => do return .mk (← Block.mapAllM f ss) none s
  | .mk ss (some e) s => do
    let ss ← Block.mapAllM f ss
    return .mk ss (some (← e.mapM f)) s
  termination_by structural b => b

def Block.mapAllM {m : Type → Type} [Monad m] (f : Expr → m Expr) : List Stmt → m (List Stmt)
  | [] => pure []
  | s :: ss => do return (← Stmt.mapM f s) :: (← Block.mapAllM f ss)
  termination_by structural ss => ss

end

mutual

/-- The places that a statement and the statements in it assign to. -/
def Stmt.places : Stmt → List Place
  | .assign p _ _ => [p]
  | .assignTuple ps _ _ => ps
  | .branch _ y none _ => Block.places y
  | .branch _ y (some n) _ => Block.places y ++ Block.places n
  | .forRange _ _ _ body _ => Block.places body
  | .whileLoop _ body _ => Block.places body
  | _ => []
  termination_by structural s => s

def Block.places : Block → List Place
  | .mk ss _ _ => Block.placesAll ss
  termination_by structural b => b

def Block.placesAll : List Stmt → List Place
  | [] => []
  | s :: ss => Stmt.places s ++ Block.placesAll ss
  termination_by structural ss => ss

end

mutual

/-- The names that `let` and `for` bind in a statement and in the statements in it. -/
def Stmt.binders : Stmt → List String
  | .bind t _ _ => t.idents.map Ident.text
  | .branch _ y none _ => Block.binders y
  | .branch _ y (some n) _ => Block.binders y ++ Block.binders n
  | .forRange v _ _ body _ => v.text :: Block.binders body
  | .whileLoop _ body _ => Block.binders body
  | _ => []
  termination_by structural s => s

def Block.binders : Block → List String
  | .mk ss _ _ => Block.bindersAll ss
  termination_by structural b => b

def Block.bindersAll : List Stmt → List String
  | [] => []
  | s :: ss => Stmt.binders s ++ Block.bindersAll ss
  termination_by structural ss => ss

end

end Graft
