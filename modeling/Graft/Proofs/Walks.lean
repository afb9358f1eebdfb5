import Graft.Proofs.Nodes

/-!
# Walks of a block

The nodes of a tree are told apart by their addresses. A walk visits the addresses of the
expressions, each after those inside it. Reading a block and rebuilding it follow the same walk, and
a step that fails ends it: what was visited before is done, and no later node is touched.
-/

namespace Graft

/-- Which child to go to, from the top down. -/
abbrev Address := List Nat

namespace Node

/-! ## Addresses -/

/-- The node at an address. -/
def at? : Node → Address → Option Node
  | n, [] => some n
  | n, k :: a => n.children[k]?.bind fun c => c.at? a

/-- The node with another child in one place. -/
def setChild (n : Node) (k : Nat) (c : Node) : Node := n.rebuild (n.children.set k c)

/-- Another expression in the place of one. -/
def withExpr (e : Expr) : Node → Node
  | expr _ => expr e
  | n => n

/-- The node with another expression at an address where it has one. -/
def replaceAt : Node → Address → Expr → Node
  | n, [], e => n.withExpr e
  | n, k :: a, e => (n.children[k]?.map fun c => n.setChild k (c.replaceAt a e)).getD n

theorem drop_succ_of_drop {n c : Node} {cs : List Node} {k : Nat}
    (h : n.children.drop k = c :: cs) :
    n.children[k]? = some c ∧ n.children.drop (k + 1) = cs := by
  constructor
  · rw [← List.head?_drop, h]
    rfl
  · rw [← List.drop_drop, h]
    rfl

/-- Addresses in children that start from the `k`-th, from those in each child. -/
def below (k : Nat) : List (List Address) → List Address
  | [] => []
  | v :: vs => v.map (k :: ·) ++ below (k + 1) vs

/-- The addresses of the expressions in a node, in the order of a walk. -/
def visits (n : Node) : List Address :=
  below 0 (n.children.attach.map fun c => visits c.1) ++ n.own.map fun _ => []
termination_by sizeOf n
decreasing_by exact sizeOf_lt_of_mem_children c.2

theorem visits_eq (n : Node) :
    n.visits = below 0 (n.children.map visits) ++ n.own.map fun _ => [] := by
  rw [visits, List.attach_map_val]

variable {n c d : Node} {cs : List Node} {k : Nat} {a x y : Address} {e : Expr}

theorem mem_below {vs : List (List Address)} :
    x ∈ below k vs ↔ ∃ j v a, vs[j]? = some v ∧ a ∈ v ∧ x = (k + j) :: a := by
  induction vs generalizing k with
  | nil => simp [below]
  | cons v vs ih =>
    rw [below, List.mem_append, List.mem_map, ih]
    constructor
    · rintro (⟨a, ha, rfl⟩ | ⟨j, v', a, hv, ha, rfl⟩)
      · exact ⟨0, v, a, rfl, ha, rfl⟩
      · exact ⟨j + 1, v', a, hv, ha, by rw [Nat.add_assoc, Nat.add_comm 1 j]⟩
    · rintro ⟨_ | j, v', a, hv, ha, rfl⟩
      · cases hv
        exact .inl ⟨a, ha, rfl⟩
      · exact .inr ⟨j, v', a, hv, ha, by rw [Nat.add_assoc, Nat.add_comm 1 j]⟩

/-- The expressions at the addresses of a walk are those that are read, in this order. -/
theorem forall₂_visits (n : Node) :
    List.Forall₂ (fun a e => n.at? a = some (expr e)) n.visits n.subterms := by
  induction n using Node.induction with
  | step n ih =>
    have hbelow : ∀ (cs : List Node) (k : Nat), n.children.drop k = cs →
        List.Forall₂ (fun a e => n.at? a = some (expr e)) (below k (cs.map visits))
          (cs.flatMap subterms) := by
      intro cs
      induction cs with
      | nil => exact fun k _ => .nil
      | cons c cs ih' =>
        intro k hk
        obtain ⟨hc, hrest⟩ := drop_succ_of_drop hk
        rw [List.map_cons, below, List.flatMap_cons]
        refine List.rel_append ?_ (ih' (k + 1) hrest)
        rw [List.forall₂_map_left_iff]
        refine (ih c (List.mem_of_getElem? hc)).imp fun a e h => ?_
        rw [at?, hc]
        exact h
    rw [visits_eq, subterms_eq]
    refine List.rel_append (hbelow _ 0 rfl) ?_
    cases n with
    | expr e => exact .cons rfl .nil
    | place | stmt | block => exact .nil

/-- The walk comes to every expression. -/
theorem mem_visits : a ∈ n.visits ↔ ∃ e, n.at? a = some (expr e) := by
  constructor
  · intro h
    have hall := forall₂_visits n
    generalize n.visits = v, n.subterms = es at h hall
    induction hall with
    | nil => cases h
    | cons hat _ ih =>
      rcases List.mem_cons.mp h with rfl | h
      · exact ⟨_, hat⟩
      · exact ih h
  · rintro ⟨e, h⟩
    induction a generalizing n with
    | nil =>
      obtain rfl : n = expr e := Option.some.inj h
      rw [visits_eq]
      exact List.mem_append_right _ (List.mem_singleton_self _)
    | cons k a ih =>
      obtain ⟨c, hc, hat⟩ := Option.bind_eq_some_iff.mp h
      rw [visits_eq]
      refine List.mem_append_left _ (mem_below.mpr ⟨k, c.visits, a, ?_, ih hat, ?_⟩)
      · rw [List.getElem?_map, hc]
        rfl
      · rw [Nat.zero_add]

/-- No node is visited before a node inside it. -/
theorem pairwise_visits (n : Node) : n.visits.Pairwise fun x y => ¬ x <+: y := by
  induction n using Node.induction with
  | step n ih =>
    have hbelow : ∀ (cs : List Node) (k : Nat), (∀ c ∈ cs, c ∈ n.children) →
        (below k (cs.map visits)).Pairwise fun x y => ¬ x <+: y := by
      intro cs
      induction cs with
      | nil => exact fun _ _ => .nil
      | cons c cs ih' =>
        intro k hcs
        rw [List.map_cons, below, List.pairwise_append, List.pairwise_map]
        refine ⟨(ih c (hcs c List.mem_cons_self)).imp fun h h' => ?_,
          ih' (k + 1) fun c hc => hcs c (List.mem_cons_of_mem _ hc), fun x hx y hy h => ?_⟩
        · exact h (List.cons_prefix_cons.mp h').2
        · obtain ⟨a, -, rfl⟩ := List.mem_map.mp hx
          obtain ⟨j, _, b, -, -, rfl⟩ := mem_below.mp hy
          have := (List.cons_prefix_cons.mp h).1
          omega
    rw [visits_eq, List.pairwise_append]
    refine ⟨hbelow _ 0 fun _ => id, ?_, fun x hx y hy h => ?_⟩
    · cases n with
      | expr e => exact List.pairwise_singleton _ _
      | place | stmt | block => exact .nil
    · obtain ⟨j, _, a, -, -, rfl⟩ := mem_below.mp hx
      obtain ⟨_, -, rfl⟩ := List.mem_map.mp hy
      cases List.prefix_nil.mp h

/-! ## Changing a child -/

theorem alike_rebuild (n : Node) (cs : List Node) : Alike n (n.rebuild cs) := by
  unfold rebuild
  split <;> first | constructor | exact .refl _

theorem fits_set (hc : n.children[k]? = some c) (h : Alike c d) :
    n.Fits (n.children.set k d) := by
  unfold Fits
  generalize n.children = cs at hc
  induction cs generalizing k with
  | nil => cases hc
  | cons b cs ih =>
    cases k with
    | zero =>
      cases hc
      exact .cons h (List.forall₂_same.mpr fun c _ => .refl c)
    | succ k => exact .cons (.refl b) (ih hc)

theorem children_setChild (hc : n.children[k]? = some c) (h : Alike c d) :
    (n.setChild k d).children = n.children.set k d :=
  children_rebuild (fits_set hc h)

theorem getElem?_children_setChild (hc : n.children[k]? = some c) (h : Alike c d) :
    (n.setChild k d).children[k]? = some d := by
  obtain ⟨hk, -⟩ := List.getElem?_eq_some_iff.mp hc
  rw [children_setChild hc h, List.getElem?_set_self hk]

theorem setChild_self (hc : n.children[k]? = some c) : n.setChild k c = n := by
  obtain ⟨hk, rfl⟩ := List.getElem?_eq_some_iff.mp hc
  rw [setChild, List.set_getElem_self, rebuild_children]

theorem setChild_setChild {d' : Node} (hc : n.children[k]? = some c) (h : Alike c d)
    (h' : Alike c d') : (n.setChild k d).setChild k d' = n.setChild k d' := by
  rw [setChild, children_setChild hc h, List.set_set]
  exact rebuild_rebuild (fits_set hc h) (fits_set hc h')

theorem replaceAt_cons (hc : n.children[k]? = some c) :
    n.replaceAt (k :: a) e = n.setChild k (c.replaceAt a e) := by
  rw [replaceAt, hc]
  rfl

theorem alike_replaceAt (n : Node) (a : Address) (e : Expr) : Alike n (n.replaceAt a e) := by
  cases a with
  | nil => cases n <;> constructor
  | cons k a =>
    cases hc : n.children[k]? with
    | none =>
      rw [replaceAt, hc]
      exact .refl n
    | some c =>
      rw [replaceAt_cons hc]
      exact alike_rebuild ..

end Node

/-! ## Walks -/

/-- What is done at an expression: it and a state may be changed, and this may fail. -/
abbrev Visitor (σ ε : Type) := Expr → σ → Except ε Unit × Expr × σ

/-- What a walk leaves behind. -/
structure Walked (σ ε : Type) where
  result : Except ε Unit
  tree : Node
  state : σ

variable {σ ε : Type}

/-- Goes on unless a step has failed. -/
def Walked.andThen (w : Walked σ ε) (next : Node → σ → Walked σ ε) : Walked σ ε :=
  match w.result with
  | .ok () => next w.tree w.state
  | .error _ => w

/-- The walk of a child as one of the node. -/
def Walked.inChild (n : Node) (k : Nat) (w : Walked σ ε) : Walked σ ε :=
  { w with tree := n.setChild k w.tree }

namespace Visitor

variable (f : Visitor σ ε)

/-- Visits one address. -/
def visit (a : Address) (n : Node) (s : σ) : Walked σ ε :=
  match n.at? a with
  | some (.expr e) => ⟨(f e s).1, n.replaceAt a (f e s).2.1, (f e s).2.2⟩
  | _ => ⟨.ok (), n, s⟩

/-- Visits addresses in order, up to the first failure. -/
def walk : List Address → Node → σ → Walked σ ε
  | [], n, s => ⟨.ok (), n, s⟩
  | a :: as, n, s => (f.visit a n s).andThen (walk as)

variable {f} {n c : Node} {s : σ} {k : Nat} {a : Address} {as bs : List Address}

theorem walk_append : f.walk (as ++ bs) n s = (f.walk as n s).andThen (f.walk bs) := by
  induction as generalizing n s with
  | nil => rfl
  | cons a as ih =>
    rw [List.cons_append, walk, walk]
    rcases f.visit a n s with ⟨_ | ⟨⟨⟩⟩, n', s'⟩
    · rfl
    · exact ih

theorem walk_singleton : f.walk [a] n s = f.visit a n s := by
  rw [walk]
  rcases f.visit a n s with ⟨_ | ⟨⟨⟩⟩, n', s'⟩ <;> rfl

theorem alike_visit : Node.Alike n (f.visit a n s).tree := by
  rw [visit]
  split
  · exact Node.alike_replaceAt ..
  · exact .refl n

theorem alike_walk : Node.Alike n (f.walk as n s).tree := by
  induction as generalizing n s with
  | nil => exact .refl n
  | cons a as ih =>
    have hvisit := @alike_visit _ _ f n s a
    rw [walk]
    rcases hw : f.visit a n s with ⟨_ | ⟨⟨⟩⟩, n', s'⟩ <;> rw [hw] at hvisit
    · exact hvisit
    · exact hvisit.trans ih

theorem visit_cons (hc : n.children[k]? = some c) :
    f.visit (k :: a) n s = (f.visit a c s).inChild n k := by
  have hat : n.at? (k :: a) = c.at? a := by
    rw [Node.at?, hc]
    rfl
  rw [visit, visit, hat]
  split
  case h_1 e he => rw [Node.replaceAt_cons hc, Walked.inChild]
  case h_2 => rw [Walked.inChild, Node.setChild_self hc]

theorem walk_map_cons (hc : n.children[k]? = some c) :
    f.walk (as.map (k :: ·)) n s = (f.walk as c s).inChild n k := by
  induction as generalizing n c s with
  | nil =>
    rw [walk, Walked.inChild, Node.setChild_self hc]
    rfl
  | cons a as ih =>
    have hvisit := @alike_visit _ _ f c s a
    rw [List.map_cons, walk, walk, visit_cons hc]
    rcases hw : f.visit a c s with ⟨_ | ⟨⟨⟩⟩, c', s'⟩ <;> rw [hw] at hvisit
    · rfl
    · show f.walk (as.map (k :: ·)) (n.setChild k c') s' = _
      rw [ih (Node.getElem?_children_setChild hc hvisit)]
      show Walked.inChild .. = Walked.inChild ..
      rw [Walked.inChild, Node.setChild_setChild hc hvisit (hvisit.trans alike_walk)]
      rfl

/-! ## Rebuilding is walking -/

variable (f) in
/-- The visitor as a step on a tree that is changed in place: after a failure nothing is done. -/
def inPlace (e : Expr) : StateM (σ × Except ε Unit) Expr := fun (s, r) =>
  match r with
  | .ok () => ((f e s).2.1, (f e s).2.2, (f e s).1)
  | .error x => (e, s, .error x)

variable (f) in
/-- The visitor as a step that may fail. -/
def step (e : Expr) : ExceptT ε (StateM σ) Expr :=
  ExceptT.mk fun s => ((f e s).1.map fun _ => (f e s).2.1, (f e s).2.2)

theorem run_bind_eq {τ α β : Type} {m : StateM τ α} {g : α → StateM τ β} {t t' : τ} {v : α}
    (h : m.run t = (v, t')) : (m >>= g).run t = (g v).run t' := by
  show (g (m.run t).1).run (m.run t).2 = _
  rw [h]

/-- After a failure a node is left as it is. -/
theorem mapM_inPlace_error (x : ε) (n : Node) :
    (n.mapM f.inPlace).run (s, .error x) = (n, s, .error x) := by
  induction n using Node.induction with
  | step n ih =>
    have hall : ∀ cs : List Node, (∀ c ∈ cs, c ∈ n.children) →
        (cs.mapM (Node.mapM f.inPlace)).run (s, .error x) = (cs, s, .error x) := by
      intro cs hcs
      induction cs with
      | nil => rfl
      | cons c cs ih' =>
        rw [List.mapM_cons, run_bind_eq (ih c (hcs c List.mem_cons_self)),
          run_bind_eq (ih' fun c hc => hcs c (List.mem_cons_of_mem _ hc))]
        rfl
    rw [Node.mapM_eq, run_bind_eq (hall _ fun _ => id), Node.rebuild_children]
    cases n <;> rfl

theorem mapM_inPlace_error_all (x : ε) (cs : List Node) :
    (cs.mapM (Node.mapM f.inPlace)).run (s, .error x) = (cs, s, .error x) := by
  induction cs with
  | nil => rfl
  | cons c cs ih =>
    rw [List.mapM_cons, run_bind_eq (mapM_inPlace_error x c), run_bind_eq ih]
    rfl

/-- The walk of a node is what rebuilding it in place does. -/
def Follows (f : Visitor σ ε) (n : Node) : Prop :=
  ∀ s, (n.mapM f.inPlace).run (s, .ok ()) =
    ((f.walk n.visits n s).tree, (f.walk n.visits n s).state, (f.walk n.visits n s).result)

/-- What a walk through the last children of a node leaves is what rebuilding them gives. -/
theorem mapM_inPlace_children (cs : List Node) (ih : ∀ c ∈ cs, f.Follows c)
    (hcs : n.children.drop k = cs) (s : σ) :
    ∃ ds s' r, List.Forall₂ Node.Alike cs ds ∧
      (cs.mapM (Node.mapM f.inPlace)).run (s, .ok ()) = (ds, s', r) ∧
      f.walk (Node.below k (cs.map Node.visits)) n s =
        ⟨r, n.rebuild (n.children.take k ++ ds), s'⟩ := by
  induction cs generalizing n k s with
  | nil =>
    refine ⟨[], s, .ok (), .nil, rfl, ?_⟩
    rw [List.append_nil, List.take_of_length_le (List.drop_eq_nil_iff.mp hcs),
      Node.rebuild_children]
    rfl
  | cons c cs ih' =>
    obtain ⟨hc, hrest⟩ := Node.drop_succ_of_drop hcs
    have hrun := ih c List.mem_cons_self s
    have hwalk := @walk_map_cons _ _ f n c s k c.visits hc
    have halike := @alike_walk _ _ f c s c.visits
    rw [List.map_cons, Node.below, walk_append, hwalk]
    rcases hw : f.walk c.visits c s with ⟨r, c', s'⟩
    rw [hw] at hrun halike
    -- what the walk through the first child leaves of the node
    have hset : n.children.set k c' = n.children.take k ++ [c'] ++ cs := by
      rw [List.set_eq_take_append_cons_drop, if_pos (List.getElem?_eq_some_iff.mp hc).1, hrest,
        List.append_assoc]
      rfl
    cases r with
    | error x =>
      refine ⟨c' :: cs, s', .error x, .cons halike (List.forall₂_same.mpr fun c _ => .refl c),
        ?_, ?_⟩
      · rw [List.mapM_cons, run_bind_eq hrun, run_bind_eq (mapM_inPlace_error_all x cs)]
        rfl
      · show Walked.inChild .. = _
        rw [Walked.inChild, Node.setChild, hset, List.append_assoc]
        rfl
    | ok =>
      have hlength : (n.children.take k ++ [c']).length = k + 1 := by
        rw [List.length_append, List.length_take,
          Nat.min_eq_left (List.getElem?_eq_some_iff.mp hc).1.le]
        rfl
      have hchildren : (n.setChild k c').children = n.children.take k ++ [c'] ++ cs := by
        rw [Node.children_setChild hc halike, hset]
      obtain ⟨ds, s'', r, hds, hmap, hwalk'⟩ := ih' (n := n.setChild k c') (k := k + 1)
        (fun c hc => ih c (List.mem_cons_of_mem _ hc))
        (by rw [hchildren, List.drop_left' hlength]) s'
      refine ⟨c' :: ds, s'', r, .cons halike hds, ?_, ?_⟩
      · rw [List.mapM_cons, run_bind_eq hrun, run_bind_eq hmap]
        rfl
      · show f.walk _ (n.setChild k c') s' = _
        -- the children that come out have the sorts of those that went in
        have hfits : n.Fits (n.children.take k ++ c' :: ds) := by
          have hsplit : n.children = n.children.take k ++ c :: cs := by
            rw [← hcs, List.take_append_drop]
          unfold Node.Fits
          nth_rewrite 1 [hsplit]
          exact List.rel_append (List.forall₂_same.mpr fun c _ => .refl c) (.cons halike hds)
        rw [hwalk', hchildren, List.take_left' hlength, List.append_assoc, List.singleton_append,
          Node.setChild, Node.rebuild_rebuild (Node.fits_set hc halike) hfits]

/-- Rebuilding a node in place walks it. -/
theorem follows (f : Visitor σ ε) (n : Node) : f.Follows n := by
  induction n using Node.induction with
  | step n ih =>
    intro s
    obtain ⟨ds, s', r, hds, hmap, hwalk⟩ := mapM_inPlace_children n.children ih rfl s (k := 0)
    rw [Node.mapM_eq, run_bind_eq hmap, Node.visits_eq, walk_append, hwalk]
    rw [List.take_zero, List.nil_append]
    have halike := Node.alike_rebuild n ds
    generalize n.rebuild ds = n' at halike
    cases r with
    | error x => cases n' <;> rfl
    | ok =>
      cases halike with
      | @expr e e' =>
        show _ = ((f.walk [[]] (.expr e') s').tree, (f.walk [[]] (.expr e') s').state,
          (f.walk [[]] (.expr e') s').result)
        rw [walk_singleton]
        rfl
      | place | stmt | block => rfl

/-! ## Failing -/

/-- A computation that fails does what one in place does that keeps the first failure. -/
def Halts {α : Type} (x : ExceptT ε (StateM σ) α) (y : StateM (σ × Except ε Unit) α) : Prop :=
  (∀ s, x.run.run s = match y.run (s, .ok ()) with
    | (v, s', .ok ()) => (.ok v, s')
    | (_, s', .error e) => (.error e, s')) ∧
  ∀ s e, (y.run (s, .error e)).2 = (s, .error e)

theorem Halts.pure {α : Type} (v : α) :
    Halts (pure v : ExceptT ε (StateM σ) α) (pure v) := ⟨fun _ => rfl, fun _ _ => rfl⟩

theorem Halts.bind {α β : Type} {x : ExceptT ε (StateM σ) α} {y : StateM (σ × Except ε Unit) α}
    {g : α → ExceptT ε (StateM σ) β} {h : α → StateM (σ × Except ε Unit) β} (hx : Halts x y)
    (hg : ∀ v, Halts (g v) (h v)) : Halts (x >>= g) (y >>= h) := by
  constructor
  · intro s
    have hs := hx.1 s
    have hbind : (x >>= g).run.run s = (ExceptT.bindCont g (x.run.run s).1).run (x.run.run s).2 :=
      rfl
    rcases hy : y.run (s, .ok ()) with ⟨v, s', e | ⟨⟨⟩⟩⟩
    · rw [hy] at hs
      have hlast := (hg v).2 s' e
      rw [hbind, hs, run_bind_eq hy]
      rcases hrun : (h v).run (s', .error e) with ⟨u, t⟩
      rw [hrun] at hlast
      obtain rfl : t = (s', .error e) := hlast
      rfl
    · rw [hy] at hs
      rw [hbind, hs, run_bind_eq hy]
      exact (hg v).1 s'
  · intro s e
    rcases hy : y.run (s, .error e) with ⟨v, t⟩
    have ht : t = (s, .error e) := by
      rw [← hx.2 s e, hy]
    rw [run_bind_eq hy, ht]
    exact (hg v).2 s e

theorem halts_step (e : Expr) : Halts (f.step e) (f.inPlace e) := by
  refine ⟨fun s => ?_, fun _ _ => rfl⟩
  have hstep : (f.step e).run.run s = ((f e s).1.map fun _ => (f e s).2.1, (f e s).2.2) := rfl
  have hplace : (f.inPlace e).run (s, .ok ()) = ((f e s).2.1, (f e s).2.2, (f e s).1) := rfl
  rw [hstep, hplace]
  rcases f e s with ⟨_ | ⟨⟨⟩⟩, e', s'⟩ <;> rfl

theorem halts_mapM (n : Node) : Halts (n.mapM f.step) (n.mapM f.inPlace) := by
  induction n using Node.induction with
  | step n ih =>
    have hall : ∀ cs : List Node, (∀ c ∈ cs, c ∈ n.children) →
        Halts (cs.mapM (Node.mapM f.step)) (cs.mapM (Node.mapM f.inPlace)) := by
      intro cs hcs
      induction cs with
      | nil => exact .pure []
      | cons c cs ih' =>
        rw [List.mapM_cons, List.mapM_cons]
        exact (ih c (hcs c List.mem_cons_self)).bind fun c' =>
          (ih' fun c hc => hcs c (List.mem_cons_of_mem _ hc)).bind fun cs' => .pure (c' :: cs')
    rw [Node.mapM_eq, Node.mapM_eq]
    refine (hall _ fun _ => id).bind fun cs => ?_
    cases n.rebuild cs with
    | expr e =>
      show Halts (Node.expr <$> f.step e) (Node.expr <$> f.inPlace e)
      rw [map_eq_pure_bind, map_eq_pure_bind]
      exact (halts_step e).bind fun e' => .pure (Node.expr e')
    | place | stmt | block => exact .pure _

/-- A walk that fails ends at the first address whose visit fails. -/
theorem walk_error {x : ε} (h : (f.walk as n s).result = .error x) :
    ∃ done a rest, as = done ++ a :: rest ∧ (f.walk done n s).result = .ok () ∧
      f.walk as n s = f.visit a (f.walk done n s).tree (f.walk done n s).state := by
  induction as generalizing n s with
  | nil => cases h
  | cons a as ih =>
    rw [walk] at h ⊢
    rcases hw : f.visit a n s with ⟨_ | ⟨⟨⟩⟩, n', s'⟩
    · exact ⟨[], a, as, rfl, rfl, hw.symm⟩
    · rw [hw] at h
      obtain ⟨done, b, rest, rfl, hdone, hlast⟩ := ih h
      have hwalk : f.walk (a :: done) n s = f.walk done n' s' := by
        rw [walk, hw]
        rfl
      refine ⟨a :: done, b, rest, rfl, ?_, ?_⟩
      · rw [hwalk, hdone]
      · rw [hwalk]
        exact hlast

end Visitor

/-! ## What a walk leaves alone -/

namespace Node

theorem alike_trans {as bs cs : List Node} (h : List.Forall₂ Alike as bs)
    (h' : List.Forall₂ Alike bs cs) : List.Forall₂ Alike as cs := by
  induction h generalizing cs with
  | nil => exact h'
  | cons hhead _ ih =>
    cases h' with
    | cons hhead' htail' => exact .cons (hhead.trans hhead') (ih htail')

/-- The same node, but for what is inside it. -/
def SameOutside (n m : Node) : Prop := ∃ cs, n.Fits cs ∧ m = n.rebuild cs

variable {n m c d : Node} {k : Nat} {a y : Address} {e : Expr}

theorem SameOutside.refl (n : Node) : SameOutside n n :=
  ⟨n.children, fits_children n, (rebuild_children n).symm⟩

theorem SameOutside.trans {l : Node} (h : SameOutside l n) (h' : SameOutside n m) :
    SameOutside l m := by
  obtain ⟨cs, hcs, rfl⟩ := h
  obtain ⟨ds, hds, rfl⟩ := h'
  have hfits : l.Fits ds := by
    rw [Fits, children_rebuild hcs] at hds
    exact alike_trans hcs hds
  exact ⟨ds, hfits, rebuild_rebuild hcs hfits⟩

/-- A change at an address is seen at that address and inside it only. -/
theorem at?_replaceAt (h : ¬ a <+: y) (hy : n.at? y = some m) :
    ∃ m', (n.replaceAt a e).at? y = some m' ∧ SameOutside m m' := by
  induction a generalizing n y with
  | nil => exact absurd List.nil_prefix h
  | cons k a ih =>
    cases hc : n.children[k]? with
    | none =>
      rw [replaceAt, hc]
      exact ⟨m, hy, .refl m⟩
    | some c =>
      have halike := alike_replaceAt c a e
      rw [replaceAt_cons hc]
      cases y with
      | nil =>
        obtain rfl := Option.some.inj hy
        exact ⟨_, rfl, _, fits_set hc halike, rfl⟩
      | cons j y =>
        by_cases hj : k = j
        · subst hj
          have hat : c.at? y = some m := by
            rw [at?, hc] at hy
            exact hy
          obtain ⟨m', hm', hsame⟩ := ih (fun hle => h (List.cons_prefix_cons.mpr ⟨rfl, hle⟩)) hat
          refine ⟨m', ?_, hsame⟩
          rw [at?, getElem?_children_setChild hc halike]
          exact hm'
        · refine ⟨m, ?_, .refl m⟩
          rw [at?, children_setChild hc halike, List.getElem?_set_ne hj]
          exact hy

end Node

namespace Visitor

variable {f : Visitor σ ε} {n m : Node} {s : σ} {y : Address} {as : List Address}

/-- A node that is not inside a visited one stays as it is, but for what is inside it. -/
theorem at?_walk (h : ∀ a ∈ as, ¬ a <+: y) (hy : n.at? y = some m) :
    ∃ m', (f.walk as n s).tree.at? y = some m' ∧ Node.SameOutside m m' := by
  induction as generalizing n m s with
  | nil => exact ⟨m, hy, .refl m⟩
  | cons a as ih =>
    have hvisit : ∃ m', (f.visit a n s).tree.at? y = some m' ∧ Node.SameOutside m m' := by
      rw [visit]
      split
      · exact Node.at?_replaceAt (h a List.mem_cons_self) hy
      · exact ⟨m, hy, .refl m⟩
    obtain ⟨m', hm', hsame⟩ := hvisit
    rw [walk]
    rcases hw : f.visit a n s with ⟨_ | ⟨⟨⟩⟩, n', s'⟩ <;> rw [hw] at hm'
    · exact ⟨m', hm', hsame⟩
    · obtain ⟨m'', hm'', hsame'⟩ := ih (fun b hb => h b (List.mem_cons_of_mem _ hb)) hm'
      exact ⟨m'', hm'', hsame.trans hsame'⟩

end Visitor

/-! ## Reading and rebuilding -/

/-- Rebuilding with a step that only reads is reading. -/
theorem Node.mapM_reading {m : Type → Type} [Monad m] [LawfulMonad m] (g : Expr → m Unit)
    (n : Node) :
    n.mapM (fun e => do g e; pure e) = (do forM n.subterms g; pure n) := by
  induction n using Node.induction with
  | step n ih =>
    have hall : ∀ cs : List Node, (∀ c ∈ cs, c ∈ n.children) →
        cs.mapM (Node.mapM fun e => do g e; pure e) =
          (do forM (cs.flatMap Node.subterms) g; pure cs) := by
      intro cs hcs
      induction cs with
      | nil => simp
      | cons c cs ih' =>
        rw [List.mapM_cons, ih c (hcs c List.mem_cons_self),
          ih' fun c hc => hcs c (List.mem_cons_of_mem _ hc), List.flatMap_cons, List.forM_append]
        simp only [bind_assoc, pure_bind]
    have hown : n.finish (fun e => do g e; pure e) = (do forM n.own g; pure n) := by
      cases n <;> simp [Node.finish, Node.own]
    rw [Node.mapM_eq, hall _ fun _ => id, Node.subterms_eq, List.forM_append]
    simp only [bind_assoc, pure_bind, Node.rebuild_children, hown]

/-- A step that fails at an expression of a block fails what is done in place. -/
theorem Visitor.halts_mapM_block {f : Visitor σ ε} (b : Block) :
    Halts (b.mapM f.step) (b.mapM f.inPlace) := by
  have h := (halts_mapM (f := f) (.block b)).bind fun n => Halts.pure n.toBlock
  simpa only [Node.mapM, map_eq_pure_bind, bind_assoc, pure_bind, Node.toBlock, bind_pure] using h

theorem Node.map_block_inj {m : Type → Type} [Monad m] [LawfulMonad m] {x y : m Block}
    (h : Node.block <$> x = Node.block <$> y) : x = y := by
  have hmap := congrArg (Functor.map Node.toBlock) h
  simpa only [Functor.map_map, Node.toBlock, id_map'] using hmap

/-- Reading a block and rebuilding it follow one walk: it comes to every expression of the block,
once and after those inside it, and rebuilding with a step that only reads is reading. A step that
fails ends the walk with what was visited before done, and every node that would have come later is
as it was, but for what inside it was visited. -/
theorem Block.walks (b : Block) :
    let v := (Node.block b).visits
    v.Nodup ∧ (∀ a, a ∈ v ↔ ∃ e, (Node.block b).at? a = some (.expr e)) ∧
      (v.Pairwise fun x y => ¬ x <+: y) ∧
      List.Forall₂ (fun a e => (Node.block b).at? a = some (.expr e)) v b.subterms ∧
      (∀ (m : Type → Type) [Monad m] [LawfulMonad m] (g : Expr → m Unit),
        b.mapM (fun e => do g e; pure e) = (do forM b.subterms g; pure b)) ∧
      ∀ (σ ε : Type) (f : Visitor σ ε) (s : σ),
        let w := f.walk v (.block b) s
        ∃ b', w.tree = .block b' ∧
          (b.mapM f.inPlace).run (s, .ok ()) = (b', w.state, w.result) ∧
          (b.mapM f.step).run.run s = (w.result.map fun _ => b', w.state) ∧
          ∀ x, w.result = .error x →
            ∃ done a rest, v = done ++ a :: rest ∧
              (f.walk done (.block b) s).result = .ok () ∧
              w = f.visit a (f.walk done (.block b) s).tree (f.walk done (.block b) s).state ∧
              ∀ y ∈ rest, ∃ n n', (Node.block b).at? y = some n ∧
                (Node.block b').at? y = some n' ∧ n.SameOutside n' := by
  intro v
  have hpairwise := (Node.block b).pairwise_visits
  refine ⟨hpairwise.imp fun h h' => h (by rw [h']), fun _ => Node.mem_visits, hpairwise,
    Node.forall₂_visits _, fun m _ _ g => ?_, fun σ ε f s => ?_⟩
  · refine Node.map_block_inj ?_
    rw [map_bind]
    simp only [map_pure]
    exact Node.mapM_reading g (.block b)
  · intro w
    have halike : Node.Alike (.block b) w.tree := Visitor.alike_walk
    obtain ⟨b', hb'⟩ : ∃ b', w.tree = .block b' := by
      generalize w.tree = t at halike
      cases halike
      exact ⟨_, rfl⟩
    have hplace : (b.mapM f.inPlace).run (s, .ok ()) = (b', w.state, w.result) := by
      have hfollows : (Node.block ((b.mapM f.inPlace).run (s, .ok ())).1,
          ((b.mapM f.inPlace).run (s, .ok ())).2) = (w.tree, w.state, w.result) :=
        f.follows (.block b) s
      rw [hb', Prod.mk.injEq, Node.block.injEq] at hfollows
      exact Prod.ext hfollows.1 hfollows.2
    refine ⟨b', hb', hplace, ?_, fun x hx => ?_⟩
    · rw [(Visitor.halts_mapM_block b).1 s, hplace]
      rcases w.result with _ | ⟨⟨⟩⟩ <;> rfl
    · obtain ⟨done, a, rest, hv, hdone, hlast⟩ := Visitor.walk_error hx
      refine ⟨done, a, rest, hv, hdone, hlast, fun y hy => ?_⟩
      obtain ⟨e, he⟩ : ∃ e, (Node.block b).at? y = some (.expr e) := by
        refine Node.mem_visits.mp ?_
        show y ∈ v
        rw [hv]
        exact List.mem_append_right _ (List.mem_cons_of_mem _ hy)
      have hw : w = f.walk (done ++ [a]) (.block b) s := by
        refine hlast.trans ?_
        rw [Visitor.walk_append, Walked.andThen, hdone, Visitor.walk_singleton]
      have hbefore : ∀ x ∈ done ++ [a], ¬ x <+: y := by
        change v.Pairwise _ at hpairwise
        rw [hv, List.append_cons, List.pairwise_append] at hpairwise
        exact fun x hx => hpairwise.2.2 x hx y hy
      obtain ⟨n', hn', hsame⟩ := Visitor.at?_walk hbefore he
      rw [← hw, hb'] at hn'
      exact ⟨_, n', he, hn', hsame⟩

/-- The block `x + y`. -/
def sumBlock : Block :=
  .mk [] (some (.binary .add (.var "x" ⟨0, 1⟩) (.var "y" ⟨4, 5⟩) ⟨0, 5⟩)) ⟨0, 5⟩

/-- Notes the names that are read, and fails at `y`. -/
def stopAtY : Visitor (List String) String
  | .var n s, names => (if n = "y" then .error n else .ok (), .var n s, n :: names)
  | e, names => (.ok (), e, names)

theorem visits_sumBlock : (Node.block sumBlock).visits = [[0, 0], [0, 1], [0]] := by
  simp [sumBlock, Node.visits_eq, Node.children, Expr.parts, Node.own, Node.below]

theorem Block.walks_sumBlock :
    (stopAtY.walk (Node.block sumBlock).visits (.block sumBlock) []).result = .error "y" ∧
      ∃ done a rest, (Node.block sumBlock).visits = done ++ a :: rest ∧
        (stopAtY.walk done (.block sumBlock) []).result = .ok () := by
  have hresult :
      (stopAtY.walk (Node.block sumBlock).visits (.block sumBlock) []).result = .error "y" := by
    rw [visits_sumBlock]
    rfl
  obtain ⟨-, -, -, -, -, hwalk⟩ := Block.walks sumBlock
  obtain ⟨_, -, -, -, hstop⟩ := hwalk (List String) String stopAtY []
  obtain ⟨done, a, rest, hsplit, hdone, -⟩ := hstop "y" hresult
  exact ⟨hresult, done, a, rest, hsplit, hdone⟩

end Graft
