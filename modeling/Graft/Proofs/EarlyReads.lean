import Graft.Proofs.Slots
import Graft.Proofs.Trees
import Graft.Proofs.Agreement

/-!
# Early reads

A local name that a run comes to before it assigned it has the value of that name outside. Which
names these can be is read off the tree: a statement settles the names that are assigned whenever
the run goes on behind it, and early in a tree are the names that some way through it reads, or
stores into, before it assigns them. Conditions are not looked at: both arms of a branch are ways,
and so is any number of rounds of a loop.

Under scopes that agree on what is early in it, a tree does the same.
-/

namespace Graft

variable {σ α β : Type}

/-! ## Names that are assigned -/

/-- The name that a place assigns. -/
def Place.names : Place → List String
  | .var n _ => [n]
  | .discard _ => []
  | .index base _ _ => [base.text]

/-- The names that are settled where two ways meet; a way that ends before does not count. -/
def Settled.meet : Option (List String) → Option (List String) → Option (List String)
  | none, b => b
  | some a, none => some a
  | some a, some b => some (a.filter b.contains)

mutual

/-- The names that a statement has assigned whenever the run goes on behind it; `none` if it never
does. -/
def Stmt.settled : Stmt → Option (List String)
  | .bind t _ _ => some (t.idents.map Ident.text)
  | .assign p _ _ => some p.names
  | .assignTuple ps _ _ => some (ps.flatMap Place.names)
  | .branch _ y (some n) _ => Settled.meet (Block.settled y) (Block.settled n)
  | .give _ _ => none
  -- a branch without an `else` and a loop may do nothing
  | _ => some []
  termination_by structural s => s

/-- The names that the statements of a block have assigned if the run comes to their end. -/
def Block.settled : Block → Option (List String)
  | .mk ss _ _ => Block.settledAll ss
  termination_by structural b => b

def Block.settledAll : List Stmt → Option (List String)
  | [] => some []
  | s :: ss =>
    match Stmt.settled s with
    | none => none
    | some a => (Block.settledAll ss).map (a ++ ·)
  termination_by structural ss => ss

end

/-! ## Names that are early -/

/-- The names read as variables, with repetitions. -/
def Expr.reads (e : Expr) : List String :=
  e.subterms.filterMap fun
    | .var n _ => some n
    | _ => none

/-- The names that an expression reads while only the names in `known` are assigned. -/
def Expr.early (known : List String) (e : Expr) : List String :=
  e.reads.filter fun n => !known.contains n

/-- The names that an assignment to a place reads or stores into while only the names in `known` are
assigned. -/
def Place.early (known : List String) : Place → List String
  | .index base i _ => i.early known ++ [base.text].filter fun n => !known.contains n
  | _ => []

/-- The same of assignments one after another. -/
def Place.earlyAll (known : List String) : List Place → List String
  | [] => []
  | p :: ps => p.early known ++ earlyAll (known ++ p.names) ps

/-- What comes behind names that are settled, nothing if the run never goes on. -/
def Settled.thenEarly (known : List String) (next : List String → List String) :
    Option (List String) → List String
  | none => []
  | some a => next (known ++ a)

mutual

/-- The names that a statement reads or stores into, on some way through it, while only those in
`known` and those that the way assigned before are assigned. -/
def Stmt.early (known : List String) : Stmt → List String
  | .bind _ e _ => e.early known
  | .assign p e _ => e.early known ++ p.early known
  | .assignTuple ps e _ => e.early known ++ Place.earlyAll known ps
  | .branch c y none _ => c.early known ++ Block.early known y
  | .branch c y (some n) _ => c.early known ++ (Block.early known y ++ Block.early known n)
  -- the first round of a loop knows the least
  | .forRange v a b body _ =>
    a.early known ++ (b.early known ++ Block.early (known ++ [v.text]) body)
  | .whileLoop c body _ => c.early known ++ Block.early known body
  | .eval e _ => e.early known
  | .give (some e) _ => e.early known
  | .give none _ => []
  termination_by structural s => s

/-- The same of a block. -/
def Block.early (known : List String) : Block → List String
  | .mk ss none _ => Block.earlyAll known ss
  | .mk ss (some e) _ =>
    Block.earlyAll known ss ++
      Settled.thenEarly known (fun names => e.early names) (Block.settledAll ss)
  termination_by structural b => b

/-- The same of statements one after another. -/
def Block.earlyAll (known : List String) : List Stmt → List String
  | [] => []
  | s :: ss =>
    Stmt.early known s ++
      Settled.thenEarly known (fun names => Block.earlyAll names ss) (Stmt.settled s)
  termination_by structural ss => ss

end

/-- The names that a function binds and that some way through its body reads, or stores into, before
it assigns them, in increasing order. -/
def Definition.earlyNames (d : Definition) : List String :=
  Ordered.ofList ((d.body.early (d.params.map Ident.text)).filter d.boundNames.contains)

/-! ## What is early is read or stored into -/

/-- The name is read by one of the expressions, or one of the places is an element of its array. -/
def Touched (n : String) (es : List Expr) (ps : List Place) : Prop :=
  (∃ s, Expr.var n s ∈ es) ∨ ∃ base i s, Place.index base i s ∈ ps ∧ base.text = n

theorem Touched.mono {n : String} {es fs : List Expr} {ps qs : List Place}
    (h : Touched n es ps) (he : es ⊆ fs) (hp : ps ⊆ qs) : Touched n fs qs := by
  obtain ⟨s, hs⟩ | ⟨base, i, s, hs, hn⟩ := h
  · exact .inl ⟨s, he hs⟩
  · exact .inr ⟨base, i, s, hp hs, hn⟩

theorem Expr.mem_reads {e : Expr} {n : String} : n ∈ e.reads ↔ ∃ s, Expr.var n s ∈ e.subterms := by
  constructor
  · intro h
    obtain ⟨x, hx, hn⟩ := List.mem_filterMap.mp h
    cases x <;> cases hn
    exact ⟨_, hx⟩
  · rintro ⟨s, hs⟩
    exact List.mem_filterMap.mpr ⟨_, hs, rfl⟩

theorem Expr.mem_early {known : List String} {e : Expr} {n : String} :
    n ∈ e.early known ↔ n ∈ e.reads ∧ n ∉ known := by
  simp [early]

theorem Expr.touched_of_early {known : List String} {e : Expr} {n : String}
    (h : n ∈ e.early known) (ps : List Place) : Touched n e.subterms ps :=
  .inl (mem_reads.mp (mem_early.mp h).1)

theorem Place.touched_of_early {known : List String} {p : Place} {n : String}
    (h : n ∈ p.early known) : Touched n p.subterms [p] := by
  cases p with
  | var m s => cases h
  | discard s => cases h
  | index base i s =>
      rcases List.mem_append.mp h with h | h
      · exact i.touched_of_early h _
      · obtain rfl := List.mem_singleton.mp (List.mem_filter.mp h).1
        exact .inr ⟨base, i, s, List.mem_singleton_self _, rfl⟩

theorem Place.touched_of_earlyAll {known : List String} {ps : List Place} {n : String}
    (h : n ∈ earlyAll known ps) : Touched n (ps.flatMap Place.subterms) ps := by
  induction ps generalizing known with
  | nil => cases h
  | cons p ps ih =>
      rw [List.flatMap_cons]
      rcases List.mem_append.mp h with h | h
      · exact p.touched_of_early h |>.mono (List.subset_append_left _ _)
          (List.cons_subset_cons p (List.nil_subset ps))
      · exact (ih h).mono (List.subset_append_right _ _) (List.subset_cons_self _ _)

/-- What comes behind something is early behind some names. -/
theorem Settled.exists_of_thenEarly {known : List String} {next : List String → List String}
    {settled : Option (List String)} {n : String} (h : n ∈ thenEarly known next settled) :
    ∃ names, n ∈ next names := by
  cases settled with
  | none => cases h
  | some a => exact ⟨_, h⟩

theorem Block.touched_of_earlyAll {ss : List Stmt} {n : String}
    (ih : ∀ x ∈ ss, ∀ known, n ∈ x.early known → Touched n x.subterms x.places)
    {known : List String} (h : n ∈ Block.earlyAll known ss) :
    Touched n (Block.subtermsAll ss) (Block.placesAll ss) := by
  induction ss generalizing known with
  | nil => cases h
  | cons x ss ihs =>
      rcases List.mem_append.mp h with h | h
      · exact (ih x List.mem_cons_self known h).mono (List.subset_append_left _ _)
          (List.subset_append_left _ _)
      · obtain ⟨names, h⟩ := Settled.exists_of_thenEarly h
        exact (ihs (fun y hy => ih y (List.mem_cons_of_mem x hy)) h).mono
          (List.subset_append_right _ _) (List.subset_append_right _ _)

/-- What is early in a block is read in it, or an array that it stores into. -/
theorem Block.touched_of_early {b : Block} {n : String} (known : List String)
    (h : n ∈ b.early known) : Touched n b.subterms b.places := by
  revert known
  refine Block.induction
    (fun x => ∀ known, n ∈ x.early known → Touched n x.subterms x.places)
    (fun b => ∀ known, n ∈ b.early known → Touched n b.subterms b.places)
    ?bind ?assign ?assignTuple ?branch ?branchElse ?forRange ?whileLoop ?eval ?give ?mk b
  case bind => exact fun t e s known h => e.touched_of_early h _
  case assign =>
    intro p e s known h
    rcases List.mem_append.mp h with h | h
    · exact (e.touched_of_early h _).mono (List.subset_append_right _ _) (List.Subset.refl _)
    · exact (p.touched_of_early h).mono (List.subset_append_left _ _) (List.Subset.refl _)
  case assignTuple =>
    intro ps e s known h
    rcases List.mem_append.mp h with h | h
    · exact (e.touched_of_early h _).mono (List.subset_append_right _ _) (List.Subset.refl _)
    · exact (Place.touched_of_earlyAll h).mono (List.subset_append_left _ _) (List.Subset.refl _)
  case branch =>
    intro c yes s ih known h
    rcases List.mem_append.mp h with h | h
    · exact (c.touched_of_early h _).mono (List.subset_append_left _ _) (List.Subset.refl _)
    · exact (ih known h).mono (List.subset_append_right _ _) (List.Subset.refl _)
  case branchElse =>
    intro c yes no s ihy ihn known h
    rcases List.mem_append.mp h with h | h
    · exact (c.touched_of_early h _).mono
        (List.subset_append_of_subset_left _ (List.subset_append_left _ _)) (List.Subset.refl _)
    · rcases List.mem_append.mp h with h | h
      · exact (ihy known h).mono
          (List.subset_append_of_subset_left _ (List.subset_append_right _ _))
          (List.subset_append_left _ _)
      · exact (ihn known h).mono (List.subset_append_right _ _) (List.subset_append_right _ _)
  case forRange =>
    intro v a b body s ih known h
    rcases List.mem_append.mp h with h | h
    · exact (a.touched_of_early h _).mono
        (List.subset_append_of_subset_left _ (List.subset_append_left _ _)) (List.Subset.refl _)
    · rcases List.mem_append.mp h with h | h
      · exact (b.touched_of_early h _).mono
          (List.subset_append_of_subset_left _ (List.subset_append_right _ _))
          (List.Subset.refl _)
      · exact (ih _ h).mono (List.subset_append_right _ _) (List.Subset.refl _)
  case whileLoop =>
    intro c body s ih known h
    rcases List.mem_append.mp h with h | h
    · exact (c.touched_of_early h _).mono (List.subset_append_left _ _) (List.Subset.refl _)
    · exact (ih known h).mono (List.subset_append_right _ _) (List.Subset.refl _)
  case eval => exact fun e s known h => e.touched_of_early h _
  case give =>
    intro v s known h
    cases v with
    | none => cases h
    | some e => exact e.touched_of_early h _
  case mk =>
    intro ss tail s ih known h
    cases tail with
    | none => exact Block.touched_of_earlyAll ih h
    | some e =>
        rcases List.mem_append.mp h with h | h
        · exact (Block.touched_of_earlyAll ih h).mono (List.subset_append_left _ _)
            (List.Subset.refl _)
        · obtain ⟨names, h⟩ := Settled.exists_of_thenEarly h
          exact (e.touched_of_early h _).mono (List.subset_append_right _ _) (List.Subset.refl _)

/-- A name that is early in the body of a function is free in it, or bound and early. -/
theorem Definition.free_or_early {d : Definition} {n : String}
    (h : n ∈ d.body.early (d.params.map Ident.text)) : n ∈ d.freeNames ∨ n ∈ d.earlyNames := by
  by_cases hb : d.boundNames.contains n
  · exact .inr (Ordered.mem_ofList.mpr (List.mem_filter.mpr ⟨h, hb⟩))
  · refine .inl (Ordered.mem_ofList.mpr (List.mem_filter.mpr ⟨?_, by simpa using hb⟩))
    rw [List.mem_append]
    obtain ⟨s, hs⟩ | ⟨base, i, s, hs, rfl⟩ := Block.touched_of_early _ h
    · exact .inl (List.mem_filterMap.mpr ⟨_, hs, rfl⟩)
    · exact .inr (List.mem_filterMap.mpr ⟨_, hs, rfl⟩)

end Graft
