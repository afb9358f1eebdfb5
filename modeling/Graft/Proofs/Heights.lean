import Graft.Proofs.Naming

/-!
# Heights of trees

The parser goes one level deeper for every block and for every operand, but not at every node: the
left operand of an operator, what brackets stand behind, and the conditional behind an `else` are
links of a chain that is read in a loop. Where such links are not counted, the levels bound the
height of what is read, whatever is reported.
-/

namespace Graft

/-- The ways in which a tree grows without a deeper level. -/
inductive Link where
  /-- From an operator to its left operand. -/
  | operator
  /-- From brackets to what they stand behind. -/
  | bracket
  /-- From a conditional to the one that is all there is behind its `else`. -/
  | elseIf
  deriving DecidableEq, Repr

section

variable (counts : Link → Bool)

/-- How many expressions stand below each other, a link being counted only if `counts` says so. -/
def Expr.height : Expr → Nat
  | num _ _ | bool _ _ | var _ _ | path _ _ => 1
  | binary _ l r _ => max (l.height + (counts .operator).toNat) (r.height + 1)
  | unary _ e _ => e.height + 1
  | call _ _ es _ | array es _ | tuple es _ => heights es + 1
  | index e i _ => max (e.height + (counts .bracket).toNat) (i.height + 1)
  | slice e a b _ => max (e.height + (counts .bracket).toNat) (max a.height b.height + 1)
where
  heights : List Expr → Nat
    | [] => 0
    | e :: es => max e.height (heights es)

/-- A place with an index counts as one more expression. -/
def Place.height : Place → Nat
  | var _ _ | discard _ => 0
  | index _ i _ => i.height counts + 1

/-- The highest of some places. -/
def Place.heights : List Place → Nat
  | [] => 0
  | p :: ps => max (p.height counts) (heights ps)

mutual

/-- How many statements, blocks and expressions stand below each other. -/
def Stmt.height : Stmt → Nat
  | .bind _ e _ => e.height counts + 1
  | .assign p e _ => max (p.height counts) (e.height counts) + 1
  | .assignTuple ps e _ => max (Place.heights counts ps) (e.height counts) + 1
  | .branch c yes none _ => max (c.height counts) (Block.height yes) + 1
  | .branch c yes (some no) _ =>
    max (max (c.height counts) (Block.height yes) + 1) (Block.elseHeight no)
  | .forRange _ a b body _ =>
    max (max (a.height counts) (b.height counts)) (Block.height body) + 1
  | .whileLoop c body _ => max (c.height counts) (Block.height body) + 1
  | .eval e _ => e.height counts + 1
  | .give none _ => 1
  | .give (some e) _ => e.height counts + 1
  termination_by structural s => s

def Block.height : Block → Nat
  | .mk ss tail _ => max (Block.heights ss) (tail.elim 0 (Expr.height counts)) + 1
  termination_by structural b => b

/-- The height of a conditional because of the block behind its `else`. -/
def Block.elseHeight : Block → Nat
  | .mk [.branch c yes no s] none _ =>
    Stmt.height (.branch c yes no s) + 2 * (counts .elseIf).toNat
  | .mk ss tail _ => max (Block.heights ss) (tail.elim 0 (Expr.height counts)) + 2
  termination_by structural b => b

/-- The highest of some statements. -/
def Block.heights : List Stmt → Nat
  | [] => 0
  | s :: ss => max (Stmt.height s) (Block.heights ss)
  termination_by structural ss => ss

end

def Item.height : Item → Nat
  | .function d _ => d.body.height counts
  | .constant _ e _ => e.height counts
  | .import_ _ _ _ => 0

/-- How many blocks, statements and expressions stand below each other in a program. -/
def Program.height (p : Program) : Nat := (p.items.map (Item.height counts)).foldr max 0

end

section

variable {counts : Link → Bool} {n : Nat}

theorem Expr.heights_le {es : List Expr} (h : ∀ e ∈ es, e.height counts ≤ n) :
    height.heights counts es ≤ n := by
  induction es with
  | nil => exact Nat.zero_le n
  | cons e es ih =>
      obtain ⟨he, hes⟩ := List.forall_mem_cons.mp h
      exact Nat.max_le.mpr ⟨he, ih hes⟩

/-- A block behind `else` adds a block and a statement, or less. -/
theorem Block.elseHeight_le (b : Block) : b.elseHeight counts ≤ b.height counts + 1 := by
  unfold elseHeight
  split
  · rw [height, heights, heights]
    have := Bool.toNat_le (counts .elseIf)
    simp
    omega
  · rw [height]

theorem Program.height_le {p : Program} (h : ∀ i ∈ p.items, i.height counts ≤ n) :
    p.height counts ≤ n := by
  obtain ⟨items⟩ := p
  induction items with
  | nil => exact Nat.zero_le n
  | cons i is ih =>
      obtain ⟨hi, his⟩ := List.forall_mem_cons.mp h
      exact Nat.max_le.mpr ⟨hi, ih his⟩

theorem Program.le_height {p : Program} {i : Item} (h : i ∈ p.items) :
    i.height counts ≤ p.height counts := by
  obtain ⟨items⟩ := p
  induction items with
  | nil => cases h
  | cons j is ih =>
      rcases List.mem_cons.mp h with rfl | h
      · exact Nat.le_max_left _ _
      · exact Nat.le_trans (ih h) (Nat.le_max_right _ _)

end

namespace Parse

variable {counts : Link → Bool}

/-! ## Expressions -/

section

variable {sub : Nat → Parse Expr} {n : Nat} (hnone : ∀ link, counts link = false)
  (hsub : ∀ power, Yields (sub power) fun e => e.height counts ≤ n)

include hsub

theorem parenthesized_height (start : Span) :
    Yields (parenthesized sub start) fun e => e.height counts ≤ n + 1 := by
  refine (hsub 0).bind fun first hfirst => (Yields.eat _).bind fun _ _ => .ite (fun _ => ?_)
    fun _ => (Yields.expect _).bind fun _ _ => .pure (Nat.le_succ_of_le hfirst)
  refine (Yields.list _ (hsub 0)).bind fun more hmore => (Yields.expect _).bind fun _ _ =>
    .look fun _ => .pure ?_
  exact Nat.succ_le_succ (Expr.heights_le (List.forall_mem_cons.mpr ⟨hfirst, hmore⟩))

theorem named_height (start : Span) :
    Yields (named sub start) fun e => e.height counts ≤ n + 1 := by
  refine path_yields.bind fun p _ => .look fun _ => (Yields.eat _).bind fun _ _ =>
    .ite (fun _ => ?_) fun _ => .ite (fun _ => .pure (Nat.le_add_left 1 n))
      fun _ => .pure (Nat.le_add_left 1 n)
  exact (Yields.list _ (hsub 0)).bind fun args hargs => (Yields.expect _).bind fun _ _ =>
    .look fun _ => .pure (Nat.succ_le_succ (Expr.heights_le hargs))

theorem primary_height : Yields (primary sub) fun e => e.height counts ≤ n + 1 := by
  have leaf : 1 ≤ n + 1 := Nat.le_add_left 1 n
  refine .look fun start => .look fun t? => ?_
  split
  · exact Yields.advance.bind fun _ _ => .pure leaf
  · exact Yields.advance.bind fun _ _ => .pure leaf
  · exact Yields.advance.bind fun _ _ => .pure leaf
  · exact Yields.advance.bind fun _ _ => parenthesized_height hsub start
  · exact Yields.advance.bind fun _ _ => (Yields.list _ (hsub 0)).bind fun es hes =>
      (Yields.expect _).bind fun _ _ => .look fun _ => .pure
        (Nat.succ_le_succ (Expr.heights_le hes))
  · exact named_height hsub start
  · exact .look fun _ => (Yields.report _).bind fun _ _ => Yields.advance.bind fun _ _ => .pure leaf

include hnone

theorem postfixLoop_height (fuel : Nat) {e : Expr} (he : e.height counts ≤ n + 1) :
    Yields (postfixLoop sub fuel e) fun e => e.height counts ≤ n + 1 := by
  induction fuel generalizing e with
  | zero => exact .pure he
  | succ fuel ih =>
      refine (Yields.eat _).bind fun _ _ => .ite (fun _ => ?_) fun _ => .pure he
      refine (hsub 0).bind fun first hfirst => (Yields.eat _).bind fun _ _ => .ite (fun _ => ?_)
        fun _ => ?_
      · refine (hsub 0).bind fun last hlast => (Yields.expect _).bind fun _ _ => .look fun _ =>
          ih ?_
        rw [Expr.height, hnone]
        exact Nat.max_le.mpr ⟨he, Nat.succ_le_succ (Nat.max_le.mpr ⟨hfirst, hlast⟩)⟩
      · refine (Yields.expect _).bind fun _ _ => .look fun _ => ih ?_
        rw [Expr.height, hnone]
        exact Nat.max_le.mpr ⟨he, Nat.succ_le_succ hfirst⟩

theorem operand_height : Yields (operand sub) fun e => e.height counts ≤ n + 1 := by
  refine .look fun start => .look fun t? => ?_
  split
  · exact Yields.advance.bind fun _ _ => (hsub _).bind fun e he => .pure (Nat.succ_le_succ he)
  · exact (primary_height hsub).bind fun e he => .look fun fuel =>
      postfixLoop_height hnone hsub fuel he

theorem operatorLoop_height (power fuel : Nat) {e : Expr} (he : e.height counts ≤ n + 1) :
    Yields (operatorLoop sub power fuel e) fun e => e.height counts ≤ n + 1 := by
  induction fuel generalizing e with
  | zero => exact .pure he
  | succ fuel ih =>
      refine .look fun t? => ?_
      split
      · exact .pure he
      · refine .ite (fun _ => .pure he) fun _ => Yields.advance.bind fun _ _ => (hsub _).bind
          fun r hr => ih ?_
        rw [Expr.height, hnone]
        exact Nat.max_le.mpr ⟨he, Nat.succ_le_succ hr⟩

end

/-- An expression is at most as high as the levels that were left for it, and one more. -/
theorem expr_height (hnone : ∀ link, counts link = false) (levels power : Nat) :
    Yields (expr levels power) fun e => e.height counts ≤ levels + 1 := by
  induction levels generalizing power with
  | zero => exact .refuse fun _ => Nat.le_refl 1
  | succ levels ih =>
      exact .deeper (fun _ => Nat.le_add_left 1 _) ((operand_height hnone ih).bind fun e he =>
        .look fun fuel => operatorLoop_height hnone ih power fuel he)

/-! ## Statements -/

theorem placeOf_height {e : Expr} {n : Nat} (he : e.height counts ≤ n) :
    Yields (placeOf e) fun p => p.height counts ≤ n := by
  unfold placeOf
  split
  · split <;> exact .pure (Nat.zero_le n)
  · exact .pure (Nat.le_trans (Nat.le_max_right _ _) he)
  · exact (Yields.reportAt _ _).bind fun _ _ => .pure (Nat.zero_le n)

theorem placesOf_height {es : List Expr} {n : Nat} (hes : Expr.height.heights counts es ≤ n) :
    Yields (es.mapM placeOf) fun ps => Place.heights counts ps ≤ n := by
  induction es with
  | nil =>
      rw [List.mapM_nil]
      exact .pure (Nat.zero_le n)
  | cons e es ih =>
      obtain ⟨he, hes⟩ := Nat.max_le.mp hes
      rw [List.mapM_cons]
      exact (placeOf_height he).bind fun p hp => (ih hes).bind fun ps hps =>
        .pure (Nat.max_le.mpr ⟨hp, hps⟩)

section

variable {e : Parse Expr} {b : Parse Block} {n : Nat} (hnone : ∀ link, counts link = false)
  (he : Yields e fun e => e.height counts ≤ n) (hb : Yields b fun b => b.height counts ≤ n)

include he

theorem bindStmt_height : Yields (bindStmt e) fun x => x.height counts ≤ n + 1 :=
  .look fun _ => (Yields.expectWord _).bind fun _ _ => pattern_yields.bind fun _ _ =>
    (Yields.expect _).bind fun _ _ => he.bind fun _ hinit => .pure (Nat.succ_le_succ hinit)

theorem giveStmt_height : Yields (giveStmt e) fun x => x.height counts ≤ n + 1 := by
  refine .look fun _ => (Yields.expectWord _).bind fun _ _ => .look fun _ => .look fun _ =>
    .look fun _ => .ite (fun _ => .look fun _ => .pure (Nat.le_add_left 1 n)) fun _ => ?_
  exact he.bind fun value hvalue => .look fun _ => .pure (Nat.succ_le_succ hvalue)

theorem exprStmt_height : Yields (exprStmt e)
    (Sum.elim (fun x => x.height counts ≤ n + 1) fun e => e.height counts ≤ n) := by
  refine he.bind fun left hleft => .look fun _ => .ite (fun _ => .pure hleft) fun _ =>
    (Yields.eat _).bind fun _ _ => .ite (fun _ => he.bind fun value hvalue => ?_) fun _ =>
      .pure (Nat.succ_le_succ hleft)
  dsimp only
  split
  · next es s =>
      exact (placesOf_height (Nat.le_of_succ_le hleft)).bind fun ps hps =>
        .pure (Nat.succ_le_succ (Nat.max_le.mpr ⟨hps, hvalue⟩))
  · exact (placeOf_height hleft).bind fun p hp =>
      .pure (Nat.succ_le_succ (Nat.max_le.mpr ⟨hp, hvalue⟩))

include hb

theorem forStmt_height : Yields (forStmt e b) fun x => x.height counts ≤ n + 1 :=
  .look fun _ => (Yields.expectWord _).bind fun _ _ => Yields.expectName.bind fun _ _ =>
    (Yields.expectWord _).bind fun _ _ => he.bind fun _ hfirst => (Yields.expect _).bind
      fun _ _ => he.bind fun _ hlast => hb.bind fun _ hbody => .look fun _ => .pure
        (Nat.succ_le_succ (Nat.max_le.mpr ⟨Nat.max_le.mpr ⟨hfirst, hlast⟩, hbody⟩))

theorem whileStmt_height : Yields (whileStmt e b) fun x => x.height counts ≤ n + 1 :=
  .look fun _ => (Yields.expectWord _).bind fun _ _ => he.bind fun _ hc => hb.bind fun _ hbody =>
    .look fun _ => .pure (Nat.succ_le_succ (Nat.max_le.mpr ⟨hc, hbody⟩))

include hnone

/-- A chain of conditionals is not higher than one of them. -/
theorem branchStmt_height (fuel : Nat) : Yields (branchStmt e b fuel) fun x =>
    (∃ c yes no s, x = .branch c yes no s) ∧ x.height counts ≤ n + 1 := by
  have step : ∀ fuel, (∀ m, fuel = m + 1 → Yields (branchStmt e b m) fun x =>
      (∃ c yes no s, x = .branch c yes no s) ∧ x.height counts ≤ n + 1) →
      Yields (branchStmt e b fuel) fun x =>
        (∃ c yes no s, x = .branch c yes no s) ∧ x.height counts ≤ n + 1 := by
    intro fuel ih
    rw [branchStmt.eq_def]
    refine .look fun _ => (Yields.expectWord _).bind fun _ _ => he.bind fun c hc => hb.bind
      fun yes hyes => (Yields.eatWord _).bind fun _ _ => ?_
    have halone : max (c.height counts) (yes.height counts) + 1 ≤ n + 1 :=
      Nat.succ_le_succ (Nat.max_le.mpr ⟨hc, hyes⟩)
    refine .ite (fun _ => .look fun _ => .ite (fun _ => ?_) fun _ => ?_) fun _ => ?_
    · cases fuel with
      | zero => exact .look fun _ => .pure ⟨⟨_, _, _, _, rfl⟩, halone⟩
      | succ m =>
          refine (ih m rfl).bind ?_
          rintro _ ⟨⟨c', yes', no', s', rfl⟩, hinner⟩
          refine .look fun _ => .pure ⟨⟨_, _, _, _, rfl⟩, ?_⟩
          rw [Stmt.height, Block.elseHeight, hnone]
          exact Nat.max_le.mpr ⟨halone, hinner⟩
    · refine hb.bind fun no hno => .look fun _ => .pure ⟨⟨_, _, _, _, rfl⟩, ?_⟩
      rw [Stmt.height]
      exact Nat.max_le.mpr ⟨halone, Nat.le_trans no.elseHeight_le (Nat.succ_le_succ hno)⟩
    · exact .look fun _ => .pure ⟨⟨_, _, _, _, rfl⟩, halone⟩
  induction fuel with
  | zero => exact step 0 fun m h => absurd h (Nat.succ_ne_zero m).symm
  | succ fuel ih => exact step (fuel + 1) fun m h => Nat.succ.inj h ▸ ih

theorem stmt_height : Yields (stmt e b)
    (Sum.elim (fun x => x.height counts ≤ n + 1) fun e => e.height counts ≤ n) := by
  refine .look fun t? => ?_
  split
  · exact (bindStmt_height he).bind fun _ hx => .pure hx
  · exact .look fun fuel => (branchStmt_height hnone he hb fuel).bind fun _ hx => .pure hx.2
  · exact (forStmt_height he hb).bind fun _ hx => .pure hx
  · exact (whileStmt_height he hb).bind fun _ hx => .pure hx
  · exact (giveStmt_height he).bind fun _ hx => .pure hx
  · exact exprStmt_height he

theorem stmtLoop_height (fuel : Nat) : Yields (stmtLoop e b fuel) fun r =>
    Block.heights counts r.1 ≤ n + 1 ∧ r.2.elim 0 (Expr.height counts) ≤ n := by
  have nothing : Block.heights counts [] ≤ n + 1 := Nat.zero_le _
  induction fuel with
  | zero => exact .pure ⟨nothing, Nat.zero_le n⟩
  | succ fuel ih =>
      refine .look fun _ => .look fun _ => .ite (fun _ => .pure ⟨nothing, Nat.zero_le n⟩) fun _ =>
        (Yields.eat _).bind fun _ _ => .ite (fun _ => ih) fun _ =>
          (stmt_height hnone he hb).bind fun r hr => ?_
      cases r with
      | inl x => exact ih.bind fun r' hr' => .pure ⟨Nat.max_le.mpr ⟨hr, hr'.1⟩, hr'.2⟩
      | inr t => exact .pure ⟨nothing, hr⟩

end

/-- Each level of blocks adds a block and a statement. -/
theorem block_height (hnone : ∀ link, counts link = false) (levels : Nat) :
    Yields (block levels) fun b => b.height counts ≤ 2 * levels + 1 := by
  induction levels with
  | zero => exact .refuse fun _ => Nat.le_refl 1
  | succ levels ih =>
      have hexpr : Yields (expr levels 0) fun e => e.height counts ≤ 2 * levels + 1 :=
        (expr_height hnone levels 0).mono fun e he => Nat.le_trans he (by omega)
      refine .deeper (fun _ => Nat.le_add_left 1 _) (.look fun _ => (Yields.expect _).bind
        fun _ _ => .look fun fuel => (stmtLoop_height hnone hexpr ih fuel).bind fun r hr =>
          .look fun _ => (Yields.expect _).bind fun _ _ => .pure ?_)
      exact Nat.succ_le_succ (Nat.max_le.mpr ⟨hr.1, Nat.le_succ_of_le hr.2⟩)

/-! ## Items -/

theorem definition_height (hnone : ∀ link, counts link = false) (markers : List Ident) :
    Yields (definition markers) fun d => d.body.height counts ≤ 2 * maxLevels + 1 :=
  (Yields.expectWord _).bind fun _ _ => Yields.expectName.bind fun _ _ =>
    (Yields.expect _).bind fun _ _ => .look fun fuel => (paramLoop_yields fuel []).bind
      fun _ _ => (Yields.expect _).bind fun _ _ => (block_height hnone maxLevels).bind
        fun _ hbody => .pure hbody

theorem item_height (hnone : ∀ link, counts link = false) (start : Span) (markers : List Ident) :
    Yields (item start markers) fun r => ∀ i ∈ r, i.height counts ≤ 2 * maxLevels + 1 := by
  refine .look fun t? => ?_
  split
  · refine (definition_height hnone markers).bind fun d hd => .look fun _ => .pure ?_
    rintro _ ⟨⟩
    exact hd
  · refine (Yields.expectWord _).bind fun _ _ => .look fun _ => path_yields.bind fun _ _ =>
      .ite (fun _ => .look fun _ => .pure ?_) fun _ => (Yields.report _).bind fun _ _ =>
        .look fun _ => .pure ?_
    · rintro _ ⟨⟩
      exact Nat.zero_le _
    · rintro _ ⟨⟩
      exact Nat.zero_le _
  · refine (Yields.expectWord _).bind fun _ _ => Yields.expectName.bind fun _ _ =>
      (Yields.expect _).bind fun _ _ => (expr_height hnone _ _).bind fun _ he => .look fun _ =>
        .pure ?_
    rintro _ ⟨⟩
    exact Nat.le_trans he (by omega)
  · refine .look fun _ => (Yields.report _).bind fun _ _ => Yields.advance.bind fun _ _ => .pure ?_
    rintro _ ⟨⟩

theorem itemLoop_height (hnone : ∀ link, counts link = false) (fuel : Nat) :
    Yields (itemLoop fuel) fun items => ∀ i ∈ items, i.height counts ≤ 2 * maxLevels + 1 := by
  induction fuel with
  | zero => exact .pure (by simp)
  | succ fuel ih =>
      refine .look fun _ => .ite (fun _ => .pure (by simp)) fun _ => .look fun start =>
        .look fun n => (markerLoop_yields n).bind fun markers _ => .look fun _ => ?_
      have hmore : Yields (do
          let read ← item start markers
          let _ ← eat .semicolon
          let more ← itemLoop fuel
          return read.toList ++ more) fun items =>
            ∀ i ∈ items, i.height counts ≤ 2 * maxLevels + 1 := by
        refine (item_height hnone start markers).bind fun r hr => (Yields.eat _).bind fun _ _ =>
          ih.bind fun items hitems => .pure fun i hi => ?_
        rcases List.mem_append.mp hi with hi | hi
        · exact hr i (Option.mem_toList.mp hi)
        · exact hitems i hi
      exact .ite (fun _ => (Yields.report _).bind fun _ _ => hmore) fun _ => hmore

end Parse

/-- Where no link counts, a program is at most two nodes high for each level of blocks, and one
more. -/
theorem Program.height_le_of_uncounted {counts : Link → Bool} (hnone : ∀ link, counts link = false)
    {source : String} {p : Program} (hp : parse source = .ok p) :
    p.height counts ≤ 2 * Parse.maxLevels + 1 :=
  height_le (forall_of_yields (Parse.itemLoop_height hnone) hp)

end Graft
