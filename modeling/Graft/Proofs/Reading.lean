import Graft.Proofs.Cursors
import Graft.Proofs.Trees

/-!
# Reading a part of a text

Every production of the grammar is `Local`: it reads the same when the tokens further on are cut off.
A definition ends by stepping over the closing brace of its body and looks no further. The lemmas also
say that every expression that was read stands somewhere, and that reading an expression or a
statement takes a token.
-/

namespace Graft

/-! ## Placed trees -/

/-- Every part of the expression stands somewhere. -/
def Expr.Placed (e : Expr) : Prop := ∀ x ∈ e.subterms, x.span.Placed

def Place.Placed (p : Place) : Prop := ∀ x ∈ p.subterms, x.span.Placed

def Stmt.Placed (x : Stmt) : Prop := ∀ e ∈ x.subterms, e.span.Placed

def Block.Placed (b : Block) : Prop := ∀ e ∈ b.subterms, e.span.Placed

theorem Expr.Placed.span {e : Expr} (h : e.Placed) : e.span.Placed := Throughout.self h

section

variable {e l r i a b : Expr} {es : List Expr} {s t : Span}

theorem Expr.placed_num {x : Float} : (num x s).Placed ↔ s.Placed := throughout_num

theorem Expr.placed_bool {x : Bool} : (bool x s).Placed ↔ s.Placed := throughout_bool

theorem Expr.placed_var {n : String} : (var n s).Placed ↔ s.Placed := throughout_var

theorem Expr.placed_path {p : Path} : (path p s).Placed ↔ s.Placed := throughout_path

theorem Expr.placed_binary {op : BinaryOp} :
    (binary op l r s).Placed ↔ l.Placed ∧ r.Placed ∧ s.Placed := throughout_binary

theorem Expr.placed_unary {op : UnaryOp} : (unary op e s).Placed ↔ e.Placed ∧ s.Placed :=
  throughout_unary

theorem Expr.placed_call {p : Path} :
    (call p t es s).Placed ↔ (∀ e ∈ es, e.Placed) ∧ s.Placed := throughout_call

theorem Expr.placed_index : (index e i s).Placed ↔ e.Placed ∧ i.Placed ∧ s.Placed :=
  throughout_index

theorem Expr.placed_slice :
    (slice e a b s).Placed ↔ e.Placed ∧ a.Placed ∧ b.Placed ∧ s.Placed := throughout_slice

theorem Expr.placed_array : (array es s).Placed ↔ (∀ e ∈ es, e.Placed) ∧ s.Placed :=
  throughout_array

theorem Expr.placed_tuple : (tuple es s).Placed ↔ (∀ e ∈ es, e.Placed) ∧ s.Placed :=
  throughout_tuple

end

theorem Block.placed_mk {ss : List Stmt} {tail : Option Expr} {s : Span} :
    (Block.mk ss tail s).Placed ↔ (∀ x ∈ ss, x.Placed) ∧ ∀ e ∈ tail, e.Placed := throughout_mk

section

variable {p : Place} {ps : List Place} {e c a b : Expr} {yes no body : Block} {s : Span}

theorem Stmt.placed_assign : (assign p e s).Placed ↔ p.Placed ∧ e.Placed := throughout_assign

theorem Stmt.placed_assignTuple :
    (assignTuple ps e s).Placed ↔ (∀ p ∈ ps, p.Placed) ∧ e.Placed := throughout_assignTuple

theorem Stmt.placed_branch : (branch c yes none s).Placed ↔ c.Placed ∧ yes.Placed :=
  throughout_branch

theorem Stmt.placed_branchElse :
    (branch c yes (some no) s).Placed ↔ c.Placed ∧ yes.Placed ∧ no.Placed := throughout_branchElse

theorem Stmt.placed_forRange {v : Ident} :
    (forRange v a b body s).Placed ↔ a.Placed ∧ b.Placed ∧ body.Placed := throughout_forRange

theorem Stmt.placed_whileLoop : (whileLoop c body s).Placed ↔ c.Placed ∧ body.Placed :=
  throughout_whileLoop

end

namespace Parse

variable {k : Nat} {stop : Span}

/-! ## Expressions -/

/-- An expression that was read at the cursor `c`: it stands somewhere, and if there was a token, it
took one. -/
def Took (c : Cursor) (e : Expr) (d : Cursor) : Prop :=
  e.Placed ∧ (c.rest ≠ [] → d.rest.length < c.rest.length)

theorem pathLoop_local (c : Cursor) : Local k stop 1 c (pathLoop c.rest.length)
    (pathLoop (c.rest.length - k)) fun _ _ => True := by
  refine Local.counted (f := fun n (_ : Unit) => pathLoop n) (R := fun _ _ _ => True)
    (fun _ _ => True)
    (fun _ _ _ _ => .pure trivial) (fun n m s c _ ih => ?_) () trivial
  refine (Local.eat .dot).bind fun b d _ hb => .ite (fun h => ?_) fun _ => .pure trivial
  refine Local.name?.bind fun n? e he _ => ?_
  cases n? with
  | some n =>
      exact (ih () e trivial (Nat.lt_of_le_of_lt he.le (hb.1 h))).bind fun _ _ _ _ => .pure trivial
  | none => exact (Local.report _).bind fun _ _ _ _ => .pure trivial

theorem path_local (c : Cursor) : Local k stop 1 c path path fun _ d =>
    ∀ text, c.peek = some (.name text) → d.rest.length < c.rest.length := by
  refine Local.expectName.bind fun _ d _ hd => .remaining ((pathLoop_local d).bind
    fun _ e he _ => .pure ?_)
  exact fun text ht => Nat.lt_of_le_of_lt he.le (hd text ht)

section

variable {sub : Nat → Parse Expr}
  (hsub : ∀ power c, Local k stop 1 c (sub power) (sub power) (Took c))

include hsub

theorem operands_local (close : Symbol) (c : Cursor) :
    Local k stop 1 c (list close (sub 0)) (list close (sub 0)) fun es _ => ∀ e ∈ es, e.Placed :=
  Local.list close fun c => (hsub 0 c).mono fun _ _ _ h => h.1

theorem parenthesized_local {start : Span} (hstart : start.Placed) (c : Cursor) :
    Local k stop 1 c (parenthesized sub start) (parenthesized sub start) fun e _ => e.Placed := by
  refine (hsub 0 c).bind fun first d _ hfirst => (Local.eat .comma).bind fun _ _ _ _ =>
    .ite (fun _ => ?_) fun _ => ?_
  · refine (operands_local hsub _ _).bind fun more _ _ hmore => (Local.expect _).loosen.bind
      fun _ _ _ _ => .before fun s _ => .pure (Expr.placed_tuple.mpr ⟨?_, hstart.merge s⟩)
    simpa using ⟨hfirst.1, hmore⟩
  · exact (Local.expect _).loosen.bind fun _ _ _ _ => .pure hfirst.1

theorem named_local {start : Span} (hstart : start.Placed) (c : Cursor) :
    Local k stop 1 c (named sub start) (named sub start) fun e d =>
      e.Placed ∧ ∀ text, c.peek = some (.name text) → d.rest.length < c.rest.length := by
  refine (path_local c).bind fun p d _ hd => .before fun s _ => ?_
  refine Local.mono (P := fun e _ => e.Placed) ?_ fun e d' hd' he =>
    ⟨he, fun text ht => Nat.lt_of_le_of_lt hd'.le (hd text ht)⟩
  refine (Local.eat .openParen).bind fun _ _ _ _ => .ite (fun _ => ?_) fun _ => ?_
  · exact (operands_local hsub _ _).bind fun args _ _ hargs => (Local.expect _).loosen.bind
      fun _ _ _ _ => .before fun s _ => .pure (Expr.placed_call.mpr ⟨hargs, hstart.merge s⟩)
  · exact .ite (fun _ => .pure (Expr.placed_path.mpr (hstart.merge s)))
      fun _ => .pure (Expr.placed_var.mpr (hstart.merge s))

theorem primary_local (c : Cursor) : Local k stop 1 c (primary sub) (primary sub) (Took c) := by
  -- every case but that of a name starts with a step over one token
  have advanced : ∀ {f g : Unit → Parse Expr},
      (∀ d, Local k stop 1 d (f ()) (g ()) fun e _ => e.Placed) →
      Local k stop 1 c (advance >>= f) (advance >>= g) (Took c) := by
    intro f g h
    refine Local.advance.loosen.bind fun _ d _ hd => (h d).mono fun e d' hd' he => ⟨he, fun hne => ?_⟩
    refine Nat.lt_of_le_of_lt hd'.le ?_
    rw [hd]
    exact Cursor.advance_lt hne
  refine .here fun start hstart => .peek ?_
  split
  · exact advanced fun _ => .pure (Expr.placed_num.mpr hstart)
  · exact advanced fun _ => .pure (Expr.placed_bool.mpr hstart)
  · exact advanced fun _ => .pure (Expr.placed_bool.mpr hstart)
  · exact advanced fun d => parenthesized_local hsub hstart d
  · exact advanced fun d => (operands_local hsub _ _).bind fun es _ _ hes =>
      (Local.expect _).loosen.bind fun _ _ _ _ => .before fun s _ =>
        .pure (Expr.placed_array.mpr ⟨hes, hstart.merge s⟩)
  · next text ht =>
      exact (named_local hsub hstart c).mono fun e d _ h => ⟨h.1, fun _ => h.2 text ht⟩
  · refine .found ((Local.report _).bind fun _ d _ hd => Local.advance.loosen.bind fun _ e _ he =>
      .pure ⟨Expr.placed_num.mpr hstart, fun hne => ?_⟩)
    rw [he, ← hd]
    exact Cursor.advance_lt (hd ▸ hne)

theorem postfixLoop_local {e : Expr} (he : e.Placed) (c : Cursor) :
    Local k stop 1 c (postfixLoop sub c.rest.length e) (postfixLoop sub (c.rest.length - k) e)
      fun e _ => e.Placed := by
  refine Local.counted (f := fun n e => postfixLoop sub n e) (R := fun _ e _ => e.Placed)
    (fun e _ => e.Placed) (fun e c he _ => .pure he) (fun n m e c he ih => ?_) e he
  refine (Local.eat .openBracket).bind fun b d _ hb => .ite (fun h => ?_) fun _ => .pure he
  refine (hsub 0 d).bind fun first d₁ h₁ hfirst => (Local.eat .dotDot).bind fun _ d₂ h₂ _ =>
    .ite (fun _ => ?_) fun _ => ?_
  · refine (hsub 0 d₂).bind fun last d₃ h₃ hlast => (Local.expect _).loosen.bind fun _ d₄ h₄ _ =>
      .before fun s _ => ih _ d₄ ?_ ?_
    · exact Expr.placed_slice.mpr ⟨he, hfirst.1, hlast.1, he.span.merge s⟩
    · exact Nat.lt_of_le_of_lt (h₁.trans (h₂.trans (h₃.trans h₄))).le (hb.1 h)
  · refine (Local.expect _).loosen.bind fun _ d₃ h₃ _ => .before fun s _ => ih _ d₃ ?_ ?_
    · exact Expr.placed_index.mpr ⟨he, hfirst.1, he.span.merge s⟩
    · exact Nat.lt_of_le_of_lt (h₁.trans (h₂.trans h₃)).le (hb.1 h)

theorem operand_local (c : Cursor) : Local k stop 1 c (operand sub) (operand sub) (Took c) := by
  refine .here fun start hstart => .peek ?_
  split
  · next op hop =>
      refine Local.advance.loosen.bind fun _ d _ hd => (hsub _ d).bind fun e d' hd' he =>
        .pure ⟨Expr.placed_unary.mpr ⟨he.1, hstart.merge _⟩, fun hne => ?_⟩
      refine Nat.lt_of_le_of_lt hd'.le ?_
      rw [hd]
      exact Cursor.advance_lt hne
  · exact (primary_local hsub c).bind fun e d _ he => .remaining ((postfixLoop_local hsub he.1 d).mono
      fun e' d' hd' he' => ⟨he', fun hne => Nat.lt_of_le_of_lt hd'.le (he.2 hne)⟩)

theorem operatorLoop_local (power : Nat) {left : Expr} (hleft : left.Placed) (c : Cursor) :
    Local k stop 1 c (operatorLoop sub power c.rest.length left)
      (operatorLoop sub power (c.rest.length - k) left) fun e _ => e.Placed := by
  refine Local.counted (f := fun n left => operatorLoop sub power n left)
    (R := fun _ e _ => e.Placed) (fun e _ => e.Placed) (fun e c he _ => .pure he)
    (fun n m left c hleft ih => .peek ?_) left hleft
  split
  · exact .pure hleft
  · next op hop =>
      refine .ite (fun _ => .pure hleft) fun _ => Local.advance.loosen.bind fun _ d _ hd =>
        (hsub _ d).bind fun right d' hd' hright => ih _ d' ?_ ?_
      · exact Expr.placed_binary.mpr ⟨hleft, hright.1, hleft.span.merge _⟩
      · refine Nat.lt_of_le_of_lt hd'.le ?_
        rw [hd]
        refine Cursor.advance_lt fun hnil => ?_
        simp [Cursor.peek, hnil] at hop

end

theorem expr_local (levels power : Nat) (c : Cursor) :
    Local k stop 1 c (expr levels power) (expr levels power) (Took c) := by
  have stub : ∀ (c d : Cursor) (s : Span), s.Placed → d.rest = [] → Took c (.num 0 s) d := by
    intro c d s hs hd
    refine ⟨Expr.placed_num.mpr hs, fun hne => ?_⟩
    rw [hd]
    exact List.length_pos_iff.mpr hne
  induction levels generalizing power c with
  | zero => exact .refuse fun s d hs hd _ => stub c d s hs hd
  | succ levels ih =>
      refine .deeper (fun s d hs hd _ => stub c d s hs hd) ?_
      exact (operand_local ih c).bind fun left d _ hleft =>
        .remaining ((operatorLoop_local ih power hleft.1 d).mono fun e d' hd' he =>
          ⟨he, fun hne => Nat.lt_of_le_of_lt hd'.le (hleft.2 hne)⟩)

/-! ## Statements -/

theorem placeOf_local {e : Expr} (he : e.Placed) (c : Cursor) :
    Local k stop 1 c (placeOf e) (placeOf e) fun p _ => p.Placed := by
  unfold placeOf
  split
  · split <;> exact .pure (by simp [Place.Placed, Place.subterms])
  · exact .pure (Expr.placed_index.mp he).2.1
  · exact (Local.reportAt _ _).bind fun _ _ _ _ => .pure (by simp [Place.Placed, Place.subterms])

theorem placesOf_local {es : List Expr} (hes : ∀ e ∈ es, e.Placed) (c : Cursor) :
    Local k stop 1 c (es.mapM placeOf) (es.mapM placeOf) fun ps _ => ∀ p ∈ ps, p.Placed := by
  induction es generalizing c with
  | nil =>
      rw [List.mapM_nil]
      exact .pure (by simp)
  | cons e es ih =>
      rw [List.mapM_cons]
      refine (placeOf_local (hes e List.mem_cons_self) c).bind fun p d _ hp =>
        (ih (fun e' he' => hes e' (List.mem_cons_of_mem e he')) d).bind fun ps _ _ hps => .pure ?_
      simpa using ⟨hp, hps⟩

theorem pattern_local (c : Cursor) :
    Local k stop 1 c pattern pattern fun _ _ => True := by
  refine (Local.eat _).bind fun _ _ _ _ => .ite (fun _ => ?_) fun _ => ?_
  · exact (Local.list _ (R := fun _ => True) fun c => Local.expectName.mono fun _ _ _ _ =>
      trivial).bind fun _ _ _ _ => (Local.expect _).loosen.bind fun _ _ _ _ => .pure trivial
  · exact Local.expectName.bind fun _ _ _ _ => .pure trivial

section

variable {e : Parse Expr} {b : Parse Block}
  (he : ∀ c, Local k stop 1 c e e (Took c))
  (hb : ∀ c, Local k stop 1 c b b fun body _ => body.Placed)

include he

theorem bindStmt_local (c : Cursor) : Local k stop 1 c (bindStmt e) (bindStmt e) fun x d =>
    x.Placed ∧ (c.isAtWord .letWord = true → d.rest.length < c.rest.length) := by
  refine .here fun _ _ => (Local.expectWord _).bind fun _ d _ hd => (pattern_local d).bind
    fun _ d₁ h₁ _ => (Local.expect _).loosen.bind fun _ d₂ h₂ _ => (he d₂).bind
      fun init d₃ h₃ hinit => .pure ⟨hinit.1, fun hw => ?_⟩
  exact Nat.lt_of_le_of_lt (h₁.trans (h₂.trans h₃)).le (hd hw)

theorem giveStmt_local (c : Cursor) : Local k stop 1 c (giveStmt e) (giveStmt e) fun x d =>
    x.Placed ∧ (c.isAtWord .returnWord = true → d.rest.length < c.rest.length) := by
  refine .here fun _ _ => (Local.expectWord _).bind fun _ d _ hd =>
    .isAt (.isAt (.isAtEnd (.ite (fun _ => ?_) fun _ => ?_)))
  · exact .before fun _ _ => .pure ⟨by simp [Stmt.Placed, Stmt.subterms], hd⟩
  · exact (he d).bind fun value d' hd' hvalue => .before fun _ _ =>
      .pure ⟨hvalue.1, fun hw => Nat.lt_of_le_of_lt hd'.le (hd hw)⟩

theorem exprStmt_local (c : Cursor) : Local k stop 1 c (exprStmt e) (exprStmt e) fun r d =>
    Sum.elim Stmt.Placed Expr.Placed r ∧ (c.rest ≠ [] → d.rest.length < c.rest.length) := by
  refine (he c).bind fun left d _ hleft => ?_
  refine Local.mono (P := fun r _ => Sum.elim Stmt.Placed Expr.Placed r) ?_ fun r d' hd' hr =>
    ⟨hr, fun hne => Nat.lt_of_le_of_lt hd'.le (hleft.2 hne)⟩
  refine .isAt (.ite (fun _ => .pure hleft.1) fun _ => (Local.eat _).bind fun _ d₁ _ _ =>
    .ite (fun _ => ?_) fun _ => .pure hleft.1)
  refine (he d₁).bind fun value d₂ _ hvalue => ?_
  dsimp only
  split
  · next es s =>
      refine (placesOf_local (Expr.placed_tuple.mp hleft.1).1 d₂).bind fun ps _ _ hps => .pure ?_
      exact Stmt.placed_assignTuple.mpr ⟨hps, hvalue.1⟩
  · exact (placeOf_local hleft.1 d₂).bind fun p _ _ hp =>
      .pure (Stmt.placed_assign.mpr ⟨hp, hvalue.1⟩)

include hb

theorem branchStmt_local (c : Cursor) (hc : c.isAtWord .ifWord = true) :
    Local k stop 1 c (branchStmt e b c.rest.length) (branchStmt e b (c.rest.length - k)) fun x d =>
      x.Placed ∧ d.rest.length < c.rest.length := by
  refine Local.counted (f := fun n (_ : Unit) => branchStmt e b n)
    (R := fun c x d => x.Placed ∧ d.rest.length < c.rest.length) (fun _ c => c.isAtWord .ifWord = true)
    (fun _ c hc hnil => ?_) (fun n m _ c hc ih => ?_) () hc
  · exact absurd hnil (Cursor.ne_nil_of_isAtWord hc)
  · rw [branchStmt.eq_def, branchStmt.eq_def]
    refine .here fun _ _ => (Local.expectWord _).bind fun _ d hd hlt => ?_
    -- the word `if` is the token that this round takes
    have hlt := hlt hc
    refine Local.mono (P := fun x _ => x.Placed) ?_ fun x d' hd' hx =>
      ⟨hx, Nat.lt_of_le_of_lt hd'.le hlt⟩
    refine (he d).bind fun condition d₁ h₁ hcondition => (hb d₁).bind fun yes d₂ h₂ hyes =>
      (Local.eatWord _).bind fun _ d₃ h₃ _ => .ite (fun _ => .isAtWord (.ite (fun hif => ?_)
        fun _ => ?_)) fun _ => ?_
    · refine (ih () d₃ hif ?_).bind fun inner _ _ hinner => .before fun _ _ => .pure ?_
      · exact Nat.lt_of_le_of_lt (h₁.trans (h₂.trans h₃)).le hlt
      · refine Stmt.placed_branchElse.mpr ⟨hcondition.1, hyes, Block.placed_mk.mpr ⟨?_, ?_⟩⟩
        · simpa using hinner.1
        · simp
    · exact (hb d₃).bind fun no _ _ hno => .before fun _ _ =>
        .pure (Stmt.placed_branchElse.mpr ⟨hcondition.1, hyes, hno⟩)
    · exact .before fun _ _ => .pure (Stmt.placed_branch.mpr ⟨hcondition.1, hyes⟩)

theorem forStmt_local (c : Cursor) : Local k stop 1 c (forStmt e b) (forStmt e b) fun x d =>
    x.Placed ∧ (c.isAtWord .forWord = true → d.rest.length < c.rest.length) := by
  refine .here fun _ _ => (Local.expectWord _).bind fun _ d _ hd => ?_
  refine Local.mono (P := fun x _ => x.Placed) ?_ fun x d' hd' hx =>
    ⟨hx, fun hw => Nat.lt_of_le_of_lt hd'.le (hd hw)⟩
  exact Local.expectName.bind fun _ _ _ _ => (Local.expectWord _).bind fun _ d₁ _ _ =>
    (he d₁).bind fun first _ _ hfirst => (Local.expect _).loosen.bind fun _ d₂ _ _ =>
      (he d₂).bind fun last d₃ _ hlast => (hb d₃).bind fun body _ _ hbody => .before fun _ _ =>
        .pure (Stmt.placed_forRange.mpr ⟨hfirst.1, hlast.1, hbody⟩)

theorem whileStmt_local (c : Cursor) : Local k stop 1 c (whileStmt e b) (whileStmt e b) fun x d =>
    x.Placed ∧ (c.isAtWord .whileWord = true → d.rest.length < c.rest.length) := by
  refine .here fun _ _ => (Local.expectWord _).bind fun _ d _ hd => (he d).bind
    fun condition d₁ h₁ hcondition => (hb d₁).bind fun body d₂ h₂ hbody => .before fun _ _ =>
      .pure ⟨Stmt.placed_whileLoop.mpr ⟨hcondition.1, hbody⟩, fun hw => ?_⟩
  exact Nat.lt_of_le_of_lt (h₁.trans h₂).le (hd hw)

theorem stmt_local (c : Cursor) : Local k stop 1 c (stmt e b) (stmt e b) fun r d =>
    Sum.elim Stmt.Placed Expr.Placed r ∧ (c.rest ≠ [] → d.rest.length < c.rest.length) := by
  have atWord := @Cursor.isAtWord_of_peek c
  refine .peek ?_
  split
  · next h =>
      exact (bindStmt_local he c).bind fun x _ _ hx => .pure ⟨hx.1, fun _ => hx.2 (atWord h)⟩
  · next h =>
      exact .remaining ((branchStmt_local he hb c (atWord h)).bind fun x _ _ hx =>
        .pure ⟨hx.1, fun _ => hx.2⟩)
  · next h =>
      exact (forStmt_local he hb c).bind fun x _ _ hx => .pure ⟨hx.1, fun _ => hx.2 (atWord h)⟩
  · next h =>
      exact (whileStmt_local he hb c).bind fun x _ _ hx => .pure ⟨hx.1, fun _ => hx.2 (atWord h)⟩
  · next h =>
      exact (giveStmt_local he c).bind fun x _ _ hx => .pure ⟨hx.1, fun _ => hx.2 (atWord h)⟩
  · exact exprStmt_local he c

theorem stmtLoop_local (c : Cursor) : Local k stop 1 c (stmtLoop e b c.rest.length)
    (stmtLoop e b (c.rest.length - k)) fun r _ => (∀ x ∈ r.1, x.Placed) ∧ ∀ t ∈ r.2, t.Placed := by
  refine Local.counted (f := fun n (_ : Unit) => stmtLoop e b n)
    (R := fun _ r _ => (∀ x ∈ r.1, x.Placed) ∧ ∀ t ∈ r.2, t.Placed) (fun _ _ => True)
    (fun _ _ _ _ => .pure (by simp)) (fun n m _ c _ ih => ?_) () trivial
  refine .isAt (.isAtEnd (.ite (fun _ => .pure (by simp)) fun hend => ?_))
  have hne : c.rest ≠ [] := by
    intro hnil
    simp [Cursor.isAtEnd, hnil] at hend
  refine (Local.eat _).bind fun ate d _ hd => .ite (fun h => ?_) fun h => ?_
  · exact ih () d trivial (hd.1 h)
  · obtain rfl := hd.2 (by simpa using h)
    refine (stmt_local he hb d).bind fun r d' _ hr => ?_
    cases r with
    | inl x =>
        refine (ih () d' trivial (hr.2 hne)).bind fun r' _ _ hr' => .pure ⟨?_, hr'.2⟩
        simpa using ⟨hr.1, hr'.1⟩
    | inr t => exact .pure ⟨by simp, by simpa using hr.1⟩

end

/-- A block ends by stepping over its closing brace. -/
theorem block_local (levels : Nat) (c : Cursor) :
    Local k stop 0 c (block levels) (block levels) fun body d =>
      body.Placed ∧ (d.reports = c.reports → c.Closes d) := by
  have stub : ∀ s : Span, (Block.mk [] none s).Placed := fun s => Block.placed_mk.mpr (by simp)
  induction levels generalizing c with
  | zero => exact .refuse fun s d _ _ hne => ⟨stub s, fun h => absurd h hne⟩
  | succ levels ih =>
      have hb : ∀ c, Local k stop 1 c (block levels) (block levels) fun body _ => body.Placed :=
        fun c => (ih c).loosen.mono fun _ _ _ h => h.1
      refine .deeper (fun s d _ _ hne => ⟨stub s, fun h => absurd h hne⟩) (.here fun start _ =>
        (Local.expect _).loosen.bindClosing fun _ d _ _ => .remaining ?_)
      refine (stmtLoop_local (expr_local levels 0) hb d).bindClosing ?_
      rintro ⟨stmts, tail⟩ d' - hstmts
      refine .here fun last _ => (Local.expect _).bindPure fun _ _ _ hbrace => ?_
      refine ⟨Block.placed_mk.mpr hstmts, fun hclear => ?_⟩
      obtain ⟨l, hl, htoken⟩ := hbrace hclear
      exact ⟨[], l, hl, htoken⟩

/-! ## Items -/

theorem markerLoop_local (c : Cursor) : Local k stop 1 c (markerLoop c.rest.length)
    (markerLoop (c.rest.length - k)) fun _ _ => True := by
  refine Local.counted (f := fun n (_ : Unit) => markerLoop n) (R := fun _ _ _ => True)
    (fun _ _ => True) (fun _ _ _ _ => .pure trivial) (fun n m _ c _ ih => ?_) () trivial
  refine .isAt (.ite (fun h => ?_) fun _ => .pure trivial)
  refine .here fun _ _ => Local.advance.loosen.bind fun _ d _ hd => Local.expectName.bind
    fun n d' hd' _ => ?_
  have hlt : d'.rest.length < c.rest.length := by
    refine Nat.lt_of_le_of_lt hd'.le ?_
    rw [hd]
    exact Cursor.advance_lt (Cursor.ne_nil_of_isAt h)
  refine .ite (fun _ => (ih () d' trivial hlt).bind fun _ _ _ _ => .pure trivial) fun _ => ?_
  refine (Local.reportAt _ _).bind fun _ e _ he => (ih () e trivial ?_).bind
    fun _ _ _ _ => .pure trivial
  rwa [he]

theorem paramLoop_local (c : Cursor) (seen : List Ident) :
    Local k stop 1 c (paramLoop c.rest.length seen) (paramLoop (c.rest.length - k) seen)
      fun _ _ => True := by
  refine Local.counted (f := paramLoop) (R := fun _ _ _ => True) (fun _ _ => True)
    (fun _ _ _ _ => .pure trivial) (fun n m seen c _ ih => ?_) seen trivial
  refine .isAt (.isAtEnd (.ite (fun _ => .pure trivial) fun _ => Local.expectName.bind
    fun p d hd _ => ?_))
  have more : ∀ d, c.Onward d → Local k stop 1 d
      (do if ← eat .comma then return p :: (← paramLoop n (p :: seen)) else return [p])
      (do if ← eat .comma then return p :: (← paramLoop m (p :: seen)) else return [p])
      fun _ _ => True := by
    intro d hd
    refine (Local.eat _).bind fun _ e _ he => .ite (fun h => ?_) fun _ => .pure trivial
    exact (ih _ e trivial (Nat.lt_of_lt_of_le (he.1 h) hd.le)).bind fun _ _ _ _ => .pure trivial
  refine .ite (fun _ => ?_) fun _ => more d hd
  exact (Local.reportAt _ _).bind fun _ e he _ => more e (hd.trans he)

theorem definition_local (markers : List Ident) (c : Cursor) :
    Local k stop 0 c (definition markers) (definition markers) fun d e =>
      d.body.Placed ∧ (e.reports = c.reports → c.Closes e) :=
  (Local.expectWord _).bindClosing fun _ _ _ _ => Local.expectName.bindClosing fun _ _ _ _ =>
    (Local.expect _).loosen.bindClosing fun _ c₁ _ _ => .remaining
      ((paramLoop_local c₁ []).bindClosing fun _ _ _ _ => (Local.expect _).loosen.bindClosing
        fun _ c₂ _ _ => (block_local maxLevels c₂).bindPure fun _ _ _ hbody => hbody)

theorem item_local {start : Span} (markers : List Ident) (c : Cursor) :
    Local k stop 1 c (item start markers) (item start markers) fun read _ =>
      ∀ d span, read = some (.function d span) → c.peek = some (.word .fnWord) := by
  refine .peek ?_
  split
  · next h =>
      exact (definition_local markers c).loosen.bind fun _ _ _ _ => .before fun _ _ =>
        .pure fun _ _ _ => h
  · refine (Local.expectWord _).bind fun _ _ _ _ => .here fun _ _ => (path_local _).bind
      fun _ _ _ _ => ?_
    exact .ite (fun _ => .before fun _ _ => .pure (by simp)) fun _ => (Local.report _).bind
      fun _ _ _ _ => .before fun _ _ => .pure (by simp)
  · exact (Local.expectWord _).bind fun _ _ _ _ => Local.expectName.bind fun _ _ _ _ =>
      (Local.expect _).loosen.bind fun _ _ _ _ => (expr_local _ _ _).bind fun _ _ _ _ =>
        .before fun _ _ => .pure (by simp)
  · exact .found ((Local.report _).bind fun _ _ _ _ => Local.advance.loosen.bind
      fun _ _ _ _ => .pure (by simp))

end Parse

end Graft
