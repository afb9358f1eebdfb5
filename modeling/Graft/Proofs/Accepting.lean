import Graft.Proofs.Extraction
import Graft.Proofs.Lines

/-!
# Texts that are accepted

What a step gives where it reports nothing says more of a tree than that it was read. Parentheses
take a level, and printing only puts them where the text had some, so a text that is accepted is
printed with no more levels than there are. A sign as an exponent is the one exception: it is printed
in parentheses that no text needs.
-/

namespace Graft

/-! ## Signs as exponents -/

/-- The exponent of a power has a sign. -/
def Expr.raisesToSign : Expr → Bool
  | .binary .pow _ (.unary ..) _ => true
  | _ => false

/-- If the expression is a power, its exponent has no sign. -/
def Expr.PlainPower (e : Expr) : Prop := e.raisesToSign = false

namespace Parse

open Graft.Expr

/-! ## Steps without a report -/

/-- What a step gives at a cursor, and where it leaves it, if it reports nothing. -/
def Clean {α : Type} (c : Cursor) (x : Parse α) (P : α → Cursor → Prop) : Prop :=
  c.Placed → c.Onward (x c).2 ∧ ((x c).2.reports = c.reports → P (x c).1 (x c).2)

namespace Clean

variable {α β : Type} {c : Cursor} {x : Parse α} {P P' : α → Cursor → Prop}
  {Q : β → Cursor → Prop}

theorem pure {a : α} (h : P a c) : Clean c (pure a) P := fun _ => ⟨.refl c, fun _ => h⟩

/-- What follows is told what the step gave once it is known that nothing was reported. -/
theorem bind {f : α → Parse β} (hx : Clean c x P)
    (hf : ∀ a d, Clean d (f a) fun b e => P a d → Q b e) : Clean c (x >>= f) Q := by
  intro hc
  obtain ⟨hon, hvalue⟩ := hx hc
  obtain ⟨hon', hvalue'⟩ := hf (x c).1 (x c).2 (hon.placed hc)
  refine ⟨hon.trans hon', fun hclear => ?_⟩
  obtain ⟨hfirst, hrest⟩ := hon.clear hon' hclear
  exact hvalue' hrest (hvalue hfirst)

theorem mono (hx : Clean c x P) (h : ∀ a d, P a d → P' a d) : Clean c x P' := fun hc =>
  (hx hc).imp_right fun hvalue hclear => h _ _ (hvalue hclear)

theorem ite {p : Prop} [Decidable p] {y : Parse α} (hx : p → Clean c x P)
    (hy : ¬ p → Clean c y P) : Clean c (if p then x else y) P := by
  split
  · next h => exact hx h
  · next h => exact hy h

/-- A step that only looks. -/
theorem look {h : Cursor → α} {f : α → Parse β} (hf : Clean c (f (h c)) Q) :
    Clean c ((do return h (← get)) >>= f) Q := hf

theorem of_local {R : α → Cursor → Prop} (h : Local 0 c.stop 1 c x x R) :
    Clean c x fun _ _ => True := fun hc => ⟨(h hc).onward, fun _ => trivial⟩

/-- No token is put in front. -/
theorem le (hx : Clean c x P) :
    Clean c x fun a d => P a d ∧ d.rest.length ≤ c.rest.length := by
  intro hc
  obtain ⟨hon, hvalue⟩ := hx hc
  exact ⟨hon, fun hclear => ⟨hvalue hclear, hon.le⟩⟩

theorem eat (s : Symbol) : Clean c (eat s) fun _ _ => True := of_local (Local.eat s)

theorem expect (s : Symbol) : Clean c (expect s) fun _ _ => True := of_local (Local.expect s).loosen

theorem expectWord (k : Keyword) : Clean c (expectWord k) fun _ _ => True :=
  of_local (Local.expectWord k)

theorem eatWord (k : Keyword) : Clean c (eatWord k) fun _ _ => True := of_local (Local.eatWord k)

theorem expectName : Clean c expectName fun _ _ => True := of_local Local.expectName

theorem advance : Clean c advance fun _ d => d = c.advance := fun _ => ⟨.advance c, fun _ => rfl⟩

/-! A step that reports something gives nothing. -/

theorem reportAt (p : Problem) (span : Span) : Clean c (reportAt p span) fun _ _ => False :=
  fun _ => ⟨.report c p span, fun h => absurd h (List.cons_ne_self _ _)⟩

theorem report (p : Problem) : Clean c (report p) fun _ _ => False :=
  fun _ => ⟨.report c p c.here, fun h => absurd h (List.cons_ne_self _ _)⟩

theorem refuse {stub : Span → α} : Clean c (refuse stub) P := by
  have hrefuse : Local 0 c.stop 1 c (Parse.refuse stub) (Parse.refuse stub) fun _ _ => True :=
    Local.refuse fun _ _ _ _ _ => trivial
  exact fun hc => ⟨(hrefuse hc).onward, fun h => absurd h (List.cons_ne_self _ _)⟩

theorem deeper {levels : Nat} {stub : Span → α} (h : Clean c x P) :
    Clean c (deeper levels stub x) P := by
  show Clean c (fun c => (if levels ≤ c.refused then Parse.refuse stub else x : Parse α) c) P
  intro hc
  dsimp only
  split
  · exact refuse hc
  · exact h hc

theorem listLoop {R : α → Prop} (close : Symbol) (hx : ∀ c, Clean c x fun a _ => R a) (m : Nat) :
    Clean c (listLoop close x m) fun as _ => ∀ a ∈ as, R a := by
  induction m generalizing c with
  | zero => exact .pure (by simp)
  | succ m ih =>
      refine .look (.look (.ite (fun _ => .pure (by simp)) fun _ => (hx c).bind fun a d =>
        (eat _).bind fun _ e => .ite (fun _ => ?_) fun _ => ?_))
      · exact ih.bind fun as _ => .pure fun has _ ha => List.forall_mem_cons.mpr ⟨ha, has⟩
      · exact .pure fun _ ha => by simpa using ha

theorem list {R : α → Prop} (close : Symbol) (hx : ∀ c, Clean c x fun a _ => R a) :
    Clean c (list close x) fun as _ => ∀ a ∈ as, R a := .look (listLoop close hx _)

end Clean

/-! ## Expressions -/

/-- The operator that the token ahead stands for. -/
def Cursor.operator? (c : Cursor) : Option BinaryOp := c.peek.bind binaryOf?

/-- The printed expression, in the parentheses that it was read in, takes at most `levels` levels, its
operators have at least the strength `power`, and what is ahead is no operator that it would take. -/
def Fits (levels power : Nat) (e : Expr) (c : Cursor) : Prop :=
  e.Throughout PlainPower → ∃ paren : Bool, e.levels + paren.toNat ≤ levels ∧ power ≤ e.strength paren ∧
    ∀ op ∈ c.operator?, op.power < power ∧ op.power < e.reach paren

/-- The same of what stands to the left of an operator or of the end of the expression. -/
def FitsLeft (levels power : Nat) (e : Expr) (c : Cursor) : Prop :=
  e.Throughout PlainPower → ∃ paren : Bool, e.levels + paren.toNat ≤ levels ∧ power ≤ e.strength paren ∧
    ∀ op ∈ c.operator?, op.power < e.reach paren

/-- The same of what an operand starts with: it stood in parentheses if it needs some in front of a
bracket. -/
def FitsBase (levels : Nat) (e : Expr) : Prop :=
  e.Throughout PlainPower → ∃ paren : Bool, e.levels + paren.toNat ≤ levels ∧
    (e.needsParensIndexed = true → paren = true)

end Parse

namespace Expr

variable {e l r : Expr} {paren : Bool}

/-! Where an expression was read without parentheses, it is printed without any. -/

theorem parens_of_left {op : BinaryOp} (h : op.power < l.reach paren)
    (hneeds : l.needsParens op.power (op == .pow) = true) : paren = true := by
  cases paren with
  | true => rfl
  | false =>
      cases l with
      | binary op' l r s =>
          have hpowers : ∀ op op' : BinaryOp, op.power < op'.rightPower →
              (op'.power < op.power || (op == .pow && op'.power == op.power)) = false := by
            intro op op'
            cases op <;> cases op' <;> decide
          rw [needsParens, hpowers op op' h] at hneeds
          cases hneeds
      | unary op' x s =>
          have hpowers : ∀ op : BinaryOp, op.power < UnaryOp.operandPower →
              decide (UnaryOp.operandPower < op.power) = false := by
            intro op
            cases op <;> decide
          rw [needsParens, hpowers op h] at hneeds
          cases hneeds
      | _ => cases hneeds

theorem parens_of_right {op : BinaryOp} {s : Span} (h : op.rightPower ≤ r.strength paren)
    (hplain : (binary op l r s).raisesToSign = false)
    (hneeds : r.needsParens op.power (!op == .pow) = true) : paren = true := by
  cases paren with
  | true => rfl
  | false =>
      cases r with
      | binary op' l r s =>
          have hpowers : ∀ op op' : BinaryOp, op.rightPower ≤ op'.power →
              (op'.power < op.power || (!op == .pow && op'.power == op.power)) = false := by
            intro op op'
            cases op <;> cases op' <;> decide
          rw [needsParens, hpowers op op' h] at hneeds
          cases hneeds
      | unary op' x s =>
          cases op with
          | pow => cases hplain
          | _ => cases hneeds
      | _ => cases hneeds

theorem parens_of_signed (h : UnaryOp.operandPower ≤ e.strength paren)
    (hneeds : e.needsParensSigned = true) : paren = true := by
  cases paren with
  | true => rfl
  | false =>
      cases e with
      | binary op l r s =>
          have hweak : op.power < UnaryOp.operandPower := of_decide_eq_true hneeds
          have hstrong : UnaryOp.operandPower ≤ op.power := h
          omega
      | _ => cases hneeds

theorem levels_parens {n : Nat} {needed : Bool} (h : e.levels + paren.toNat ≤ n)
    (hneeded : needed = true → paren = true) : e.levels + needed.toNat ≤ n := by
  cases needed with
  | false => exact Nat.le_trans (Nat.add_le_add_left (Nat.zero_le _) _) h
  | true => rwa [hneeded rfl] at h

end Expr

namespace Parse

open Graft.Expr

section

variable {sub : Nat → Parse Expr} {n : Nat}
  (hsub : ∀ power ≤ topPower, ∀ c, Clean c (sub power) (Fits n power))
  {c : Cursor} {e i a b l r : Expr} {es : List Expr} {s : Span}

/-- What is read at the start of an expression of its own. -/
theorem Fits.levels {power : Nat} (h : Fits n power e c) (he : e.Throughout PlainPower) : e.levels ≤ n := by
  obtain ⟨paren, hlevels, -⟩ := h he
  exact Nat.le_trans (Nat.le_add_right _ _) hlevels

theorem FitsBase.parens (h : FitsBase n e) (he : e.Throughout PlainPower) :
    e.levels + e.needsParensIndexed.toNat ≤ n := by
  obtain ⟨paren, hlevels, hneeds⟩ := h he
  exact levels_parens hlevels hneeds

theorem FitsBase.of_levels (htight : e.needsParensIndexed = false)
    (h : e.Throughout PlainPower → e.levels ≤ n) : FitsBase n e := by
  intro he
  refine ⟨false, h he, fun hneeds => ?_⟩
  rw [htight] at hneeds
  cases hneeds

theorem fitsBase_list (hes : ∀ e ∈ es, e.Throughout PlainPower → e.levels ≤ n)
    (hparts : ∀ e ∈ es, e.Throughout PlainPower) : Expr.levels.levelsAll es + 1 ≤ n + 1 :=
  Nat.succ_le_succ (levelsAll_le.mpr fun e he => hes e he (hparts e he))

include hsub

theorem sub_clean (c : Cursor) : Clean c (sub 0) fun e _ => e.Throughout PlainPower → e.levels ≤ n :=
  (hsub 0 (Nat.zero_le _) c).mono fun _ _ h => h.levels

theorem parenthesized_clean (start : Span) (c : Cursor) :
    Clean c (parenthesized sub start) fun e _ => FitsBase (n + 1) e := by
  refine (sub_clean hsub c).bind fun first d => (Clean.eat _).bind fun _ d => .ite (fun _ => ?_)
    fun _ => ?_
  · refine (Clean.list _ (sub_clean hsub)).bind fun more d => (Clean.expect _).bind fun _ d =>
      .look (.pure ?_)
    intro _ hmore _ hfirst
    refine .of_levels rfl fun he => fitsBase_list ?_ (Expr.throughout_tuple.mp he).1
    exact List.forall_mem_cons.mpr ⟨hfirst, hmore⟩
  · refine (Clean.expect _).bind fun _ d => .pure ?_
    intro _ _ hfirst he
    exact ⟨true, Nat.succ_le_succ (hfirst he), fun _ => rfl⟩

theorem named_clean (start : Span) (c : Cursor) :
    Clean c (named sub start) fun e _ => FitsBase (n + 1) e := by
  refine (Clean.of_local (path_local c)).bind fun p d => .look ((Clean.eat _).bind fun _ d =>
    .ite (fun _ => ?_) fun _ => .ite (fun _ => .pure ?_) fun _ => .pure ?_)
  · refine (Clean.list _ (sub_clean hsub)).bind fun args d => (Clean.expect _).bind fun _ d =>
      .look (.pure ?_)
    intro _ hargs _ _
    exact .of_levels rfl fun he => fitsBase_list hargs (Expr.throughout_call.mp he).1
  · exact fun _ _ => .of_levels rfl fun _ => Nat.succ_le_succ (Nat.zero_le _)
  · exact fun _ _ => .of_levels rfl fun _ => Nat.succ_le_succ (Nat.zero_le _)

theorem primary_clean (c : Cursor) : Clean c (primary sub) fun e _ => FitsBase (n + 1) e := by
  have leaf : ∀ e : Expr, e.needsParensIndexed = false → e.levels = 1 → FitsBase (n + 1) e := by
    intro e htight hlevels
    refine .of_levels htight fun _ => ?_
    rw [hlevels]
    exact Nat.succ_le_succ (Nat.zero_le n)
  refine .look (.look ?_)
  split
  · exact Clean.advance.bind fun _ _ => .pure fun _ => leaf _ rfl rfl
  · exact Clean.advance.bind fun _ _ => .pure fun _ => leaf _ rfl rfl
  · exact Clean.advance.bind fun _ _ => .pure fun _ => leaf _ rfl rfl
  · exact Clean.advance.bind fun _ d => (parenthesized_clean hsub _ d).mono fun _ _ h _ => h
  · refine Clean.advance.bind fun _ _ => (Clean.list _ (sub_clean hsub)).bind fun es d =>
      (Clean.expect _).bind fun _ d => .look (.pure ?_)
    intro _ hes _
    exact .of_levels rfl fun he => fitsBase_list hes (Expr.throughout_array.mp he).1
  · exact named_clean hsub _ c
  · exact .look ((Clean.report _).bind fun _ _ => Clean.advance.bind fun _ _ => .pure fun _ h =>
      h.elim)

theorem postfixLoop_clean (m : Nat) (e : Expr) (c : Cursor) : Clean c (postfixLoop sub m e)
    fun e' _ => FitsBase (n + 1) e → FitsBase (n + 1) e' := by
  induction m generalizing e c with
  | zero => exact .pure id
  | succ m ih =>
      refine (Clean.eat _).bind fun _ d => .ite (fun _ => ?_) fun _ => .pure fun _ h => h
      refine (sub_clean hsub d).bind fun first d => (Clean.eat _).bind fun _ d => .ite (fun _ => ?_)
        fun _ => ?_
      · refine (sub_clean hsub d).bind fun last d => (Clean.expect _).bind fun _ d => .look
          ((ih _ _).mono ?_)
        intro e' d hloop _ hlast _ hfirst _ hbase
        refine hloop (.of_levels rfl fun he => ?_)
        obtain ⟨hx, ha, hb, -⟩ := Expr.throughout_slice.mp he
        exact Nat.max_le.mpr ⟨hbase.parens hx, Nat.max_le.mpr
          ⟨Nat.succ_le_succ (hfirst ha), Nat.succ_le_succ (hlast hb)⟩⟩
      · refine (Clean.expect _).bind fun _ d => .look ((ih _ _).mono ?_)
        intro e' d hloop _ _ hfirst _ hbase
        refine hloop (.of_levels rfl fun he => ?_)
        obtain ⟨hx, hi, -⟩ := Expr.throughout_index.mp he
        exact Nat.max_le.mpr ⟨hbase.parens hx, Nat.succ_le_succ (hfirst hi)⟩

omit hsub in
theorem FitsBase.left (h : FitsBase n e) {power : Nat} (hpower : power ≤ topPower) :
    FitsLeft n power e c := by
  intro he
  obtain ⟨paren, hlevels, hneeds⟩ := h he
  have htop : e.strength paren = topPower ∧ e.reach paren = topPower := by
    cases e with
    | binary op l r s => rw [hneeds rfl]; exact ⟨rfl, rfl⟩
    | unary op x s => rw [hneeds rfl]; exact ⟨rfl, rfl⟩
    | _ => exact ⟨rfl, rfl⟩
  refine ⟨paren, hlevels, htop.1 ▸ hpower, fun op _ => ?_⟩
  rw [htop.2]
  exact power_lt_topPower op

theorem operand_clean {power : Nat} (hpower : power ≤ topPower) (c : Cursor) :
    Clean c (operand sub) (FitsLeft (n + 1) power) := by
  refine .look (.look ?_)
  split
  · next op _ =>
      refine Clean.advance.bind fun _ d => (hsub _ operandPower_le_topPower d).bind fun x d => .pure ?_
      intro hx _ he
      obtain ⟨hplain, -⟩ := Expr.throughout_unary.mp he
      obtain ⟨paren, hlevels, hstrength, hnext⟩ := hx hplain
      exact ⟨false, Nat.succ_le_succ (levels_parens hlevels (parens_of_signed hstrength)), hpower,
        fun op hop => (hnext op hop).1⟩
  · refine (primary_clean hsub c).bind fun e d => .look ((postfixLoop_clean hsub _ e d).mono ?_)
    intro e' d hloop hbase
    exact (hloop hbase).left hpower

theorem operatorLoop_clean (power m : Nat) (l : Expr) (c : Cursor) :
    Clean c (operatorLoop sub power m l) fun e d =>
      c.rest.length ≤ m → FitsLeft (n + 1) power l c → Fits (n + 1) power e d := by
  induction m generalizing l c with
  | zero =>
      refine .pure fun hm hl hplain => ?_
      obtain ⟨paren, hlevels, hstrength, -⟩ := hl hplain
      have hnil : c.rest = [] := List.eq_nil_of_length_eq_zero (Nat.le_zero.mp hm)
      refine ⟨paren, hlevels, hstrength, fun op hop => ?_⟩
      rw [Cursor.operator?, Cursor.peek, hnil] at hop
      cases hop
  | succ m ih =>
      refine .look ?_
      cases hop : c.peek.bind binaryOf? with
      | none =>
          refine .pure fun _ hl hplain => ?_
          obtain ⟨paren, hlevels, hstrength, -⟩ := hl hplain
          refine ⟨paren, hlevels, hstrength, fun op hop' => ?_⟩
          rw [Cursor.operator?, hop] at hop'
          cases hop'
      | some op =>
          refine .ite (fun hweak => .pure fun _ hl hplain => ?_) fun hstrong => ?_
          · obtain ⟨paren, hlevels, hstrength, hnext⟩ := hl hplain
            refine ⟨paren, hlevels, hstrength, fun op' hop' => ⟨?_, hnext op' hop'⟩⟩
            obtain rfl : op = op' := Option.some.inj (hop.symm.trans hop')
            exact hweak
          · refine Clean.advance.bind fun _ d => ((hsub _ (rightPower_le_topPower op) d).le).bind fun r e =>
              (ih (.binary op l r _) e).mono ?_
            rintro e' d' hloop ⟨hr, hle⟩ hadvance hm hl
            subst hadvance
            -- a round reads the operator at least
            have hlen : e.rest.length ≤ m := by
              rw [Cursor.advance_rest, List.length_tail] at hle
              omega
            refine hloop hlen fun hplain => ?_
            obtain ⟨hplainL, hplainR, hself⟩ := Expr.throughout_binary.mp hplain
            obtain ⟨parenL, hlevelsL, hstrengthL, hnextL⟩ := hl hplainL
            obtain ⟨parenR, hlevelsR, hstrengthR, hnextR⟩ := hr hplainR
            have hleft := levels_parens hlevelsL (parens_of_left (hnextL op hop))
            have hright := levels_parens hlevelsR (parens_of_right hstrengthR hself)
            exact ⟨false, Nat.max_le.mpr ⟨hleft, Nat.succ_le_succ hright⟩, Nat.not_lt.mp hstrong,
              fun op' hop' => (hnextR op' hop').1⟩

end

/-- An expression that is read without a report is printed on no more levels than there were. -/
theorem expr_clean (levels power : Nat) (hpower : power ≤ topPower) (c : Cursor) :
    Clean c (expr levels power) (Fits levels power) := by
  induction levels generalizing power c with
  | zero => exact .refuse
  | succ levels ih =>
      refine .deeper ((operand_clean ih hpower c).bind fun e d => .look
        ((operatorLoop_clean ih power _ e d).mono fun e' d' h hleft => ?_))
      exact h (Nat.le_refl _) hleft

/-! ## Statements -/

theorem placeOf_clean (e : Expr) (c : Cursor) : Clean c (placeOf e) fun p _ =>
    p.expr.levels = e.levels ∧ ((∀ x ∈ p.subterms, PlainPower x) → e.Throughout PlainPower) := by
  unfold placeOf
  split
  · next n s =>
      refine .pure ?_
      split
      · exact ⟨rfl, fun _ => Expr.throughout_var.mpr rfl⟩
      · exact ⟨rfl, fun _ => Expr.throughout_var.mpr rfl⟩
  · next n s i span =>
      refine .pure ⟨rfl, fun hi => ?_⟩
      exact Expr.throughout_index.mpr ⟨Expr.throughout_var.mpr rfl, hi, rfl⟩
  · exact (Clean.reportAt _ _).bind fun _ _ => .pure False.elim

theorem placesOf_clean (es : List Expr) (c : Cursor) : Clean c (es.mapM placeOf) fun ps _ =>
    Expr.levels.levelsAll (ps.map Place.expr) = Expr.levels.levelsAll es ∧
      ((∀ p ∈ ps, ∀ x ∈ p.subterms, PlainPower x) → ∀ e ∈ es, e.Throughout PlainPower) := by
  induction es generalizing c with
  | nil =>
      rw [List.mapM_nil]
      exact .pure ⟨rfl, fun _ _ he => absurd he List.not_mem_nil⟩
  | cons e es ih =>
      rw [List.mapM_cons]
      refine (placeOf_clean e c).bind fun p d => (ih d).bind fun ps d => .pure ?_
      rintro ⟨hlevelsAll, hplains⟩ ⟨hlevels, hplain⟩
      refine ⟨?_, fun h => ?_⟩
      · rw [List.map_cons, Expr.levels.levelsAll, Expr.levels.levelsAll, hlevels, hlevelsAll]
      · obtain ⟨hp, hps⟩ := List.forall_mem_cons.mp h
        exact List.forall_mem_cons.mpr ⟨hplain hp, hplains hps⟩

theorem pattern_clean (c : Cursor) : Clean c pattern fun _ _ => True :=
  .of_local (pattern_local c)

section

variable {n : Nat} {e : Parse Expr} {b : Parse Block}
  (he : ∀ c, Clean c e fun e' _ => e'.Throughout PlainPower → e'.levels ≤ n)
  (hb : ∀ c, Clean c b fun b' _ => b'.Throughout PlainPower → b'.levels ≤ n)

/-- The printed statement takes at most `n` levels. -/
def FitsStmt (n : Nat) (x : Stmt) : Prop := x.Throughout PlainPower → x.levels ≤ n

include he

theorem bindStmt_clean (c : Cursor) : Clean c (bindStmt e) fun x _ => FitsStmt n x := by
  refine .look ((Clean.expectWord _).bind fun _ d => (pattern_clean d).bind fun t d =>
    (Clean.expect _).bind fun _ d => (he d).bind fun init d => .pure ?_)
  exact fun hinit _ _ _ => hinit

theorem giveStmt_clean (c : Cursor) : Clean c (giveStmt e) fun x _ => FitsStmt n x := by
  refine .look ((Clean.expectWord _).bind fun _ d => .look (.look (.look (.ite (fun _ => ?_)
    fun _ => ?_))))
  · exact .look (.pure fun _ _ => Nat.zero_le n)
  · refine (he d).bind fun value d => .look (.pure ?_)
    exact fun hvalue _ => hvalue

theorem exprStmt_clean (c : Cursor) : Clean c (exprStmt e) fun r _ =>
    Sum.elim (FitsStmt n) (fun e' => e'.Throughout PlainPower → e'.levels ≤ n) r := by
  refine (he c).bind fun left d => .look (.ite (fun _ => .pure fun h => h) fun _ =>
    (Clean.eat _).bind fun _ d => .ite (fun _ => (he d).bind fun value d => ?_) fun _ =>
      .pure fun _ h => h)
  dsimp only
  split
  · next es s =>
      refine (placesOf_clean es d).bind fun ps d => .pure ?_
      rintro ⟨hlevels, hplains⟩ hvalue _ hleft hx
      obtain ⟨hps, hplain⟩ := Stmt.throughout_assignTuple.mp hx
      have htuple := hleft (Expr.throughout_tuple.mpr ⟨hplains hps, rfl⟩)
      refine Nat.max_le.mpr ⟨?_, hvalue hplain⟩
      rwa [hlevels]
  · refine (placeOf_clean left d).bind fun p d => .pure ?_
    rintro ⟨hlevels, hplain⟩ hvalue _ hleft hx
    obtain ⟨hp, hplain'⟩ := Stmt.throughout_assign.mp hx
    refine Nat.max_le.mpr ⟨?_, hvalue hplain'⟩
    rw [hlevels]
    exact hleft (hplain hp)

include hb

theorem forStmt_clean (c : Cursor) : Clean c (forStmt e b) fun x _ => FitsStmt n x := by
  refine .look ((Clean.expectWord _).bind fun _ d => Clean.expectName.bind fun v d =>
    (Clean.expectWord _).bind fun _ d => (he d).bind fun first d => (Clean.expect _).bind fun _ d =>
      (he d).bind fun last d => (hb d).bind fun body d => .look (.pure ?_))
  intro hbody hlast _ hfirst _ _ _ hx
  obtain ⟨ha, hb, hn⟩ := Stmt.throughout_forRange.mp hx
  exact Nat.max_le.mpr ⟨hfirst ha, Nat.max_le.mpr ⟨hlast hb, hbody hn⟩⟩

theorem whileStmt_clean (c : Cursor) : Clean c (whileStmt e b) fun x _ => FitsStmt n x := by
  refine .look ((Clean.expectWord _).bind fun _ d => (he d).bind fun condition d =>
    (hb d).bind fun body d => .look (.pure ?_))
  intro hbody hcondition _ hx
  obtain ⟨hc, hn⟩ := Stmt.throughout_whileLoop.mp hx
  exact Nat.max_le.mpr ⟨hcondition hc, hbody hn⟩

/-- A conditional that takes at most `n` levels. -/
def FitsBranch (n : Nat) (x : Stmt) : Prop :=
  (∃ c yes no s, x = .branch c yes no s) ∧ FitsStmt n x

omit he hb in
theorem FitsBranch.chain {x : Stmt} {s : Span} (h : FitsBranch n x)
    (hplain : (Block.mk [x] none s).Throughout PlainPower) :
    (Block.mk [x] none s).elseLevels ≤ n := by
  obtain ⟨⟨c, yes, no, span, rfl⟩, hx⟩ := h
  exact hx ((Block.throughout_mk.mp hplain).1 _ List.mem_cons_self)

theorem branchStmt_clean (m : Nat) (c : Cursor) :
    Clean c (branchStmt e b m) fun x _ => FitsBranch n x := by
  have plain {condition : Expr} {yes : Block} {s : Span}
      (hc : condition.Throughout PlainPower → condition.levels ≤ n)
      (hyes : yes.Throughout PlainPower → yes.levels ≤ n) :
      FitsBranch n (.branch condition yes none s) := by
    refine ⟨⟨_, _, _, _, rfl⟩, fun hx => ?_⟩
    obtain ⟨hplain, hplain'⟩ := Stmt.throughout_branch.mp hx
    exact Nat.max_le.mpr ⟨hc hplain, hyes hplain'⟩
  have both {condition : Expr} {yes no : Block} {s : Span}
      (hc : condition.Throughout PlainPower → condition.levels ≤ n)
      (hyes : yes.Throughout PlainPower → yes.levels ≤ n)
      (hno : no.Throughout PlainPower → no.elseLevels ≤ n) :
      FitsBranch n (.branch condition yes (some no) s) := by
    refine ⟨⟨_, _, _, _, rfl⟩, fun hx => ?_⟩
    obtain ⟨hplain, hplain', hplain''⟩ := Stmt.throughout_branchElse.mp hx
    exact Nat.max_le.mpr ⟨hc hplain, Nat.max_le.mpr ⟨hyes hplain', hno hplain''⟩⟩
  have block (condition : Expr) (yes : Block) (start : Span) (d : Cursor) : Clean d (do
      let no ← b
      return .branch condition yes (some no) (start.merge (← before))) fun x _ =>
        (condition.Throughout PlainPower → condition.levels ≤ n) →
        (yes.Throughout PlainPower → yes.levels ≤ n) → FitsBranch n x := by
    refine (hb d).bind fun no d => .look (.pure ?_)
    exact fun hno hc hyes => both hc hyes fun h => Nat.le_trans no.elseLevels_le (hno h)
  induction m generalizing c with
  | zero =>
      rw [branchStmt]
      refine .look ((Clean.expectWord _).bind fun _ d => (he d).bind fun condition d =>
        (hb d).bind fun yes d => (Clean.eatWord _).bind fun _ d => .ite (fun _ => .look
          (.ite (fun _ => .look (.pure ?_)) fun _ => ?_)) fun _ => .look (.pure ?_))
      · exact fun _ hyes hc _ => plain hc hyes
      · exact (block condition yes _ d).mono fun x _ h _ hyes hc _ => h hc hyes
      · exact fun _ hyes hc _ => plain hc hyes
  | succ m ih =>
      rw [branchStmt]
      refine .look ((Clean.expectWord _).bind fun _ d => (he d).bind fun condition d =>
        (hb d).bind fun yes d => (Clean.eatWord _).bind fun _ d => .ite (fun _ => .look
          (.ite (fun _ => ?_) fun _ => ?_)) fun _ => .look (.pure ?_))
      · refine (ih d).bind fun inner d => .look (.pure ?_)
        exact fun hinner _ hyes hc _ => both hc hyes hinner.chain
      · exact (block condition yes _ d).mono fun x _ h _ hyes hc _ => h hc hyes
      · exact fun _ hyes hc _ => plain hc hyes

theorem stmt_clean (c : Cursor) : Clean c (stmt e b) fun r _ =>
    Sum.elim (FitsStmt n) (fun e' => e'.Throughout PlainPower → e'.levels ≤ n) r := by
  refine .look ?_
  split
  · exact (bindStmt_clean he c).bind fun _ _ => .pure id
  · exact .look ((branchStmt_clean he hb _ c).bind fun _ _ => .pure And.right)
  · exact (forStmt_clean he hb c).bind fun _ _ => .pure id
  · exact (whileStmt_clean he hb c).bind fun _ _ => .pure id
  · exact (giveStmt_clean he c).bind fun _ _ => .pure id
  · exact exprStmt_clean he c

theorem stmtLoop_clean (m : Nat) (c : Cursor) : Clean c (stmtLoop e b m) fun r _ =>
    (∀ x ∈ r.1, FitsStmt n x) ∧ ∀ t ∈ r.2, t.Throughout PlainPower → t.levels ≤ n := by
  have nothing : (∀ x ∈ ([] : List Stmt), FitsStmt n x) ∧
      ∀ t ∈ (none : Option Expr), t.Throughout PlainPower → t.levels ≤ n :=
    ⟨fun _ hx => absurd hx List.not_mem_nil, by rintro _ ⟨⟩⟩
  induction m generalizing c with
  | zero => exact .pure nothing
  | succ m ih =>
      refine .look (.look (.ite (fun _ => .pure nothing) fun _ => (Clean.eat _).bind fun _ d =>
        .ite (fun _ => (ih d).mono fun _ _ h _ => h) fun _ => (stmt_clean he hb d).bind
          fun r d => ?_))
      cases r with
      | inl x =>
          refine (ih d).bind fun r' d => .pure ?_
          exact fun hmore hx _ => ⟨List.forall_mem_cons.mpr ⟨hx, hmore.1⟩, hmore.2⟩
      | inr t =>
          refine .pure fun ht _ => ⟨nothing.1, ?_⟩
          rintro _ ⟨⟩
          exact ht

end

/-- A block that is read without a report is printed on no more levels than there were. -/
theorem block_clean (levels : Nat) (c : Cursor) :
    Clean c (block levels) fun b _ => b.Throughout PlainPower → b.levels ≤ levels := by
  induction levels generalizing c with
  | zero => exact .refuse
  | succ levels ih =>
      have hexpr : ∀ c, Clean c (expr levels 0) fun e _ =>
          e.Throughout PlainPower → e.levels ≤ levels :=
        fun c => (expr_clean levels 0 (Nat.zero_le _) c).mono fun _ _ h => h.levels
      refine .deeper (.look ((Clean.expect _).bind fun _ d => .look
        ((stmtLoop_clean hexpr ih _ d).bind fun r d => .look ((Clean.expect _).bind fun _ d =>
          .pure ?_))))
      rintro _ ⟨hss, htail⟩ _ hplain
      obtain ⟨hplains, hplainTail⟩ := Block.throughout_mk.mp hplain
      refine Nat.succ_le_succ (Nat.max_le.mpr ⟨Block.levelsAll_le.mpr fun x hx => ?_,
        elim_levels_le.mpr fun e he => ?_⟩)
      · exact hss x hx (hplains x hx)
      · exact htail e he (hplainTail e he)

/-! ## Items -/

/-- The only marker is `fs`, what is imported is qualified, and what is printed takes no more levels
than there are if no exponent has a sign. -/
def FitsItem : Item → Prop
  | .function d _ => (∀ m ∈ d.markers, m.text = "fs") ∧
      (d.body.Throughout PlainPower → d.body.levels ≤ maxLevels)
  | .constant _ e _ => e.Throughout PlainPower → e.levels ≤ maxLevels
  | .import_ p _ _ => p.isQualified = true

theorem markerLoop_clean (m : Nat) (c : Cursor) :
    Clean c (markerLoop m) fun ms _ => ∀ m ∈ ms, m.text = "fs" := by
  induction m generalizing c with
  | zero => exact .pure fun _ hm => absurd hm List.not_mem_nil
  | succ m ih =>
      refine .look (.ite (fun _ => .look (Clean.advance.bind fun _ d => Clean.expectName.bind
        fun n d => ?_)) fun _ => .pure fun _ hm => absurd hm List.not_mem_nil)
      have more (d : Cursor) (span : Span) : Clean d
          (do return (⟨n.text, span⟩ : Ident) :: (← markerLoop m)) fun ms _ =>
            n.text = "fs" → ∀ m ∈ ms, m.text = "fs" :=
        (ih d).bind fun ms _ => .pure fun hms hn => List.forall_mem_cons.mpr ⟨hn, hms⟩
      refine .ite (fun hfs => (more d _).mono fun ms _ h _ _ => h (beq_iff_eq.mp hfs)) fun _ =>
        (Clean.reportAt _ _).bind fun _ d => (more d _).mono fun _ _ _ => False.elim

theorem definition_clean (markers : List Ident) (c : Cursor) :
    Clean c (definition markers) fun d _ => (∀ m ∈ markers, m.text = "fs") →
      ∀ span, FitsItem (.function d span) := by
  refine (Clean.expectWord _).bind fun _ d => Clean.expectName.bind fun name d =>
    (Clean.expect _).bind fun _ d => .look ((Clean.of_local (paramLoop_local d [])).bind
      fun params d => (Clean.expect _).bind fun _ d => (block_clean maxLevels d).bind
        fun body d => .pure ?_)
  exact fun hbody _ _ _ _ _ hmarkers _ => ⟨hmarkers, hbody⟩

theorem item_clean (start : Span) (markers : List Ident) (c : Cursor) :
    Clean c (item start markers) fun read _ => (∀ m ∈ markers, m.text = "fs") →
      ∀ i ∈ read, FitsItem i := by
  refine .look ?_
  split
  · refine (definition_clean markers c).bind fun d e => .look (.pure ?_)
    rintro hd hmarkers _ ⟨⟩
    exact hd hmarkers _
  · refine (Clean.expectWord _).bind fun _ d => .look ((Clean.of_local (path_local d)).bind
      fun p d => .ite (fun hp => .look (.pure ?_)) fun _ => (Clean.report _).bind fun _ d =>
        .look (.pure ?_))
    · rintro _ _ - _ ⟨⟩
      exact hp
    · exact fun h => h.elim
  · refine (Clean.expectWord _).bind fun _ d => Clean.expectName.bind fun name d =>
      (Clean.expect _).bind fun _ d => (expr_clean maxLevels 0 (Nat.zero_le _) d).bind
        fun value d => .look (.pure ?_)
    rintro hvalue _ _ _ - _ ⟨⟩
    exact hvalue.levels
  · exact .look ((Clean.report _).bind fun _ d => Clean.advance.bind fun _ d => .pure
      fun _ h => h.elim)

theorem markedItem_clean (c : Cursor) :
    Clean c markedItem fun read _ => ∀ i ∈ read, FitsItem i := by
  refine .look (.look ((markerLoop_clean _ c).bind fun markers d => .look (.ite (fun _ => ?_)
    fun _ => (item_clean _ markers d).mono fun _ _ h hmarkers => h hmarkers)))
  exact (Clean.report _).bind fun _ e => (item_clean _ markers e).mono fun _ _ _ h => h.elim

end Parse

/-- In a text that is accepted, every item is as a printed one has to be to be read again. -/
theorem Program.fits_of_parse {source : String} {p : Program} (hp : parse source = .ok p) :
    ∀ i ∈ p.items, Parse.FitsItem i := by
  intro i hi
  obtain ⟨c, hc, hread, hclear⟩ := exists_markedItem_of_ofScan hp hi
  obtain ⟨-, hfits⟩ := Parse.markedItem_clean c hc
  exact hfits hclear i hread

end Graft
