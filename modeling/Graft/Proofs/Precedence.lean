import Graft.Proofs.Printing
import Graft.Proofs.Rereading
import Mathlib.Data.List.Forall2

/-!
# Reading printed expressions

The tokens of a printed expression are read as that expression, up to spans, with nothing reported
and nothing left, if what follows them goes on with no operand and no operator of it. Brackets and
operators are read in loops from the left, while the tree has the last one at its root. So what is
shown of a part of a chain is that reading comes to the loop, with that part behind it and the rest
of the chain ahead; the loop is not looked into until the chain ends.
-/

namespace Graft

namespace Parse

/-! ## What follows an expression -/

/-- The strongest that an operator can be, and one more. -/
def topPower : Nat := 18

theorem power_lt_topPower (op : BinaryOp) : op.power < topPower := by cases op <;> decide

theorem rightPower_le_topPower (op : BinaryOp) : op.rightPower ≤ topPower := by
  cases op <;> decide

theorem operandPower_le_topPower : UnaryOp.operandPower ≤ topPower := by decide

/-- The token goes on with an operand before it. -/
def extending : Token → Bool
  | .mark .dot | .mark .openParen | .mark .openBracket => true
  | _ => false

/-- What follows goes on with no operand, and with no operator of strength `power` or more. -/
structure Follows (power : Nat) (ts : List Token) : Prop where
  ends : ∀ t ∈ ts.head?, extending t = false
  weaker : ∀ t ∈ ts.head?, ∀ op ∈ binaryOf? t, op.power < power

theorem Follows.mono {p q : Nat} {ts : List Token} (h : Follows p ts) (hpq : p ≤ q) :
    Follows q ts :=
  ⟨h.ends, fun t ht op hop => Nat.lt_of_lt_of_le (h.weaker t ht op hop) hpq⟩

theorem Follows.operator {op : BinaryOp} {p : Nat} (h : op.power < p) (ts : List Token) :
    Follows p (.mark op.symbol :: ts) := by
  constructor
  · rintro t ⟨⟩
    cases op <;> rfl
  · rintro t ⟨⟩ op' hop'
    obtain rfl : op' = op := by cases op <;> cases hop' <;> rfl
    exact h

/-- The token is no operator and goes on with nothing. -/
def endsExpr (t : Token) : Bool := !extending t && (binaryOf? t).isNone

theorem Follows.of_ends {ts : List Token} (h : ∀ t ∈ ts.head?, endsExpr t = true) (p : Nat) :
    Follows p ts := by
  have hboth : ∀ t ∈ ts.head?, extending t = false ∧ binaryOf? t = none := by
    intro t ht
    simpa [endsExpr] using h t ht
  constructor
  · exact fun t ht => (hboth t ht).1
  · intro t ht op hop
    rw [(hboth t ht).2] at hop
    cases hop

end Parse

namespace Expr

open Parse

/-- The weakest operator of the expression that stands in no parentheses, if it does not stand in
parentheses itself. -/
def strength (paren : Bool) : Expr → Nat
  | .binary op _ _ _ => if paren then topPower else op.power
  | _ => topPower

/-- The weakest operator that the end of the expression would take what follows to. -/
def reach (paren : Bool) : Expr → Nat
  | .binary op _ _ _ => if paren then topPower else op.rightPower
  | .unary .. => if paren then topPower else UnaryOp.operandPower
  | _ => topPower

/-- An operand that is printed without parentheses to the left of an operator does not take it. -/
theorem left_fits (op : BinaryOp) (e : Expr) :
    op.power ≤ e.strength (e.needsParens op.power (op == .pow)) ∧
      op.power < e.reach (e.needsParens op.power (op == .pow)) := by
  cases e with
  | binary op' l r s =>
      have hpowers : ∀ op op' : BinaryOp,
          let b := op'.power < op.power || (op == .pow && op'.power == op.power)
          op.power ≤ (if b then topPower else op'.power) ∧
            op.power < (if b then topPower else op'.rightPower) := by
        intro op op'
        cases op <;> cases op' <;> decide
      exact hpowers op op'
  | unary op' e s =>
      show op.power ≤ topPower ∧ op.power <
        if decide (UnaryOp.operandPower < op.power) then topPower else UnaryOp.operandPower
      cases op <;> decide
  | _ => exact ⟨Nat.le_of_lt (power_lt_topPower op), power_lt_topPower op⟩

/-- An operand that is printed without parentheses to the right of an operator is taken whole. -/
theorem right_fits (op : BinaryOp) (e : Expr) :
    op.rightPower ≤ e.strength (e.needsParens op.power (!op == .pow)) ∧
      op.rightPower ≤ e.reach (e.needsParens op.power (!op == .pow)) := by
  cases e with
  | binary op' l r s =>
      have hpowers : ∀ op op' : BinaryOp,
          let b := op'.power < op.power || (!op == .pow && op'.power == op.power)
          op.rightPower ≤ (if b then topPower else op'.power) ∧
            op.rightPower ≤ (if b then topPower else op'.rightPower) := by
        intro op op'
        cases op <;> cases op' <;> decide
      exact hpowers op op'
  | unary op' e s =>
      show op.rightPower ≤ topPower ∧ op.rightPower ≤
        if decide (UnaryOp.operandPower < op.power) then topPower else UnaryOp.operandPower
      cases op <;> decide
  | _ => exact ⟨rightPower_le_topPower op, rightPower_le_topPower op⟩

theorem signed_fits (e : Expr) : UnaryOp.operandPower ≤ e.strength e.needsParensSigned ∧
    UnaryOp.operandPower ≤ e.reach e.needsParensSigned := by
  cases e with
  | binary op l r s =>
      have hpowers : ∀ op : BinaryOp, let b := decide (op.power < UnaryOp.operandPower)
          UnaryOp.operandPower ≤ (if b then topPower else op.power) ∧
            UnaryOp.operandPower ≤ (if b then topPower else op.rightPower) := by
        intro op
        cases op <;> decide
      exact hpowers op
  | unary op e s => exact ⟨operandPower_le_topPower, Nat.le_refl UnaryOp.operandPower⟩
  | _ => exact ⟨operandPower_le_topPower, operandPower_le_topPower⟩

/-- Nothing is joined to the expression, neither an operator nor a bracket. -/
def isAtom : Expr → Bool
  | .binary .. | .unary .. | .index .. | .slice .. => false
  | _ => true

theorem eraseAll_eq (es : List Expr) : erase.eraseAll es = es.map erase := by
  induction es with
  | nil => rfl
  | cons e es ih => rw [erase.eraseAll, ih, List.map_cons]

/-- How many levels of nesting the printed expression takes. A left operand, and what is indexed, is
on the level of the expression itself; parentheses take one. -/
def levels : Expr → Nat
  | .binary op l r _ =>
    max (l.levels + (l.needsParens op.power (op == .pow)).toNat)
      (r.levels + (r.needsParens op.power (!op == .pow)).toNat + 1)
  | .unary _ e _ => e.levels + e.needsParensSigned.toNat + 1
  | .call _ _ args _ => levelsAll args + 1
  | .index e i _ => max (e.levels + e.needsParensIndexed.toNat) (i.levels + 1)
  | .slice e a b _ =>
    max (e.levels + e.needsParensIndexed.toNat) (max (a.levels + 1) (b.levels + 1))
  | .array es _ | .tuple es _ => levelsAll es + 1
  | _ => 1
where
  levelsAll : List Expr → Nat
    | [] => 0
    | e :: es => max e.levels (levelsAll es)

theorem levelsAll_le {es : List Expr} {n : Nat} :
    levels.levelsAll es ≤ n ↔ ∀ e ∈ es, e.levels ≤ n := by
  induction es with
  | nil => simp [levels.levelsAll]
  | cons e es ih => rw [levels.levelsAll, Nat.max_le, ih, List.forall_mem_cons]

theorem levels_pos (e : Expr) : 0 < e.levels := by
  induction e with
  | binary op l r s ihl ihr => exact Nat.lt_of_lt_of_le (Nat.succ_pos _) (Nat.le_max_right _ _)
  | index e i s ihe ihi => exact Nat.lt_of_lt_of_le (Nat.succ_pos _) (Nat.le_max_right _ _)
  | slice e a b s ihe iha ihb =>
      exact Nat.lt_of_lt_of_le ihe (Nat.le_trans (Nat.le_add_right _ _) (Nat.le_max_left _ _))
  | _ => exact Nat.succ_pos _

end Expr

namespace Parse

open Graft.Expr Reads

/-- `e` was read back as `e'`, and `more` is left. -/
def Back (e : Expr) (more : List Token) (e' : Expr) (ts : List Token) : Prop :=
  e'.erase = e.erase ∧ ts = more

/-- Printed expressions of at most `n` levels are read back. -/
def ReadsBack (sub : Nat → Parse Expr) (n : Nat) : Prop :=
  ∀ (e : Expr) (paren : Bool), e.Throughout Named → e.levels + paren.toNat ≤ n →
    ∀ q more, q ≤ e.strength paren → Follows q more → Follows (e.reach paren) more →
      Reads (sub q) (parenTokens paren e.tokens ++ more) (Back e more)

section

variable {sub : Nat → Parse Expr} {n m : Nat} {e x i a b l r : Expr} {es : List Expr}
  {ts more : List Token} {Q : Expr → List Token → Prop}

theorem heads_of_opening {s : Symbol} (h : Opening ts) (hs : (Token.mark s).opens = false) :
    heads s ts = false := by
  obtain ⟨t, rest, rfl, ht⟩ := h
  cases t with
  | mark u =>
      refine beq_eq_false_iff_ne.mpr ?_
      rintro rfl
      rw [ht] at hs
      cases hs
  | _ => rfl

theorem not_heads {s : Symbol} (h : ∀ u ∈ ts.head?, u ≠ .mark s) :
    heads s ts = false := by
  cases ts with
  | nil => rfl
  | cons t rest =>
      cases t with
      | mark u =>
          refine beq_eq_false_iff_ne.mpr ?_
          rintro rfl
          exact h _ rfl rfl
      | _ => rfl

/-- An expression before a mark that ends it. -/
theorem ReadsBack.before_mark (hsub : ReadsBack sub n) (he : e.Throughout Named)
    (hlevels : e.levels ≤ n) {s : Symbol} (hends : endsExpr (.mark s) = true)
    (more : List Token) :
    Reads (sub 0) (e.tokens ++ .mark s :: more) (Back e (.mark s :: more)) := by
  have hhead : ∀ t ∈ (Token.mark s :: more).head?, endsExpr t = true := by
    rintro t ⟨⟩
    exact hends
  exact hsub e false he hlevels 0 _ (Nat.zero_le _) (.of_ends hhead _) (.of_ends hhead _)

/-! ### Names and lists -/

theorem pathLoop_reads {names : List String} (hlen : names.length ≤ m)
    (hmore : heads .dot more = false) :
    Reads (pathLoop m) ((names.flatMap fun n => [.mark .dot, .name n]) ++ more)
      fun ns ts => ns = names ∧ ts = more := by
  induction names generalizing m with
  | nil =>
      cases m with
      | zero => exact .pure ⟨rfl, rfl⟩
      | succ m => exact .leave hmore (.pure ⟨rfl, rfl⟩)
  | cons n names ih =>
      cases m with
      | zero => cases hlen
      | succ m =>
          apply Reads.eat
          apply Reads.name
          intro i hi
          apply (ih (Nat.le_of_succ_le_succ hlen)).followed
          exact .pure ⟨by rw [hi], rfl⟩

theorem path_reads {p : Path} (hmore : heads .dot more = false) :
    Reads path (p.tokens ++ more) fun p' ts => p' = p ∧ ts = more := by
  apply Reads.expectName
  intro i hi
  apply Reads.remaining
  have hlen : p.rest.length ≤
      ((p.rest.flatMap fun n => [.mark .dot, .name n]) ++ more : List Token).length := by
    simp only [List.length_append, List.length_flatMap, List.length_cons, List.length_nil,
      List.map_const', List.sum_replicate_nat]
    omega
  apply (pathLoop_reads hlen hmore).followed
  exact .pure ⟨by rw [hi], rfl⟩

section

variable {α β : Type} {element : Parse α} {tokens : β → List Token} {Same : α → β → Prop}
  {close : Symbol} {xs : List β}

theorem opening_commas {x : β} (h : Opening (tokens x)) (xs : List β) :
    Opening (commaTokens ((x :: xs).map tokens)) := by
  cases xs with
  | nil => exact h
  | cons y xs => exact h.append _

/-- The elements of a list, each of them before a comma or the mark that closes the list. -/
theorem listLoop_reads (hopens : (Token.mark close).opens = false) (hcomma : close ≠ .comma)
    (hopening : ∀ x ∈ xs, Opening (tokens x))
    (helement : ∀ x ∈ xs, ∀ s, s = .comma ∨ s = close → ∀ more,
      Reads element (tokens x ++ .mark s :: more) fun a ts => Same a x ∧ ts = .mark s :: more)
    (hm : xs.length < m) :
    Reads (listLoop close element m) (commaTokens (xs.map tokens) ++ .mark close :: more)
      fun as ts => List.Forall₂ Same as xs ∧ ts = .mark close :: more := by
  induction xs generalizing m with
  | nil =>
      obtain ⟨m, rfl⟩ := Nat.exists_eq_succ_of_ne_zero (Nat.ne_of_gt hm)
      apply Reads.isAt
      apply Reads.isAtEnd
      rw [show heads close (commaTokens ([].map tokens) ++ .mark close :: more) = true from
        beq_self_eq_true close]
      exact .pure ⟨.nil, rfl⟩
  | cons x xs ih =>
      obtain ⟨m, rfl⟩ := Nat.exists_eq_succ_of_ne_zero (Nat.ne_of_gt (Nat.zero_lt_of_lt hm))
      obtain ⟨hopen, hopenings⟩ := List.forall_mem_cons.mp hopening
      obtain ⟨hx, hxs⟩ := List.forall_mem_cons.mp helement
      have hhead := (opening_commas hopen xs).append (.mark close :: more)
      apply Reads.isAt
      apply Reads.isAtEnd
      rw [heads_of_opening hhead hopens, List.isEmpty_eq_false_iff.mpr (by simp)]
      cases xs with
      | nil =>
          apply (hx close (.inr rfl) more).bind
          rintro a _ ⟨ha, rfl⟩
          -- no comma is read before the closing mark
          apply Reads.leave (show heads .comma (.mark close :: more) = false from
            beq_eq_false_iff_ne.mpr hcomma)
          exact .pure ⟨.cons ha .nil, rfl⟩
      | cons y xs =>
          have htokens : commaTokens ((x :: y :: xs).map tokens) ++ .mark close :: more =
              tokens x ++ .mark .comma :: (commaTokens ((y :: xs).map tokens) ++
                .mark close :: more) := by simp [commaTokens]
          rw [htokens]
          apply (hx .comma (.inl rfl) _).bind
          rintro a _ ⟨ha, rfl⟩
          apply Reads.eat
          apply (ih hopenings hxs (Nat.lt_of_succ_lt_succ hm)).bind
          rintro as _ ⟨has, rfl⟩
          exact .pure ⟨.cons ha has, rfl⟩

theorem length_le_commaTokens (hopening : ∀ x ∈ xs, Opening (tokens x)) :
    xs.length ≤ (commaTokens (xs.map tokens)).length := by
  induction xs with
  | nil => exact Nat.le_refl 0
  | cons x xs ih =>
      obtain ⟨⟨t, rest, ht, -⟩, hrest⟩ := List.forall_mem_cons.mp hopening
      have hle := ih hrest
      cases xs with
      | nil => simp [commaTokens, ht]
      | cons y xs =>
          simp only [List.map_cons, commaTokens, List.length_append, List.length_cons] at hle ⊢
          omega

/-- A list in brackets, up to the bracket that closes it. -/
theorem commas_read (hopens : (Token.mark close).opens = false) (hcomma : close ≠ .comma)
    (hopening : ∀ x ∈ xs, Opening (tokens x))
    (helement : ∀ x ∈ xs, ∀ s, s = .comma ∨ s = close → ∀ more,
      Reads element (tokens x ++ .mark s :: more) fun a ts => Same a x ∧ ts = .mark s :: more) :
    Reads (list close element) (commaTokens (xs.map tokens) ++ .mark close :: more)
      fun as ts => List.Forall₂ Same as xs ∧ ts = .mark close :: more := by
  apply Reads.remaining
  apply listLoop_reads hopens hcomma hopening helement
  have hle := length_le_commaTokens hopening
  rw [List.length_append, List.length_cons]
  omega

end

theorem map_eq_of_forall₂ {α β γ : Type} {f : α → γ} {g : β → γ} {as : List α} {xs : List β}
    (h : List.Forall₂ (fun a x => f a = g x) as xs) : as.map f = xs.map g := by
  have hmaps : List.Forall₂ (· = ·) (as.map f) (xs.map g) :=
    List.forall₂_map_left_iff.mpr (List.forall₂_map_right_iff.mpr h)
  rwa [List.forall₂_eq_eq_eq] at hmaps

/-- A list of expressions in brackets, up to the bracket that closes it. -/
theorem list_reads (hsub : ReadsBack sub n) {close : Symbol}
    (hends : endsExpr (.mark close) = true) (hopens : (Token.mark close).opens = false)
    (hcomma : close ≠ .comma)
    (hes : ∀ e ∈ es, e.Throughout Named)
    (hlevels : ∀ e ∈ es, e.levels ≤ n) :
    Reads (list close (sub 0)) (commaTokens (es.map Expr.tokens) ++ .mark close :: more)
      fun es' ts => es'.map erase = es.map erase ∧ ts = .mark close :: more := by
  have helement : ∀ e ∈ es, ∀ s, s = .comma ∨ s = close → ∀ more,
      Reads (sub 0) (e.tokens ++ .mark s :: more) (Back e (.mark s :: more)) := by
    rintro e he s (rfl | rfl) more
    · exact hsub.before_mark (hes e he) (hlevels e he) rfl more
    · exact hsub.before_mark (hes e he) (hlevels e he) hends more
  exact (commas_read hopens hcomma (fun e _ => e.opening) helement).mono
    fun es' ts h => ⟨map_eq_of_forall₂ h.1, h.2⟩

/-! ### Operands -/

/-- What follows does not go on with a name. -/
structure AfterName (more : List Token) : Prop where
  point : heads .dot more = false
  paren : heads .openParen more = false

theorem Follows.afterName {p : Nat} (h : Follows p more) : AfterName more := by
  constructor
  · apply not_heads
    rintro t ht rfl
    cases h.ends _ ht
  · apply not_heads
    rintro t ht rfl
    cases h.ends _ ht

theorem primary_parens (hsub : ReadsBack sub n) (he : e.Throughout Named)
    (hlevels : e.levels ≤ n) :
    Reads (primary sub) (parenTokens true e.tokens ++ more) (Back e more) := by
  apply Reads.here
  intro start
  apply Reads.peek
  apply Reads.advance
  show Reads _ (e.tokens ++ [.mark .closeParen] ++ more) _
  rw [List.append_assoc]
  apply (hsub.before_mark he hlevels rfl more).bind
  rintro e' _ ⟨herase, rfl⟩
  apply Reads.leave rfl
  apply Reads.expect
  exact .pure ⟨herase, rfl⟩

theorem primary_reads (hsub : ReadsBack sub n) (he : e.Throughout Named)
    (hlevels : e.levels ≤ n + 1) (hatom : e.isAtom = true) (hmore : AfterName more) :
    Reads (primary sub) (e.tokens ++ more) (Back e more) := by
  apply Reads.here
  intro start
  apply Reads.peek
  cases e with
  | num x s => exact .advance (.pure ⟨rfl, rfl⟩)
  | bool b s =>
      cases b
      · exact .advance (.pure ⟨rfl, rfl⟩)
      · exact .advance (.pure ⟨rfl, rfl⟩)
  | var n s =>
      apply (path_reads (p := ⟨n, []⟩) hmore.point).followed
      apply Reads.before
      intro _
      exact .leave hmore.paren (.pure ⟨rfl, rfl⟩)
  | path p s =>
      apply (path_reads hmore.point).followed
      apply Reads.before
      intro _
      apply Reads.leave hmore.paren
      rw [if_neg (by decide), if_pos he.self.2]
      exact .pure ⟨rfl, rfl⟩
  | call p t args s =>
      obtain ⟨hargs, -⟩ := throughout_call.mp he
      rw [Expr.tokens, tokensAll_eq, List.append_assoc, List.cons_append, List.append_assoc]
      apply (path_reads rfl).followed
      apply Reads.before
      intro _
      apply Reads.eat
      have hl := levelsAll_le.mp (Nat.le_of_succ_le_succ hlevels)
      apply (list_reads hsub rfl rfl (by decide) hargs hl).bind
      rintro args' _ ⟨herase, rfl⟩
      apply Reads.expect
      apply Reads.before
      intro _
      refine .pure ⟨?_, rfl⟩
      rw [erase, erase, eraseAll_eq, eraseAll_eq, herase]
  | array es s =>
      obtain ⟨hes, -⟩ := throughout_array.mp he
      rw [Expr.tokens, tokensAll_eq, List.cons_append, List.append_assoc]
      apply Reads.advance
      have hl := levelsAll_le.mp (Nat.le_of_succ_le_succ hlevels)
      apply (list_reads hsub rfl rfl (by decide) hes hl).bind
      rintro es' _ ⟨herase, rfl⟩
      apply Reads.expect
      apply Reads.before
      intro _
      refine .pure ⟨?_, rfl⟩
      rw [erase, erase, eraseAll_eq, eraseAll_eq, herase]
  | tuple es s =>
      obtain ⟨hes, hne⟩ := throughout_tuple.mp he
      cases es with
      | nil => exact absurd rfl hne
      | cons e es =>
          obtain ⟨hl, hls⟩ := List.forall_mem_cons.mp
            (levelsAll_le.mp (Nat.le_of_succ_le_succ hlevels))
          rw [tokens_tuple_cons, List.cons_append, List.append_assoc, List.cons_append,
            List.append_assoc]
          apply Reads.advance
          apply (hsub.before_mark (hes e List.mem_cons_self) hl rfl _).bind
          rintro e' _ ⟨herase, rfl⟩
          apply Reads.eat
          apply (list_reads hsub rfl rfl (by decide)
            (fun x hx => hes x (List.mem_cons_of_mem e hx)) hls).bind
          rintro es' _ ⟨herases, rfl⟩
          apply Reads.expect
          apply Reads.before
          intro _
          refine .pure ⟨?_, rfl⟩
          rw [erase, erase, eraseAll_eq, eraseAll_eq, List.map_cons, herase, herases]
          rfl
  | _ => cases hatom

theorem postfix_stop (hmore : heads .openBracket more = false) (h : Q e more) :
    Reads (postfixLoop sub m e) more Q := by
  cases m with
  | zero => exact .pure h
  | succ m => exact .leave hmore (.pure h)

theorem postfix_index (hsub : ReadsBack sub n) (hi : i.Throughout Named)
    (hlevels : i.levels ≤ n)
    (hnext : ∀ i' span, i'.erase = i.erase →
      Reads (postfixLoop sub m (.index x i' span)) more Q) :
    Reads (postfixLoop sub (m + 1) x)
      (.mark .openBracket :: (i.tokens ++ [.mark .closeBracket]) ++ more) Q := by
  rw [List.cons_append, List.append_assoc]
  apply Reads.eat
  apply (hsub.before_mark hi hlevels rfl more).bind
  rintro i' _ ⟨herase, rfl⟩
  apply Reads.leave rfl
  apply Reads.expect
  apply Reads.before
  intro _
  exact hnext _ _ herase

theorem postfix_slice (hsub : ReadsBack sub n) (ha : a.Throughout Named) (hb : b.Throughout Named)
    (hlevelsA : a.levels ≤ n) (hlevelsB : b.levels ≤ n)
    (hnext : ∀ a' b' span, a'.erase = a.erase → b'.erase = b.erase →
      Reads (postfixLoop sub m (.slice x a' b' span)) more Q) :
    Reads (postfixLoop sub (m + 1) x) (.mark .openBracket ::
      (a.tokens ++ .mark .dotDot :: (b.tokens ++ [.mark .closeBracket])) ++ more) Q := by
  rw [List.cons_append, List.append_assoc, List.cons_append, List.append_assoc]
  apply Reads.eat
  apply (hsub.before_mark ha hlevelsA rfl _).bind
  rintro a' _ ⟨heraseA, rfl⟩
  apply Reads.eat
  apply (hsub.before_mark hb hlevelsB rfl more).bind
  rintro b' _ ⟨heraseB, rfl⟩
  apply Reads.expect
  apply Reads.before
  intro _
  exact hnext _ _ _ heraseA heraseB

theorem operand_of_primary (hprimary : Reads (primary sub) ts (Back e more))
    (hhead : ts.head?.bind unaryOf? = none)
    (hnext : ∀ e' m, e'.erase = e.erase → more.length ≤ m →
      Reads (postfixLoop sub m e') more Q) :
    Reads (operand sub) ts Q := by
  apply Reads.here
  intro start
  apply Reads.peek
  rw [hhead]
  apply hprimary.bind
  rintro e' _ ⟨herase, rfl⟩
  exact .remaining (hnext e' _ herase (Nat.le_refl _))

theorem operand_parens (hsub : ReadsBack sub n) (he : e.Throughout Named)
    (hlevels : e.levels ≤ n)
    (hnext : ∀ e' m, e'.erase = e.erase → more.length ≤ m →
      Reads (postfixLoop sub m e') more Q) :
    Reads (operand sub) (parenTokens true e.tokens ++ more) Q :=
  operand_of_primary (primary_parens hsub he hlevels) rfl hnext

/-- What is indexed stands in parentheses or is an operand that no operator is joined to. -/
theorem base_reads (hsub : ReadsBack sub n) (hx : x.Throughout Named)
    (hlevels : x.levels + x.needsParensIndexed.toNat ≤ n + 1)
    (htight : x.needsParensIndexed = false → x.levels ≤ n + 1 →
      Reads (operand sub) (x.tokens ++ more) Q)
    (hnext : ∀ x' m, x'.erase = x.erase → more.length ≤ m →
      Reads (postfixLoop sub m x') more Q) :
    Reads (operand sub) (parenTokens x.needsParensIndexed x.tokens ++ more) Q := by
  cases hparen : x.needsParensIndexed with
  | false =>
      rw [hparen] at hlevels
      exact htight hparen hlevels
  | true =>
      rw [hparen] at hlevels
      exact operand_parens hsub hx (Nat.le_of_succ_le_succ hlevels) hnext

/-- An operand that no operator is joined to: reading comes to the brackets after it. -/
theorem operand_reads (hsub : ReadsBack sub n) (he : e.Throughout Named)
    (htight : e.needsParensIndexed = false) (hlevels : e.levels ≤ n + 1)
    (hmore : AfterName more)
    (hnext : ∀ e' m, e'.erase = e.erase → more.length ≤ m →
      Reads (postfixLoop sub m e') more Q) :
    Reads (operand sub) (e.tokens ++ more) Q := by
  induction e generalizing more Q with
  | index x i s ihx ihi =>
      obtain ⟨hx, hi, -⟩ := throughout_index.mp he
      obtain ⟨hbase, hindex⟩ := Nat.max_le.mp hlevels
      rw [Expr.tokens, List.append_assoc]
      -- the brackets, whether or not the base was read in parentheses
      have hread : ∀ x' m, x'.erase = x.erase →
          (.mark .openBracket :: (i.tokens ++ [.mark .closeBracket]) ++ more : List Token).length ≤
            m → Reads (postfixLoop sub m x')
              (.mark .openBracket :: (i.tokens ++ [.mark .closeBracket]) ++ more) Q := by
        intro x' m hxe hm
        simp only [List.length_append, List.length_cons] at hm
        obtain ⟨m, rfl⟩ := Nat.exists_eq_succ_of_ne_zero (n := m) (by omega)
        apply postfix_index hsub hi (Nat.le_of_succ_le_succ hindex)
        intro i' span hie
        apply hnext
        · rw [erase, erase, hxe, hie]
        · omega
      exact base_reads hsub hx hbase
        (fun hparen hl => ihx hx hparen hl ⟨rfl, rfl⟩ hread) hread
  | slice x a b s ihx iha ihb =>
      obtain ⟨hx, ha, hb, -⟩ := throughout_slice.mp he
      obtain ⟨hbase, hends⟩ := Nat.max_le.mp hlevels
      obtain ⟨hfrom, hto⟩ := Nat.max_le.mp hends
      rw [Expr.tokens, List.append_assoc]
      have hread : ∀ x' m, x'.erase = x.erase → (.mark .openBracket :: (a.tokens ++
          .mark .dotDot :: (b.tokens ++ [.mark .closeBracket])) ++ more : List Token).length ≤ m →
            Reads (postfixLoop sub m x') (.mark .openBracket :: (a.tokens ++ .mark .dotDot ::
              (b.tokens ++ [.mark .closeBracket])) ++ more) Q := by
        intro x' m hxe hm
        simp only [List.length_append, List.length_cons] at hm
        obtain ⟨m, rfl⟩ := Nat.exists_eq_succ_of_ne_zero (n := m) (by omega)
        apply postfix_slice hsub ha hb (Nat.le_of_succ_le_succ hfrom) (Nat.le_of_succ_le_succ hto)
        intro a' b' span hae hbe
        apply hnext
        · rw [erase, erase, hxe, hae, hbe]
        · omega
      exact base_reads hsub hx hbase
        (fun hparen hl => ihx hx hparen hl ⟨rfl, rfl⟩ hread) hread
  | binary op l r s ihl ihr => cases htight
  | unary op x s ih => cases htight
  | num x s => exact operand_of_primary (primary_reads hsub he hlevels rfl hmore) rfl hnext
  | bool b s =>
      refine operand_of_primary (primary_reads hsub he hlevels rfl hmore) ?_ hnext
      cases b <;> rfl
  | var n s => exact operand_of_primary (primary_reads hsub he hlevels rfl hmore) rfl hnext
  | path p s => exact operand_of_primary (primary_reads hsub he hlevels rfl hmore) rfl hnext
  | call p t args s => exact operand_of_primary (primary_reads hsub he hlevels rfl hmore) rfl hnext
  | array es s => exact operand_of_primary (primary_reads hsub he hlevels rfl hmore) rfl hnext
  | tuple es s =>
      refine operand_of_primary (primary_reads hsub he hlevels rfl hmore) ?_ hnext
      cases es with
      | nil => rfl
      | cons e es => cases es <;> rfl

/-! ### Operators -/

/-- An operand and the operators of at least the strength `power` after it. -/
def chain (sub : Nat → Parse Expr) (power : Nat) : Parse Expr := do
  let left ← operand sub
  operatorLoop sub power (← remaining) left

theorem operator_stop {q : Nat} (hmore : Follows q more) (h : Q e more) :
    Reads (operatorLoop sub q m e) more Q := by
  cases m with
  | zero => exact .pure h
  | succ m =>
      apply Reads.peek
      cases hop : more.head?.bind binaryOf? with
      | none => exact .pure h
      | some op =>
          obtain ⟨t, ht, hop⟩ := Option.bind_eq_some_iff.mp hop
          have hweak : op.power < q := hmore.weaker t ht op hop
          show Reads (if op.power < q then _ else _) more Q
          rw [if_pos hweak]
          exact .pure h

theorem operator_step {op : BinaryOp} {q : Nat} (hop : q ≤ op.power)
    (hright : Reads (sub op.rightPower) ts (Back r more))
    (hnext : ∀ r' span, r'.erase = r.erase →
      Reads (operatorLoop sub q m (.binary op l r' span)) more Q) :
    Reads (operatorLoop sub q (m + 1) l) (.mark op.symbol :: ts) Q := by
  apply Reads.peek
  have hbinary : (Token.mark op.symbol :: ts).head?.bind binaryOf? = some op := by
    cases op <;> rfl
  rw [hbinary]
  show Reads (if op.power < q then _ else _) _ Q
  rw [if_neg (Nat.not_lt.mpr hop)]
  apply Reads.advance
  apply hright.bind
  rintro r' _ ⟨herase, rfl⟩
  exact hnext r' _ herase

/-- An operand after its sign. -/
theorem operand_unary (hsub : ReadsBack sub n) {op : UnaryOp} {s : Span}
    (he : (Expr.unary op x s).Throughout Named)
    (hlevels : (Expr.unary op x s).levels ≤ n + 1)
    (hmore : Follows UnaryOp.operandPower more) :
    Reads (operand sub) ((Expr.unary op x s).tokens ++ more) (Back (.unary op x s) more) := by
  obtain ⟨hx, -⟩ := throughout_unary.mp he
  obtain ⟨hstrength, hreach⟩ := signed_fits x
  apply Reads.here
  intro start
  apply Reads.peek
  have hunary : ((Expr.unary op x s).tokens ++ more).head?.bind unaryOf? = some op := by
    cases op <;> rfl
  rw [hunary]
  apply Reads.advance
  apply (hsub x _ hx (Nat.le_of_succ_le_succ hlevels) _ more hstrength hmore
    (hmore.mono hreach)).bind
  rintro x' _ ⟨herase, rfl⟩
  exact .pure ⟨by rw [erase, erase, herase], rfl⟩

/-- An expression that is one operand, with its signs, brackets and parentheses. -/
theorem operand_back (hsub : ReadsBack sub n) (he : e.Throughout Named) {paren : Bool}
    (hlevels : e.levels + paren.toNat ≤ n + 1) (hmore : Follows (e.reach paren) more)
    (hone : ∀ op l r s, e = .binary op l r s → paren = true) :
    Reads (operand sub) (parenTokens paren e.tokens ++ more) (Back e more) := by
  have hbracket : heads .openBracket more = false := by
    apply not_heads
    rintro t ht rfl
    cases hmore.ends _ ht
  have hstop : ∀ e' m, e'.erase = e.erase → more.length ≤ m →
      Reads (postfixLoop sub m e') more (Back e more) :=
    fun e' m herase _ => postfix_stop hbracket ⟨herase, rfl⟩
  cases paren with
  | true => exact operand_parens hsub he (Nat.le_of_succ_le_succ hlevels) hstop
  | false =>
      cases e with
      | binary op l r s => cases hone op l r s rfl
      | unary op x s => exact operand_unary hsub he hlevels hmore
      | _ => exact operand_reads hsub he rfl hlevels hmore.afterName hstop

/-- An operand with what is joined to it on the left: reading comes to the operators after it. -/
theorem chain_reads (hsub : ReadsBack sub n) (he : e.Throughout Named) {paren : Bool}
    (hlevels : e.levels + paren.toNat ≤ n + 1) {q : Nat} (hq : q ≤ e.strength paren)
    (hmore : Follows (e.reach paren) more)
    (hnext : ∀ e' m, e'.erase = e.erase → more.length ≤ m →
      Reads (operatorLoop sub q m e') more Q) :
    Reads (chain sub q) (parenTokens paren e.tokens ++ more) Q := by
  induction e generalizing paren q more Q with
  | binary op l r s ihl ihr =>
      cases paren with
      | true =>
          apply (operand_back hsub he hlevels hmore fun _ _ _ _ _ => rfl).bind
          rintro e' _ ⟨herase, rfl⟩
          exact .remaining (hnext e' _ herase (Nat.le_refl _))
      | false =>
          obtain ⟨hl, hr, -⟩ := throughout_binary.mp he
          obtain ⟨hstrengthL, hreachL⟩ := left_fits op l
          obtain ⟨hstrengthR, hreachR⟩ := right_fits op r
          obtain ⟨hlevelsL, hlevelsR⟩ := Nat.max_le.mp hlevels
          show Reads _ (parenTokens _ l.tokens ++ .mark op.symbol :: parenTokens _ r.tokens ++
            more) Q
          rw [List.append_assoc, List.cons_append]
          -- the operator is ahead when reading comes to the loop with the left operand behind it
          apply ihl hl hlevelsL (Nat.le_trans hq hstrengthL) (.operator hreachL _)
          intro l' m hle hm
          rw [List.length_cons, List.length_append] at hm
          obtain ⟨m, rfl⟩ := Nat.exists_eq_succ_of_ne_zero (n := m) (by omega)
          apply operator_step hq
            (hsub r _ hr (Nat.le_of_succ_le_succ hlevelsR) _ more hstrengthR hmore
              (hmore.mono hreachR))
          intro r' span hre
          apply hnext
          · rw [erase, erase, hle, hre]
          · omega
  | _ =>
      apply (operand_back hsub he hlevels hmore (by rintro _ _ _ _ ⟨⟩)).bind
      rintro e' _ ⟨herase, rfl⟩
      exact .remaining (hnext e' _ herase (Nat.le_refl _))

end

/-- A printed expression is read back where as many levels are left as it takes. -/
theorem expr_readsBack (levels : Nat) : ReadsBack (expr levels) levels := by
  induction levels with
  | zero =>
      intro e paren he hlevels
      have hpos := e.levels_pos
      omega
  | succ levels ih =>
      intro e paren he hlevels q more hq hweak hmore
      have hchain : Reads (chain (expr levels) q) (parenTokens paren e.tokens ++ more)
          (Back e more) :=
        chain_reads ih he hlevels hq hmore fun e' m herase _ => operator_stop hweak ⟨herase, rfl⟩
      intro c hts hc
      have hdeeper : expr (levels + 1) q c = chain (expr levels) q c := by
        show (if levels + 1 ≤ c.refused then _ else _ : Parse Expr) c = _
        rw [hc, if_neg (by omega)]
        rfl
      rw [hdeeper]
      exact hchain c hts hc

/-! ## Tokens determine expressions -/

/-- The tokens up to the end of the line. -/
def front : List (Option Token) → List Token
  | some t :: rest => t :: front rest
  | _ => []

theorem front_append (ts : List Token) (rest : List (Option Token)) :
    front (ts.map some ++ rest) = ts ++ front rest := by
  induction ts with
  | nil => rfl
  | cons t ts ih => rw [List.map_cons, List.cons_append, front, ih, List.cons_append]

/-- What follows an expression: its line ends, or a token that goes on with no expression. -/
def Stops (ts : List (Option Token)) : Prop :=
  ∀ t, ts.head? = some (some t) → endsExpr t = true

theorem Stops.follows {ts : List (Option Token)} (h : Stops ts) (p : Nat) :
    Follows p (front ts) := by
  apply Follows.of_ends
  intro t ht
  cases ts with
  | nil => cases ht
  | cons u rest =>
      cases u with
      | none => cases ht
      | some u =>
          cases ht
          exact h t rfl

/-- A cursor with the tokens ahead. -/
def Cursor.ofTokens (ts : List Token) : Cursor :=
  { rest := ts.map fun t => ⟨t, .dummy⟩, stop := .dummy }

theorem Cursor.tokens_ofTokens (ts : List Token) : (ofTokens ts).tokens = ts := by
  rw [Cursor.tokens, ofTokens, List.map_map]
  exact List.map_id ts

end Parse

open Parse in
/-- The tokens of an expression, before what does not go on with it, determine the expression. -/
theorem Expr.tokens_append_inj {e e' : Expr} {paren paren' : Bool} {ts ts' : List (Option Token)}
    (he : e.Throughout Named) (he' : e'.Throughout Named) (hts : Stops ts) (hts' : Stops ts')
    (h : (parenTokens paren e.tokens).map some ++ ts =
      (parenTokens paren' e'.tokens).map some ++ ts') :
    e.erase = e'.erase ∧ ts = ts' := by
  generalize hn : e.levels + paren.toNat + (e'.levels + paren'.toNat) = n
  have hfront : parenTokens paren e.tokens ++ front ts =
      parenTokens paren' e'.tokens ++ front ts' := by
    rw [← front_append, ← front_append, h]
  -- both are what one step reads from the same tokens
  obtain ⟨⟨herase, hrest⟩, -⟩ := expr_readsBack n e paren he (by omega) 0 _ (Nat.zero_le _)
    (hts.follows 0) (hts.follows _) (Cursor.ofTokens (parenTokens paren e.tokens ++ front ts))
    (Cursor.tokens_ofTokens _) rfl
  obtain ⟨⟨herase', hrest'⟩, -⟩ := expr_readsBack n e' paren' he' (by omega) 0 _ (Nat.zero_le _)
    (hts'.follows 0) (hts'.follows _) (Cursor.ofTokens (parenTokens paren e.tokens ++ front ts))
    ((Cursor.tokens_ofTokens _).trans hfront) rfl
  have hsame : parenTokens paren e.tokens = parenTokens paren' e'.tokens :=
    List.append_cancel_right (hfront.trans (by rw [← hrest, hrest']))
  rw [hsame] at h
  exact ⟨herase.symm.trans herase', List.append_cancel_left h⟩

end Graft
