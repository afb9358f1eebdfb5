import Graft.Proofs.Unambiguity

/-!
# Printed statements are read again

The ends of lines are no tokens, so a printed statement is read up to where it could still go on. A
line ends with its statement when what follows cannot go on with it: a bare `return` needs the end of
the block, an expression that is no value needs a line behind it, and what could go on with an
expression needs a semicolon in front. `keepsLines` says this of every line of a block, and `levels`
says how deep the printed block is nested. A block that keeps its lines is read again as the block,
up to spans, wherever so many levels are left.
-/

namespace Graft

open Parse (endsExpr expr block)

/-! ## Where lines end -/

/-- The lines start with a token that goes on with an expression before them. -/
def goesOn : List (Option Token) → Bool
  | some t :: _ => !endsExpr t
  | _ => false

/-- The line of the statement ends where its text does, before the lines of `rest` and `tail`. -/
def Stmt.endsLine (x : Stmt) (rest : List Stmt) (tail : Option Expr) : Bool :=
  let lines := Block.linesLayout tail rest
  (match x with
    | .give none _ => lines.isEmpty
    | .eval .. => !lines.isEmpty
    | _ => true) &&
  (!x.endsWithExpr || x.needsSemicolon rest tail || !goesOn lines)

/-- What `endsLine` asks for, one by one. -/
theorem Stmt.endsLine_iff {x : Stmt} {ss : List Stmt} {tail : Option Expr} :
    x.endsLine ss tail = true ↔
      (∀ s, x = .give none s → Block.linesLayout tail ss = []) ∧
      (x.isEval = true → Block.linesLayout tail ss ≠ []) ∧
      (x.endsWithExpr = true → x.needsSemicolon ss tail = false →
        goesOn (Block.linesLayout tail ss) = false) := by
  cases x with
  | give v s => cases v <;> simp [endsLine, endsWithExpr, isEval, or_iff_not_imp_left]
  | _ => simp [endsLine, endsWithExpr, isEval, or_iff_not_imp_left]

mutual

/-- Whether every block in the statement keeps its lines. A single place in parentheses is no
tuple. -/
def Stmt.keepsLines : Stmt → Bool
  | .assignTuple places _ _ => places.length != 1
  | .branch _ yes none _ => Block.keepsLines yes
  | .branch _ yes (some no) _ => Block.keepsLines yes && Block.keepsLines no
  | .forRange _ _ _ body _ => Block.keepsLines body
  | .whileLoop _ body _ => Block.keepsLines body
  | _ => true
  termination_by structural s => s

/-- Whether in the block, and in every block in it, each line ends where its text does. -/
def Block.keepsLines : Block → Bool
  | .mk stmts tail _ => Block.keepsLinesAll tail stmts
  termination_by structural b => b

/-- The same of the statements of a block with the value `tail`. -/
def Block.keepsLinesAll (tail : Option Expr) : List Stmt → Bool
  | [] => true
  | s :: rest => Stmt.keepsLines s && s.endsLine rest tail && Block.keepsLinesAll tail rest
  termination_by structural ss => ss

end

/-! ## Levels -/

mutual

/-- How many levels of nesting the printed statement takes. -/
def Stmt.levels : Stmt → Nat
  | .bind _ e _ => e.levels
  | .assign p e _ => max p.expr.levels e.levels
  | .assignTuple ps e _ => max (Expr.levels.levelsAll (ps.map Place.expr) + 1) e.levels
  | .branch c yes none _ => max c.levels (Block.levels yes)
  | .branch c yes (some no) _ => max c.levels (max (Block.levels yes) (Block.elseLevels no))
  | .forRange _ a b body _ => max a.levels (max b.levels (Block.levels body))
  | .whileLoop c body _ => max c.levels (Block.levels body)
  | .eval e _ => e.levels
  | .give v _ => v.elim 0 Expr.levels
  termination_by structural s => s

def Block.levels : Block → Nat
  | .mk stmts tail _ => max (Block.levelsAll stmts) (tail.elim 0 Expr.levels) + 1
  termination_by structural b => b

/-- An `if` after `else` stands on the level of the one before. -/
def Block.elseLevels : Block → Nat
  | .mk [.branch c yes no s] none _ => Stmt.levels (.branch c yes no s)
  | .mk stmts tail _ => max (Block.levelsAll stmts) (tail.elim 0 Expr.levels) + 1
  termination_by structural b => b

def Block.levelsAll : List Stmt → Nat
  | [] => 0
  | s :: rest => max (Stmt.levels s) (Block.levelsAll rest)
  termination_by structural ss => ss

end

theorem Block.levelsAll_le {ss : List Stmt} {n : Nat} :
    Block.levelsAll ss ≤ n ↔ ∀ x ∈ ss, x.levels ≤ n := by
  induction ss with
  | nil => simp [levelsAll]
  | cons x ss ih => rw [levelsAll, Nat.max_le, ih, List.forall_mem_cons]

theorem elim_levels_le {v : Option Expr} {n : Nat} :
    v.elim 0 Expr.levels ≤ n ↔ ∀ e ∈ v, e.levels ≤ n := by
  cases v <;> simp

/-- The levels of the block after `else`, if there is one. -/
def elseLevels (no : Option Block) : Nat := no.elim 0 Block.elseLevels

theorem Block.elseLevels_eq {b : Block}
    (h : ¬ ∃ c yes no span s, b = .mk [.branch c yes no span] none s) :
    b.elseLevels = b.levels := by
  unfold elseLevels
  split
  · exact absurd ⟨_, _, _, _, _, rfl⟩ h
  · rw [Block.levels]

theorem Block.elseLevels_chain {c : Expr} {yes : Block} {no : Option Block} {s s' : Span} :
    (Block.mk [.branch c yes no s] none s').elseLevels = (Stmt.branch c yes no s).levels := rfl

/-- After `else` a block takes no more levels than elsewhere. -/
theorem Block.elseLevels_le (b : Block) : b.elseLevels ≤ b.levels := by
  by_cases h : ∃ c yes no span s, b = .mk [.branch c yes no span] none s
  · obtain ⟨c, yes, no, span, s, rfl⟩ := h
    rw [elseLevels_chain, levels, levelsAll]
    exact Nat.le_succ_of_le (Nat.le_trans (Nat.le_max_left _ _) (Nat.le_max_left _ _))
  · exact Nat.le_of_eq (elseLevels_eq h)

section

variable {c : Expr} {yes : Block} {no : Option Block} {s : Span}

theorem Stmt.keepsLines_branch : (Stmt.branch c yes no s).keepsLines = true ↔
    yes.keepsLines = true ∧ ∀ b ∈ no, b.keepsLines = true := by
  cases no <;> simp [keepsLines]

theorem Stmt.levels_branch : (Stmt.branch c yes no s).levels =
    max c.levels (max yes.levels (elseLevels no)) := by
  cases no with
  | none => rw [levels, elseLevels, Option.elim_none, Nat.max_eq_left (Nat.zero_le yes.levels)]
  | some b => rw [levels, elseLevels, Option.elim_some]

end

/-! ## Tokens -/

theorem framedLayout_tokens (lines : List (Option Token)) : (framedLayout lines).reduceOption =
    .mark .openBrace :: (lines.reduceOption ++ [.mark .closeBrace]) := by
  cases lines with
  | nil => rfl
  | cons t lines =>
      show ((some (.mark .openBrace) :: none :: (t :: lines ++ [some (.mark .closeBrace)]) :
        List (Option Token))).reduceOption = _
      rw [List.reduceOption_cons_of_some, List.reduceOption_cons_of_none, List.reduceOption_append]
      rfl

theorem Block.tokens_open (b : Block) (more : List Token) :
    ∃ rest, b.layout.reduceOption ++ more = .mark .openBrace :: rest := by
  obtain ⟨ss, tail, s⟩ := b
  rw [layout, framedLayout_tokens]
  exact ⟨_, rfl⟩

theorem Stmt.tokens_branch (c : Expr) (yes : Block) (no : Option Block) (s : Span)
    (more : List Token) : (Stmt.branch c yes no s).layout.reduceOption ++ more =
      .word .ifWord :: (c.tokens ++ (yes.layout.reduceOption ++
        ((elseLayouts no).reduceOption ++ more))) := by
  rw [layout_branch, List.reduceOption_cons_of_some, List.reduceOption_append,
    Scan.reduceOption_map_some, List.reduceOption_append]
  simp

/-- The line of a statement, the semicolon behind it if there is one, and the lines that follow. -/
theorem Block.tokens_cons (tail : Option Expr) (x : Stmt) (ss : List Stmt) :
    (Block.linesLayout tail (x :: ss)).reduceOption = x.layout.reduceOption ++
      ((lineEnd (x.needsSemicolon ss tail)).reduceOption ++
        (Block.linesLayout tail ss).reduceOption) := by
  rw [linesLayout_cons, List.reduceOption_append, List.reduceOption_append,
    List.reduceOption_cons_of_none]

theorem Block.tokens_tail (e : Expr) : (Block.linesLayout (some e) []).reduceOption = e.tokens := by
  rw [linesLayout, tailLayout, List.reduceOption_append, Scan.reduceOption_map_some]
  exact List.append_nil _

/-- The tokens that a statement can start with. -/
def Token.startsStmt : Token → Bool
  | .word .letWord | .word .ifWord | .word .forWord | .word .whileWord | .word .returnWord => true
  | t => t.opens

theorem Token.startsStmt_of_opens {t : Token} (h : t.opens = true) : t.startsStmt = true := by
  unfold startsStmt
  split
  · rfl
  · rfl
  · rfl
  · rfl
  · rfl
  · exact h

/-- What is not the end of a block starts a statement. -/
def StartsLine (lines : List (Option Token)) : Prop :=
  ∃ t more, lines = some t :: more ∧ t.startsStmt = true

theorem Opening.startsLine {ts : List Token} (h : Opening ts) (more : List (Option Token)) :
    StartsLine (ts.map some ++ more) := by
  obtain ⟨t, rest, rfl, ht⟩ := h
  exact ⟨t, _, rfl, Token.startsStmt_of_opens ht⟩

theorem Stmt.startsLine (x : Stmt) (more : List (Option Token)) : StartsLine (x.layout ++ more) := by
  cases x with
  | bind t e s => exact ⟨_, _, rfl, rfl⟩
  | branch c yes no s => cases no <;> exact ⟨_, _, rfl, rfl⟩
  | forRange v a b body s => exact ⟨_, _, rfl, rfl⟩
  | whileLoop c body s => exact ⟨_, _, rfl, rfl⟩
  | give v s => cases v <;> exact ⟨_, _, rfl, rfl⟩
  | assign p e s => exact (p.expr.opening.append _).startsLine more
  | assignTuple ps e s => exact ⟨_, _, rfl, rfl⟩
  | eval e s => exact e.opening.startsLine more

theorem Block.startsLine {tail : Option Expr} {ss : List Stmt}
    (h : Block.linesLayout tail ss ≠ []) : StartsLine (Block.linesLayout tail ss) := by
  cases ss with
  | cons x ss => exact x.startsLine _
  | nil =>
      cases tail with
      | none => exact absurd rfl h
      | some e => exact e.opening.startsLine _

namespace Parse

open Reads

/-! ## What follows a statement -/

/-- What follows does not go on with the statement. -/
structure Ends (x : Stmt) (more : List Token) : Prop where
  value : x.endsWithExpr = true → ∀ t ∈ more.head?, endsExpr t = true
  effect : x.isEval = true → heads .closeBrace more = false ∧ heads .assign more = false
  bare : ∀ s, x = .give none s → heads .closeBrace more = true ∨ heads .semicolon more = true
  otherwise : headsWord .elseWord more = false

variable {n m : Nat} {e : Expr} {x : Stmt} {b : Block} {ss : List Stmt} {tail : Option Expr}
  {ts more : List Token}

/-- An expression before what does not go on with one. -/
theorem expr_back (he : e.Throughout Expr.Named) (hlevels : e.levels ≤ n)
    (hmore : ∀ t ∈ more.head?, endsExpr t = true) :
    Reads (expr n 0) (e.tokens ++ more) (Back e more) :=
  expr_readsBack n e false he hlevels 0 more (Nat.zero_le _) (.of_ends hmore _) (.of_ends hmore _)

theorem endsExpr_mark {s : Symbol} (h : endsExpr (.mark s) = true) (more : List Token) :
    ∀ t ∈ (Token.mark s :: more).head?, endsExpr t = true := by
  rintro t ⟨⟩
  exact h

/-- An expression before a block. -/
theorem expr_back_block (he : e.Throughout Expr.Named) (hlevels : e.levels ≤ n) (b : Block)
    (more : List Token) : Reads (expr n 0) (e.tokens ++ (b.layout.reduceOption ++ more))
      (Back e (b.layout.reduceOption ++ more)) := by
  apply expr_back he hlevels
  obtain ⟨rest, hrest⟩ := Block.tokens_open b more
  rw [hrest]
  exact endsExpr_mark rfl rest

/-! ## Places and patterns -/

theorem placeOf_back {p : Place} (hp : p.Named) (he : e.erase = p.expr.erase) :
    Reads (placeOf e) ts fun p' ts' => p'.erase = p.erase ∧ ts' = ts := by
  cases p with
  | var n s =>
      cases e <;> cases he
      have hname : (n == "_") = false := beq_eq_false_iff_ne.mpr hp.2
      exact .pure ⟨by rw [hname]; rfl, rfl⟩
  | discard s =>
      cases e <;> cases he
      exact .pure ⟨rfl, rfl⟩
  | index base i s =>
      cases e with
      | index x i' s' =>
          injection he with hx hi
          cases x <;> cases hx
          exact .pure ⟨by rw [Place.erase, Place.erase, hi], rfl⟩
      | _ => cases he

theorem placesOf_back {ps : List Place} (hps : ∀ p ∈ ps, p.Named) {es : List Expr}
    (hes : es.map Expr.erase = (ps.map Place.expr).map Expr.erase) :
    Reads (es.mapM placeOf) ts fun ps' ts' => ps'.map Place.erase = ps.map Place.erase ∧
      ts' = ts := by
  induction ps generalizing es with
  | nil =>
      obtain rfl := List.map_eq_nil_iff.mp hes
      exact .pure ⟨rfl, rfl⟩
  | cons p ps ih =>
      cases es with
      | nil => cases hes
      | cons e es =>
          obtain ⟨he, hes⟩ := List.cons.inj hes
          obtain ⟨hp, hps⟩ := List.forall_mem_cons.mp hps
          rw [List.mapM_cons]
          apply (placeOf_back hp he).bind
          rintro p' _ ⟨herase, rfl⟩
          apply (ih hps hes).bind
          rintro ps' _ ⟨herases, rfl⟩
          exact .pure ⟨by rw [List.map_cons, List.map_cons, herase, herases], rfl⟩

theorem names_read {ns : List Ident} : Reads (list .closeParen expectName)
    (commaTokens (ns.map fun n => n.expr.tokens) ++ .mark .closeParen :: more)
    fun ns' ts => ns'.map Ident.text = ns.map Ident.text ∧ ts = .mark .closeParen :: more := by
  have hname : ∀ n ∈ ns, ∀ s, s = .comma ∨ s = .closeParen → ∀ more,
      Reads expectName (n.expr.tokens ++ .mark s :: more)
        fun i ts => i.text = n.text ∧ ts = .mark s :: more := by
    intro n _ s _ more
    apply Reads.name
    intro i hi
    exact .pure ⟨hi, rfl⟩
  exact (commas_read rfl (by decide) (fun n _ => n.expr.opening) hname).mono
    fun ns' ts h => ⟨map_eq_of_forall₂ h.1, h.2⟩

theorem map_bare_of_texts {ns ns' : List Ident} (h : ns'.map Ident.text = ns.map Ident.text) :
    (ns'.map fun n => (⟨n.text, .dummy⟩ : Ident)) = ns.map fun n => ⟨n.text, .dummy⟩ := by
  have hbare : ∀ ns : List Ident, (ns.map fun n => (⟨n.text, .dummy⟩ : Ident)) =
      (ns.map Ident.text).map fun t => ⟨t, .dummy⟩ := by
    intro ns
    rw [List.map_map]
    rfl
  rw [hbare, hbare, h]

theorem pattern_back (t : Pattern) : Reads pattern (t.tokens ++ more)
    fun t' ts => t'.erase = t.erase ∧ ts = more := by
  cases t with
  | name n =>
      apply Reads.leave rfl
      apply Reads.expectName
      intro i hi
      exact .pure ⟨by rw [Pattern.erase, Pattern.erase, hi], rfl⟩
  | names ns =>
      have htokens : (Pattern.names ns).tokens ++ more = .mark .openParen ::
          (commaTokens (ns.map fun n => n.expr.tokens) ++ .mark .closeParen :: more) := by
        simp [Pattern.tokens, listTokens, Function.comp_def]
      rw [htokens]
      apply Reads.eat
      apply names_read.bind
      rintro ns' _ ⟨hnames, rfl⟩
      apply Reads.expect
      exact .pure ⟨by rw [Pattern.erase, Pattern.erase, map_bare_of_texts hnames], rfl⟩

/-! ## Statements -/

/-- `x` was read back, and `more` is left. -/
def BackStmt (x : Stmt) (more : List Token) (x' : Stmt) (ts : List Token) : Prop :=
  x'.erase = x.erase ∧ ts = more

/-- `x` was read back as a line that is not the value of its block. -/
def BackLine (x : Stmt) (more : List Token) (r : Stmt ⊕ Expr) (ts : List Token) : Prop :=
  ∃ x', r = .inl x' ∧ BackStmt x more x' ts

def BackBlock (b : Block) (more : List Token) (b' : Block) (ts : List Token) : Prop :=
  b'.erase = b.erase ∧ ts = more

/-- The statement is read again before whatever does not go on with it. -/
def RereadsStmt (x : Stmt) : Prop :=
  ∀ n more, x.Named → x.keepsLines = true → x.levels ≤ n → Ends x more →
    Reads (stmt (expr n 0) (block n)) (x.layout.reduceOption ++ more) (BackLine x more)

/-- The conditional is read again, in a chain of as many conditionals as there are tokens. -/
def RereadsBranch (x : Stmt) : Prop :=
  ∀ n m more, x.Named → x.keepsLines = true → x.levels ≤ n → headsWord .elseWord more = false →
    x.layout.reduceOption.length ≤ m →
    Reads (branchStmt (expr n 0) (block n) m) (x.layout.reduceOption ++ more) (BackStmt x more)

/-- The block is read again. -/
def RereadsBlock (b : Block) : Prop :=
  ∀ n more, b.Named → b.keepsLines = true → b.levels ≤ n →
    Reads (block n) (b.layout.reduceOption ++ more) (BackBlock b more)

theorem BackStmt.line {x' : Stmt} (h : BackStmt x more x' ts) : BackLine x more (.inl x') ts :=
  ⟨x', rfl, h⟩

/-- What starts like an expression is no statement that a word leads. -/
theorem stmt_of_opening {e : Parse Expr} {b : Parse Block} {Q : Stmt ⊕ Expr → List Token → Prop}
    (hopen : Opening ts) (h : Reads (exprStmt e) ts Q) : Reads (stmt e b) ts Q := by
  obtain ⟨t, rest, rfl, ht⟩ := hopen
  apply Reads.peek
  cases t with
  | word k =>
      cases k with
      | trueWord => exact h
      | falseWord => exact h
      | _ => cases ht
  | _ => exact h

theorem rereads_bind (t : Pattern) (e : Expr) (s : Span) : RereadsStmt (.bind t e s) := by
  rintro n more ⟨-, he⟩ - hlevels hends
  have htokens : (Stmt.bind t e s).layout.reduceOption ++ more =
      .word .letWord :: (t.tokens ++ .mark .assign :: (e.tokens ++ more)) := by
    rw [Stmt.layout, List.reduceOption_cons_of_some, Scan.reduceOption_map_some]
    simp
  rw [htokens]
  apply Reads.peek
  have hbind : Reads (bindStmt (expr n 0))
      (.word .letWord :: (t.tokens ++ .mark .assign :: (e.tokens ++ more)))
      (BackStmt (.bind t e s) more) := by
    apply Reads.here
    intro start
    apply Reads.expectWord
    apply (pattern_back t).bind
    rintro t' _ ⟨htarget, rfl⟩
    apply Reads.expect
    apply (expr_back he hlevels (hends.value rfl)).bind
    rintro e' _ ⟨hinit, rfl⟩
    exact .pure ⟨by rw [Stmt.erase, Stmt.erase, htarget, hinit], rfl⟩
  apply hbind.bind
  rintro x' ts hx
  exact .pure hx.line

theorem rereads_assign (p : Place) (e : Expr) (s : Span) : RereadsStmt (.assign p e s) := by
  rintro n more ⟨hp, he⟩ - hlevels hends
  obtain ⟨hplace, hvalue⟩ := Nat.max_le.mp hlevels
  have htokens : (Stmt.assign p e s).layout.reduceOption ++ more =
      p.expr.tokens ++ .mark .assign :: (e.tokens ++ more) := by
    rw [Stmt.layout, Scan.reduceOption_map_some]
    simp
  rw [htokens]
  apply stmt_of_opening (p.expr.opening.append _)
  apply (expr_back (Place.named_expr hp) hplace (endsExpr_mark rfl _)).bind
  rintro left _ ⟨hleft, rfl⟩
  apply Reads.isAt
  apply Reads.eat
  apply (expr_back he hvalue (hends.value rfl)).bind
  rintro e' ts ⟨herase, rfl⟩
  have hassign : ∀ span, Reads (do return Sum.inl (Stmt.assign (← placeOf left) e' span)) ts
      (BackLine (.assign p e s) ts) := by
    intro span
    apply (placeOf_back hp hleft).bind
    rintro p' _ ⟨hp', rfl⟩
    exact .pure (BackStmt.line ⟨by rw [Stmt.erase, Stmt.erase, hp', herase], rfl⟩)
  -- what names a place is no tuple
  cases left with
  | tuple es s' => cases p <;> cases hleft
  | _ => exact hassign _

theorem rereads_assignTuple (ps : List Place) (e : Expr) (s : Span) :
    RereadsStmt (.assignTuple ps e s) := by
  rintro n more ⟨hne, hps, he⟩ hkeeps hlevels hends
  obtain ⟨hplaces, hvalue⟩ := Nat.max_le.mp hlevels
  obtain ⟨p, q, ps, rfl⟩ : ∃ p q rest, ps = p :: q :: rest := by
    match ps, hne, hkeeps with
    | p :: q :: rest, _, _ => exact ⟨p, q, rest, rfl⟩
  -- several places in parentheses are written like a tuple
  have htuple : (Expr.tuple ((p :: q :: ps).map Place.expr) .dummy).tokens =
      listTokens ((p :: q :: ps).map Place.expr) := by
    rw [List.map_cons, Expr.tokens_tuple_cons, listTokens]
    simp [commaTokens]
  have htokens : (Stmt.assignTuple (p :: q :: ps) e s).layout.reduceOption ++ more =
      (Expr.tuple ((p :: q :: ps).map Place.expr) .dummy).tokens ++
        .mark .assign :: (e.tokens ++ more) := by
    rw [Stmt.layout, Scan.reduceOption_map_some, htuple]
    simp
  have hnamed : (Expr.tuple ((p :: q :: ps).map Place.expr) .dummy).Throughout Expr.Named :=
    Expr.throughout_tuple.mpr ⟨Place.named_exprs hps, List.cons_ne_nil _ _⟩
  rw [htokens]
  apply stmt_of_opening ((Expr.opening _).append _)
  apply (expr_back hnamed hplaces (endsExpr_mark rfl _)).bind
  rintro left _ ⟨hleft, rfl⟩
  apply Reads.isAt
  apply Reads.eat
  apply (expr_back he hvalue (hends.value rfl)).bind
  rintro e' ts ⟨herase, rfl⟩
  cases left with
  | tuple es s' =>
      rw [Expr.erase, Expr.erase, Expr.eraseAll_eq, Expr.eraseAll_eq] at hleft
      injection hleft with hes
      apply (placesOf_back hps hes).bind
      rintro ps' _ ⟨hps', rfl⟩
      exact .pure (BackStmt.line ⟨by rw [Stmt.erase, Stmt.erase, hps', herase], rfl⟩)
  | _ => cases hleft

theorem rereads_eval (e : Expr) (s : Span) : RereadsStmt (.eval e s) := by
  intro n more he _ hlevels hends
  obtain ⟨hbrace, hassign⟩ := hends.effect rfl
  rw [Stmt.layout, Scan.reduceOption_map_some]
  apply stmt_of_opening (e.opening.append _)
  apply (expr_back he hlevels (hends.value rfl)).bind
  rintro e' ts ⟨herase, rfl⟩
  apply Reads.isAt
  rw [hbrace]
  apply Reads.leave hassign
  exact .pure (BackStmt.line ⟨by rw [Stmt.erase, Stmt.erase, herase], rfl⟩)

theorem rereads_give (v : Option Expr) (s : Span) : RereadsStmt (.give v s) := by
  intro n more hv _ hlevels hends
  have hgive : Reads (giveStmt (expr n 0)) ((Stmt.give v s).layout.reduceOption ++ more)
      (BackStmt (.give v s) more) := by
    cases v with
    | none =>
        apply Reads.here
        intro start
        apply Reads.expectWord
        apply Reads.isAt
        apply Reads.isAt
        apply Reads.isAtEnd
        have hbare : (heads .closeBrace more || heads .semicolon more || more.isEmpty) = true := by
          rcases hends.bare s rfl with h | h <;> simp [h]
        show Reads (if (heads .closeBrace more || heads .semicolon more || more.isEmpty) = true
          then _ else _) _ _
        rw [if_pos hbare]
        apply Reads.before
        intro stop
        exact .pure ⟨rfl, rfl⟩
    | some e =>
        have htokens : (Stmt.give (some e) s).layout.reduceOption ++ more =
            .word .returnWord :: (e.tokens ++ more) := by
          rw [Stmt.layout, List.reduceOption_cons_of_some, Scan.reduceOption_map_some]
          rfl
        have hopen := e.opening.append more
        rw [htokens]
        apply Reads.here
        intro start
        apply Reads.expectWord
        apply Reads.isAt
        apply Reads.isAt
        apply Reads.isAtEnd
        have hvalue : (heads .closeBrace (e.tokens ++ more) ||
            heads .semicolon (e.tokens ++ more) || (e.tokens ++ more).isEmpty) = false := by
          rw [heads_of_opening hopen rfl, heads_of_opening hopen rfl]
          obtain ⟨t, rest, ht, -⟩ := hopen
          rw [ht]
          rfl
        rw [hvalue]
        apply (expr_back (hv e rfl) hlevels (hends.value rfl)).bind
        rintro e' ts ⟨herase, rfl⟩
        apply Reads.before
        intro stop
        exact .pure ⟨by rw [Stmt.erase, Stmt.erase, Option.map_some, herase]; rfl, rfl⟩
  have hword : ∃ rest, (Stmt.give v s).layout.reduceOption ++ more = .word .returnWord :: rest := by
    cases v <;> exact ⟨_, rfl⟩
  obtain ⟨rest, hrest⟩ := hword
  rw [hrest] at hgive ⊢
  apply Reads.peek
  apply hgive.bind
  rintro x' ts hx
  exact .pure hx.line

theorem rereads_forRange {body : Block} (hbody : RereadsBlock body) (v : Ident) (a b : Expr)
    (s : Span) : RereadsStmt (.forRange v a b body s) := by
  rintro n more ⟨-, ha, hb, hn⟩ hkeeps hlevels -
  obtain ⟨hfirst, hlevels⟩ := Nat.max_le.mp hlevels
  obtain ⟨hlast, hlevels⟩ := Nat.max_le.mp hlevels
  have htokens : (Stmt.forRange v a b body s).layout.reduceOption ++ more =
      .word .forWord :: .name v.text :: .word .inWord :: (a.tokens ++ .mark .dotDot ::
        (b.tokens ++ (body.layout.reduceOption ++ more))) := by
    rw [Stmt.layout, List.reduceOption_cons_of_some, List.reduceOption_append,
      Scan.reduceOption_map_some]
    simp
  have hfor : Reads (forStmt (expr n 0) (block n)) (.word .forWord :: .name v.text ::
      .word .inWord :: (a.tokens ++ .mark .dotDot ::
        (b.tokens ++ (body.layout.reduceOption ++ more))))
      (BackStmt (.forRange v a b body s) more) := by
    apply Reads.here
    intro start
    apply Reads.expectWord
    apply Reads.expectName
    intro v' hv
    apply Reads.expectWord
    apply (expr_back ha hfirst (endsExpr_mark rfl _)).bind
    rintro a' _ ⟨ha', rfl⟩
    apply Reads.expect
    apply (expr_back_block hb hlast body more).bind
    rintro b' _ ⟨hb', rfl⟩
    apply (hbody n more hn hkeeps hlevels).bind
    rintro body' _ ⟨hbody', rfl⟩
    apply Reads.before
    intro stop
    exact .pure ⟨by rw [Stmt.erase, Stmt.erase, hv, ha', hb', hbody'], rfl⟩
  rw [htokens]
  apply Reads.peek
  apply hfor.bind
  rintro x' ts hx
  exact .pure hx.line

theorem rereads_whileLoop {body : Block} (hbody : RereadsBlock body) (c : Expr) (s : Span) :
    RereadsStmt (.whileLoop c body s) := by
  rintro n more ⟨hc, hn⟩ hkeeps hlevels -
  obtain ⟨hcondition, hlevels⟩ := Nat.max_le.mp hlevels
  have htokens : (Stmt.whileLoop c body s).layout.reduceOption ++ more =
      .word .whileWord :: (c.tokens ++ (body.layout.reduceOption ++ more)) := by
    rw [Stmt.layout, List.reduceOption_cons_of_some, List.reduceOption_append,
      Scan.reduceOption_map_some]
    simp
  have hwhile : Reads (whileStmt (expr n 0) (block n))
      (.word .whileWord :: (c.tokens ++ (body.layout.reduceOption ++ more)))
      (BackStmt (.whileLoop c body s) more) := by
    apply Reads.here
    intro start
    apply Reads.expectWord
    apply (expr_back_block hc hcondition body more).bind
    rintro c' _ ⟨hc', rfl⟩
    apply (hbody n more hn hkeeps hlevels).bind
    rintro body' _ ⟨hbody', rfl⟩
    apply Reads.before
    intro stop
    exact .pure ⟨by rw [Stmt.erase, Stmt.erase, hc', hbody'], rfl⟩
  rw [htokens]
  apply Reads.peek
  apply hwhile.bind
  rintro x' ts hx
  exact .pure hx.line

/-! ### Conditionals -/

/-- What is after `else` is read again: a block, or a conditional that is printed without braces. -/
def RereadsElse (b : Block) : Prop :=
  RereadsBlock b ∧ ∀ c yes no s s', b = .mk [.branch c yes no s] none s' →
    RereadsBranch (.branch c yes no s)

section

variable {c : Expr} {yes : Block} {no : Option Block} {s : Span}

theorem rereads_branch (hyes : RereadsBlock yes) (hno : ∀ b ∈ no, RereadsElse b) :
    RereadsBranch (.branch c yes no s) := by
  intro n m more hx hkeeps hlevels helse hm
  obtain ⟨hc, hnamed, hnamed'⟩ := Stmt.named_branch.mp hx
  obtain ⟨hkeepsYes, hkeepsNo⟩ := Stmt.keepsLines_branch.mp hkeeps
  rw [Stmt.levels_branch, Nat.max_le, Nat.max_le] at hlevels
  obtain ⟨hcondition, hlevelsYes, hlevelsNo⟩ := hlevels
  rw [← List.append_nil (Stmt.layout _).reduceOption, Stmt.tokens_branch, List.append_nil] at hm
  rw [Stmt.tokens_branch, branchStmt.eq_def]
  apply Reads.here
  intro start
  apply Reads.expectWord
  apply (expr_back_block hc hcondition yes _).bind
  rintro c' _ ⟨hc', rfl⟩
  apply (hyes n _ hnamed hkeepsYes hlevelsYes).bind
  rintro yes' _ ⟨hyes', rfl⟩
  cases no with
  | none =>
      apply Reads.leaveWord helse
      apply Reads.before
      intro stop
      exact .pure ⟨by rw [Stmt.erase, Stmt.erase, hc', hyes'], rfl⟩
  | some b =>
      have htokens : (elseLayouts (some b)).reduceOption ++ more =
          .word .elseWord :: (b.elseLayout.reduceOption ++ more) := rfl
      rw [htokens]
      apply Reads.eatWord
      apply Reads.isAtWord
      by_cases hchain : ∃ c yes no span s, b = .mk [.branch c yes no span] none s
      · obtain ⟨c₁, yes₁, no₁, s₁, s₂, rfl⟩ := hchain
        -- the conditional after `else` has fewer tokens
        have hword : headsWord .ifWord ((Block.mk [.branch c₁ yes₁ no₁ s₁] none
            s₂).elseLayout.reduceOption ++ more) = true := by
          rw [Block.elseLayout, Stmt.tokens_branch]
          rfl
        rw [hword]
        cases m with
        | zero => cases hm
        | succ m =>
            have hlen : (Stmt.branch c₁ yes₁ no₁ s₁).layout.reduceOption.length ≤ m := by
              rw [elseLayouts, List.reduceOption_cons_of_some, Block.elseLayout] at hm
              simp only [List.length_cons, List.length_append] at hm
              omega
            have hkeeps := hkeepsNo _ rfl
            rw [Block.keepsLines, Block.keepsLinesAll, Bool.and_eq_true, Bool.and_eq_true] at hkeeps
            have hinner := (hno _ rfl).2 _ _ _ _ _ rfl n m more (hnamed' _ rfl).1.1 hkeeps.1.1
              hlevelsNo helse hlen
            apply hinner.bind
            rintro x' ts ⟨hx', rfl⟩
            apply Reads.before
            intro stop
            refine .pure ⟨?_, rfl⟩
            rw [Stmt.erase, Stmt.erase, hc', hyes', Block.erase, Block.erase, Block.eraseAll,
              Block.eraseAll, hx']
            rfl
      · obtain ⟨-, hlayout⟩ := b.else_cases.resolve_left hchain
        have hword : headsWord .ifWord (b.elseLayout.reduceOption ++ more) = false := by
          rw [hlayout]
          obtain ⟨rest, hrest⟩ := Block.tokens_open b more
          rw [hrest]
          rfl
        have hlevelsB : b.levels ≤ n := Block.elseLevels_eq hchain ▸ hlevelsNo
        rw [hword, hlayout]
        apply ((hno b rfl).1 n more (hnamed' b rfl) (hkeepsNo b rfl) hlevelsB).bind
        rintro b' ts ⟨hb', rfl⟩
        apply Reads.before
        intro stop
        exact .pure ⟨by rw [Stmt.erase, Stmt.erase, hc', hyes', hb'], rfl⟩

end

theorem RereadsBranch.stmt {c : Expr} {yes : Block} {no : Option Block} {s : Span}
    (h : RereadsBranch (.branch c yes no s)) : RereadsStmt (.branch c yes no s) := by
  intro n more hx hkeeps hlevels hends
  have hword : ((Stmt.branch c yes no s).layout.reduceOption ++ more).head? =
      some (.word .ifWord) := by
    rw [Stmt.tokens_branch]
    rfl
  apply Reads.peek
  rw [hword]
  apply Reads.remaining
  have hlen : (Stmt.branch c yes no s).layout.reduceOption.length ≤
      ((Stmt.branch c yes no s).layout.reduceOption ++ more).length := by simp
  apply (h n _ more hx hkeeps hlevels hends.otherwise hlen).bind
  rintro x' ts hx'
  exact .pure hx'.line

/-! ### Blocks -/

/-- What is ahead starts a statement. -/
structure Starting (ts : List Token) : Prop where
  brace : heads .closeBrace ts = false
  semicolon : heads .semicolon ts = false
  assign : heads .assign ts = false
  otherwise : headsWord .elseWord ts = false
  nonempty : ts.isEmpty = false

theorem starting_of_startsLine {lines : List (Option Token)} (h : StartsLine lines)
    (more : List Token) : Starting (lines.reduceOption ++ more) := by
  obtain ⟨t, rest, rfl, ht⟩ := h
  have hmark : ∀ s : Symbol, (Token.mark s).startsStmt = false →
      heads s (t :: (rest.reduceOption ++ more)) = false := by
    intro s hs
    apply not_heads
    rintro _ ⟨⟩ rfl
    rw [hs] at ht
    cases ht
  have hword : headsWord .elseWord (t :: (rest.reduceOption ++ more)) = false := by
    cases t with
    | word k => cases k <;> first | rfl | cases ht
    | _ => rfl
  exact ⟨hmark .closeBrace rfl, hmark .semicolon rfl, hmark .assign rfl, hword, rfl⟩

/-- What is behind the line of a statement, up to the end of its block. -/
def after (x : Stmt) (ss : List Stmt) (tail : Option Expr) (more : List Token) : List Token :=
  (lineEnd (x.needsSemicolon ss tail)).reduceOption ++
    ((Block.linesLayout tail ss).reduceOption ++ .mark .closeBrace :: more)

/-- Where the line ends, so does the statement. -/
theorem ends_of_endsLine (h : x.endsLine ss tail = true) : Ends x (after x ss tail more) := by
  obtain ⟨hbare, heffect, hvalue⟩ := Stmt.endsLine_iff.mp h
  unfold after
  cases hsemicolon : x.needsSemicolon ss tail with
  | true => exact ⟨fun _ => endsExpr_mark rfl _, fun _ => ⟨rfl, rfl⟩, fun _ _ => .inr rfl, rfl⟩
  | false =>
      show Ends x ((Block.linesLayout tail ss).reduceOption ++ .mark .closeBrace :: more)
      by_cases hlines : Block.linesLayout tail ss = []
      · rw [hlines]
        exact ⟨fun _ => endsExpr_mark rfl _, fun heval => absurd hlines (heffect heval),
          fun _ _ => .inl rfl, rfl⟩
      · have hstart := Block.startsLine hlines
        have hnext := starting_of_startsLine hstart (.mark .closeBrace :: more)
        refine ⟨fun hx => ?_, fun _ => ⟨hnext.brace, hnext.assign⟩,
          fun s hs => absurd (hbare s hs) hlines, hnext.otherwise⟩
        have hgoes := hvalue hx hsemicolon
        obtain ⟨t, rest, hrest, -⟩ := hstart
        rw [hrest] at hgoes ⊢
        rintro _ ⟨⟩
        simpa [goesOn] using hgoes

/-! The loop over the lines of a block takes a token with every round. -/

section

variable {e : Parse Expr} {b : Parse Block} {Q : List Stmt × Option Expr → List Token → Prop}

theorem stmtLoop_end : Reads (stmtLoop e b m) (.mark .closeBrace :: more)
    fun r ts => r = ([], none) ∧ ts = .mark .closeBrace :: more := by
  cases m with
  | zero => exact .pure ⟨rfl, rfl⟩
  | succ m =>
      apply Reads.isAt
      apply Reads.isAtEnd
      exact .pure ⟨rfl, rfl⟩

theorem stmtLoop_semicolon (h : Reads (stmtLoop e b m) ts Q) :
    Reads (stmtLoop e b (m + 1)) (.mark .semicolon :: ts) Q := by
  apply Reads.isAt
  apply Reads.isAtEnd
  exact .eat h

theorem stmtLoop_step (hstart : Starting ts) {P : Stmt ⊕ Expr → List Token → Prop}
    (hstmt : Reads (stmt e b) ts P)
    (hnext : ∀ r ts', P r ts' → Reads (match r with
      | .inl x => do
        let (ss, tail) ← stmtLoop e b m
        return (x :: ss, tail)
      | .inr tail => return ([], some tail)) ts' Q) :
    Reads (stmtLoop e b (m + 1)) ts Q := by
  apply Reads.isAt
  apply Reads.isAtEnd
  rw [hstart.brace, hstart.nonempty]
  apply Reads.leave hstart.semicolon
  exact hstmt.bind hnext

end

/-- The lines of a block were read back. -/
def BackLines (ss : List Stmt) (tail : Option Expr) (more : List Token)
    (r : List Stmt × Option Expr) (ts : List Token) : Prop :=
  Block.eraseAll r.1 = Block.eraseAll ss ∧ r.2.map Expr.erase = tail.map Expr.erase ∧ ts = more

theorem exists_round {lines : List (Option Token)} (h : StartsLine lines)
    (hm : lines.reduceOption.length ≤ m) : ∃ m', m = m' + 1 := by
  obtain ⟨t, rest, rfl, -⟩ := h
  exact Nat.exists_eq_add_of_le' (Nat.le_trans (Nat.le_add_left 1 _) hm)

theorem stmtLoop_back (hss : ∀ x ∈ ss, RereadsStmt x) (hn : ∀ x ∈ ss, x.Named)
    (ht : ∀ e ∈ tail, e.Throughout Expr.Named) (hkeeps : Block.keepsLinesAll tail ss = true)
    (hlevels : ∀ x ∈ ss, x.levels ≤ n) (hlevelsTail : ∀ e ∈ tail, e.levels ≤ n)
    (hm : (Block.linesLayout tail ss).reduceOption.length ≤ m) :
    Reads (stmtLoop (expr n 0) (block n) m)
      ((Block.linesLayout tail ss).reduceOption ++ .mark .closeBrace :: more)
      (BackLines ss tail (.mark .closeBrace :: more)) := by
  induction ss generalizing m with
  | nil =>
      cases tail with
      | none => exact stmtLoop_end.mono fun r ts h => ⟨by rw [h.1], by rw [h.1], h.2⟩
      | some e =>
          have hline : StartsLine (Block.linesLayout (some e) []) := e.opening.startsLine _
          have hstart := starting_of_startsLine hline (.mark .closeBrace :: more)
          obtain ⟨m, rfl⟩ := exists_round hline hm
          have htail : Reads (stmt (expr n 0) (block n)) (e.tokens ++ .mark .closeBrace :: more)
              fun r ts => ∃ e', r = .inr e' ∧ Back e (.mark .closeBrace :: more) e' ts := by
            apply stmt_of_opening (e.opening.append _)
            apply (expr_back (ht e rfl) (hlevelsTail e rfl) (endsExpr_mark rfl _)).bind
            rintro e' _ ⟨herase, rfl⟩
            apply Reads.isAt
            exact .pure ⟨e', rfl, herase, rfl⟩
          rw [Block.tokens_tail] at hstart ⊢
          apply stmtLoop_step hstart htail
          rintro _ _ ⟨e', rfl, herase, rfl⟩
          exact .pure ⟨rfl, by rw [Option.map_some, Option.map_some, herase], rfl⟩
  | cons x ss ih =>
      obtain ⟨hx, hss⟩ := List.forall_mem_cons.mp hss
      obtain ⟨hnx, hn⟩ := List.forall_mem_cons.mp hn
      obtain ⟨hlx, hlevels⟩ := List.forall_mem_cons.mp hlevels
      rw [Block.keepsLinesAll, Bool.and_eq_true, Bool.and_eq_true] at hkeeps
      obtain ⟨⟨hkx, hends⟩, hkeeps⟩ := hkeeps
      have hline : StartsLine (Block.linesLayout tail (x :: ss)) := x.startsLine _
      have hstart := starting_of_startsLine hline (.mark .closeBrace :: more)
      obtain ⟨m, rfl⟩ := exists_round hline hm
      -- the line is read in one round of the loop and has at least one token
      have hlen : (lineEnd (x.needsSemicolon ss tail)).reduceOption.length +
          (Block.linesLayout tail ss).reduceOption.length ≤ m := by
        obtain ⟨t, rest, hrest, -⟩ := x.startsLine []
        rw [List.append_nil] at hrest
        rw [Block.tokens_cons, hrest] at hm
        simp only [List.reduceOption_cons_of_some, List.length_append, List.length_cons] at hm
        omega
      -- a `;` that is printed behind the line takes a round of its own
      have hlines : Reads (stmtLoop (expr n 0) (block n) m) (after x ss tail more)
          (BackLines ss tail (.mark .closeBrace :: more)) := by
        unfold after
        cases hsemicolon : x.needsSemicolon ss tail with
        | false =>
            rw [hsemicolon] at hlen
            exact ih hss hn hkeeps hlevels (Nat.le_trans (Nat.le_add_left _ _) hlen)
        | true =>
            rw [hsemicolon] at hlen
            obtain ⟨m, rfl⟩ := Nat.exists_eq_add_of_le' (Nat.le_trans (Nat.le_add_right 1 _) hlen)
            have hlen : 1 + (Block.linesLayout tail ss).reduceOption.length ≤ m + 1 := hlen
            exact stmtLoop_semicolon (ih hss hn hkeeps hlevels (by omega))
      rw [Block.tokens_cons, List.append_assoc, List.append_assoc] at hstart ⊢
      apply stmtLoop_step hstart (hx n _ hnx hkx hlx (ends_of_endsLine hends))
      rintro _ _ ⟨x', rfl, hx', rfl⟩
      apply hlines.bind
      rintro ⟨ss', tail'⟩ _ ⟨hss', htail', rfl⟩
      exact .pure ⟨by rw [Block.eraseAll, Block.eraseAll, hx', hss'], htail', rfl⟩

theorem rereads_mk {s : Span} (hss : ∀ x ∈ ss, RereadsStmt x) :
    RereadsBlock (.mk ss tail s) := by
  rintro n more ⟨hn, ht⟩ hkeeps hlevels
  obtain ⟨n, rfl⟩ := Nat.exists_eq_add_of_le' (Nat.le_trans (Nat.le_add_left 1 _) hlevels)
  obtain ⟨hlevels, hlevelsTail⟩ := Nat.max_le.mp (Nat.le_of_succ_le_succ hlevels)
  rw [Block.layout, framedLayout_tokens, List.cons_append, List.append_assoc]
  apply Reads.deeper
  apply Reads.here
  intro start
  apply Reads.expect
  apply Reads.remaining
  have hlen : (Block.linesLayout tail ss).reduceOption.length ≤
      ((Block.linesLayout tail ss).reduceOption ++ ([Token.mark .closeBrace] ++ more)).length := by
    simp
  apply (stmtLoop_back hss (Block.namedAll_iff.mp hn) ht hkeeps (Block.levelsAll_le.mp hlevels)
    (elim_levels_le.mp hlevelsTail) hlen).bind
  rintro ⟨ss', tail'⟩ _ ⟨hss', htail', rfl⟩
  apply Reads.here
  intro stop
  apply Reads.expect
  exact .pure ⟨by rw [Block.erase, Block.erase, hss', htail'], rfl⟩

/-- A printed block that keeps its lines is read again as the block, up to spans, wherever as many
levels are left as it takes. -/
theorem rereads_block (b : Block) : RereadsBlock b := by
  refine (Block.induction
    (fun x => RereadsStmt x ∧ ∀ c yes no s, x = .branch c yes no s → RereadsBranch x)
    RereadsElse ?bind ?assign ?assignTuple ?branch ?branchElse ?forRange ?whileLoop ?eval ?give ?mk
    b).1
  case bind => exact fun t e s => ⟨rereads_bind t e s, by rintro _ _ _ _ ⟨⟩⟩
  case assign => exact fun p e s => ⟨rereads_assign p e s, by rintro _ _ _ _ ⟨⟩⟩
  case assignTuple => exact fun ps e s => ⟨rereads_assignTuple ps e s, by rintro _ _ _ _ ⟨⟩⟩
  case eval => exact fun e s => ⟨rereads_eval e s, by rintro _ _ _ _ ⟨⟩⟩
  case give => exact fun v s => ⟨rereads_give v s, by rintro _ _ _ _ ⟨⟩⟩
  case branch =>
    intro c yes s hyes
    have hbranch : RereadsBranch (.branch c yes none s) := rereads_branch hyes.1 (by rintro _ ⟨⟩)
    exact ⟨hbranch.stmt, fun _ _ _ _ _ => hbranch⟩
  case branchElse =>
    intro c yes no s hyes hno
    have hbranch : RereadsBranch (.branch c yes (some no) s) := by
      apply rereads_branch hyes.1
      rintro _ ⟨⟩
      exact hno
    exact ⟨hbranch.stmt, fun _ _ _ _ _ => hbranch⟩
  case forRange =>
    exact fun v a b body s hbody => ⟨rereads_forRange hbody.1 v a b s, by rintro _ _ _ _ ⟨⟩⟩
  case whileLoop =>
    exact fun c body s hbody => ⟨rereads_whileLoop hbody.1 c s, by rintro _ _ _ _ ⟨⟩⟩
  case mk =>
    intro ss tail s hss
    refine ⟨rereads_mk fun x hx => (hss x hx).1, ?_⟩
    rintro c yes no s s' ⟨⟩
    exact (hss _ List.mem_cons_self).2 c yes no s rfl

end Parse

end Graft
