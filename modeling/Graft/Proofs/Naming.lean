import Graft.Proofs.Printing
import Graft.Proofs.Unsigned
import Graft.Tree.Parser

/-!
# Names and numbers in trees that were read

Names come from tokens, and a token is a name only if it is written as one; a number is written
without a sign. So in a tree that was read every name is one and no number is negative, whatever was
reported; a path that stands alone is qualified, a tuple has an element, and no variable that is
assigned is the place `_`.
-/

namespace Graft

open Scan

/-! ## Trees -/

/-- Its names are names, and `_` is no variable. -/
def Place.Named : Place → Prop
  | .var n _ => IsName n ∧ n ≠ "_"
  | .discard _ => True
  | .index base i _ => IsName base.text ∧ i.Throughout Expr.Named

mutual

/-- All names in the statement are names, and its expressions are ones that a text can have. -/
def Stmt.Named : Stmt → Prop
  | .bind t e _ => (∀ n ∈ t.idents, IsName n.text) ∧ e.Throughout Expr.Named
  | .assign p e _ => p.Named ∧ e.Throughout Expr.Named
  | .assignTuple ps e _ => ps ≠ [] ∧ (∀ p ∈ ps, p.Named) ∧ e.Throughout Expr.Named
  | .branch c yes none _ => c.Throughout Expr.Named ∧ Block.Named yes
  | .branch c yes (some no) _ => c.Throughout Expr.Named ∧ Block.Named yes ∧ Block.Named no
  | .forRange v a b body _ => IsName v.text ∧ a.Throughout Expr.Named ∧
      b.Throughout Expr.Named ∧ Block.Named body
  | .whileLoop c body _ => c.Throughout Expr.Named ∧ Block.Named body
  | .eval e _ => e.Throughout Expr.Named
  | .give v _ => ∀ e ∈ v, e.Throughout Expr.Named
  termination_by structural s => s

def Block.Named : Block → Prop
  | .mk ss tail _ => Block.NamedAll ss ∧ ∀ e ∈ tail, e.Throughout Expr.Named
  termination_by structural b => b

def Block.NamedAll : List Stmt → Prop
  | [] => True
  | s :: ss => Stmt.Named s ∧ Block.NamedAll ss
  termination_by structural ss => ss

end

theorem Block.namedAll_iff {ss : List Stmt} : Block.NamedAll ss ↔ ∀ x ∈ ss, x.Named := by
  induction ss with
  | nil => simp [Block.NamedAll]
  | cons x ss ih => rw [Block.NamedAll, ih, List.forall_mem_cons]

theorem Place.Named.throughout {p : Place} (h : p.Named) : ∀ x ∈ p.subterms, x.Named := by
  cases p with
  | index base i s => exact h.2
  | _ => exact fun x hx => absurd hx List.not_mem_nil

/-- Every expression in such a block is one that a text can have. -/
theorem Block.Named.throughout {b : Block} (h : b.Named) : b.Throughout Expr.Named := by
  revert h
  refine Block.induction (fun x => x.Named → x.Throughout Expr.Named)
    (fun b => b.Named → b.Throughout Expr.Named)
    ?bind ?assign ?assignTuple ?branch ?branchElse ?forRange ?whileLoop ?eval ?give ?mk b
  case bind => exact fun t e s h => h.2
  case assign => exact fun p e s h => Stmt.throughout_assign.mpr ⟨h.1.throughout, h.2⟩
  case assignTuple =>
    intro ps e s ⟨_, hps, he⟩
    exact Stmt.throughout_assignTuple.mpr ⟨fun p hp => (hps p hp).throughout, he⟩
  case branch =>
    intro c yes s ih ⟨hc, hyes⟩
    exact Stmt.throughout_branch.mpr ⟨hc, ih hyes⟩
  case branchElse =>
    intro c yes no s ihyes ihno ⟨hc, hyes, hno⟩
    exact Stmt.throughout_branchElse.mpr ⟨hc, ihyes hyes, ihno hno⟩
  case forRange =>
    intro v a b body s ih ⟨_, ha, hb, hbody⟩
    exact Stmt.throughout_forRange.mpr ⟨ha, hb, ih hbody⟩
  case whileLoop =>
    intro c body s ih ⟨hc, hbody⟩
    exact Stmt.throughout_whileLoop.mpr ⟨hc, ih hbody⟩
  case eval => exact fun e s h => h
  case give =>
    intro v s h
    cases v with
    | none => exact fun x hx => absurd hx List.not_mem_nil
    | some e => exact h e rfl
  case mk =>
    intro ss tail s ih ⟨hss, htail⟩
    exact Block.throughout_mk.mpr ⟨fun x hx => ih x hx (Block.namedAll_iff.mp hss x hx), htail⟩

/-- All names in the definition are names. -/
structure Definition.Named (d : Definition) : Prop where
  markers : ∀ m ∈ d.markers, IsName m.text
  name : IsName d.name.text
  params : ∀ p ∈ d.params, IsName p.text
  body : d.body.Named

/-- The item has names where it should, and its expressions are ones that a text can have. -/
def Item.Named : Item → Prop
  | .function d _ => d.Named
  | .constant n e _ => IsName n.text ∧ e.Throughout Expr.Named
  | .import_ p _ _ => p.Named

/-- A name is written as one, and a number has no sign. -/
def Token.Named : Token → Prop
  | .name n => IsName n
  | .number x => Decimal.negative x = false
  | _ => True

namespace Parse

/-! ## Steps -/

/-- What holds of anything that the step gives, if the tokens ahead are those of a text. -/
def Yields {α : Type} (x : Parse α) (P : α → Prop) : Prop :=
  ∀ c : Cursor, (∀ l ∈ c.rest, Token.Named l.token) →
    (∀ l ∈ (x c).2.rest, Token.Named l.token) ∧ P (x c).1

namespace Yields

variable {α β : Type} {x : Parse α} {P P' : α → Prop} {Q : β → Prop}

theorem pure {a : α} (h : P a) : Yields (pure a) P := fun _ hc => ⟨hc, h⟩

theorem bind {f : α → Parse β} (hx : Yields x P) (hf : ∀ a, P a → Yields (f a) Q) :
    Yields (x >>= f) Q := by
  intro c hc
  obtain ⟨hrest, hvalue⟩ := hx c hc
  exact hf _ hvalue _ hrest

theorem mono (hx : Yields x P) (h : ∀ a, P a → P' a) : Yields x P' := by
  intro c hc
  obtain ⟨hrest, hvalue⟩ := hx c hc
  exact ⟨hrest, h _ hvalue⟩

theorem ite {p : Prop} [Decidable p] {y : Parse α} (hx : p → Yields x P) (hy : ¬ p → Yields y P) :
    Yields (if p then x else y) P := by
  split
  · next h => exact hx h
  · next h => exact hy h

/-- A step that only looks. -/
theorem look {h : Cursor → α} {f : α → Parse β} (hf : ∀ a, Yields (f a) Q) :
    Yields ((do return h (← get)) >>= f) Q := fun c hc => hf (h c) c hc

theorem peek {f : Option Token → Parse β}
    (hf : ∀ t?, (∀ t ∈ t?, Token.Named t) → Yields (f t?) Q) : Yields (peek >>= f) Q := by
  intro c hc
  refine hf c.peek ?_ c hc
  intro t ht
  obtain ⟨l, hl, rfl⟩ := Option.map_eq_some_iff.mp ht
  exact hc l (List.mem_of_mem_head? hl)

/-- A step that takes tokens away, if it changes anything ahead. -/
theorem modify {g : Cursor → Cursor} (hg : ∀ c, (g c).rest ⊆ c.rest) :
    Yields (modify g) fun _ => True := fun c hc => ⟨fun l hl => hc l (hg c hl), trivial⟩

theorem advance : Yields advance fun _ => True := by
  apply modify
  intro c
  rw [Cursor.advance_rest]
  exact fun _ hl => List.mem_of_mem_tail hl

theorem report (p : Problem) : Yields (report p) fun _ => True := modify fun _ => List.Subset.refl _

theorem reportAt (p : Problem) (span : Span) : Yields (reportAt p span) fun _ => True :=
  modify fun _ => List.Subset.refl _

theorem eat (s : Symbol) : Yields (eat s) fun _ => True :=
  look fun _ => ite (fun _ => advance.bind fun _ _ => pure trivial) fun _ => pure trivial

theorem eatWord (k : Keyword) : Yields (eatWord k) fun _ => True :=
  look fun _ => ite (fun _ => advance.bind fun _ _ => pure trivial) fun _ => pure trivial

theorem expect (s : Symbol) : Yields (expect s) fun _ => True :=
  (eat s).bind fun _ _ => ite (fun _ => pure trivial) fun _ => look fun _ => report _

theorem expectWord (k : Keyword) : Yields (expectWord k) fun _ => True :=
  (eatWord k).bind fun _ _ => ite (fun _ => pure trivial) fun _ => look fun _ => report _

theorem name? : Yields name? fun n => ∀ i ∈ n, IsName i.text := by
  apply peek
  intro t? ht
  split
  · next text =>
      apply look
      intro span
      apply advance.bind
      intro _ _
      apply pure
      rintro i ⟨⟩
      exact ht _ rfl
  · exact pure (by simp)

/-- The name that stands for a missing one is a name, too. -/
theorem expectName : Yields expectName fun i => IsName i.text := by
  apply name?.bind
  intro n hn
  cases n with
  | some i => exact pure (hn i rfl)
  | none =>
      have herror : IsName "_error_" := ⟨.of_bytes rfl rfl rfl, rfl⟩
      exact look fun _ => (report _).bind fun _ _ => look fun _ => pure herror

theorem listLoop (close : Symbol) {element : Parse α} (h : Yields element P) (fuel : Nat) :
    Yields (listLoop close element fuel) fun xs => ∀ a ∈ xs, P a := by
  induction fuel with
  | zero => exact pure (by simp)
  | succ fuel ih =>
      apply look
      intro _
      apply look
      intro _
      refine ite (fun _ => pure (by simp)) fun _ => h.bind fun a ha => (eat _).bind fun _ _ =>
        ite (fun _ => ih.bind fun xs hxs => pure ?_) fun _ => pure (by simpa using ha)
      simpa using ⟨ha, hxs⟩

theorem list (close : Symbol) {element : Parse α} (h : Yields element P) :
    Yields (list close element) fun xs => ∀ a ∈ xs, P a := look fun n => listLoop close h n

theorem refuse {stub : Span → α} (h : ∀ s, P (stub s)) : Yields (refuse stub) P :=
  (report _).bind fun _ _ => look fun s =>
    (modify fun _ => List.nil_subset _).bind fun _ _ => pure (h s)

theorem deeper {levels : Nat} {stub : Span → α} {body : Parse α} (h : ∀ s, P (stub s))
    (hbody : Yields body P) : Yields (deeper levels stub body) P := by
  intro c hc
  show (∀ l ∈ ((if levels ≤ c.refused then Parse.refuse stub else body : Parse α) c).2.rest,
      Token.Named l.token) ∧
    P ((if levels ≤ c.refused then Parse.refuse stub else body : Parse α) c).1
  split
  · exact refuse h c hc
  · exact hbody c hc

end Yields

/-! ## Expressions -/

theorem pathLoop_yields (fuel : Nat) : Yields (pathLoop fuel) fun ns => ∀ n ∈ ns, IsName n := by
  induction fuel with
  | zero => exact .pure (by simp)
  | succ fuel ih =>
      refine (Yields.eat _).bind fun _ _ => .ite (fun _ => Yields.name?.bind fun n hn => ?_) fun _ =>
        .pure (by simp)
      cases n with
      | none => exact (Yields.report _).bind fun _ _ => .pure (by simp)
      | some i =>
          apply ih.bind
          intro ns hns
          apply Yields.pure
          simpa using ⟨hn i rfl, hns⟩

theorem path_yields : Yields path Path.Named := by
  apply Yields.expectName.bind
  intro first hfirst
  apply Yields.look
  intro fuel
  apply (pathLoop_yields fuel).bind
  intro names hnames
  apply Yields.pure
  simpa [Path.Named, Path.parts] using ⟨hfirst, hnames⟩

section

variable {sub : Nat → Parse Expr} (hsub : ∀ power, Yields (sub power) (Expr.Throughout Expr.Named))

include hsub

theorem parenthesized_yields (start : Span) :
    Yields (parenthesized sub start) (Expr.Throughout Expr.Named) := by
  refine (hsub 0).bind fun first hfirst => (Yields.eat _).bind fun _ _ => .ite (fun _ => ?_) fun _ =>
    (Yields.expect _).bind fun _ _ => .pure hfirst
  refine (Yields.list _ (hsub 0)).bind fun more hmore => (Yields.expect _).bind fun _ _ =>
    .look fun _ => .pure (Expr.throughout_tuple.mpr ⟨?_, List.cons_ne_nil _ _⟩)
  simpa using ⟨hfirst, hmore⟩

theorem named_yields (start : Span) : Yields (named sub start) (Expr.Throughout Expr.Named) := by
  apply path_yields.bind
  intro p hp
  apply Yields.look
  intro stop
  refine (Yields.eat _).bind fun _ _ => .ite (fun _ => ?_) fun _ => .ite (fun hqualified => ?_)
    fun hsingle => ?_
  · exact (Yields.list _ (hsub 0)).bind fun args hargs => (Yields.expect _).bind fun _ _ =>
      .look fun _ => .pure (Expr.throughout_call.mpr ⟨hargs, hp⟩)
  · exact .pure (Expr.throughout_path.mpr ⟨hp, hqualified⟩)
  · exact .pure (Expr.throughout_var.mpr (hp p.first List.mem_cons_self))

theorem primary_yields : Yields (primary sub) (Expr.Throughout Expr.Named) := by
  apply Yields.look
  intro start
  apply Yields.peek
  intro t? ht
  split
  · next x => exact Yields.advance.bind fun _ _ => .pure (Expr.throughout_num.mpr (ht _ rfl))
  · exact Yields.advance.bind fun _ _ => .pure (Expr.throughout_bool.mpr trivial)
  · exact Yields.advance.bind fun _ _ => .pure (Expr.throughout_bool.mpr trivial)
  · exact Yields.advance.bind fun _ _ => parenthesized_yields hsub start
  · exact Yields.advance.bind fun _ _ => (Yields.list _ (hsub 0)).bind fun es hes =>
      (Yields.expect _).bind fun _ _ => .look fun _ => .pure
        (Expr.throughout_array.mpr ⟨hes, trivial⟩)
  · exact named_yields hsub start
  · exact .look fun _ => (Yields.report _).bind fun _ _ => Yields.advance.bind fun _ _ =>
      .pure (Expr.throughout_num.mpr Decimal.negative_zero)

theorem postfixLoop_yields (fuel : Nat) {e : Expr} (he : e.Throughout Expr.Named) :
    Yields (postfixLoop sub fuel e) (Expr.Throughout Expr.Named) := by
  induction fuel generalizing e with
  | zero => exact .pure he
  | succ fuel ih =>
      refine (Yields.eat _).bind fun _ _ => .ite (fun _ => ?_) fun _ => .pure he
      refine (hsub 0).bind fun first hfirst => (Yields.eat _).bind fun _ _ => .ite (fun _ => ?_)
        fun _ => ?_
      · exact (hsub 0).bind fun last hlast => (Yields.expect _).bind fun _ _ => .look fun _ =>
          ih (Expr.throughout_slice.mpr ⟨he, hfirst, hlast, trivial⟩)
      · exact (Yields.expect _).bind fun _ _ => .look fun _ =>
          ih (Expr.throughout_index.mpr ⟨he, hfirst, trivial⟩)

theorem operand_yields : Yields (operand sub) (Expr.Throughout Expr.Named) := by
  apply Yields.look
  intro start
  apply Yields.peek
  intro t? _
  split
  · exact Yields.advance.bind fun _ _ => (hsub _).bind fun e he =>
      .pure (Expr.throughout_unary.mpr ⟨he, trivial⟩)
  · exact (primary_yields hsub).bind fun e he => .look fun fuel => postfixLoop_yields hsub fuel he

theorem operatorLoop_yields (power fuel : Nat) {e : Expr} (he : e.Throughout Expr.Named) :
    Yields (operatorLoop sub power fuel e) (Expr.Throughout Expr.Named) := by
  induction fuel generalizing e with
  | zero => exact .pure he
  | succ fuel ih =>
      apply Yields.peek
      intro t? _
      split
      · exact .pure he
      · exact .ite (fun _ => .pure he) fun _ => Yields.advance.bind fun _ _ => (hsub _).bind
          fun r hr => ih (Expr.throughout_binary.mpr ⟨he, hr, trivial⟩)

end

theorem expr_yields (levels power : Nat) :
    Yields (expr levels power) (Expr.Throughout Expr.Named) := by
  have stub : ∀ s : Span, (Expr.num 0 s).Throughout Expr.Named :=
    fun s => Expr.throughout_num.mpr Decimal.negative_zero
  induction levels generalizing power with
  | zero => exact .refuse stub
  | succ levels ih =>
      exact .deeper stub ((operand_yields ih).bind fun e he => .look fun fuel =>
        operatorLoop_yields ih power fuel he)

/-! ## Statements -/

theorem placeOf_yields {e : Expr} (he : e.Throughout Expr.Named) :
    Yields (placeOf e) Place.Named := by
  unfold placeOf
  split
  · next n s =>
      split
      · exact .pure trivial
      · next hne => exact .pure ⟨Expr.throughout_var.mp he, by simpa using hne⟩
  · next n s i span =>
      obtain ⟨hbase, hi, -⟩ := Expr.throughout_index.mp he
      exact .pure ⟨Expr.throughout_var.mp hbase, hi⟩
  · exact (Yields.reportAt _ _).bind fun _ _ => .pure trivial

theorem placesOf_yields {es : List Expr} (hes : ∀ e ∈ es, e.Throughout Expr.Named) :
    Yields (es.mapM placeOf) fun ps => ps.length = es.length ∧ ∀ p ∈ ps, p.Named := by
  induction es with
  | nil =>
      rw [List.mapM_nil]
      exact .pure (by simp)
  | cons e es ih =>
      obtain ⟨he, hes⟩ := List.forall_mem_cons.mp hes
      rw [List.mapM_cons]
      exact (placeOf_yields he).bind fun p hp => (ih hes).bind fun ps hps =>
        .pure ⟨congrArg Nat.succ hps.1, List.forall_mem_cons.mpr ⟨hp, hps.2⟩⟩

theorem pattern_yields : Yields pattern fun t => ∀ n ∈ t.idents, IsName n.text := by
  refine (Yields.eat _).bind fun _ _ => .ite (fun _ => ?_) fun _ => ?_
  · exact (Yields.list _ Yields.expectName).bind fun names hnames => (Yields.expect _).bind
      fun _ _ => .pure hnames
  · refine Yields.expectName.bind fun n hn => .pure ?_
    simpa [Pattern.idents] using hn

section

variable {e : Parse Expr} {b : Parse Block} (he : Yields e (Expr.Throughout Expr.Named))
  (hb : Yields b Block.Named)

include he

theorem bindStmt_yields : Yields (bindStmt e) Stmt.Named :=
  .look fun _ => (Yields.expectWord _).bind fun _ _ => pattern_yields.bind fun _ ht =>
    (Yields.expect _).bind fun _ _ => he.bind fun _ hinit => .pure ⟨ht, hinit⟩

theorem giveStmt_yields : Yields (giveStmt e) Stmt.Named := by
  refine .look fun _ => (Yields.expectWord _).bind fun _ _ => .look fun _ => .look fun _ =>
    .look fun _ => .ite (fun _ => ?_) fun _ => ?_
  · refine .look fun _ => .pure ?_
    rintro _ ⟨⟩
  · refine he.bind fun value hvalue => .look fun _ => .pure ?_
    rintro _ ⟨⟩
    exact hvalue

theorem exprStmt_yields :
    Yields (exprStmt e) (Sum.elim Stmt.Named (Expr.Throughout Expr.Named)) := by
  refine he.bind fun left hleft => .look fun _ => .ite (fun _ => .pure hleft) fun _ =>
    (Yields.eat _).bind fun _ _ => .ite (fun _ => he.bind fun value hvalue => ?_) fun _ =>
      .pure hleft
  dsimp only
  split
  · next es s =>
      obtain ⟨hes, hne⟩ := Expr.throughout_tuple.mp hleft
      refine (placesOf_yields hes).bind fun ps hps => .pure ⟨?_, hps.2, hvalue⟩
      rw [← List.length_pos_iff, hps.1, List.length_pos_iff]
      exact hne
  · exact (placeOf_yields hleft).bind fun p hp => .pure ⟨hp, hvalue⟩

include hb

theorem branchStmt_yields (fuel : Nat) : Yields (branchStmt e b fuel) Stmt.Named := by
  have rest : ∀ {start : Span} {condition : Expr} {yes : Block} {inner : Parse Stmt},
      condition.Throughout Expr.Named → yes.Named → Yields inner Stmt.Named →
      Yields (do
        let inner ← inner
        return .branch condition yes (some (.mk [inner] none inner.span))
          (start.merge (← before))) Stmt.Named := by
    intro start condition yes inner hcondition hyes hinner
    refine hinner.bind fun x hx => .look fun _ => .pure ⟨hcondition, hyes, ⟨hx, trivial⟩, ?_⟩
    rintro _ ⟨⟩
  induction fuel with
  | zero =>
      rw [branchStmt]
      refine .look fun _ => (Yields.expectWord _).bind fun _ _ => he.bind fun c hc => hb.bind
        fun yes hyes => (Yields.eatWord _).bind fun _ _ => .ite (fun _ => .look fun _ =>
          .ite (fun _ => ?_) fun _ => ?_) fun _ => ?_
      · exact .look fun _ => .pure ⟨hc, hyes⟩
      · exact hb.bind fun no hno => .look fun _ => .pure ⟨hc, hyes, hno⟩
      · exact .look fun _ => .pure ⟨hc, hyes⟩
  | succ fuel ih =>
      rw [branchStmt]
      refine .look fun _ => (Yields.expectWord _).bind fun _ _ => he.bind fun c hc => hb.bind
        fun yes hyes => (Yields.eatWord _).bind fun _ _ => .ite (fun _ => .look fun _ =>
          .ite (fun _ => ?_) fun _ => ?_) fun _ => ?_
      · exact rest hc hyes ih
      · exact hb.bind fun no hno => .look fun _ => .pure ⟨hc, hyes, hno⟩
      · exact .look fun _ => .pure ⟨hc, hyes⟩

theorem forStmt_yields : Yields (forStmt e b) Stmt.Named :=
  .look fun _ => (Yields.expectWord _).bind fun _ _ => Yields.expectName.bind fun _ hv =>
    (Yields.expectWord _).bind fun _ _ => he.bind fun _ hfirst => (Yields.expect _).bind fun _ _ =>
      he.bind fun _ hlast => hb.bind fun _ hbody => .look fun _ => .pure ⟨hv, hfirst, hlast, hbody⟩

theorem whileStmt_yields : Yields (whileStmt e b) Stmt.Named :=
  .look fun _ => (Yields.expectWord _).bind fun _ _ => he.bind fun _ hc => hb.bind fun _ hbody =>
    .look fun _ => .pure ⟨hc, hbody⟩

theorem stmt_yields : Yields (stmt e b) (Sum.elim Stmt.Named (Expr.Throughout Expr.Named)) := by
  apply Yields.peek
  intro t? _
  split
  · exact (bindStmt_yields he).bind fun _ hx => .pure hx
  · exact .look fun fuel => (branchStmt_yields he hb fuel).bind fun _ hx => .pure hx
  · exact (forStmt_yields he hb).bind fun _ hx => .pure hx
  · exact (whileStmt_yields he hb).bind fun _ hx => .pure hx
  · exact (giveStmt_yields he).bind fun _ hx => .pure hx
  · exact exprStmt_yields he

theorem stmtLoop_yields (fuel : Nat) : Yields (stmtLoop e b fuel) fun r =>
    Block.NamedAll r.1 ∧ ∀ t ∈ r.2, t.Throughout Expr.Named := by
  have none_given : Block.NamedAll [] ∧ ∀ t ∈ (none : Option Expr), t.Throughout Expr.Named :=
    ⟨trivial, by rintro _ ⟨⟩⟩
  induction fuel with
  | zero => exact .pure none_given
  | succ fuel ih =>
      refine .look fun _ => .look fun _ => .ite (fun _ => .pure none_given) fun _ =>
        (Yields.eat _).bind fun _ _ => .ite (fun _ => ih) fun _ =>
          (stmt_yields he hb).bind fun r hr => ?_
      cases r with
      | inl x => exact ih.bind fun r' hr' => .pure ⟨⟨hr, hr'.1⟩, hr'.2⟩
      | inr t =>
          refine .pure ⟨trivial, ?_⟩
          rintro _ ⟨⟩
          exact hr

end

theorem block_yields (levels : Nat) : Yields (block levels) Block.Named := by
  have stub : ∀ s : Span, (Block.mk [] none s).Named := fun s => ⟨trivial, by rintro _ ⟨⟩⟩
  induction levels with
  | zero => exact .refuse stub
  | succ levels ih =>
      exact .deeper stub (.look fun _ => (Yields.expect _).bind fun _ _ => .look fun fuel =>
        (stmtLoop_yields (expr_yields levels 0) ih fuel).bind fun r hr => .look fun _ =>
          (Yields.expect _).bind fun _ _ => .pure hr)

/-! ## Items -/

theorem markerLoop_yields (fuel : Nat) :
    Yields (markerLoop fuel) fun ms => ∀ m ∈ ms, IsName m.text := by
  induction fuel with
  | zero => exact .pure (by simp)
  | succ fuel ih =>
      refine .look fun _ => .ite (fun _ => .look fun _ => Yields.advance.bind fun _ _ =>
        Yields.expectName.bind fun n hn => ?_) fun _ => .pure (by simp)
      have hmore : ∀ span, Yields (do return (⟨n.text, span⟩ : Ident) :: (← markerLoop fuel))
          fun ms => ∀ m ∈ ms, IsName m.text :=
        fun span => ih.bind fun ms hms => .pure (List.forall_mem_cons.mpr ⟨hn, hms⟩)
      exact .ite (fun _ => hmore _) fun _ => (Yields.reportAt _ _).bind fun _ _ => hmore _

theorem paramLoop_yields (fuel : Nat) (seen : List Ident) :
    Yields (paramLoop fuel seen) fun ps => ∀ p ∈ ps, IsName p.text := by
  induction fuel generalizing seen with
  | zero => exact .pure (by simp)
  | succ fuel ih =>
      refine .look fun _ => .look fun _ => .ite (fun _ => .pure (by simp)) fun _ =>
        Yields.expectName.bind fun n hn => ?_
      have hmore : Yields (do
          if ← eat .comma then return n :: (← paramLoop fuel (n :: seen)) else return [n])
          fun ps => ∀ p ∈ ps, IsName p.text :=
        (Yields.eat _).bind fun _ _ => .ite (fun _ => (ih _).bind fun ps hps =>
          .pure (List.forall_mem_cons.mpr ⟨hn, hps⟩)) fun _ => .pure (by simpa using hn)
      exact .ite (fun _ => (Yields.reportAt _ _).bind fun _ _ => hmore) fun _ => hmore

theorem definition_yields {markers : List Ident} (hmarkers : ∀ m ∈ markers, IsName m.text) :
    Yields (definition markers) Definition.Named :=
  (Yields.expectWord _).bind fun _ _ => Yields.expectName.bind fun _ hname =>
    (Yields.expect _).bind fun _ _ => .look fun fuel => (paramLoop_yields fuel []).bind
      fun _ hparams => (Yields.expect _).bind fun _ _ => (block_yields maxLevels).bind
        fun _ hbody => .pure ⟨hmarkers, hname, hparams, hbody⟩

theorem item_yields (start : Span) {markers : List Ident}
    (hmarkers : ∀ m ∈ markers, IsName m.text) :
    Yields (item start markers) fun r => ∀ i ∈ r, i.Named := by
  apply Yields.peek
  intro t? _
  split
  · refine (definition_yields hmarkers).bind fun d hd => .look fun _ => .pure ?_
    rintro _ ⟨⟩
    exact hd
  · refine (Yields.expectWord _).bind fun _ _ => .look fun _ => path_yields.bind fun _ hp =>
      .ite (fun _ => .look fun _ => .pure ?_) fun _ => (Yields.report _).bind fun _ _ =>
        .look fun _ => .pure ?_
    · rintro _ ⟨⟩
      exact hp
    · rintro _ ⟨⟩
      exact hp
  · refine (Yields.expectWord _).bind fun _ _ => Yields.expectName.bind fun _ hn =>
      (Yields.expect _).bind fun _ _ => (expr_yields _ _).bind fun _ he => .look fun _ => .pure ?_
    rintro _ ⟨⟩
    exact ⟨hn, he⟩
  · refine .look fun _ => (Yields.report _).bind fun _ _ => Yields.advance.bind fun _ _ => .pure ?_
    rintro _ ⟨⟩

theorem itemLoop_yields (fuel : Nat) :
    Yields (itemLoop fuel) fun items => ∀ i ∈ items, i.Named := by
  induction fuel with
  | zero => exact .pure (by simp)
  | succ fuel ih =>
      refine .look fun _ => .ite (fun _ => .pure (by simp)) fun _ => .look fun start =>
        .look fun n => (markerLoop_yields n).bind fun markers hmarkers => .look fun _ => ?_
      have hmore : Yields (do
          let read ← item start markers
          let _ ← eat .semicolon
          let more ← itemLoop fuel
          return read.toList ++ more) fun items => ∀ i ∈ items, i.Named := by
        refine (item_yields start hmarkers).bind fun r hr => (Yields.eat _).bind fun _ _ =>
          ih.bind fun items hitems => .pure fun i hi => ?_
        rcases List.mem_append.mp hi with hi | hi
        · exact hr i (Option.mem_toList.mp hi)
        · exact hitems i hi
      exact .ite (fun _ => (Yields.report _).bind fun _ _ => hmore) fun _ => hmore

end Parse

/-! ## Texts -/

namespace Scan

theorem mark_of_markPiece {b : UInt8} {rest : List UInt8} {t : Token}
    (h : (markPiece b rest).1 = .token t) : ∃ m, t = .mark m := by
  unfold markPiece at h
  repeat' split at h
  all_goals
    cases h
    try exact ⟨_, rfl⟩

theorem named_of_piece {b : UInt8} {rest : List UInt8} {t : Token}
    (h : (piece b rest).1 = .token t) : Token.Named t := by
  unfold piece at h
  split at h
  · cases h
  · split at h
    · cases h
    · split at h
      · next hstart =>
          have hword : IsWord (asciiText (b :: rest.takeWhile isNamePart)) :=
            ⟨b, _, rfl, hstart, fun x hx => List.mem_takeWhile_imp hx⟩
          obtain rfl := Piece.token.inj h
          unfold wordOf
          split
          · trivial
          · next hfree => exact ⟨hword, hfree⟩
      · split at h
        · next hdigit =>
            dsimp only at h
            unfold numberOf at h
            split at h
            · next x hread =>
                obtain rfl := Piece.token.inj h
                exact Decimal.negative_read hread (by rw [List.map_cons, spanSign_of_digit hdigit])
            · cases h
        · obtain ⟨m, rfl⟩ := mark_of_markPiece h
          trivial

theorem named_of_mem_scanFrom {stop position : Nat} {bytes : List UInt8} {l : Lexeme}
    (h : l ∈ (scanFrom stop position bytes).tokens) : Token.Named l.token := by
  induction position, bytes using scanFrom.induct with
  | case1 position => simp [scanFrom] at h
  | case2 position b rest p more hpiece next ih =>
      rw [scanFrom, hpiece] at h
      cases hp : p with
      | blank => exact ih (by simpa [hp, Result.cons] using h)
      | fault problem => exact ih (by simpa [hp, Result.cons] using h)
      | token t =>
          have h : l = ⟨t, ⟨position, next⟩⟩ ∨ l ∈ (scanFrom stop next (rest.drop more)).tokens := by
            simpa [hp, Result.cons] using h
          rcases h with rfl | h
          · exact named_of_piece (by rw [hpiece, hp])
          · exact ih h

end Scan

/-- What holds of everything that reading items gives holds of every item of a program. -/
theorem Program.forall_of_yields {source : String} {p : Program} {P : Item → Prop}
    (hloop : ∀ fuel, Parse.Yields (Parse.itemLoop fuel) fun items => ∀ i ∈ items, P i)
    (h : parse source = .ok p) : ∀ i ∈ p.items, P i := by
  have hnames : ∀ l ∈ (Scan.text source).tokens, Token.Named l.token :=
    fun l hl => Scan.named_of_mem_scanFrom hl
  unfold parse ofScan Parse.tokens at h
  split at h
  · have hread := (hloop (Scan.text source).tokens.length
      ⟨(Scan.text source).tokens, (Scan.text source).stop, none, 0, []⟩ hnames).2
    dsimp only at h
    split at h
    next items c hrun =>
      split at h
      · obtain rfl := Except.ok.inj h
        rwa [show Parse.itemLoop _ _ = (items, c) from hrun] at hread
      · cases h
  · cases h

/-- In an item that was read, all names are names and no number is negative. -/
theorem Program.named_of_mem {source : String} {p : Program} {i : Item}
    (h : parse source = .ok p) (hi : i ∈ p.items) : i.Named :=
  forall_of_yields Parse.itemLoop_yields h i hi

theorem Program.named_of_parse {source : String} {p : Program} {d : Definition}
    (h : parse source = .ok p) (hd : d ∈ p.functions) : d.Named := by
  obtain ⟨i, hi, hfunction⟩ := List.mem_filterMap.mp hd
  have hnamed := named_of_mem h hi
  cases i with
  | function d' span =>
      obtain rfl := Option.some.inj hfunction
      exact hnamed
  | _ => cases hfunction

end Graft
