import Graft.Tree.Parser

/-!
# Levels of nesting

How many levels are left matters only where one is refused, and that is reported. So what is read of
an expression without such a report is what is read with more levels.
-/

namespace Graft.Parse

/-- A refused level was reported. -/
def Cursor.TooDeep (c : Cursor) : Prop := ∃ span, Problem.tooDeep.report span ∈ c.reports

/-- Where no level was refused before, `x` refuses one and reports it, or it refuses none and does
what `y` does. No report is taken back. -/
structure Agrees {α : Type} (x y : Parse α) : Prop where
  keeps : ∀ c, c.reports ⊆ (x c).2.reports
  same : ∀ c, c.refused = 0 → (x c).2.TooDeep ∨ (x c).2.refused = 0 ∧ x c = y c

namespace Agrees

variable {α β : Type} {x y x' y' : Parse α} {f g : α → Parse β}

theorem pure (a : α) : Agrees (pure a) (pure a) := ⟨fun _ => .refl _, fun _ hc => .inr ⟨hc, rfl⟩⟩

theorem bind (h : Agrees x y) (hf : ∀ a, Agrees (f a) (g a)) : Agrees (x >>= f) (y >>= g) := by
  constructor
  · exact fun c => List.Subset.trans (h.keeps c) ((hf _).keeps _)
  · intro c hc
    show (f (x c).1 (x c).2).2.TooDeep ∨
      (f (x c).1 (x c).2).2.refused = 0 ∧ f (x c).1 (x c).2 = g (y c).1 (y c).2
    rcases h.same c hc with ⟨span, hspan⟩ | ⟨hrefused, hsame⟩
    · exact .inl ⟨span, (hf _).keeps _ hspan⟩
    · rw [← hsame]
      exact (hf _).same _ hrefused

theorem ite {p : Prop} [Decidable p] (h : Agrees x y) (h' : Agrees x' y') :
    Agrees (if p then x else x') (if p then y else y') := by
  split
  · exact h
  · exact h'

/-- A step that only looks. -/
theorem look {h : Cursor → α} (hf : ∀ a, Agrees (f a) (g a)) :
    Agrees ((do return h (← get)) >>= f) ((do return h (← get)) >>= g) :=
  ⟨fun c => (hf (h c)).keeps c, fun c hc => (hf (h c)).same c hc⟩

/-- A step that refuses nothing. -/
theorem modify {step : Cursor → Cursor} (hreports : ∀ c, c.reports ⊆ (step c).reports)
    (hrefused : ∀ c, (step c).refused = c.refused) : Agrees (modify step) (modify step) :=
  ⟨hreports, fun c hc => .inr ⟨(hrefused c).trans hc, rfl⟩⟩

theorem advance : Agrees advance advance := by
  apply modify
  · intro c
    unfold Cursor.advance
    split <;> exact .refl _
  · intro c
    unfold Cursor.advance
    split <;> rfl

theorem report (p : Problem) : Agrees (report p) (report p) :=
  modify (fun _ => List.subset_cons_self _ _) fun _ => rfl

theorem eat (s : Symbol) : Agrees (eat s) (eat s) :=
  look fun _ => ite (advance.bind fun _ => pure _) (pure _)

theorem expect (s : Symbol) : Agrees (expect s) (expect s) :=
  (eat s).bind fun _ => ite (pure _) (look fun _ => report _)

theorem name? : Agrees name? name? := by
  apply look
  intro t?
  split
  · exact look fun _ => advance.bind fun _ => pure _
  · exact pure _

theorem expectName : Agrees expectName expectName := by
  apply name?.bind
  intro n
  cases n with
  | some i => exact pure i
  | none => exact look fun _ => (report _).bind fun _ => look fun _ => pure _

theorem list (close : Symbol) (h : Agrees x y) : Agrees (list close x) (list close y) := by
  apply look
  intro fuel
  induction fuel with
  | zero => exact pure _
  | succ fuel ih =>
      exact look fun _ => look fun _ => ite (pure _) (h.bind fun _ => (eat _).bind fun _ =>
        ite (ih.bind fun _ => pure _) (pure _))

theorem refuse (stub : Span → α) (y : Parse α) : Agrees (refuse stub) y :=
  ⟨fun _ => List.subset_cons_self _ _, fun c _ => .inl ⟨c.here, List.mem_cons_self⟩⟩

theorem deeper {levels levels' : Nat} (hle : levels ≤ levels') (stub : Span → α) (h : Agrees x y) :
    Agrees (deeper levels stub x) (deeper levels' stub y) := by
  have hrun : ∀ (n : Nat) (z : Parse α) (c : Cursor), Parse.deeper n stub z c =
      (if n ≤ c.refused then Parse.refuse stub else z : Parse α) c := fun _ _ _ => rfl
  constructor
  · intro c
    rw [hrun]
    split
    · exact (refuse stub x).keeps c
    · exact h.keeps c
  · intro c hc
    rw [hrun, hrun, hc]
    by_cases hlevels : levels = 0
    · rw [if_pos (Nat.le_of_eq hlevels)]
      exact (refuse stub _).same c hc
    · rw [if_neg (by omega), if_neg (by omega)]
      exact h.same c hc

end Agrees

/-! ## Expressions -/

theorem path_agrees : Agrees path path := by
  refine Agrees.expectName.bind fun first => .look fun fuel => .bind ?_ fun _ => .pure _
  induction fuel with
  | zero => exact .pure _
  | succ fuel ih =>
      refine (Agrees.eat _).bind fun _ => .ite (Agrees.name?.bind fun n => ?_) (.pure _)
      cases n with
      | none => exact (Agrees.report _).bind fun _ => .pure _
      | some i => exact ih.bind fun _ => .pure _

section

variable {sub sub' : Nat → Parse Expr} (hsub : ∀ power, Agrees (sub power) (sub' power))

include hsub

theorem parenthesized_agrees (start : Span) :
    Agrees (parenthesized sub start) (parenthesized sub' start) :=
  (hsub 0).bind fun _ => (Agrees.eat _).bind fun _ => .ite
    ((Agrees.list _ (hsub 0)).bind fun _ => (Agrees.expect _).bind fun _ => .look fun _ => .pure _)
    ((Agrees.expect _).bind fun _ => .pure _)

theorem named_agrees (start : Span) : Agrees (named sub start) (named sub' start) :=
  path_agrees.bind fun _ => .look fun _ => (Agrees.eat _).bind fun _ => .ite
    ((Agrees.list _ (hsub 0)).bind fun _ => (Agrees.expect _).bind fun _ => .look fun _ => .pure _)
    (.ite (.pure _) (.pure _))

theorem primary_agrees : Agrees (primary sub) (primary sub') := by
  apply Agrees.look
  intro start
  apply Agrees.look
  intro t?
  split
  · exact Agrees.advance.bind fun _ => .pure _
  · exact Agrees.advance.bind fun _ => .pure _
  · exact Agrees.advance.bind fun _ => .pure _
  · exact Agrees.advance.bind fun _ => parenthesized_agrees hsub start
  · exact Agrees.advance.bind fun _ => (Agrees.list _ (hsub 0)).bind fun _ =>
      (Agrees.expect _).bind fun _ => .look fun _ => .pure _
  · exact named_agrees hsub start
  · exact .look fun _ => (Agrees.report _).bind fun _ => Agrees.advance.bind fun _ => .pure _

theorem postfixLoop_agrees (fuel : Nat) (e : Expr) :
    Agrees (postfixLoop sub fuel e) (postfixLoop sub' fuel e) := by
  induction fuel generalizing e with
  | zero => exact .pure e
  | succ fuel ih =>
      refine (Agrees.eat _).bind fun _ => .ite ((hsub 0).bind fun first => ?_) (.pure e)
      refine (Agrees.eat _).bind fun _ => .ite ?_ ?_
      · exact (hsub 0).bind fun _ => (Agrees.expect _).bind fun _ => .look fun _ => ih _
      · exact (Agrees.expect _).bind fun _ => .look fun _ => ih _

theorem operand_agrees : Agrees (operand sub) (operand sub') := by
  apply Agrees.look
  intro start
  apply Agrees.look
  intro t?
  split
  · exact Agrees.advance.bind fun _ => (hsub _).bind fun _ => .pure _
  · exact (primary_agrees hsub).bind fun e => .look fun fuel => postfixLoop_agrees hsub fuel e

theorem operatorLoop_agrees (power fuel : Nat) (e : Expr) :
    Agrees (operatorLoop sub power fuel e) (operatorLoop sub' power fuel e) := by
  induction fuel generalizing e with
  | zero => exact .pure e
  | succ fuel ih =>
      apply Agrees.look
      intro t?
      split
      · exact .pure e
      · exact .ite (.pure e) (Agrees.advance.bind fun _ => (hsub _).bind fun _ => ih _)

end

/-- Reading an expression with more levels gives the same, unless one is refused. -/
theorem expr_agrees (levels more power : Nat) :
    Agrees (expr levels power) (expr (levels + more) power) := by
  induction levels generalizing power with
  | zero => exact .refuse _ _
  | succ levels ih =>
      rw [Nat.add_right_comm]
      exact .deeper (by omega) _ ((operand_agrees ih).bind fun e => .look fun fuel =>
        operatorLoop_agrees ih power fuel e)

end Graft.Parse
