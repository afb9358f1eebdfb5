import Graft.Proofs.Layout
import Graft.Proofs.Leveling
import Graft.Proofs.Naming
import Graft.Proofs.Precedence

/-!
# Printed expressions are read again

An expression that was read from a text is printed with the parentheses that it needs and no others.
These are enough: its text is scanned without a report, and read as the same expression with nothing
left over. Reading it can only fail because it is nested too deep, and up to there it does not matter
how many levels there are; so the expression is read with as many more as it takes.
-/

namespace Graft

open Parse Scan

/-! ## The expressions of a program -/

/-- Every expression in the item, with its parts. -/
def Item.subterms : Item → List Expr
  | .function d _ => d.body.subterms
  | .constant _ e _ => e.subterms
  | .import_ _ _ _ => []

/-- Every expression in the program, with its parts. -/
def Program.subterms (p : Program) : List Expr := p.items.flatMap Item.subterms

theorem Item.Named.subterms {i : Item} (h : i.Named) : ∀ e ∈ i.subterms, e.Throughout Expr.Named := by
  cases i with
  | function d span => exact h.body.throughout.parts
  | constant n e span => exact Expr.Throughout.parts h.2
  | import_ p t span => exact fun e he => absurd he List.not_mem_nil

theorem Program.named_of_mem_subterms {source : String} {p : Program} {e : Expr}
    (hp : parse source = .ok p) (he : e ∈ p.subterms) : e.Throughout Expr.Named := by
  obtain ⟨i, hi, he⟩ := List.mem_flatMap.mp he
  exact (named_of_mem hp hi).subterms e he

/-- A finite number without a sign is a literal, if its decimal reads back as it. -/
theorem Expr.literal_of_finite {e : Expr} (h : e.Named)
    (finite : ∀ x s, e = .num x s → x.isFinite = true)
    (formatted : ∀ x s, e = .num x s → x.isFinite = true →
      Decimal.read? (Decimal.render x).toList = some x) : e.Literal := by
  cases e with
  | num x s =>
      have hfinite := finite x s rfl
      obtain ⟨hnumber, hbounded⟩ := Decimal.isFinite_iff.mp hfinite
      exact ⟨hnumber, hbounded, h, formatted x s rfl hfinite⟩
  | _ => trivial

/-! ## Reading with enough levels -/

theorem Parse.Follows.nil (power : Nat) : Follows power [] := by
  apply Follows.of_ends
  rintro t ⟨⟩

/-- What is read of the text of an expression where one starts. -/
def Parse.exprOfScan (s : Scan.Result) : Expr × Cursor :=
  (expr maxLevels 0).run { rest := s.tokens, stop := s.stop }

/-- The tokens of a printed expression are read as the expression, unless a level is refused. -/
theorem Expr.reads_of_tokens {e : Expr} (he : e.Throughout Named) {s : Scan.Result}
    (hs : s.tokens.map Lexeme.token = e.tokens) :
    (exprOfScan s).2.TooDeep ∨ (exprOfScan s).2.rest = [] ∧ (exprOfScan s).2.reports = [] ∧
      (exprOfScan s).1.erase = e.erase := by
  obtain hdeep | ⟨-, hsame⟩ := (expr_agrees maxLevels e.levels 0).same
    { rest := s.tokens, stop := s.stop } rfl
  · exact .inl hdeep
  · right
    have hread : Reads (expr (maxLevels + e.levels) 0) (e.tokens ++ []) (Back e []) :=
      expr_readsBack _ e false he (Nat.le_add_left _ _) 0 [] (Nat.zero_le _) (.nil _) (.nil _)
    obtain ⟨⟨herase, hrest⟩, -, hreports⟩ := hread { rest := s.tokens, stop := s.stop }
      (by rw [List.append_nil]; exact hs) rfl
    rw [← hsame] at herase hrest hreports
    exact ⟨List.map_eq_nil_iff.mp hrest, hreports, herase⟩

/-- Every expression of a text that is accepted, with all its numbers finite, is printed as a text
that is scanned without a report. Unless reading that text reports that it is nested too deep, it
reports nothing, leaves nothing and gives the expression again, up to spans. It is taken for granted
that the decimal of a finite number reads back as the number. -/
theorem Expr.text_readsBack {source : String} {p : Program} (hp : Program.parse source = .ok p)
    {e : Expr} (he : e ∈ p.subterms) (finite : ∀ x s, .num x s ∈ e.subterms → x.isFinite = true)
    (formatted : ∀ x s, .num x s ∈ e.subterms → x.isFinite = true →
      Decimal.read? (Decimal.render x).toList = some x) :
    (Scan.text e.text).diagnostics = [] ∧
      ((exprOfScan (Scan.text e.text)).2.TooDeep ∨
        (exprOfScan (Scan.text e.text)).2.rest = [] ∧
        (exprOfScan (Scan.text e.text)).2.reports = [] ∧
        (exprOfScan (Scan.text e.text)).1.erase = e.erase) := by
  have hnamed := Program.named_of_mem_subterms hp he
  have hliteral : e.Throughout Literal := by
    intro x hx
    apply literal_of_finite (hnamed x hx)
    · rintro y s rfl
      exact finite y s hx
    · rintro y s rfl
      exact formatted y s hx
  obtain ⟨hdiagnostics, htokens⟩ := (e.spells (hnamed.legible hliteral)).text
  exact ⟨hdiagnostics, reads_of_tokens hnamed htokens⟩

/-! A function with more parentheses than its value needs. -/

def looseText : String :=
  "fn f(a, b, c) { ((a + b) * (c)) - -((a - b) ** (2.5 ** m.g(c, (a,))[(0)][1..2])) }"

/-- The value of the function, which comes after all its parts. -/
def looseExpr : Expr :=
  ((Program.parse looseText).toOption.bind fun p => p.subterms.getLast?).getD default

/-- A number is finite, and its decimal reads back as it. -/
def Expr.isFaithful : Expr → Bool
  | .num x _ => x.isFinite && decide (Decimal.read? (Decimal.render x).toList = some x)
  | _ => true

theorem Expr.text_readsBack_loose :
    looseExpr.text = "(a + b) * c - -(a - b) ** 2.5 ** m.g(c, (a,))[0][1..2]" ∧
      (Scan.text looseExpr.text).diagnostics = [] ∧
      (exprOfScan (Scan.text looseExpr.text)).2.rest = [] ∧
      (exprOfScan (Scan.text looseExpr.text)).2.reports = [] ∧
      (exprOfScan (Scan.text looseExpr.text)).1.erase = looseExpr.erase := by
  have htext : looseExpr.text = "(a + b) * c - -(a - b) ** 2.5 ** m.g(c, (a,))[0][1..2]" := by
    decide +kernel
  have hfound : ((Program.parse looseText).toOption.bind fun p => p.subterms.getLast?).isSome =
      true := by decide +kernel
  have hfaithful : looseExpr.subterms.all isFaithful = true := by decide +kernel
  have hclear : (exprOfScan (Scan.text looseExpr.text)).2.reports.isEmpty = true := by
    decide +kernel
  obtain ⟨p, hp, he⟩ : ∃ p, Program.parse looseText = .ok p ∧ looseExpr ∈ p.subterms := by
    obtain ⟨e, hlast⟩ := Option.isSome_iff_exists.mp hfound
    have heq : looseExpr = e := by rw [looseExpr, hlast, Option.getD_some]
    cases hp : Program.parse looseText with
    | error reports =>
        rw [hp] at hlast
        cases hlast
    | ok p =>
        rw [hp] at hlast
        exact ⟨p, rfl, heq ▸ List.mem_of_getLast? hlast⟩
  have hnumber : ∀ x s, .num x s ∈ looseExpr.subterms → x.isFinite = true ∧
      Decimal.read? (Decimal.render x).toList = some x := by
    intro x s hx
    have hone := List.all_eq_true.mp hfaithful _ hx
    simpa [isFaithful] using hone
  obtain ⟨hdiagnostics, ⟨span, hdeep⟩ | hread⟩ := text_readsBack hp he
    (fun x s hx => (hnumber x s hx).1) fun x s hx _ => (hnumber x s hx).2
  · rw [List.isEmpty_iff.mp hclear] at hdeep
    cases hdeep
  · exact ⟨htext, hdiagnostics, hread⟩

end Graft
