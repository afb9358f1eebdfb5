import Graft.Proofs.Naming

/-!
# The tokens of printed statements

A printed statement has the tokens that the tree says, and its lines end where the tree says. The
end of a line is no token, but it tells apart what the tokens alone do not: a bare `return` before
another statement, and where one expression ends and the next one starts.
-/

namespace Graft

open Scan

/-! ## Tokens and ends of lines -/

/-- A place as an expression: what is assigned is written like what is read. -/
def Place.expr : Place → Expr
  | .var n s => .var n s
  | .discard s => .var "_" s
  | .index base i s => .index (.var base.text base.span) i s

/-- A list in parentheses, as after the name of what is called. -/
def listTokens (es : List Expr) : List Token :=
  .mark .openParen :: (commaTokens (es.map Expr.tokens) ++ [.mark .closeParen])

/-- A name as an expression. -/
def Ident.expr (n : Ident) : Expr := .var n.text n.span

def Pattern.tokens : Pattern → List Token
  | .name n => [.name n.text]
  | .names ns => listTokens (ns.map Ident.expr)

/-- The last line of a block: its value. -/
def tailLayout : Option Expr → List (Option Token)
  | some e => e.tokens.map some ++ [none]
  | none => []

/-- A block in braces, given its lines. -/
def framedLayout (lines : List (Option Token)) : List (Option Token) :=
  if lines.isEmpty then [some (.mark .openBrace), some (.mark .closeBrace)]
  else some (.mark .openBrace) :: none :: (lines ++ [some (.mark .closeBrace)])

mutual

/-- The tokens of a printed statement, and where its lines end. -/
def Stmt.layout : Stmt → List (Option Token)
  | .bind target init _ =>
    some (.word .letWord) :: ((target.tokens ++ .mark .assign :: init.tokens).map some)
  | .assign place value _ => (place.expr.tokens ++ .mark .assign :: value.tokens).map some
  | .assignTuple places value _ =>
    (listTokens (places.map Place.expr) ++ .mark .assign :: value.tokens).map some
  | .branch c yes none _ => some (.word .ifWord) :: (c.tokens.map some ++ Block.layout yes)
  | .branch c yes (some no) _ =>
    some (.word .ifWord) :: (c.tokens.map some ++
      (Block.layout yes ++ some (.word .elseWord) :: Block.elseLayout no))
  | .forRange v a b body _ =>
    some (.word .forWord) :: ((.name v.text :: .word .inWord ::
      (a.tokens ++ .mark .dotDot :: b.tokens)).map some ++ Block.layout body)
  | .whileLoop c body _ =>
    some (.word .whileWord) :: (c.tokens.map some ++ Block.layout body)
  | .eval e _ => e.tokens.map some
  | .give (some e) _ => some (.word .returnWord) :: e.tokens.map some
  | .give none _ => [some (.word .returnWord)]
  termination_by structural s => s

def Block.layout : Block → List (Option Token)
  | .mk stmts tail _ => framedLayout (Block.linesLayout tail stmts)
  termination_by structural b => b

def Block.elseLayout : Block → List (Option Token)
  | .mk [.branch c yes no s] none _ => Stmt.layout (.branch c yes no s)
  | .mk stmts tail _ => framedLayout (Block.linesLayout tail stmts)
  termination_by structural b => b

/-- Statements on lines of their own, and the value of the block. -/
def Block.linesLayout (tail : Option Expr) : List Stmt → List (Option Token)
  | [] => tailLayout tail
  | s :: rest =>
    Stmt.layout s ++ ((if s.needsSemicolon rest tail then [some (.mark .semicolon)] else []) ++
      none :: Block.linesLayout tail rest)
  termination_by structural ss => ss

end

/-! ## How statements are spelled -/

namespace Scan

variable {follow : List UInt8 → Prop} {s : String} {ts : List (Option Token)}

theorem Spells.of_eq {s' : String} {ts' : List (Option Token)} (h : Spells follow s ts)
    (hs : s = s') (hts : ts = ts') : Spells follow s' ts' := hs ▸ hts ▸ h

theorem Spells.keywordSpaced (k : Keyword) :
    Spells (fun _ => True) (k.text ++ " ") [some (.word k)] := (Spells.keyword k).spaced

theorem Spells.spacedKeyword (h : Spells Boundary s ts) (k : Keyword) :
    Spells (fun _ => True) (s ++ (" " ++ k.text ++ " ")) (ts ++ [some (.word k)]) := by
  rw [String.append_assoc, ← String.append_assoc]
  exact h.spaced.then (Spells.keywordSpaced k)

theorem Spells.assigned (h : Spells Boundary s ts) :
    Spells (fun _ => True) (s ++ " = ") (ts ++ [some (.mark .assign)]) := by
  have htext : s ++ " = " = s ++ " " ++ Symbol.assign.text ++ " " := by
    rw [String.append_assoc, String.append_assoc]
    rfl
  rw [htext]
  exact (h.spaced.then (Spells.symbol .assign)).symbolSpaced

end Scan

theorem Expr.Throughout.legible {e : Expr} (h : e.Throughout Expr.Named)
    (h' : e.Throughout Expr.Literal) : e.Legible := fun x hx => ⟨h x hx, h' x hx⟩

theorem Place.text_expr (p : Place) : p.expr.text = p.text := by
  cases p with
  | index base i s => rfl
  | _ => rfl

variable {follow : List UInt8 → Prop}

/-- A list in parentheses. -/
theorem spells_list {α : Type} {text : α → String} {expr : α → Expr} {l : List α}
    (htext : ∀ x, (expr x).text = text x) (h : ∀ x ∈ l, (expr x).Legible) :
    Spells (fun _ => True) ("(" ++ commaText (l.map text) ++ ")")
      ((listTokens (l.map expr)).map some) := by
  have hcommas : Spells Boundary (commaText (l.map text))
      ((commaTokens (l.map fun x => (expr x).tokens)).map some) :=
    spells_commas fun x hx => htext x ▸ (expr x).spells (h x hx)
  have hall := (hcommas.opened (m := .openParen) rfl).closed (m := .closeParen) rfl
  simpa [listTokens, Symbol.text, Function.comp_def] using hall

theorem Ident.legible_expr {n : Ident} (h : IsName n.text) : n.expr.Legible :=
  Expr.throughout_var.mpr ⟨h, trivial⟩

theorem Pattern.spells {t : Pattern} (h : ∀ n ∈ t.idents, IsName n.text) :
    Spells Boundary t.text (t.tokens.map some) := by
  cases t with
  | name n => exact Spells.name (h n List.mem_cons_self)
  | names ns => exact (spells_list (fun _ => rfl) fun n hn => Ident.legible_expr (h n hn)).any

theorem Place.legible_expr {p : Place} (h : p.Named)
    (hliteral : ∀ x ∈ p.subterms, x.Literal) : p.expr.Legible := by
  cases p with
  | var n s => exact Expr.throughout_var.mpr ⟨h.1, trivial⟩
  | discard s =>
      have hname : IsName "_" := ⟨.of_bytes rfl rfl rfl, rfl⟩
      exact Expr.throughout_var.mpr ⟨hname, trivial⟩
  | index base i s =>
      have hbase : (Expr.var base.text base.span).Legible :=
        Expr.throughout_var.mpr ⟨h.1, trivial⟩
      exact Expr.throughout_index.mpr ⟨hbase, h.2.legible hliteral, trivial, trivial⟩

theorem spells_indentation (depth : Nat) : Spells follow (indentation depth) [] :=
  Spells.spaces (4 * depth)

/-- A line of a block. -/
theorem spells_line {s : String} {ts : List (Option Token)} (h : Spells Boundary s ts)
    (depth : Nat) : Spells (fun _ => True) (indentation depth ++ s ++ "\n") (ts ++ [none]) :=
  ((spells_indentation depth).then h).append Spells.newline
    fun rest _ => Boundary.cons rfl (by decide) rest

/-- A line of a block with a semicolon. -/
theorem spells_closedLine {s : String} {ts : List (Option Token)} (h : Spells Boundary s ts)
    (depth : Nat) : Spells (fun _ => True) (indentation depth ++ s ++ ";" ++ "\n")
      (ts ++ [some (.mark .semicolon)] ++ [none]) :=
  (((spells_indentation depth).then h).closed (m := .semicolon) rfl).then Spells.newline

/-- The text of the last line of a block: its value. -/
def tailText (depth : Nat) : Option Expr → String
  | some e => indentation depth ++ e.text ++ "\n"
  | none => ""

theorem spells_tail {tail : Option Expr} (h : ∀ e ∈ tail, e.Legible) (depth : Nat) :
    Spells (fun _ => True) (tailText depth tail) (tailLayout tail) := by
  cases tail with
  | none => exact Spells.empty
  | some e => exact spells_line (e.spells (h e rfl)) depth

theorem Block.spells_lines {ss : List Stmt} {tail : Option Expr} {depth : Nat}
    (hss : ∀ x ∈ ss, Spells Boundary (x.text depth) x.layout) (htail : ∀ e ∈ tail, e.Legible) :
    Spells (fun _ => True) (Block.linesText depth tail ss ++ tailText depth tail)
      (Block.linesLayout tail ss) := by
  induction ss with
  | nil =>
      rw [linesText, linesLayout, String.empty_append]
      exact spells_tail htail depth
  | cons x ss ih =>
      have hx := hss x List.mem_cons_self
      have hrest := ih fun y hy => hss y (List.mem_cons_of_mem x hy)
      rw [linesText, String.append_assoc, linesLayout]
      cases x.needsSemicolon ss tail
      · have hall := (spells_line hx depth).then hrest
        simpa using hall
      · have hall := (spells_closedLine hx depth).then hrest
        simpa using hall

theorem isEmpty_line (s t : String) : (s ++ "\n" ++ t).isEmpty = false := by
  simp [String.isEmpty_eq_false_iff]

theorem Block.spells_framed {ss : List Stmt} {tail : Option Expr} {depth : Nat}
    (hss : ∀ x ∈ ss, Spells Boundary (x.text (depth + 1)) x.layout)
    (htail : ∀ e ∈ tail, e.Legible) :
    Spells (fun _ => True) (framed depth (Block.linesText (depth + 1) tail ss) tail)
      (framedLayout (Block.linesLayout tail ss)) := by
  have hempty : ((Block.linesText (depth + 1) tail ss).isEmpty &&
      (tailText (depth + 1) tail).isEmpty) = (Block.linesLayout tail ss).isEmpty := by
    cases ss with
    | nil =>
        cases tail with
        | none => rfl
        | some e =>
            have htail : (tailText (depth + 1) (some e)).isEmpty = false := by
              simp [tailText, String.isEmpty_eq_false_iff]
            rw [htail, Bool.and_false]
            simp [linesLayout, tailLayout]
    | cons x ss => simp [linesLayout, linesText, isEmpty_line]
  show Spells _ (if _ && (tailText (depth + 1) tail).isEmpty then _ else _) _
  rw [hempty, framedLayout]
  cases (Block.linesLayout tail ss).isEmpty
  · have hopen := ((Spells.mark (m := .openBrace) rfl).then Spells.newline).then
      (Block.spells_lines hss htail)
    have hall : Spells (fun _ => True) _ _ :=
      (hopen.then (spells_indentation depth)).then (Spells.mark (m := .closeBrace) rfl)
    rw [← String.append_assoc] at hall
    exact hall.of_eq rfl (by simp)
  · exact (Spells.mark (m := .openBrace) rfl).then (Spells.mark (m := .closeBrace) rfl)

/-! ## Statements and blocks -/

/-- After `else`, a block is printed as ever unless it holds nothing but an `if`. -/
theorem Block.else_cases (b : Block) :
    (∃ c yes no span s, b = .mk [.branch c yes no span] none s) ∨
      (∀ depth, b.elseText depth = b.text depth) ∧ b.elseLayout = b.layout := by
  by_cases h : ∃ c yes no span s, b = .mk [.branch c yes no span] none s
  · exact .inl h
  · refine .inr ⟨fun depth => ?_, ?_⟩
    · unfold elseText
      split
      · exact absurd ⟨_, _, _, _, _, rfl⟩ h
      · rw [Block.text]
    · unfold elseLayout
      split
      · exact absurd ⟨_, _, _, _, _, rfl⟩ h
      · rw [Block.layout]

theorem Block.spells (b : Block) (hb : b.Named) (hliteral : b.Throughout Expr.Literal) :
    ∀ depth, Spells (fun _ => True) (b.text depth) b.layout ∧
      Spells Boundary (b.elseText depth) b.elseLayout := by
  revert hb hliteral
  refine Block.induction
    (fun x => x.Named → x.Throughout Expr.Literal → ∀ depth,
      Spells Boundary (x.text depth) x.layout)
    (fun b => b.Named → b.Throughout Expr.Literal → ∀ depth,
      Spells (fun _ => True) (b.text depth) b.layout ∧
        Spells Boundary (b.elseText depth) b.elseLayout)
    ?bind ?assign ?assignTuple ?branch ?branchElse ?forRange ?whileLoop ?eval ?give ?mk b
  case bind =>
    rintro t e s ⟨ht, he⟩ hliteral depth
    have hall := ((Spells.keywordSpaced .letWord).then (Pattern.spells ht)).assigned.then
      (e.spells (he.legible hliteral))
    exact hall.of_eq rfl (by simp [Stmt.layout])
  case assign =>
    rintro p e s ⟨hp, he⟩ hliteral depth
    obtain ⟨hplace, hvalue⟩ := Stmt.throughout_assign.mp hliteral
    have hall := (p.expr.spells (Place.legible_expr hp hplace)).assigned.then
      (e.spells (he.legible hvalue))
    exact hall.of_eq (by rw [p.text_expr, Stmt.text]) (by simp [Stmt.layout])
  case assignTuple =>
    rintro ps e s ⟨-, hps, he⟩ hliteral depth
    obtain ⟨hplaces, hvalue⟩ := Stmt.throughout_assignTuple.mp hliteral
    have hlist := spells_list Place.text_expr
      fun p hp => Place.legible_expr (hps p hp) (hplaces p hp)
    have hall := (hlist.any : Spells Boundary _ _).assigned.then (e.spells (he.legible hvalue))
    have htext : ("(" ++ commaText (ps.map Place.text)) ++ ")" ++ " = " =
        "(" ++ commaText (ps.map Place.text) ++ ") = " := by
      rw [String.append_assoc]
      rfl
    exact hall.of_eq (by rw [htext, Stmt.text]) (by simp [Stmt.layout])
  case eval =>
    intro e s he hliteral depth
    exact e.spells (Expr.Throughout.legible he hliteral)
  case give =>
    intro v s hv hliteral depth
    cases v with
    | none => exact Spells.keyword .returnWord
    | some e =>
        have he : e.Legible := Expr.Throughout.legible (hv e rfl) hliteral
        exact (Spells.keywordSpaced .returnWord).then (e.spells he)
  case branch =>
    rintro c yes s hyes ⟨hc, hn⟩ hliteral depth
    obtain ⟨hcl, hyl⟩ := Stmt.throughout_branch.mp hliteral
    have hall := ((Spells.keywordSpaced .ifWord).then (c.spells (hc.legible hcl))).spaced.then
      (hyes hn hyl depth).1
    exact hall.any.of_eq rfl (by simp [Stmt.layout])
  case branchElse =>
    rintro c yes no s hyes hno ⟨hc, hn, hn'⟩ hliteral depth
    obtain ⟨hcl, hyl, hnl⟩ := Stmt.throughout_branchElse.mp hliteral
    have hfirst := ((Spells.keywordSpaced .ifWord).then (c.spells (hc.legible hcl))).spaced.then
      (hyes hn hyl depth).1
    have hall := ((hfirst.any : Spells Boundary _ _).spacedKeyword .elseWord).then
      (hno hn' hnl depth).2
    exact hall.of_eq rfl (by simp [Stmt.layout])
  case forRange =>
    rintro v a b body s hbody ⟨hv, ha, hb, hn⟩ hliteral depth
    obtain ⟨hal, hbl, hyl⟩ := Stmt.throughout_forRange.mp hliteral
    have hcounter := ((Spells.keywordSpaced .forWord).then (Spells.name hv)).spacedKeyword .inWord
    have hrange := (((hcounter.then (a.spells (ha.legible hal))).closed (m := .dotDot) rfl).then
      (b.spells (hb.legible hbl))).spaced
    have hall := hrange.then (hbody hn hyl depth).1
    exact hall.any.of_eq rfl (by simp [Stmt.layout])
  case whileLoop =>
    rintro c body s hbody ⟨hc, hn⟩ hliteral depth
    obtain ⟨hcl, hyl⟩ := Stmt.throughout_whileLoop.mp hliteral
    have hall := ((Spells.keywordSpaced .whileWord).then (c.spells (hc.legible hcl))).spaced.then
      (hbody hn hyl depth).1
    exact hall.any.of_eq rfl (by simp [Stmt.layout])
  case mk =>
    rintro ss t s hss ⟨hn, ht⟩ hliteral depth
    obtain ⟨hsl, htl⟩ := Block.throughout_mk.mp hliteral
    have hn := Block.namedAll_iff.mp hn
    have htail : ∀ e ∈ t, e.Legible := fun e he => (ht e he).legible (htl e he)
    have hframed : ∀ depth, Spells (fun _ => True)
        (framed depth (Block.linesText (depth + 1) t ss) t)
        (framedLayout (Block.linesLayout t ss)) :=
      fun depth => Block.spells_framed (fun x hx => hss x hx (hn x hx) (hsl x hx) _) htail
    refine ⟨hframed depth, ?_⟩
    -- a block that holds nothing but an `if` is printed as that after `else`
    obtain ⟨c, yes, no, span, s', hb⟩ | ⟨htext, hlayout⟩ := Block.else_cases (.mk ss t s)
    · cases hb
      exact hss _ List.mem_cons_self (hn _ List.mem_cons_self) (hsl _ List.mem_cons_self) depth
    · rw [htext, hlayout]
      exact (hframed depth).any

end Graft
