import Graft.Proofs.Unambiguity
import Graft.Proofs.Records
import Graft.Digest.Definition

/-!
# Fingerprints of definitions

A definition is hashed as it is printed. What is printed does not depend on spans, and it determines
the definition up to spans unless a block drops the value of its last expression. So the fingerprint
of a definition that was read stands for what it computes, and for nothing of how it was written.
-/

namespace Graft

/-! ## Printing without spans -/

namespace Expr

theorem needsParens_erase (power : Nat) (tight : Bool) (e : Expr) :
    e.erase.needsParens power tight = e.needsParens power tight := by cases e <;> rfl

theorem needsParensSigned_erase (e : Expr) :
    e.erase.needsParensSigned = e.needsParensSigned := by cases e <;> rfl

theorem needsParensIndexed_erase (e : Expr) :
    e.erase.needsParensIndexed = e.needsParensIndexed := by cases e <;> rfl

theorem startsOpen_erase (e : Expr) : e.erase.startsOpen = e.startsOpen := by
  induction e with
  | unary op e s ih => cases op <;> rfl
  | binary op l r s ihl ihr => rw [erase, startsOpen, startsOpen, ihl]
  | index e i s ihe ihi => rw [erase, startsOpen, startsOpen, ihe]
  | slice e a b s ihe iha ihb => rw [erase, startsOpen, startsOpen, ihe]
  | _ => rfl

theorem texts_erase {es : List Expr} (h : ∀ e ∈ es, e.erase.text = e.text) :
    text.texts (erase.eraseAll es) = text.texts es := by
  rw [texts_eq, texts_eq, eraseAll_eq, List.map_map]
  exact List.map_congr_left h

/-- An expression is printed without a look at its spans. -/
theorem text_erase (e : Expr) : e.erase.text = e.text := by
  induction e with
  | binary op l r s ihl ihr =>
      rw [erase, text, text, needsParens_erase, needsParens_erase, ihl, ihr]
  | unary op e s ih => rw [erase, text, text, needsParensSigned_erase, ih]
  | call p t args s ih => rw [erase, text, text, texts_erase ih]
  | index e i s ihe ihi => rw [erase, text, text, needsParensIndexed_erase, ihe, ihi]
  | slice e a b s ihe iha ihb => rw [erase, text, text, needsParensIndexed_erase, ihe, iha, ihb]
  | array es s ih => rw [erase, text, text, texts_erase ih]
  | tuple es s ih =>
      cases es with
      | nil => rfl
      | cons e es =>
          cases es with
          | nil =>
              show "(" ++ e.erase.text ++ ",)" = "(" ++ e.text ++ ",)"
              rw [ih e List.mem_cons_self]
          | cons f es =>
              show "(" ++ commaText (text.texts (erase.eraseAll (e :: f :: es))) ++ ")" =
                "(" ++ commaText (text.texts (e :: f :: es)) ++ ")"
              rw [texts_erase ih]
  | _ => rfl

end Expr

theorem Place.text_erase (p : Place) : p.erase.text = p.text := by
  cases p with
  | index base i s => rw [erase, text, text, i.text_erase]
  | _ => rfl

theorem Pattern.text_erase (t : Pattern) : t.erase.text = t.text := by
  cases t with
  | name n => rfl
  | names ns => rw [erase, text, text, List.map_map]; rfl

theorem Block.eraseAll_eq (ss : List Stmt) : Block.eraseAll ss = ss.map Stmt.erase := by
  induction ss with
  | nil => rfl
  | cons x ss ih => rw [eraseAll, ih, List.map_cons]

namespace Stmt

theorem endsWithExpr_erase (x : Stmt) : x.erase.endsWithExpr = x.endsWithExpr := by
  cases x with
  | branch c yes no s => cases no <;> rfl
  | give v s => cases v <;> rfl
  | _ => rfl

theorem startsOpen_erase (x : Stmt) : x.erase.startsOpen = x.startsOpen := by
  cases x with
  | branch c yes no s => cases no <;> rfl
  | eval e s => exact e.startsOpen_erase
  | _ => rfl

theorem needsSemicolon_erase (x : Stmt) (rest : List Stmt) (tail : Option Expr) :
    x.erase.needsSemicolon (Block.eraseAll rest) (tail.map Expr.erase) =
      x.needsSemicolon rest tail := by
  cases rest with
  | nil =>
      cases tail <;>
        simp [needsSemicolon, Block.eraseAll, endsWithExpr_erase, Expr.startsOpen_erase]
  | cons y rest => simp [needsSemicolon, Block.eraseAll, endsWithExpr_erase, startsOpen_erase]

end Stmt

namespace Block

theorem linesText_erase {depth : Nat} {tail : Option Expr} {ss : List Stmt}
    (h : ∀ x ∈ ss, x.erase.text depth = x.text depth) :
    Block.linesText depth (tail.map Expr.erase) (Block.eraseAll ss) =
      Block.linesText depth tail ss := by
  induction ss with
  | nil => rfl
  | cons x ss ih =>
      obtain ⟨hx, hss⟩ := List.forall_mem_cons.mp h
      rw [eraseAll, linesText, linesText, hx, ih hss, Stmt.needsSemicolon_erase]

theorem framed_erase (depth : Nat) (lines : String) (tail : Option Expr) :
    framed depth lines (tail.map Expr.erase) = framed depth lines tail := by
  cases tail with
  | none => rfl
  | some e => simp only [framed, Option.map_some, e.text_erase]

/-- A block that holds nothing but an `if` still does so without spans, and no other block does. -/
theorem holdsBranch_of_erase {b : Block} {c : Expr} {yes : Block} {no : Option Block}
    {span s : Span} (h : b.erase = .mk [.branch c yes no span] none s) :
    ∃ c yes no span s, b = .mk [.branch c yes no span] none s := by
  obtain ⟨ss, tail, s'⟩ := b
  rw [erase, eraseAll_eq] at h
  injection h with hss htail
  obtain ⟨x, rfl, hx⟩ := List.map_eq_singleton_iff.mp hss
  obtain rfl := Option.map_eq_none_iff.mp htail
  cases x with
  | branch c yes no span => exact ⟨c, yes, no, span, s', rfl⟩
  | _ => cases hx

theorem elseText_erase {b : Block} {depth : Nat} (htext : b.erase.text depth = b.text depth)
    (hbranch : ∀ c yes no span s, b = .mk [.branch c yes no span] none s →
      b.erase.elseText depth = b.elseText depth) :
    b.erase.elseText depth = b.elseText depth := by
  obtain ⟨c, yes, no, span, s, hb⟩ | ⟨hsame, -⟩ := b.else_cases
  · exact hbranch c yes no span s hb
  · obtain ⟨c, yes, no, span, s, hb⟩ | ⟨hsame', -⟩ := b.erase.else_cases
    · obtain ⟨c, yes, no, span, s, hb⟩ := holdsBranch_of_erase hb
      exact hbranch c yes no span s hb
    · rw [hsame, hsame', htext]

end Block

theorem Block.text_erase (b : Block) (depth : Nat) : b.erase.text depth = b.text depth := by
  refine (Block.induction (fun x => ∀ depth, x.erase.text depth = x.text depth)
    (fun b => ∀ depth,
      b.erase.text depth = b.text depth ∧ b.erase.elseText depth = b.elseText depth)
    ?bind ?assign ?assignTuple ?branch ?branchElse ?forRange ?whileLoop ?eval ?give ?mk b depth).1
  case bind =>
    intro t e s depth
    rw [Stmt.erase, Stmt.text, Stmt.text, t.text_erase, e.text_erase]
  case assign =>
    intro p e s depth
    rw [Stmt.erase, Stmt.text, Stmt.text, p.text_erase, e.text_erase]
  case assignTuple =>
    intro ps e s depth
    have hplaces : (ps.map Place.erase).map Place.text = ps.map Place.text := by
      rw [List.map_map]
      exact List.map_congr_left fun p _ => p.text_erase
    rw [Stmt.erase, Stmt.text, Stmt.text, hplaces, e.text_erase]
  case branch =>
    intro c yes s hyes depth
    rw [Stmt.erase, Stmt.text, Stmt.text, c.text_erase, (hyes depth).1]
  case branchElse =>
    intro c yes no s hyes hno depth
    rw [Stmt.erase, Stmt.text, Stmt.text, c.text_erase, (hyes depth).1, (hno depth).2]
  case forRange =>
    intro v a b body s hbody depth
    rw [Stmt.erase, Stmt.text, Stmt.text, a.text_erase, b.text_erase, (hbody depth).1]
  case whileLoop =>
    intro c body s hbody depth
    rw [Stmt.erase, Stmt.text, Stmt.text, c.text_erase, (hbody depth).1]
  case eval =>
    intro e s depth
    exact e.text_erase
  case give =>
    intro v s depth
    cases v with
    | none => rfl
    | some e => rw [Stmt.erase, Option.map_some, Stmt.text, Stmt.text, e.text_erase]
  case mk =>
    intro ss tail s hss depth
    have htext : (Block.mk ss tail s).erase.text depth = (Block.mk ss tail s).text depth := by
      rw [erase, text, text, linesText_erase fun x hx => hss x hx _, framed_erase]
    refine ⟨htext, elseText_erase htext ?_⟩
    rintro c yes no span s' ⟨⟩
    have hx := hss _ List.mem_cons_self depth
    cases no <;> exact hx

theorem Definition.text_erase (d : Definition) : d.erase.text = d.text := by
  simp only [erase, text, signature, List.map_map, d.body.text_erase]
  rfl

theorem Item.text_erase (i : Item) : i.erase.text = i.text := by
  cases i with
  | import_ p t s => rfl
  | constant n e s => rw [erase, text, text, e.text_erase]
  | function d s => exact d.text_erase

theorem Item.isFunction_erase (i : Item) : i.erase.isFunction = i.isFunction := by cases i <;> rfl

theorem Program.textAfter_erase (i : Item) (is : List Item) :
    textAfter i.erase (is.map Item.erase) = textAfter i is := by
  induction is generalizing i with
  | nil => rfl
  | cons j is ih =>
      rw [List.map_cons, textAfter, textAfter, ih, j.text_erase, i.isFunction_erase,
        j.isFunction_erase]

/-- A program is printed without a look at its spans. -/
theorem Program.text_erase (p : Program) : p.erase.text = p.text := by
  obtain ⟨items⟩ := p
  cases items with
  | nil => rfl
  | cons i is =>
      show i.erase.text ++ textAfter i.erase (is.map Item.erase) = i.text ++ textAfter i is
      rw [i.text_erase, textAfter_erase]

/-! ## Tokens of definitions -/

open Scan

theorem spells_markers {ms : List Ident} (h : ∀ m ∈ ms, IsName m.text) :
    Spells (fun _ => True) (String.join (ms.map fun m => "@" ++ m.text ++ "\n"))
      (ms.flatMap fun m => [some (.mark .atSign), some (.name m.text), none]) := by
  induction ms with
  | nil => exact Spells.empty
  | cons m ms ih =>
      obtain ⟨hm, hms⟩ := List.forall_mem_cons.mp h
      have hname := (Spells.name hm).opened (m := .atSign) rfl
      have hline : Spells (fun _ => True) _ _ := hname.append Spells.newline
        fun rest _ => Boundary.cons rfl (by decide) rest
      exact (hline.then (ih hms)).of_eq (by rw [List.map_cons, String.join_cons]; rfl) (by simp)

theorem Definition.spells {d : Definition} (h : d.Named)
    (hliteral : d.body.Throughout Expr.Literal) : Spells (fun _ => True) d.text d.layout := by
  have hparams : Spells Boundary (commaText (d.params.map Ident.text))
      ((commaTokens (d.params.map fun p => p.expr.tokens)).map some) :=
    spells_commas fun p hp => Expr.spells (Ident.legible_expr (h.params p hp))
  have hname := (Spells.keywordSpaced .fnWord).then (Spells.name h.name)
  have hsignature := ((hname.closed (m := .openParen) rfl).then hparams).closed
    (m := .closeParen) rfl
  have hfirst : Spells (fun _ => True) _ _ :=
    ((spells_markers h.markers).then hsignature).then Spells.space
  have hall : Spells (fun _ => True) _ _ :=
    (hfirst.then (d.body.spells h.body hliteral 0).1).then Spells.newline
  exact hall.of_eq rfl (by simp [layout, listTokens, Function.comp_def])

/-- The text of a definition determines it. -/
theorem Definition.erase_eq_of_text {d d' : Definition} (hd : d.Named) (hd' : d'.Named)
    (hliteral : d.body.Throughout Expr.Literal) (hliteral' : d'.body.Throughout Expr.Literal)
    (hlast : d.body.dropsLast = false) (hlast' : d'.body.dropsLast = false)
    (h : d.text = d'.text) : d.erase = d'.erase := by
  have hlined : ∀ {d : Definition}, d.Named → d.body.Throughout Expr.Literal →
      lined (bytesOf d.text) = d.layout := by
    intro d hd hliteral
    have hend : lined [] = [] := by simp [lined, pieces]
    have hall : lined (bytesOf d.text ++ []) = d.layout ++ lined [] :=
      (Definition.spells hd hliteral).lined trivial
    rwa [hend, List.append_nil, List.append_nil] at hall
  apply Definition.layout_inj hd hd' hlast hlast'
  rw [← hlined hd hliteral, ← hlined hd' hliteral', h]

/-! ## Fingerprints -/

/-- What is hashed of a definition. -/
def Definition.record (d : Definition) : Record :=
  Record.start .definition ++ Record.string d.text

theorem Definition.text_eq_of_record {d d' : Definition} (h : d.record = d'.record) :
    d.text = d'.text := by
  have hstring := List.append_cancel_left h
  obtain ⟨-, hbytes⟩ := List.append_inj hstring (by rw [Record.length_word, Record.length_word])
  exact bytesOf_inj hbytes

/-- Two definitions that were read have one fingerprint exactly if they differ in spans only, as
far as no two of their records share a hash. Every number in them has to be a literal that its
decimal reads back as, and no block may drop the value of its last expression. -/
theorem Definition.fingerprint_eq_iff {source source' : String} {p p' : Program}
    {d d' : Definition} (hp : Program.parse source = .ok p) (hp' : Program.parse source' = .ok p')
    (hd : d ∈ p.functions) (hd' : d' ∈ p'.functions)
    (hliteral : d.body.Throughout Expr.Literal) (hliteral' : d'.body.Throughout Expr.Literal)
    (hlast : d.body.dropsLast = false) (hlast' : d'.body.dropsLast = false)
    (collisionFree : d.record.hash = d'.record.hash → d.record = d'.record) :
    d.fingerprint = d'.fingerprint ↔ d.erase = d'.erase := by
  constructor
  · intro h
    exact erase_eq_of_text (Program.named_of_parse hp hd) (Program.named_of_parse hp' hd')
      hliteral hliteral' hlast hlast' (text_eq_of_record (collisionFree h))
  · intro h
    rw [fingerprint, fingerprint, ← d.text_erase, h, d'.text_erase]

/-! The function `f` of `x` that gives `x`, and the one that drops it. -/

/-- A function whose body is the variable `x`, as its value or, followed by a semicolon, as a
statement. -/
def Definition.single (dropped : Bool) (name param body inner : Span) : Definition where
  name := ⟨"f", name⟩
  params := [⟨"x", param⟩]
  body := if dropped then .mk [.eval (.var "x" inner) inner] none body
    else .mk [] (some (.var "x" inner)) body

theorem Definition.literal_single (name param body inner : Span) :
    (single false name param body inner).body.Throughout Expr.Literal := by
  show (Block.mk [] (some (.var "x" inner)) body).Throughout Expr.Literal
  rw [Block.throughout_mk]
  refine ⟨by simp, ?_⟩
  rintro e ⟨⟩
  exact Expr.throughout_var.mpr trivial

/-- Whether what was read is one function, and such a one. -/
def Program.isSingle (dropped : Bool) : Except (List Diagnostic) Program → Bool
  | .ok ⟨[.function ⟨[], ⟨f, _⟩, [⟨x, _⟩], .mk [] (some (.var y _)) _⟩ _]⟩ =>
    !dropped && f == "f" && x == "x" && y == "x"
  | .ok ⟨[.function ⟨[], ⟨f, _⟩, [⟨x, _⟩], .mk [.eval (.var y s) s'] none _⟩ _]⟩ =>
    dropped && f == "f" && x == "x" && y == "x" && s == s'
  | _ => false

theorem Program.exists_of_isSingle {dropped : Bool} {r : Except (List Diagnostic) Program}
    (h : isSingle dropped r = true) : ∃ name param body inner span,
      r = .ok ⟨[.function (.single dropped name param body inner) span]⟩ := by
  unfold isSingle at h
  split at h
  · simp only [Bool.and_eq_true, Bool.not_eq_true', beq_iff_eq] at h
    obtain ⟨⟨⟨rfl, rfl⟩, rfl⟩, rfl⟩ := h
    exact ⟨_, _, _, _, _, rfl⟩
  · simp only [Bool.and_eq_true, beq_iff_eq] at h
    obtain ⟨⟨⟨⟨rfl, rfl⟩, rfl⟩, rfl⟩, rfl⟩ := h
    exact ⟨_, _, _, _, _, rfl⟩
  · cases h

/-- Blanks, lines and a comment do not show in the fingerprint. -/
theorem Definition.fingerprint_eq_iff_relaidOut : ∃ d d' s s',
    Program.parse "fn f(x) \x7b x \x7d\n" = .ok ⟨[.function d s]⟩ ∧
    Program.parse "fn f(x)\n\x7b\n  x // again\n\x7d\n" = .ok ⟨[.function d' s']⟩ ∧
    d.fingerprint = d'.fingerprint := by
  have hone : Program.isSingle false (Program.parse "fn f(x) \x7b x \x7d\n") = true := by
    decide +kernel
  have hother : Program.isSingle false
      (Program.parse "fn f(x)\n\x7b\n  x // again\n\x7d\n") = true := by decide +kernel
  obtain ⟨_, _, _, _, s, hp⟩ := Program.exists_of_isSingle hone
  obtain ⟨_, _, _, _, s', hp'⟩ := Program.exists_of_isSingle hother
  have hiff := fingerprint_eq_iff hp hp' List.mem_cons_self List.mem_cons_self
    (literal_single _ _ _ _) (literal_single _ _ _ _) rfl rfl fun _ => rfl
  exact ⟨_, _, s, s', hp, hp', hiff.mpr rfl⟩

/-- A semicolon after the last expression of a block is not printed. -/
theorem Definition.fingerprint_not_eq_iff : ¬ ∀ (source source' : String) (p p' : Program)
    (d d' : Definition), Program.parse source = .ok p → Program.parse source' = .ok p' →
      d ∈ p.functions → d' ∈ p'.functions →
      (d.record.hash = d'.record.hash → d.record = d'.record) →
      (d.fingerprint = d'.fingerprint ↔ d.erase = d'.erase) := by
  intro h
  have hone : Program.isSingle true (Program.parse "fn f(x) \x7b x; \x7d\n") = true := by
    decide +kernel
  have hother : Program.isSingle false (Program.parse "fn f(x) \x7b x \x7d\n") = true := by
    decide +kernel
  obtain ⟨_, _, _, _, s, hp⟩ := Program.exists_of_isSingle hone
  obtain ⟨_, _, _, _, s', hp'⟩ := Program.exists_of_isSingle hother
  -- both are printed without the semicolon
  have herase := (h _ _ _ _ _ _ hp hp' List.mem_cons_self List.mem_cons_self fun _ => rfl).mp rfl
  injection herase with _ _ _ hbody
  cases hbody

end Graft
