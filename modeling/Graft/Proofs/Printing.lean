import Graft.Proofs.Spelling
import Graft.Proofs.Trees
import Graft.Tree.Printer

/-!
# The tokens of printed expressions

Printed expressions have the tokens that the tree says, whatever follows at a boundary. A number has
to be one that a text can have: finite, not negative, and read back from its decimal.
-/

namespace Graft

open Scan

/-! ## Numbers -/

/-- Digits, or digits on both sides of a point. -/
def IsDecimal (cs : List Char) : Prop :=
  ∃ whole fraction, cs = whole ++ fraction ∧ whole ≠ [] ∧ (∀ c ∈ whole, c.isDigit = true) ∧
    (fraction = [] ∨ ∃ more, fraction = '.' :: more ∧ more ≠ [] ∧ ∀ c ∈ more, c.isDigit = true)

theorem IsDecimal.of_digits {cs : List Char} (hne : cs ≠ []) (h : ∀ c ∈ cs, c.isDigit = true) :
    IsDecimal cs := ⟨cs, [], by simp, hne, h, .inl rfl⟩

theorem IsDecimal.of_point {whole more : List Char} (hwhole : whole ≠ []) (hmore : more ≠ [])
    (h : ∀ c ∈ whole ++ more, c.isDigit = true) : IsDecimal (whole ++ '.' :: more) := by
  refine ⟨whole, '.' :: more, rfl, hwhole, ?_, .inr ⟨more, rfl, hmore, ?_⟩⟩
  · exact fun c hc => h c (List.mem_append_left _ hc)
  · exact fun c hc => h c (List.mem_append_right _ hc)

theorem Decimal.Digits.isDecimal_positional (d : Decimal.Digits) :
    IsDecimal d.positional.toList := by
  have hdigits : ∀ c ∈ Nat.toDigits 10 d.coefficient, c.isDigit = true :=
    fun c hc => Nat.isDigit_of_mem_toDigits (by decide) (by decide) hc
  have hne : Nat.toDigits 10 d.coefficient ≠ [] := Nat.toDigits_ne_nil
  have hzeros : ∀ n, ∀ c ∈ List.replicate n '0', c.isDigit = true := by
    intro n c hc
    rw [(List.mem_replicate.mp hc).2]
    rfl
  rw [positional]
  generalize Nat.toDigits 10 d.coefficient = digits at hdigits hne
  dsimp only
  split
  · rw [String.toList_append, String.toList_ofList, zeros, String.toList_ofList]
    apply IsDecimal.of_digits
    · simp [hne]
    · intro c hc
      rcases List.mem_append.mp hc with hc | hc
      · exact hdigits c hc
      · exact hzeros _ c hc
  · split
    · next hexponent hpoint =>
      have hpos : 0 < ((digits.length : Int) + d.exponent).toNat := by omega
      have hlt : ((digits.length : Int) + d.exponent).toNat < digits.length := by omega
      generalize ((digits.length : Int) + d.exponent).toNat = n at hpos hlt
      have hchars : (String.ofList (digits.take n) ++ "." ++ String.ofList (digits.drop n)).toList =
          digits.take n ++ '.' :: digits.drop n := by simp
      rw [hchars]
      apply IsDecimal.of_point
      · rw [Ne, List.take_eq_nil_iff, not_or]
        exact ⟨Nat.ne_of_gt hpos, hne⟩
      · rw [Ne, List.drop_eq_nil_iff]
        omega
      · rwa [List.take_append_drop]
    · generalize (-((digits.length : Int) + d.exponent)).toNat = n
      have hchars : ("0." ++ zeros n ++ String.ofList digits).toList =
          ['0'] ++ '.' :: (List.replicate n '0' ++ digits) := by simp [zeros]
      rw [hchars]
      apply IsDecimal.of_point
      · simp
      · simp [hne]
      · intro c hc
        rcases List.mem_append.mp hc with hc | hc
        · rw [List.mem_singleton.mp hc]
          rfl
        · rcases List.mem_append.mp hc with hc | hc
          · exact hzeros _ c hc
          · exact hdigits c hc

/-- A number that a literal can stand for, and that its decimal reads back as. -/
structure IsLiteral (x : Float) : Prop where
  number : x.isNaN = false
  finite : x.isInf = false
  positive : Decimal.negative x = false
  readsBack : Decimal.read? (Decimal.render x).toList = some x

theorem IsLiteral.numberText_eq {x : Float} (h : IsLiteral x) :
    numberText x = Decimal.render x := by
  simp only [numberText, h.number, h.finite, Bool.false_eq_true, if_false]

theorem IsLiteral.isDecimal {x : Float} (h : IsLiteral x) : IsDecimal (numberText x).toList := by
  rw [h.numberText_eq, Decimal.render]
  simp only [h.number, h.finite, h.positive, Bool.false_eq_true, if_false]
  split
  · exact .of_digits (by simp) (by simp)
  · rw [String.empty_append]
    exact Decimal.Digits.isDecimal_positional _

/-- The byte of a character below 128. -/
def byteOf (c : Char) : UInt8 := c.val.toUInt8

theorem byteOf_digit {c : Char} (h : c.isDigit = true) :
    Scan.isDigit (byteOf c) = true ∧ Char.ofUInt8 (byteOf c) = c := by
  have hbounds : 48 ≤ c.val.toNat ∧ c.val.toNat ≤ 57 := by
    simpa [Char.isDigit, UInt32.le_iff_toNat_le] using h
  have hbyte : (byteOf c).toNat = c.val.toNat := by
    rw [byteOf, UInt32.toNat_toUInt8]
    omega
  constructor
  · simp only [Scan.isDigit, Bool.and_eq_true, decide_eq_true_eq, UInt8.le_iff_toNat_le, hbyte]
    exact hbounds
  · apply Char.ext
    apply UInt32.toNat_inj.mp
    simpa [val_ofUInt8] using hbyte

theorem byteOf_digits {cs : List Char} (h : ∀ c ∈ cs, c.isDigit = true) :
    (∀ b ∈ cs.map byteOf, Scan.isDigit b = true) ∧ (cs.map byteOf).map Char.ofUInt8 = cs := by
  constructor
  · intro b hb
    obtain ⟨c, hc, rfl⟩ := List.mem_map.mp hb
    exact (byteOf_digit (h c hc)).1
  · rw [List.map_map]
    exact (List.map_congr_left fun c hc => (byteOf_digit (h c hc)).2).trans (List.map_id cs)

/-- What is printed for a literal is read as that literal. -/
theorem isNumeral_numberText {x : Float} (h : IsLiteral x) : IsNumeral (numberText x) x := by
  obtain ⟨whole, fraction, hs, hne, hwhole, hfraction⟩ := h.isDecimal
  obtain ⟨c, whole, rfl⟩ := List.exists_cons_of_ne_nil hne
  have hbytes := byteOf_digits hwhole
  -- the bytes of the fraction, which are read back as its characters
  obtain ⟨bytes, hpoint, hback⟩ : ∃ bytes : List UInt8, (bytes = [] ∨ ∃ d more,
      bytes = 46 :: d :: more ∧ ∀ x ∈ d :: more, Scan.isDigit x = true) ∧
      bytes.map Char.ofUInt8 = fraction := by
    obtain rfl | ⟨more, rfl, hmore, hdigits⟩ := hfraction
    · exact ⟨[], .inl rfl, rfl⟩
    · obtain ⟨d, more, rfl⟩ := List.exists_cons_of_ne_nil hmore
      have hbytes := byteOf_digits hdigits
      refine ⟨46 :: (d :: more).map byteOf, .inr ⟨_, _, rfl, hbytes.1⟩, ?_⟩
      rw [List.map_cons, hbytes.2]
      rfl
  have hchars : (byteOf c :: (whole.map byteOf ++ bytes)).map Char.ofUInt8 =
      (numberText x).toList := by
    rw [← List.cons_append, ← List.map_cons, List.map_append, hbytes.2, hback, hs]
  refine ⟨byteOf c, whole.map byteOf, bytes, ?_, hbytes.1, hpoint, ?_⟩
  · rw [asciiText, hchars, String.ofList_toList]
  · rw [hchars, h.numberText_eq]
    exact h.readsBack

/-! ## Tokens of expressions -/

/-- The mark of an operator between two operands. -/
def BinaryOp.symbol : BinaryOp → Symbol
  | .or => .orOr
  | .and => .andAnd
  | .eq => .equal
  | .ne => .notEqual
  | .lt => .less
  | .le => .lessEqual
  | .gt => .greater
  | .ge => .greaterEqual
  | .add => .plus
  | .sub => .minus
  | .mul => .star
  | .div => .slash
  | .rem => .percent
  | .pow => .starStar

/-- The mark of an operator before one operand. -/
def UnaryOp.symbol : UnaryOp → Symbol
  | .neg => .minus
  | .not => .bang

theorem BinaryOp.text_symbol (op : BinaryOp) : op.symbol.text = op.text := by cases op <;> rfl

theorem UnaryOp.text_symbol (op : UnaryOp) : op.symbol.text = op.text := by cases op <;> rfl

def Path.tokens (p : Path) : List Token :=
  .name p.first :: p.rest.flatMap fun n => [.mark .dot, .name n]

/-- The tokens in parentheses if `needed`. -/
def parenTokens (needed : Bool) (ts : List Token) : List Token :=
  if needed then .mark .openParen :: (ts ++ [.mark .closeParen]) else ts

/-- Tokens joined by commas. -/
def commaTokens : List (List Token) → List Token
  | [] => []
  | [ts] => ts
  | ts :: rest => ts ++ .mark .comma :: commaTokens rest

namespace Expr

/-- The tokens of the expression as it is printed. -/
def tokens : Expr → List Token
  | .num x _ => [.number x]
  | .bool b _ => [.word (if b then .trueWord else .falseWord)]
  | .var n _ => [.name n]
  | .path p _ => p.tokens
  | .binary op l r _ =>
    let rightGrouping := op == .pow
    parenTokens (l.needsParens op.power rightGrouping) l.tokens ++ .mark op.symbol ::
      parenTokens (r.needsParens op.power (!rightGrouping)) r.tokens
  | .unary op e _ => .mark op.symbol :: parenTokens e.needsParensSigned e.tokens
  | .call c _ args _ =>
    c.tokens ++ .mark .openParen :: (commaTokens (tokensAll args) ++ [.mark .closeParen])
  | .index e i _ =>
    parenTokens e.needsParensIndexed e.tokens ++ .mark .openBracket ::
      (i.tokens ++ [.mark .closeBracket])
  | .slice e a b _ =>
    parenTokens e.needsParensIndexed e.tokens ++ .mark .openBracket ::
      (a.tokens ++ .mark .dotDot :: (b.tokens ++ [.mark .closeBracket]))
  | .array es _ => .mark .openBracket :: (commaTokens (tokensAll es) ++ [.mark .closeBracket])
  | .tuple [e] _ => .mark .openParen :: (e.tokens ++ [.mark .comma, .mark .closeParen])
  | .tuple es _ => .mark .openParen :: (commaTokens (tokensAll es) ++ [.mark .closeParen])
where
  tokensAll : List Expr → List (List Token)
    | [] => []
    | e :: es => e.tokens :: tokensAll es

theorem tokensAll_eq (es : List Expr) : tokens.tokensAll es = es.map tokens := by
  induction es with
  | nil => rfl
  | cons e es ih => rw [tokens.tokensAll, ih, List.map_cons]

theorem texts_eq (es : List Expr) : text.texts es = es.map text := by
  induction es with
  | nil => rfl
  | cons e es ih => rw [text.texts, ih, List.map_cons]

end Expr

/-- A tuple is its first element, a comma and the others, whether there are any or not. -/
theorem Expr.tokens_tuple_cons (e : Expr) (es : List Expr) (s : Span) :
    (Expr.tuple (e :: es) s).tokens = .mark .openParen :: (e.tokens ++
      .mark .comma :: (commaTokens (es.map tokens) ++ [.mark .closeParen])) := by
  cases es with
  | nil => rfl
  | cons f es =>
      show Token.mark .openParen :: (commaTokens (tokens.tokensAll (e :: f :: es)) ++
        [.mark .closeParen]) = _
      simp [tokensAll_eq, commaTokens]

/-! ## Trees that a text can have -/

/-- Every name in the path is one. -/
def Path.Named (p : Path) : Prop := ∀ n ∈ p.parts, IsName n

namespace Expr

/-- What holds of every part of an expression that was read from a text: its names are names, a
number has no sign, a path that stands alone is qualified, and a tuple has an element. -/
def Named : Expr → Prop
  | .num x _ => Decimal.negative x = false
  | .var n _ => IsName n
  | .path p _ => p.Named ∧ p.isQualified = true
  | .call p _ _ _ => p.Named
  | .tuple es _ => es ≠ []
  | _ => True

/-- A part that is a number is a literal. -/
def Literal : Expr → Prop
  | .num x _ => IsLiteral x
  | _ => True

/-- The printed expression has the tokens that the tree says. -/
def Legible (e : Expr) : Prop := e.Throughout fun x => x.Named ∧ x.Literal

end Expr

/-! ## How expressions start -/

/-- The tokens that an expression can start with. -/
def Token.opens : Token → Bool
  | .word .trueWord | .word .falseWord | .number _ | .name _ => true
  | .mark .openParen | .mark .openBracket | .mark .minus | .mark .bang => true
  | _ => false

/-- The tokens start like an expression. -/
def Opening (ts : List Token) : Prop := ∃ t more, ts = t :: more ∧ t.opens = true

theorem Opening.append {ts : List Token} (h : Opening ts) (more : List Token) :
    Opening (ts ++ more) := by
  obtain ⟨t, rest, rfl, ht⟩ := h
  exact ⟨t, rest ++ more, rfl, ht⟩

theorem Opening.parens {ts : List Token} (h : Opening ts) (needed : Bool) :
    Opening (parenTokens needed ts) := by
  cases needed
  · exact h
  · exact ⟨_, _, rfl, rfl⟩

theorem Expr.opening (e : Expr) : Opening e.tokens := by
  induction e with
  | num x s => exact ⟨_, _, rfl, rfl⟩
  | bool b s => exact ⟨.word (if b then .trueWord else .falseWord), [], rfl, by cases b <;> rfl⟩
  | var n s => exact ⟨_, _, rfl, rfl⟩
  | path p s => exact ⟨_, _, rfl, rfl⟩
  | binary op l r s ihl ihr => exact (ihl.parens _).append _
  | unary op e s ih => exact ⟨_, _, rfl, by cases op <;> rfl⟩
  | call p t args s ih => exact ⟨_, _, rfl, rfl⟩
  | index e i s ihe ihi => exact (ihe.parens _).append _
  | slice e a b s ihe iha ihb => exact (ihe.parens _).append _
  | array es s ih => exact ⟨_, _, rfl, rfl⟩
  | tuple es s ih =>
      cases es with
      | nil => exact ⟨_, _, rfl, rfl⟩
      | cons e es => cases es <;> exact ⟨_, _, rfl, rfl⟩

/-! ## How expressions are spelled -/

namespace Scan

variable {follow : List UInt8 → Prop} {s : String} {ts : List (Option Token)}

/-- A mark ends names and numbers, but a single point does not. -/
theorem boundary_mark {m : Symbol} (h : m ≠ .dot) (rest : List UInt8) :
    Boundary (bytesOf m.text ++ rest) := by
  cases m with
  | dot => exact absurd rfl h
  | dotDot => exact Boundary.point_cons rfl rest
  | _ => exact Boundary.cons rfl (by decide) _

theorem ne_dot_of_growth {m : Symbol} (h : growth? m = none) : m ≠ .dot := by
  rintro rfl
  cases h

/-- A mark behind what ends at a boundary. -/
theorem Spells.closed {m : Symbol} (hm : growth? m = none) (h : Spells Boundary s ts) :
    Spells (fun _ => True) (s ++ m.text) (ts ++ [some (.mark m)]) :=
  h.append (Spells.mark hm) fun rest _ => boundary_mark (ne_dot_of_growth hm) rest

/-- A mark before a text. -/
theorem Spells.opened {m : Symbol} (hm : growth? m = none) (h : Spells follow s ts) :
    Spells follow (m.text ++ s) (some (.mark m) :: ts) := (Spells.mark hm).then h

theorem Spells.spaced (h : Spells Boundary s ts) : Spells (fun _ => True) (s ++ " ") ts := by
  simpa using h.append Spells.space fun rest _ => Boundary.cons rfl (by decide) rest

theorem apart_space (m : Symbol) (rest : List UInt8) : Apart m (bytesOf " " ++ rest) := by
  intro b hb
  show some (32 : UInt8) ≠ some b
  cases m <;> cases hb <;> decide

theorem Spells.symbolSpaced {m : Symbol} (h : Spells (Apart m) s ts) :
    Spells (fun _ => True) (s ++ " ") ts := by
  simpa using h.append Spells.space fun rest _ => apart_space m rest

/-- What starts like an expression does not make a longer mark of `!`. -/
theorem Spells.apart_bang {ts : List Token} (h : Spells Boundary s (ts.map some))
    (hopen : Opening ts) {rest : List UInt8} (hrest : Boundary rest) :
    Apart .bang (bytesOf s ++ rest) := by
  rintro b ⟨⟩ hhead
  obtain ⟨more, hbytes⟩ := List.head?_eq_some_iff.mp hhead
  obtain ⟨t, others, rfl, ht⟩ := hopen
  obtain ⟨ps, hps, hts, -⟩ := h rest hrest
  rw [hbytes, pieces_cons] at hps
  cases ps with
  | nil => cases hts
  | cons q ps =>
      obtain ⟨rfl, -⟩ := List.cons.inj hps
      -- a piece that starts with this byte is one of two marks, and neither opens an expression
      have hpiece : (Scan.piece 61 more).1 = .token (.mark .equal) ∨
          (Scan.piece 61 more).1 = .token (.mark .assign) := by
        simp only [Scan.piece, isBlank, isNameStart, isDigit, markPiece, double?]
        by_cases hgrows : more.head? = some 61 <;> simp [hgrows]
      rcases hpiece with hpiece | hpiece <;>
      · rw [hpiece] at hts
        obtain rfl := Option.some.inj (List.cons.inj hts).1
        cases ht

theorem Spells.parens {ts : List Token} (h : Spells Boundary s (ts.map some))
    (needed : Bool) :
    Spells Boundary (parenthesize needed s) ((parenTokens needed ts).map some) := by
  cases needed
  · exact h
  · rw [parenthesize, if_pos rfl, String.append_assoc]
    simpa [parenTokens, Symbol.text] using
      ((h.closed (m := .closeParen) rfl).opened (m := .openParen) rfl).any

end Scan

/-- Texts joined by commas have the tokens joined by commas. -/
theorem Scan.spells_commas {α : Type} {text : α → String} {tokens : α → List Token} {xs : List α}
    (h : ∀ x ∈ xs, Spells Boundary (text x) ((tokens x).map some)) :
    Spells Boundary (commaText (xs.map text)) ((commaTokens (xs.map tokens)).map some) := by
  induction xs with
  | nil => exact Spells.empty
  | cons x rest ih =>
      have hx := h x List.mem_cons_self
      cases rest with
      | nil => exact hx
      | cons y rest =>
          have hrest := ih fun z hz => h z (List.mem_cons_of_mem x hz)
          have htext : commaText ((x :: y :: rest).map text) =
              text x ++ Symbol.comma.text ++ " " ++ commaText ((y :: rest).map text) := by
            rw [commaText, List.map_cons, List.map_cons, String.intercalate_cons_cons,
              @String.append_assoc (text x) Symbol.comma.text " "]
            rfl
          have htokens : (commaTokens ((x :: y :: rest).map tokens)).map some =
              (tokens x).map some ++ [some (Token.mark .comma)] ++ [] ++
                (commaTokens ((y :: rest).map tokens)).map some := by
            simp [commaTokens]
          rw [htext, htokens]
          exact ((hx.closed rfl).then Spells.space).then hrest

theorem Scan.IsWord.start {s : String} (h : IsWord s) :
    ∃ b more, bytesOf s = b :: more ∧ isNameStart b = true := by
  obtain ⟨b, more, rfl, hstart, hmore⟩ := h.spelled
  exact ⟨b, more, bytesOf_asciiText (ascii_of_word hstart hmore), hstart⟩

theorem Scan.not_digit_of_nameStart {b : UInt8} (h : isNameStart b = true) :
    isDigit b = false ∧ b ≠ 46 := by
  simp only [isNameStart, isDigit, Bool.or_eq_true, Bool.and_eq_true, decide_eq_true_eq,
    beq_iff_eq, Bool.and_eq_false_iff, decide_eq_false_iff_not, UInt8.le_iff_toNat_le, ne_eq,
    ← UInt8.toNat_inj] at h ⊢
  simp at h ⊢
  omega

/-- The names of a path joined by points. A number does not go on with a point before a name. -/
theorem Path.spells {p : Path} (h : p.Named) : Spells Boundary p.dotted (p.tokens.map some) := by
  obtain ⟨first, rest⟩ := p
  suffices hboth : Spells Boundary (Path.dotted ⟨first, rest⟩)
        ((Path.tokens ⟨first, rest⟩).map some) ∧
      ∃ b more, bytesOf (Path.dotted ⟨first, rest⟩) = b :: more ∧ isNameStart b = true from hboth.1
  induction rest generalizing first with
  | nil =>
      have hfirst : IsName first := h first List.mem_cons_self
      exact ⟨Spells.name hfirst, hfirst.toIsWord.start⟩
  | cons n rest ih =>
      have hfirst : IsName first := h first List.mem_cons_self
      obtain ⟨hrest, b, more, hbytes, hb⟩ := ih n fun m hm => h m (List.mem_cons_of_mem first hm)
      obtain ⟨hdigit, hpoint⟩ := not_digit_of_nameStart hb
      have hdotted : Path.dotted ⟨first, n :: rest⟩ = first ++ ("." ++ Path.dotted ⟨n, rest⟩) := by
        rw [dotted, parts, String.intercalate_cons_cons, String.append_assoc]
        rfl
      have hmark : Spells Boundary ("." ++ Path.dotted ⟨n, rest⟩)
          ([some (.mark .dot)] ++ (Path.tokens ⟨n, rest⟩).map some) := by
        apply (Spells.symbol .dot).append hrest
        rintro more' - c ⟨⟩
        rw [hbytes]
        simpa using hpoint
      rw [hdotted]
      constructor
      · apply (Spells.name hfirst).append hmark
        intro more' _
        rw [bytesOf_append, hbytes]
        exact Boundary.point_cons hdigit _
      · obtain ⟨c, others, hc, hstart⟩ := hfirst.toIsWord.start
        exact ⟨c, _, by rw [bytesOf_append, hc, List.cons_append], hstart⟩

namespace Expr

variable {e l r i a b : Expr} {es : List Expr} {s t : Span}

theorem spells {e : Expr} (h : e.Legible) : Spells Boundary e.text (e.tokens.map some) := by
  induction e with
  | num x s => exact Spells.number (isNumeral_numberText h.self.2)
  | bool b s =>
      cases b
      · exact Spells.keyword .falseWord
      · exact Spells.keyword .trueWord
  | var n s => exact Spells.name h.self.1
  | path p s => exact p.spells h.self.1.1
  | binary op l r s ihl ihr =>
      obtain ⟨hl, hr, -⟩ := throughout_binary.mp h
      have hleft : Spells (fun _ => True) _ _ :=
        ((ihl hl).parens (l.needsParens op.power (op == .pow))).spaced
      have hop := (hleft.then (Spells.symbol op.symbol)).symbolSpaced
      have hboth := hop.then ((ihr hr).parens (r.needsParens op.power (!op == .pow)))
      rw [op.text_symbol] at hboth
      rw [text, tokens]
      simpa using hboth
  | unary op e s ih =>
      obtain ⟨he, -⟩ := throughout_unary.mp h
      have hoperand := (ih he).parens e.needsParensSigned
      cases op
      · exact hoperand.opened (m := .minus) rfl
      · exact (Spells.symbol .bang).append hoperand fun rest hrest =>
          hoperand.apart_bang (e.opening.parens _) hrest
  | call p t args s ih =>
      obtain ⟨hargs, hp, -⟩ := throughout_call.mp h
      have hlist := spells_commas fun x hx => ih x hx (hargs x hx)
      have hall := (((p.spells hp).closed (m := .openParen) rfl).then hlist).closed
        (m := .closeParen) rfl
      rw [text, tokens, texts_eq, tokensAll_eq]
      simpa [Symbol.text] using hall.any
  | index e i s ihe ihi =>
      obtain ⟨he, hi, -⟩ := throughout_index.mp h
      have hbase := ((ihe he).parens e.needsParensIndexed).closed (m := .openBracket) rfl
      have hall := (hbase.then (ihi hi)).closed (m := .closeBracket) rfl
      rw [text, tokens]
      simpa [Symbol.text] using hall.any
  | slice e a b s ihe iha ihb =>
      obtain ⟨he, ha, hb, -⟩ := throughout_slice.mp h
      have hbase := ((ihe he).parens e.needsParensIndexed).closed (m := .openBracket) rfl
      have hrange := ((hbase.then (iha ha)).closed (m := .dotDot) rfl).then (ihb hb)
      have hall := hrange.closed (m := .closeBracket) rfl
      rw [text, tokens]
      simpa [Symbol.text] using hall.any
  | array es s ih =>
      obtain ⟨hes, -⟩ := throughout_array.mp h
      have hlist := spells_commas fun x hx => ih x hx (hes x hx)
      have hall := (hlist.opened (m := .openBracket) rfl).closed
        (m := .closeBracket) rfl
      rw [text, tokens, texts_eq, tokensAll_eq]
      simpa [Symbol.text] using hall.any
  | tuple es s ih =>
      obtain ⟨hes, -⟩ := throughout_tuple.mp h
      have hlist := spells_commas fun x hx => ih x hx (hes x hx)
      cases es with
      | nil => exact (Spells.mark (m := .openParen) rfl).then (Spells.mark (m := .closeParen) rfl)
      | cons e es =>
          cases es with
          | nil =>
              have hone := (hlist.opened (m := .openParen) rfl).closed (m := .comma) rfl
              have hall : Spells Boundary _ _ := hone.then (Spells.mark (m := .closeParen) rfl)
              rw [text, tokens]
              rw [String.append_assoc] at hall
              simpa [Symbol.text, commaText, commaTokens] using hall
          | cons f es =>
              have hall := (hlist.opened (m := .openParen) rfl).closed (m := .closeParen) rfl
              rw [tokens_tuple_cons]
              show Spells Boundary ("(" ++ commaText (text.texts (e :: f :: es)) ++ ")") _
              rw [texts_eq]
              simpa [Symbol.text, commaTokens] using hall.any

end Expr

end Graft
