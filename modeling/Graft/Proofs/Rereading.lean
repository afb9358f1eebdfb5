import Graft.Tree.Parser

/-!
# Reading without a report

What a step of reading does is told by the tokens ahead, spans apart. `Reads` says that a step reads
a list of tokens with nothing to report, what it gives, and what it leaves; there is one rule for
each small step of the parser before what follows it.
-/

namespace Graft.Parse

/-- The tokens ahead. -/
def Cursor.tokens (c : Cursor) : List Token := c.rest.map Lexeme.token

/-- Where `ts` is ahead, `x` reports nothing and refuses no level, and `Q` holds of what it gives and
of the tokens that it leaves. -/
def Reads {α : Type} (x : Parse α) (ts : List Token) (Q : α → List Token → Prop) : Prop :=
  ∀ c : Cursor, c.tokens = ts → c.refused = 0 →
    Q (x c).1 (x c).2.tokens ∧ (x c).2.refused = 0 ∧ (x c).2.reports = c.reports

namespace Reads

variable {α β : Type} {x : Parse α} {f : α → Parse β} {ts : List Token} {t : Token}
  {P : α → List Token → Prop} {Q : β → List Token → Prop}

theorem pure {a : α} (h : P a ts) : Reads (pure a) ts P := by
  rintro c rfl hc
  exact ⟨h, hc, rfl⟩

theorem bind (hx : Reads x ts P) (hf : ∀ a ts', P a ts' → Reads (f a) ts' Q) :
    Reads (x >>= f) ts Q := by
  intro c hts hc
  obtain ⟨hvalue, hrefused, hreports⟩ := hx c hts hc
  obtain ⟨hvalue', hrefused', hreports'⟩ := hf _ _ hvalue _ rfl hrefused
  exact ⟨hvalue', hrefused', hreports'.trans hreports⟩

/-- A step that gives `a` and leaves the tokens `rest`. -/
theorem followed {a : α} {rest : List Token} (hx : Reads x ts fun b ts' => b = a ∧ ts' = rest)
    (hf : Reads (f a) rest Q) : Reads (x >>= f) ts Q := by
  apply hx.bind
  rintro _ _ ⟨rfl, rfl⟩
  exact hf

/-- A step that only looks. -/
theorem look {h : Cursor → α} {a : α} (hh : ∀ c : Cursor, c.tokens = ts → h c = a)
    (hf : Reads (f a) ts Q) : Reads ((do return h (← get)) >>= f) ts Q := by
  intro c hts hc
  show Q (f (h c) c).1 (f (h c) c).2.tokens ∧ (f (h c) c).2.refused = 0 ∧
    (f (h c) c).2.reports = c.reports
  rw [hh c hts]
  exact hf c hts hc

theorem peek {f : Option Token → Parse β} (hf : Reads (f ts.head?) ts Q) :
    Reads (peek >>= f) ts Q := by
  refine look ?_ hf
  rintro c rfl
  rw [Cursor.tokens, List.head?_map]
  rfl

theorem remaining {f : Nat → Parse β} (hf : Reads (f ts.length) ts Q) :
    Reads (remaining >>= f) ts Q := by
  refine look ?_ hf
  rintro c rfl
  rw [Cursor.tokens, List.length_map]

theorem isAtEnd {f : Bool → Parse β} (hf : Reads (f ts.isEmpty) ts Q) :
    Reads (isAtEnd >>= f) ts Q := by
  refine look ?_ hf
  rintro c rfl
  rw [Cursor.tokens, List.isEmpty_map]
  rfl

/-- Whether the mark is ahead. -/
def heads (s : Symbol) : List Token → Bool
  | .mark t :: _ => t == s
  | _ => false

theorem isAt {s : Symbol} {f : Bool → Parse β} (hf : Reads (f (heads s ts)) ts Q) :
    Reads (isAt s >>= f) ts Q := by
  refine look ?_ hf
  rintro c rfl
  rw [Cursor.isAt, Cursor.peek, Cursor.tokens]
  cases c.rest with
  | nil => rfl
  | cons l rest =>
      obtain ⟨t, span⟩ := l
      cases t <;> rfl

/-- Whatever span is told. -/
theorem span {h : Cursor → Span} {f : Span → Parse β} (hf : ∀ s, Reads (f s) ts Q) :
    Reads ((do return h (← get)) >>= f) ts Q := fun c => hf (h c) c

theorem here {f : Span → Parse β} (hf : ∀ s, Reads (f s) ts Q) : Reads (here >>= f) ts Q := span hf

theorem before {f : Span → Parse β} (hf : ∀ s, Reads (f s) ts Q) : Reads (before >>= f) ts Q :=
  span hf

theorem advance {f : Unit → Parse β} (hf : Reads (f ()) ts Q) :
    Reads (advance >>= f) (t :: ts) Q := by
  intro c hts hc
  have htail : c.advance.tokens = ts := by
    rw [Cursor.tokens, Cursor.advance_rest, List.map_tail]
    exact congrArg List.tail hts
  have hsame : c.advance.refused = 0 ∧ c.advance.reports = c.reports := by
    unfold Cursor.advance
    split
    · exact ⟨hc, rfl⟩
    · exact ⟨hc, rfl⟩
  obtain ⟨hvalue, hrefused, hreports⟩ := hf c.advance htail hsame.1
  exact ⟨hvalue, hrefused, hreports.trans hsame.2⟩

theorem mono {P' : α → List Token → Prop} (hx : Reads x ts P) (h : ∀ a ts', P a ts' → P' a ts') :
    Reads x ts P' := by
  intro c hts hc
  obtain ⟨hvalue, hsame⟩ := hx c hts hc
  exact ⟨h _ _ hvalue, hsame⟩

theorem eat {s : Symbol} {f : Bool → Parse β} (hf : Reads (f true) ts Q) :
    Reads (eat s >>= f) (.mark s :: ts) Q := by
  have hate : Reads (Parse.eat s) (.mark s :: ts) fun b ts' => b = true ∧ ts' = ts := by
    apply isAt
    rw [show heads s (.mark s :: ts) = true from beq_self_eq_true s]
    exact advance (pure ⟨rfl, rfl⟩)
  exact hate.followed hf

theorem leave {s : Symbol} {f : Bool → Parse β} (hs : heads s ts = false)
    (hf : Reads (f false) ts Q) : Reads (Parse.eat s >>= f) ts Q := by
  have hleft : Reads (Parse.eat s) ts fun b ts' => b = false ∧ ts' = ts := by
    apply isAt
    rw [hs]
    exact pure ⟨rfl, rfl⟩
  exact hleft.followed hf

theorem expect {s : Symbol} {f : Unit → Parse β} (hf : Reads (f ()) ts Q) :
    Reads (expect s >>= f) (.mark s :: ts) Q := by
  have hexpected : Reads (Parse.expect s) (.mark s :: ts) fun _ ts' => () = () ∧ ts' = ts :=
    eat (pure ⟨rfl, rfl⟩)
  exact hexpected.followed hf

/-- Whether the reserved word is ahead. -/
def headsWord (k : Keyword) : List Token → Bool
  | .word l :: _ => l == k
  | _ => false

theorem isAtWord {k : Keyword} {f : Bool → Parse β} (hf : Reads (f (headsWord k ts)) ts Q) :
    Reads (isAtWord k >>= f) ts Q := by
  refine look ?_ hf
  rintro c rfl
  rw [Cursor.isAtWord, Cursor.peek, Cursor.tokens]
  cases c.rest with
  | nil => rfl
  | cons l rest =>
      obtain ⟨t, span⟩ := l
      cases t <;> rfl

theorem eatWord {k : Keyword} {f : Bool → Parse β} (hf : Reads (f true) ts Q) :
    Reads (eatWord k >>= f) (.word k :: ts) Q := by
  have hate : Reads (Parse.eatWord k) (.word k :: ts) fun b ts' => b = true ∧ ts' = ts := by
    apply isAtWord
    rw [show headsWord k (.word k :: ts) = true from beq_self_eq_true k]
    exact advance (pure ⟨rfl, rfl⟩)
  exact hate.followed hf

theorem leaveWord {k : Keyword} {f : Bool → Parse β} (hk : headsWord k ts = false)
    (hf : Reads (f false) ts Q) : Reads (Parse.eatWord k >>= f) ts Q := by
  have hleft : Reads (Parse.eatWord k) ts fun b ts' => b = false ∧ ts' = ts := by
    apply isAtWord
    rw [hk]
    exact pure ⟨rfl, rfl⟩
  exact hleft.followed hf

theorem expectWord {k : Keyword} {f : Unit → Parse β} (hf : Reads (f ()) ts Q) :
    Reads (expectWord k >>= f) (.word k :: ts) Q := by
  have hexpected : Reads (Parse.expectWord k) (.word k :: ts) fun _ ts' => () = () ∧ ts' = ts :=
    eatWord (pure ⟨rfl, rfl⟩)
  exact hexpected.followed hf

theorem name {n : String} {f : Option Ident → Parse β}
    (hf : ∀ i : Ident, i.text = n → Reads (f (some i)) ts Q) :
    Reads (name? >>= f) (.name n :: ts) Q := by
  have hname : Reads name? (.name n :: ts) fun i ts' => (∃ span, i = some ⟨n, span⟩) ∧ ts' = ts :=
    peek (here fun s => advance (pure ⟨⟨s, rfl⟩, rfl⟩))
  refine hname.bind ?_
  rintro _ _ ⟨⟨span, rfl⟩, rfl⟩
  exact hf _ rfl

theorem expectName {n : String} {f : Ident → Parse β}
    (hf : ∀ i : Ident, i.text = n → Reads (f i) ts Q) :
    Reads (expectName >>= f) (.name n :: ts) Q := by
  have hname : Reads Parse.expectName (.name n :: ts) fun i ts' => i.text = n ∧ ts' = ts :=
    name fun i hi => pure ⟨hi, rfl⟩
  refine hname.bind ?_
  rintro i _ ⟨hi, rfl⟩
  exact hf i hi

theorem deeper {levels : Nat} {stub : Span → α} (h : Reads x ts P) :
    Reads (deeper (levels + 1) stub x) ts P := by
  intro c hts hc
  have hrun : Parse.deeper (levels + 1) stub x c = x c := by
    show (if levels + 1 ≤ c.refused then _ else _ : Parse α) c = _
    rw [hc, if_neg (by omega)]
  rw [hrun]
  exact h c hts hc

end Reads

end Graft.Parse
