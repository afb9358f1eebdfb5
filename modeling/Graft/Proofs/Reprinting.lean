import Graft.Proofs.Fingerprints
import Graft.Proofs.Parameters
import Graft.Proofs.Roundtrip

/-!
# Printed programs are read again

A program that was read from a text is printed as a text that is read as the same program, up to
spans, and printed as before. Its blocks have to keep their lines, its numbers have to be finite, and
where an exponent has a sign the parentheses that it is printed in need a level.
-/

namespace Graft

open Parse Scan

/-! ## Items -/

/-- Whether every block of the item keeps its lines. -/
def Item.keepsLines : Item → Bool
  | .function d _ => d.body.keepsLines
  | _ => true

/-- How many levels of nesting the printed item takes. -/
def Item.levels : Item → Nat
  | .function d _ => d.body.levels
  | .constant _ e _ => e.levels
  | .import_ _ _ _ => 0

/-- The tokens of a printed item, and where its lines end. -/
def Item.layout : Item → List (Option Token)
  | .import_ p _ _ => some (.word .useWord) :: (p.tokens.map some ++ [none])
  | .constant n e _ =>
    some (.word .constWord) :: some (.name n.text) :: some (.mark .assign) ::
      (e.tokens.map some ++ [none])
  | .function d _ => d.layout

/-- The words after `@` in front of the item. -/
def Item.markers : Item → List Ident
  | .function d _ => d.markers
  | _ => []

/-- The tokens of a printed item behind its markers. -/
def Item.bareTokens : Item → List Token
  | .function d _ => .word .fnWord :: .name d.name.text :: .mark .openParen ::
      (commaTokens (d.params.map fun n => n.expr.tokens) ++
        .mark .closeParen :: d.body.layout.reduceOption)
  | .import_ p _ _ => .word .useWord :: p.tokens
  | .constant n e _ => .word .constWord :: .name n.text :: .mark .assign :: e.tokens

theorem Item.tokens_layout (i : Item) : i.layout.reduceOption =
    (i.markers.flatMap fun n => [.mark .atSign, .name n.text]) ++ i.bareTokens := by
  have hmarkers : ∀ ms : List Ident, (ms.flatMap fun m => [some (Token.mark .atSign),
      some (.name m.text), none]).reduceOption =
        ms.flatMap fun n => [.mark .atSign, .name n.text] := by
    intro ms
    induction ms with
    | nil => rfl
    | cons n ms ih => rw [List.flatMap_cons, List.reduceOption_append, ih]; rfl
  cases i with
  | import_ p t s => simp [layout, markers, bareTokens, List.reduceOption_append,
      Scan.reduceOption_map_some]
  | constant n e s => simp [layout, markers, bareTokens, List.reduceOption_append,
      Scan.reduceOption_map_some]
  | function d s =>
      simp only [layout, Definition.layout, List.reduceOption_append, hmarkers,
        Scan.reduceOption_map_some]
      simp [markers, bareTokens, listTokens, Function.comp_def]

/-- A line of its own. -/
theorem Scan.Spells.line {s : String} {ts : List (Option Token)} (h : Spells Boundary s ts) :
    Spells (fun _ => True) (s ++ "\n") (ts ++ [none]) :=
  h.append Spells.newline fun rest _ => Boundary.cons rfl (by decide) rest

theorem Item.spells {i : Item} (h : i.Named) (hliteral : ∀ e ∈ i.subterms, e.Literal) :
    Spells (fun _ => True) i.text i.layout := by
  cases i with
  | import_ p t s => exact ((Spells.keywordSpaced .useWord).then (p.spells h)).line
  | constant n e s =>
      have hname := ((Spells.keywordSpaced .constWord).then (Spells.name h.1)).assigned
      have hvalue : Spells Boundary e.text (e.tokens.map some) := e.spells (h.2.legible hliteral)
      exact (hname.then hvalue).line.of_eq rfl (by simp [layout])
  | function d s => exact d.spells h hliteral

namespace Parse

open Reads

variable {m : Nat} {more ts : List Token}

/-- The tokens that an item can start with. -/
def startsItem : Token → Bool
  | .word .useWord | .word .constWord | .word .fnWord | .mark .atSign => true
  | _ => false

/-- What is ahead starts an item, or it is the end of the text. -/
def AtItem (ts : List Token) : Prop := ∀ t ∈ ts.head?, startsItem t = true

theorem AtItem.ends (h : AtItem more) : ∀ t ∈ more.head?, endsExpr t = true := by
  intro t ht
  have hstart := h t ht
  cases t with
  | word k => rfl
  | mark s => cases s <;> first | rfl | cases hstart
  | _ => cases hstart

theorem AtItem.not_heads (h : AtItem more) {s : Symbol} (hs : startsItem (.mark s) = false) :
    heads s more = false := by
  apply Parse.not_heads
  rintro t ht rfl
  rw [h _ ht] at hs
  cases hs

theorem AtItem.layout (i : Item) (ts : List Token) : AtItem (i.layout.reduceOption ++ ts) := by
  rw [i.tokens_layout]
  cases i with
  | import_ p t s => rintro _ ⟨⟩; rfl
  | constant n e s => rintro _ ⟨⟩; rfl
  | function d s =>
      obtain ⟨markers, name, params, body⟩ := d
      cases markers <;> (rintro _ ⟨⟩; rfl)

/-- The item is read again before another one, or at the end of the text. -/
def BackItem (i : Item) (more : List Token) (r : Option Item) (ts : List Token) : Prop :=
  ∃ i', r = some i' ∧ i'.erase = i.erase ∧ ts = more

theorem markerLoop_back {ms : List Ident} (hms : ∀ n ∈ ms, n.text = "fs") (hm : ms.length < m)
    (hmore : heads .atSign more = false) :
    Reads (markerLoop m) ((ms.flatMap fun n => [.mark .atSign, .name n.text]) ++ more)
      fun ms' ts => ms'.map Ident.text = ms.map Ident.text ∧ ts = more := by
  induction ms generalizing m with
  | nil =>
      obtain ⟨m, rfl⟩ := Nat.exists_eq_succ_of_ne_zero (Nat.ne_of_gt hm)
      apply Reads.isAt
      rw [show heads .atSign (([] : List Ident).flatMap _ ++ more) = false from hmore]
      exact .pure ⟨rfl, rfl⟩
  | cons n ms ih =>
      obtain ⟨m, rfl⟩ := Nat.exists_eq_succ_of_ne_zero (Nat.ne_of_gt (Nat.zero_lt_of_lt hm))
      obtain ⟨hn, hms⟩ := List.forall_mem_cons.mp hms
      apply Reads.isAt
      apply Reads.here
      intro start
      apply Reads.advance
      apply Reads.expectName
      intro n' hn'
      have hfs : (n'.text == "fs") = true := by rw [hn', hn]; rfl
      rw [hfs]
      apply (ih hms (Nat.lt_of_succ_lt_succ hm)).bind
      rintro ms' _ ⟨hms', rfl⟩
      exact .pure ⟨by rw [List.map_cons, List.map_cons, hn', hms'], rfl⟩

theorem Distinct.head {seen ps : List Ident} {p : Ident} (h : Distinct seen (p :: ps)) :
    (seen.any fun q => q.text == p.text) = false := by
  rw [List.any_eq_false]
  intro q hq
  simpa using h.2 p List.mem_cons_self q hq

theorem Distinct.tail {seen ps : List Ident} {p p' : Ident} (h : Distinct seen (p :: ps))
    (hp : p'.text = p.text) : Distinct (p' :: seen) ps := by
  obtain ⟨hnew, hnodup⟩ := List.nodup_cons.mp h.1
  refine ⟨hnodup, fun q hq => List.forall_mem_cons.mpr ⟨?_, h.2 q (List.mem_cons_of_mem p hq)⟩⟩
  intro heq
  exact hnew (List.mem_map.mpr ⟨q, hq, heq.symm.trans hp⟩)

theorem paramLoop_back {ps seen : List Ident} (hps : Distinct seen ps) (hm : ps.length < m) :
    Reads (paramLoop m seen)
      (commaTokens (ps.map fun n => n.expr.tokens) ++ .mark .closeParen :: more)
      fun ps' ts => ps'.map Ident.text = ps.map Ident.text ∧ ts = .mark .closeParen :: more := by
  induction ps generalizing m seen with
  | nil =>
      obtain ⟨m, rfl⟩ := Nat.exists_eq_succ_of_ne_zero (Nat.ne_of_gt hm)
      apply Reads.isAt
      apply Reads.isAtEnd
      exact .pure ⟨rfl, rfl⟩
  | cons p ps ih =>
      obtain ⟨m, rfl⟩ := Nat.exists_eq_succ_of_ne_zero (Nat.ne_of_gt (Nat.zero_lt_of_lt hm))
      have hfirst : ∃ rest, commaTokens ((p :: ps).map fun n => n.expr.tokens) ++
          .mark .closeParen :: more = .name p.text :: rest ∧
          rest = (if ps.isEmpty then [] else [.mark .comma]) ++
            (commaTokens (ps.map fun n => n.expr.tokens) ++ .mark .closeParen :: more) := by
        cases ps with
        | nil => exact ⟨_, rfl, rfl⟩
        | cons q ps => exact ⟨_, rfl, by simp⟩
      obtain ⟨rest, hrest, htail⟩ := hfirst
      rw [hrest]
      apply Reads.isAt
      apply Reads.isAtEnd
      apply Reads.expectName
      intro p' hp'
      have hnew : (seen.any fun q => q.text == p'.text) = false := by
        rw [hp']
        exact hps.head
      rw [hnew, htail]
      cases ps with
      | nil =>
          apply Reads.leave rfl
          exact .pure ⟨by rw [List.map_cons, List.map_cons, hp'], rfl⟩
      | cons q ps =>
          apply Reads.eat
          apply (ih (hps.tail hp') (Nat.lt_of_succ_lt_succ hm)).bind
          rintro ps' _ ⟨hps', rfl⟩
          exact .pure ⟨by rw [List.map_cons, hp', hps', ← List.map_cons], rfl⟩

theorem definition_back {d : Definition} {markers : List Ident} (hd : d.Named)
    (hparams : (d.params.map Ident.text).Nodup) (hlines : d.body.keepsLines = true)
    (hlevels : d.body.levels ≤ maxLevels)
    (hmarkers : markers.map Ident.text = d.markers.map Ident.text) :
    Reads (definition markers) (.word .fnWord :: .name d.name.text :: .mark .openParen ::
      (commaTokens (d.params.map fun n => n.expr.tokens) ++ .mark .closeParen ::
        (d.body.layout.reduceOption ++ more)))
      fun d' ts => d'.erase = d.erase ∧ ts = more := by
  apply Reads.expectWord
  apply Reads.expectName
  intro name hname
  apply Reads.expect
  apply Reads.remaining
  have hdistinct : Distinct [] d.params := ⟨hparams, fun _ _ _ hq => absurd hq List.not_mem_nil⟩
  have hlen : d.params.length < (commaTokens (d.params.map fun n => n.expr.tokens) ++
      .mark .closeParen :: (d.body.layout.reduceOption ++ more)).length := by
    have hle : d.params.length ≤ (commaTokens (d.params.map fun n => n.expr.tokens)).length :=
      length_le_commaTokens fun n _ => n.expr.opening
    rw [List.length_append, List.length_cons]
    omega
  apply (paramLoop_back hdistinct hlen).bind
  rintro params _ ⟨hps, rfl⟩
  apply Reads.expect
  apply (rereads_block d.body maxLevels more hd.body hlines hlevels).bind
  rintro body ts ⟨hbody, rfl⟩
  refine .pure ⟨?_, rfl⟩
  simp only [Definition.erase, hname, hbody, map_bare_of_texts hps, map_bare_of_texts hmarkers]

/-- An item without its markers is read again. -/
theorem item_back {i : Item} {markers : List Ident} (hi : i.Named) (hfits : FitsItem i)
    (hparams : ∀ d span, i = .function d span → (d.params.map Ident.text).Nodup)
    (hlines : i.keepsLines = true) (hlevels : i.levels ≤ maxLevels) (hmore : AtItem more)
    (hmarkers : markers.map Ident.text = i.markers.map Ident.text) (start : Span) :
    Reads (item start markers) (i.bareTokens ++ more) (BackItem i more) := by
  cases i with
  | function d span =>
      have htokens : (Item.function d span).bareTokens ++ more =
          .word .fnWord :: .name d.name.text :: .mark .openParen ::
            (commaTokens (d.params.map fun n => n.expr.tokens) ++
              .mark .closeParen :: (d.body.layout.reduceOption ++ more)) := by
        simp [Item.bareTokens]
      rw [htokens]
      apply Reads.peek
      apply (definition_back hi (hparams d span rfl) hlines hlevels hmarkers).bind
      rintro d' ts ⟨hd, rfl⟩
      apply Reads.before
      intro stop
      exact .pure ⟨_, rfl, by rw [Item.erase, Item.erase, hd], rfl⟩
  | import_ p t s =>
      apply Reads.peek
      apply Reads.expectWord
      apply Reads.here
      intro pathStart
      apply (path_reads (hmore.not_heads rfl)).followed
      rw [hfits]
      apply Reads.before
      intro stop
      exact .pure ⟨_, rfl, rfl, rfl⟩
  | constant n e s =>
      apply Reads.peek
      apply Reads.expectWord
      apply Reads.expectName
      intro n' hn
      apply Reads.expect
      apply (expr_back hi.2 hlevels hmore.ends).bind
      rintro e' ts ⟨he, rfl⟩
      apply Reads.before
      intro stop
      exact .pure ⟨_, rfl, by rw [Item.erase, Item.erase, hn, he], rfl⟩

/-- Only a function has markers. -/
theorem markers_or_function (i : Item) (more : List Token) :
    i.markers = [] ∨ headsWord .fnWord (i.bareTokens ++ more) = true := by
  cases i with
  | function d s => exact .inr rfl
  | _ => exact .inl rfl

theorem FitsItem.markers {i : Item} (h : FitsItem i) : ∀ n ∈ i.markers, n.text = "fs" := by
  cases i with
  | function d s => exact h.1
  | _ => exact fun n hn => absurd hn List.not_mem_nil

theorem markedItem_back {i : Item} (hi : i.Named) (hfits : FitsItem i)
    (hparams : ∀ d span, i = .function d span → (d.params.map Ident.text).Nodup)
    (hlines : i.keepsLines = true) (hlevels : i.levels ≤ maxLevels) (hmore : AtItem more) :
    Reads markedItem (i.layout.reduceOption ++ more) (BackItem i more) := by
  rw [i.tokens_layout, List.append_assoc]
  apply Reads.here
  intro start
  apply Reads.remaining
  have hbare : heads .atSign (i.bareTokens ++ more) = false := by cases i <;> rfl
  have hlen : i.markers.length < ((i.markers.flatMap fun n =>
      [Token.mark .atSign, .name n.text]) ++ (i.bareTokens ++ more)).length := by
    have hpos : 0 < i.bareTokens.length := by cases i <;> exact Nat.succ_pos _
    simp only [List.length_append, List.length_flatMap, List.length_cons, List.length_nil,
      List.map_const', List.sum_replicate_nat]
    omega
  apply (markerLoop_back hfits.markers hlen hbare).bind
  rintro markers _ ⟨hmarkers, rfl⟩
  apply Reads.isAtWord
  have hallowed : (!markers.isEmpty && !headsWord .fnWord (i.bareTokens ++ more)) = false := by
    rcases markers_or_function i more with h | h
    · rw [h] at hmarkers
      rw [List.map_eq_nil_iff.mp hmarkers]
      rfl
    · rw [h, Bool.not_true, Bool.and_false]
  rw [hallowed]
  exact item_back hi hfits hparams hlines hlevels hmore hmarkers start

/-- All items are read again. -/
theorem itemLoop_back {is : List Item}
    (his : ∀ i ∈ is, ∀ more, AtItem more →
      Reads markedItem (i.layout.reduceOption ++ more) (BackItem i more))
    (hm : (is.flatMap fun i => i.layout.reduceOption).length ≤ m) :
    Reads (itemLoop m) (is.flatMap fun i => i.layout.reduceOption)
      fun is' _ => is'.map Item.erase = is.map Item.erase := by
  induction is generalizing m with
  | nil =>
      cases m with
      | zero => exact .pure rfl
      | succ m =>
          apply Reads.isAtEnd
          exact .pure rfl
  | cons i is ih =>
      obtain ⟨hi, his⟩ := List.forall_mem_cons.mp his
      have hnonempty : 0 < i.layout.reduceOption.length := by
        rw [i.tokens_layout, List.length_append]
        cases i <;> exact Nat.lt_of_lt_of_le (Nat.succ_pos _) (Nat.le_add_left _ _)
      rw [List.flatMap_cons, List.length_append] at hm
      obtain ⟨m, rfl⟩ := Nat.exists_eq_succ_of_ne_zero (n := m) (by omega)
      have hnext : AtItem (is.flatMap fun i => i.layout.reduceOption) := by
        cases is with
        | nil => rintro _ ⟨⟩
        | cons j is => exact AtItem.layout j _
      rw [List.flatMap_cons, itemLoop_succ]
      apply Reads.isAtEnd
      have hsome : (i.layout.reduceOption ++
          is.flatMap fun i => i.layout.reduceOption).isEmpty = false := by
        rw [List.isEmpty_eq_false_iff, ← List.length_pos_iff, List.length_append]
        omega
      rw [hsome]
      apply (hi _ hnext).bind
      rintro _ _ ⟨i', rfl, herase, rfl⟩
      apply Reads.leave (hnext.not_heads rfl)
      apply (ih his (by omega)).bind
      rintro is' _ herases
      exact .pure (by rw [Option.toList_some, List.singleton_append, List.map_cons, List.map_cons,
        herase, herases])

end Parse

/-! ## Programs -/

namespace Program

def keepsLines (p : Program) : Bool := p.items.all Item.keepsLines

/-- The tokens of a printed program, and where its lines end. -/
def layoutAfter : Item → List Item → List (Option Token)
  | _, [] => []
  | before, item :: rest =>
    (if item.isFunction || before.isFunction then [none] else []) ++
      (item.layout ++ layoutAfter item rest)

theorem spells_after {before : Item} {is : List Item}
    (his : ∀ i ∈ is, Spells (fun _ => True) i.text i.layout) :
    Spells (fun _ => True) (textAfter before is) (layoutAfter before is) := by
  induction is generalizing before with
  | nil => exact Spells.empty
  | cons i is ih =>
      obtain ⟨hi, his⟩ := List.forall_mem_cons.mp his
      have hgap : Spells (fun _ => True) (if i.isFunction || before.isFunction then "\n" else "")
          (if i.isFunction || before.isFunction then [none] else []) := by
        split
        · exact Spells.newline
        · exact Spells.empty
      rw [textAfter, layoutAfter, ← List.append_assoc]
      exact (hgap.then hi).then (ih his)

theorem tokens_after (before : Item) (is : List Item) :
    (layoutAfter before is).reduceOption = is.flatMap fun i => i.layout.reduceOption := by
  induction is generalizing before with
  | nil => rfl
  | cons i is ih =>
      rw [layoutAfter, List.reduceOption_append, List.reduceOption_append, ih, List.flatMap_cons]
      split <;> rfl

/-- The scan of a printed program. -/
theorem scan_text {p : Program} (hp : ∀ i ∈ p.items, Spells (fun _ => True) i.text i.layout) :
    (Scan.text p.text).diagnostics = [] ∧ (Scan.text p.text).tokens.map Lexeme.token =
      p.items.flatMap fun i => i.layout.reduceOption := by
  obtain ⟨items⟩ := p
  cases items with
  | nil => exact Spells.empty.scan
  | cons i is =>
      obtain ⟨hi, his⟩ := List.forall_mem_cons.mp hp
      have hall : Spells (fun _ => True) (Program.text ⟨i :: is⟩) (i.layout ++ layoutAfter i is) :=
        hi.then (spells_after his)
      have hscan := hall.any.scan
      rw [List.reduceOption_append, tokens_after] at hscan
      exact hscan

variable {source : String} {p : Program}

/-- Every item of a program takes no more levels than there are, unless an exponent has a sign. -/
theorem levels_le (hp : parse source = .ok p) (hplain : ∀ e ∈ p.subterms, e.PlainPower) :
    ∀ i ∈ p.items, i.levels ≤ maxLevels := by
  intro i hi
  have hfits := fits_of_parse hp i hi
  have hparts : ∀ e ∈ i.subterms, e.PlainPower :=
    fun e he => hplain e (List.mem_flatMap.mpr ⟨i, hi, he⟩)
  cases i with
  | function d s => exact hfits.2 hparts
  | constant n e s => exact hfits hparts
  | import_ q t s => exact Nat.zero_le _

/-- Printed source is read again. A text that is accepted is printed as a text that is accepted, too,
and read as the same program, up to spans, so that it is printed as before. Every line of a block has
to end where its text does, and every number has to be finite; that the decimal of a finite number
reads back as the number is taken for granted. The levels of nesting only matter if an exponent has a
sign, for which the printer writes parentheses that the text need not have. -/
theorem parse_text (hp : parse source = .ok p) (hlines : p.keepsLines = true)
    (finite : ∀ x s, .num x s ∈ p.subterms → x.isFinite = true)
    (formatted : ∀ x s, .num x s ∈ p.subterms → x.isFinite = true →
      Decimal.read? (Decimal.render x).toList = some x)
    (hlevels : (∃ e ∈ p.subterms, e.raisesToSign = true) → ∀ i ∈ p.items, i.levels ≤ maxLevels) :
    ∃ q, parse p.text = .ok q ∧ q.erase = p.erase ∧ q.text = p.text := by
  have hnamed : ∀ i ∈ p.items, i.Named := fun i hi => named_of_mem hp hi
  have hspells : ∀ i ∈ p.items, Spells (fun _ => True) i.text i.layout := by
    intro i hi
    apply i.spells (hnamed i hi)
    intro e he
    have hmem : e ∈ p.subterms := List.mem_flatMap.mpr ⟨i, hi, he⟩
    apply e.literal_of_finite ((hnamed i hi).subterms e he).self
    · rintro x s rfl
      exact finite x s hmem
    · rintro x s rfl
      exact formatted x s hmem
  have hlevels : ∀ i ∈ p.items, i.levels ≤ maxLevels := by
    by_cases hsigned : ∃ e ∈ p.subterms, e.raisesToSign = true
    · exact hlevels hsigned
    · exact levels_le hp fun e he => Bool.eq_false_iff.mpr fun h => hsigned ⟨e, he, h⟩
  have hitems : ∀ i ∈ p.items, ∀ more, AtItem more →
      Reads markedItem (i.layout.reduceOption ++ more) (BackItem i more) := by
    intro i hi more hmore
    apply markedItem_back (hnamed i hi) (fits_of_parse hp i hi) ?_
      (List.all_eq_true.mp hlines i hi) (hlevels i hi) hmore
    rintro d span rfl
    exact nodup_params hp hi
  obtain ⟨hdiagnostics, htokens⟩ := scan_text hspells
  have hread := itemLoop_back (m := (Scan.text p.text).tokens.length) hitems
    (by rw [← htokens, List.length_map])
  obtain ⟨herase, -, hreports⟩ := hread
    { rest := (Scan.text p.text).tokens, stop := (Scan.text p.text).stop } htokens rfl
  have hparse : parse p.text = .ok ⟨(itemLoop (Scan.text p.text).tokens.length
      { rest := (Scan.text p.text).tokens, stop := (Scan.text p.text).stop }).1⟩ := by
    unfold parse ofScan
    rw [hdiagnostics]
    exact tokens_eq_ok.mpr ⟨hreports, rfl⟩
  have hsame : Program.erase ⟨_⟩ = p.erase := congrArg Program.mk herase
  refine ⟨_, hparse, hsame, ?_⟩
  rw [← text_erase, hsame, text_erase]

/-- Nothing stands in the way of reading the printed program again. -/
def isReadAgain (p : Program) : Bool :=
  p.keepsLines && p.subterms.all fun e => e.isFaithful && !e.raisesToSign

/-- Lines that need a semicolon, tuples, chains of conditionals and needless parentheses, on one
line. -/
def wovenText : String :=
  "use math.erf\nconst k = (2.5) ** 3\n@fs fn f(x, c) \x7b let (a, b) = (x, [1, (2)]); " ++
    "(a, b) = (b, a[0..1]); if a == (1) \x7b return; \x7d else \x7b if c \x7b erf(a,) " ++
    "\x7d else \x7b b[k] = 1; \x7d \x7d for i in 0..(k) \x7b g(i); [i] \x7d -a * (b + 1) \x7d"

def wovenLines : String :=
  "use math.erf\nconst k = 2.5 ** 3\n\n@fs\nfn f(x, c) \x7b\n    let (a, b) = (x, [1, 2]);\n" ++
    "    (a, b) = (b, a[0..1])\n    if a == 1 \x7b\n        return\n    \x7d else if c \x7b\n" ++
    "        erf(a)\n    \x7d else \x7b\n        b[k] = 1\n    \x7d\n    for i in 0..k \x7b\n" ++
    "        g(i);\n        [i]\n    \x7d\n    -a * (b + 1)\n\x7d\n"

theorem parse_text_woven : ∃ p q, parse wovenText = .ok p ∧ p.text = wovenLines ∧
    parse wovenLines = .ok q ∧ q.erase = p.erase ∧ q.text = wovenLines := by
  have hread : (parse wovenText).toOption.any isReadAgain = true := by decide +kernel
  have htext : (parse wovenText).toOption.any (fun p => p.text == wovenLines) = true := by
    decide +kernel
  cases hp : parse wovenText with
  | error reports =>
      rw [hp] at hread
      cases hread
  | ok p =>
      rw [hp] at hread htext
      have htext : p.text = wovenLines := beq_iff_eq.mp htext
      obtain ⟨hlines, hparts⟩ := Bool.and_eq_true_iff.mp hread
      have hnumber : ∀ e ∈ p.subterms, e.isFaithful = true ∧ e.raisesToSign = false := by
        intro e he
        simpa using List.all_eq_true.mp hparts e he
      obtain ⟨q, hq⟩ := parse_text hp hlines
        (fun x s hx => (Bool.and_eq_true_iff.mp (hnumber _ hx).1).1)
        (fun x s hx _ => of_decide_eq_true (Bool.and_eq_true_iff.mp (hnumber _ hx).1).2)
        (fun ⟨e, he, hsigned⟩ => absurd hsigned (Bool.eq_false_iff.mp (hnumber e he).2))
      rw [htext] at hq
      exact ⟨p, q, rfl, htext, hq⟩

/-- A bare `return` takes the next line for its value, which is printed in its line then. -/
theorem parse_not_text : ¬ ∀ (source : String) (p : Program), parse source = .ok p →
    ∃ q, parse p.text = .ok q ∧ q.erase = p.erase := by
  intro h
  have hchanged : (parse "fn f(x) \x7b return; g(x) \x7d").toOption.any (fun p =>
      (parse p.text).toOption.any fun q => q.text != p.text) = true := by decide +kernel
  cases hp : parse "fn f(x) \x7b return; g(x) \x7d" with
  | error reports =>
      rw [hp] at hchanged
      cases hchanged
  | ok p =>
      obtain ⟨q, hq, herase⟩ := h _ p hp
      have hsame : q.text = p.text := by rw [← text_erase, herase, text_erase]
      have hdiffers : (parse p.text).toOption.any (fun q => q.text != p.text) = true := by
        rw [hp] at hchanged
        exact hchanged
      rw [hq] at hdiffers
      exact bne_iff_ne.mp hdiffers hsame

end Program

end Graft
