import Graft.Proofs.Reading
import Graft.Proofs.Scanning
import Graft.Proofs.Trees
import Graft.Pass.Source
import Graft.Module

/-!
# Definitions read again

The bytes of a definition, from its first marker to its closing brace, have the tokens that it was
read from, and reading these gives the definition again, at the same places. So the source of a
function that came from a text gives back the item that made it, and the function that is made of
this unit differs by the marker `fs` only: every expression that was read has a place, and none is
given another one.
-/

namespace Graft

theorem Function.fixSpans_of_placed {d : Definition} (h : d.body.Placed) : fixSpans d = d := by
  have hbody : (d.body.mapM (m := Id) fun e =>
      if e.span.isDummy then e.withSpan d.body.span else e).run = d.body := by
    refine Block.mapM_eq_self fun e he => ?_
    dsimp only
    rw [(h e he).not_dummy]
    rfl
  unfold fixSpans
  dsimp only
  rw [hbody]

namespace Parse

/-! ## Items -/

/-- Reads one item with its markers. -/
def markedItem : Parse (Option Item) := do
  let start ← here
  let markers ← markerLoop (← remaining)
  if !markers.isEmpty && !(← isAtWord .fnWord) then report .strayMarker
  item start markers

theorem itemLoop_succ (fuel : Nat) : itemLoop (fuel + 1) = do
    if ← isAtEnd then return []
    else
      let read ← markedItem
      let _ ← eat .semicolon
      let more ← itemLoop fuel
      return read.toList ++ more := by
  rw [itemLoop]
  refine bind_congr fun ended => ?_
  split
  · rfl
  · simp only [markedItem, bind_assoc]
    refine bind_congr fun start => bind_congr fun n => bind_congr fun markers =>
      bind_congr fun atFunction => ?_
    split <;> simp only [bind_assoc]

theorem itemLoop_apply (fuel : Nat) {c : Cursor} (h : c.rest ≠ []) :
    itemLoop (fuel + 1) c =
      ((markedItem c).1.toList ++ (itemLoop fuel (eat .semicolon (markedItem c).2).2).1,
        (itemLoop fuel (eat .semicolon (markedItem c).2).2).2) := by
  have hend : ¬ c.isAtEnd = true := by simpa [Cursor.isAtEnd] using h
  rw [itemLoop_succ]
  show (if c.isAtEnd = true then _ else _ : Parse (List Item)) c = _
  rw [if_neg hend]
  rfl

theorem itemLoop_nil (fuel : Nat) {c : Cursor} (h : c.rest = []) : itemLoop fuel c = ([], c) := by
  cases fuel with
  | zero => rfl
  | succ fuel =>
      have hend : c.isAtEnd = true := by simpa [Cursor.isAtEnd] using h
      rw [itemLoop_succ]
      show (if c.isAtEnd = true then _ else _ : Parse (List Item)) c = _
      rw [if_pos hend]
      rfl

variable {c : Cursor} {d : Definition} {span : Span}

theorem markedItem_onward (hc : c.Placed) : c.Onward (markedItem c).2 := by
  have h : Local 0 c.stop 1 c markedItem markedItem fun _ _ => True := by
    refine .here fun start _ => .remaining ((markerLoop_local c).bind fun markers e _ _ =>
      .isAtWord ?_)
    have last : ∀ e, Local 0 c.stop 1 e (item start markers) (item start markers) fun _ _ => True :=
      fun e => (item_local markers e).mono fun _ _ _ _ => trivial
    exact .ite (fun _ => (Local.report _).bind fun _ e _ _ => last e) fun _ => last e
  exact (h hc).onward

theorem eat_onward (s : Symbol) (c : Cursor) : c.Onward (eat s c).2 := by
  rw [eat_apply]
  split
  · exact .advance c
  · exact .refl c

theorem itemLoop_onward (fuel : Nat) (hc : c.Placed) : c.Onward (itemLoop fuel c).2 := by
  induction fuel generalizing c with
  | zero => exact .refl c
  | succ fuel ih =>
      by_cases hnil : c.rest = []
      · rw [itemLoop_nil _ hnil]
        exact .refl c
      · rw [itemLoop_apply fuel hnil]
        have h := (markedItem_onward hc).trans (eat_onward .semicolon (markedItem c).2)
        exact h.trans (ih (h.placed hc))

/-- Every item was read at some place on the way. -/
theorem exists_markedItem {i : Item} (fuel : Nat) (hc : c.Placed)
    (hclear : (itemLoop fuel c).2.reports = c.reports) (h : i ∈ (itemLoop fuel c).1) :
    ∃ e, c.Onward e ∧ e.reports = c.reports ∧ (markedItem e).2.reports = e.reports ∧
      (markedItem e).1 = some i := by
  induction fuel generalizing c with
  | zero => exact absurd h List.not_mem_nil
  | succ fuel ih =>
      by_cases hnil : c.rest = []
      · rw [itemLoop_nil _ hnil] at h
        exact absurd h List.not_mem_nil
      · rw [itemLoop_apply fuel hnil] at hclear h
        have hitem := markedItem_onward hc
        have hnext := hitem.trans (eat_onward .semicolon (markedItem c).2)
        have hrest := itemLoop_onward fuel (hnext.placed hc)
        obtain ⟨hclear₁, hclear₂⟩ := hnext.clear hrest hclear
        rcases List.mem_append.mp h with h | h
        · refine ⟨c, .refl c, rfl, ?_, Option.mem_toList.mp h⟩
          exact (hitem.clear (eat_onward .semicolon _) hclear₁).1
        · obtain ⟨e, he, hreports, hrun⟩ := ih (hnext.placed hc) hclear₂ h
          exact ⟨e, hnext.trans he, hreports.trans hclear₁, hrun⟩

theorem markedItem_of_markers {markers : List Ident} {e : Cursor}
    (h : markerLoop c.rest.length c = (markers, e)) : markedItem c =
      (if !markers.isEmpty && !e.isAtWord .fnWord then
        (report .strayMarker >>= fun _ => item c.here markers : Parse (Option Item))
      else item c.here markers) e := by
  show (fun r : List Ident × Cursor => (if !r.1.isEmpty && !r.2.isAtWord .fnWord then
      (report .strayMarker >>= fun _ => item c.here r.1 : Parse (Option Item))
    else item c.here r.1) r.2) (markerLoop c.rest.length c) = _
  rw [h]

theorem item_apply {start : Span} {markers : List Ident} {e e' : Cursor}
    (he : e.peek = some (.word .fnWord)) (h : definition markers e = (d, e')) :
    item start markers e = (some (.function d (start.merge e'.before)), e') := by
  have hpeek : ∀ f : Option Token → Parse (Option Item), (peek >>= f) e = f e.peek e := fun _ => rfl
  have hbind : ∀ (x : Parse Definition) (f : Definition → Parse (Option Item)),
      (x >>= f) e = f (x e).1 (x e).2 := fun _ _ => rfl
  unfold item
  rw [hpeek, he]
  dsimp only
  rw [hbind, h]
  rfl

/-- What reading a function comes to: its markers, then a definition. -/
theorem markedItem_apply {markers : List Ident} {e e' : Cursor}
    (hmarkers : markerLoop c.rest.length c = (markers, e)) (he : e.peek = some (.word .fnWord))
    (h : definition markers e = (d, e')) :
    markedItem c = (some (.function d (c.here.merge e'.before)), e') := by
  have hword : e.isAtWord .fnWord = true := by simp [Cursor.isAtWord, he]
  rw [markedItem_of_markers hmarkers]
  simp only [hword, Bool.not_true, Bool.and_false, Bool.false_eq_true, if_false]
  exact item_apply he h

theorem exists_markers (hc : c.Placed) (h : (markedItem c).1 = some (.function d span)) :
    ∃ markers e, markerLoop c.rest.length c = (markers, e) ∧ e.peek = some (.word .fnWord) := by
  obtain ⟨⟨markers, e⟩, hmarkers⟩ : ∃ r, markerLoop c.rest.length c = r := ⟨_, rfl⟩
  have hon : c.Onward e := by
    have hloop : Local 0 c.stop 1 c (markerLoop c.rest.length) (markerLoop c.rest.length)
        fun _ _ => True := markerLoop_local c
    have := (hloop hc).onward
    rwa [hmarkers] at this
  have atFunction : ∀ e : Cursor, e.Placed →
      (item c.here markers e).1 = some (.function d span) → e.peek = some (.word .fnWord) := by
    intro e he hread
    have hitem : Local 0 c.stop 1 e (item c.here markers) (item c.here markers) fun read _ =>
        ∀ d span, read = some (.function d span) → e.peek = some (.word .fnWord) :=
      item_local markers e
    exact (hitem he).value d span hread
  refine ⟨markers, e, hmarkers, ?_⟩
  rw [markedItem_of_markers hmarkers] at h
  split at h
  · exact atFunction (e.report .strayMarker e.here) ((Cursor.Onward.report _ _ _).placed
      (hon.placed hc)) h
  · exact atFunction e (hon.placed hc) h

/-- A function that was read without a report ends with the closing brace of its body, and it is read
again when everything behind the brace is cut off. -/
theorem markedItem_cut {e : Cursor} (hc : c.Placed)
    (h : markedItem c = (some (.function d span), e)) (hclear : e.reports = c.reports) :
    c.Closes e ∧ d.body.Placed ∧ span = c.here.merge e.before ∧
      ∀ stop, markedItem (c.cut e.rest.length stop) =
        (some (.function d span), e.cut e.rest.length stop) := by
  obtain ⟨markers, c₁, hmarkers, hpeek⟩ := exists_markers hc (congrArg Prod.fst h)
  obtain ⟨⟨d', e'⟩, hdefinition⟩ : ∃ r, definition markers c₁ = r := ⟨_, rfl⟩
  rw [markedItem_apply hmarkers hpeek hdefinition] at h
  cases h
  -- first the markers, then the definition, both without a report
  have hloop : ∀ k stop, Local.Ends k stop 1 c (markerLoop c.rest.length)
      (markerLoop (c.rest.length - k)) fun _ _ => True := fun k stop => markerLoop_local c hc
  have hon : c.Onward c₁ := by
    have := (hloop 0 c.stop).onward
    rwa [hmarkers] at this
  have hbody : ∀ k stop, Local.Ends k stop 0 c₁ (definition markers) (definition markers)
      fun d e => d.body.Placed ∧ (e.reports = c₁.reports → c₁.Closes e) :=
    fun k stop => definition_local markers c₁ (hon.placed hc)
  obtain ⟨hon', ⟨hplaced, hcloses⟩, -⟩ := hbody 0 c.stop
  rw [hdefinition] at hon' hplaced hcloses
  obtain ⟨hclear₁, hclear₂⟩ := hon.clear hon' hclear
  have hcloses := hcloses hclear₂
  refine ⟨hon.closes hcloses, hplaced, rfl, fun stop => ?_⟩
  generalize hk : e.rest.length = k
  have hlong : k < c₁.rest.length := hk ▸ hcloses.lt
  have hlong' : k < c.rest.length := Nat.lt_of_lt_of_le hlong hon.le
  have hmarkers' : markerLoop (c.cut k stop).rest.length (c.cut k stop) =
      (markers, c₁.cut k stop) := by
    have hcut := (hloop k stop).cut
    rw [hmarkers] at hcut
    rw [Cursor.cut_length (Nat.le_of_lt hlong')]
    exact hcut hclear₁ hlong hlong'
  have hdefinition' : definition markers (c₁.cut k stop) = (d, e.cut k stop) := by
    have hcut := (hbody k stop).cut
    rw [hdefinition] at hcut
    exact hcut hclear₂ (Nat.le_of_eq hk.symm) hlong
  obtain ⟨front, l, hrest, -⟩ := hcloses
  have hpeek' : (c₁.cut k stop).peek = some (.word .fnWord) := by rw [Cursor.cut_peek hlong, hpeek]
  rw [markedItem_apply hmarkers' hpeek' hdefinition',
    Cursor.cut_before (hon'.behind_of_passed hrest), Cursor.cut_here hlong']

/-! The place behind the first token of an item is not asked for. -/

theorem bind_run_congr {α β : Type} {x : Parse α} {f : α → Parse β} {c c' : Cursor}
    (h : x c = x c') : (x >>= f) c = (x >>= f) c' := by
  show f (x c).1 (x c).2 = f (x c').1 (x c').2
  rw [h]

theorem advance_behind (h : c.rest ≠ []) (b : Option Span) :
    advance { c with behind := b } = advance c := by
  show ((), Cursor.advance { c with behind := b }) = ((), Cursor.advance c)
  unfold Cursor.advance
  cases hc : c.rest with
  | nil => exact absurd hc h
  | cons l rest => rfl

theorem markerLoop_behind (n : Nat) (h : c.isAt .atSign = true) (b : Option Span) :
    markerLoop (n + 1) { c with behind := b } = markerLoop (n + 1) c := by
  have hrun : ∀ e : Cursor, e.isAt .atSign = true → markerLoop (n + 1) e = (do
      advance
      let name ← expectName
      unless name.text == "fs" do reportAt (.unknownMarker name.text) name.span
      return (⟨name.text, e.here.merge name.span⟩ : Ident) :: (← markerLoop n)) e := by
    intro e he
    show (if e.isAt .atSign = true then _ else _ : Parse (List Ident)) e = _
    rw [if_pos he]
    rfl
  rw [hrun _ h, hrun { c with behind := b } h]
  exact bind_run_congr (advance_behind (Cursor.ne_nil_of_isAt h) b)

theorem markerLoop_none (n : Nat) (h : ¬ c.isAt .atSign = true) : markerLoop n c = ([], c) := by
  cases n with
  | zero => rfl
  | succ n =>
      show (if c.isAt .atSign = true then _ else _ : Parse (List Ident)) c = _
      rw [if_neg h]
      rfl

theorem definition_behind {markers : List Ident} (h : c.peek = some (.word .fnWord))
    (b : Option Span) : definition markers { c with behind := b } = definition markers c := by
  have hword : c.isAtWord .fnWord = true := by simp [Cursor.isAtWord, h]
  have hrun : ∀ e : Cursor, e.isAtWord .fnWord = true → expectWord .fnWord e = advance e := by
    intro e he
    show (fun r : Bool × Cursor => (if r.1 = true then (pure () : Parse Unit) else _) r.2)
      ((if e.isAtWord .fnWord = true then (advance >>= fun _ => pure true : Parse Bool) else _) e) = _
    rw [if_pos he]
    rfl
  refine bind_run_congr ?_
  rw [hrun _ hword, hrun { c with behind := b } hword,
    advance_behind (Cursor.ne_nil_of_isAtWord hword) b]

theorem markedItem_behind {e : Cursor} (hc : c.Placed)
    (h : markedItem c = (some (.function d span), e)) (b : Option Span) :
    markedItem { c with behind := b } = markedItem c := by
  obtain ⟨markers, c₁, hmarkers, hpeek⟩ := exists_markers hc (congrArg Prod.fst h)
  obtain ⟨⟨d', e'⟩, hdefinition⟩ : ∃ r, definition markers c₁ = r := ⟨_, rfl⟩
  rw [markedItem_apply hmarkers hpeek hdefinition]
  by_cases hat : c.isAt .atSign = true
  · obtain ⟨n, hn⟩ : ∃ n, c.rest.length = n + 1 :=
      ⟨c.rest.length - 1, by have := List.length_pos_iff.mpr (Cursor.ne_nil_of_isAt hat); omega⟩
    rw [hn] at hmarkers
    have hmarkers' : markerLoop c.rest.length { c with behind := b } = (markers, c₁) := by
      rw [hn, markerLoop_behind n hat b, hmarkers]
    exact markedItem_apply hmarkers' hpeek hdefinition
  · rw [markerLoop_none _ hat] at hmarkers
    cases hmarkers
    have hdefinition' : definition [] { c with behind := b } = (d', e') := by
      rw [definition_behind hpeek b, hdefinition]
    exact markedItem_apply (markerLoop_none _ hat) hpeek hdefinition'

end Parse

/-! ## Texts -/

namespace Parse

theorem tokens_eq_ok {lexemes : List Lexeme} {stop : Span} {p : Program} :
    tokens lexemes stop = .ok p ↔
      (itemLoop lexemes.length { rest := lexemes, stop }).2.reports = [] ∧
        p = ⟨(itemLoop lexemes.length { rest := lexemes, stop }).1⟩ := by
  unfold tokens
  show (if (itemLoop lexemes.length { rest := lexemes, stop }).2.reports.isEmpty = true then
    Except.ok (⟨(itemLoop lexemes.length { rest := lexemes, stop }).1⟩ : Program) else _) = _ ↔ _
  split
  · next h => simp [List.isEmpty_iff.mp h, eq_comm]
  · next h =>
      have h := mt List.isEmpty_iff.mpr h
      simp [h]

/-- What is left of a text after the item that a part of it holds is nothing. -/
theorem tokens_part {c e : Cursor} {d : Definition} {span stop : Span} (hc : c.Placed)
    (hstop : stop.Placed) (h : markedItem c = (some (.function d span), e))
    (hclear : e.reports = c.reports) (hreports : c.reports = []) (hrefused : c.refused = 0) :
    tokens (c.rest.take (c.rest.length - e.rest.length)) stop = .ok ⟨[.function d span]⟩ := by
  obtain ⟨hcloses, -, -, hcut⟩ := markedItem_cut hc h hclear
  have hlt := hcloses.lt
  -- the cursor at the start of the part is that of the whole text, with nothing behind
  have hstart : ({ rest := c.rest.take (c.rest.length - e.rest.length), stop } : Cursor) =
      { c.cut e.rest.length stop with behind := none } := by
    unfold Cursor.cut
    rw [hreports, hrefused]
  have hitem : markedItem { rest := c.rest.take (c.rest.length - e.rest.length), stop } =
      (some (.function d span), e.cut e.rest.length stop) := by
    rw [hstart, markedItem_behind (hc.cut hstop) (hcut stop) none, hcut stop]
  have hnil : (e.cut e.rest.length stop).rest = [] := by simp [Cursor.cut]
  have heat : eat .semicolon (e.cut e.rest.length stop) = (false, e.cut e.rest.length stop) := by
    rw [eat_apply, if_neg]
    exact fun hat => Cursor.ne_nil_of_isAt hat hnil
  have hlength : (c.rest.take (c.rest.length - e.rest.length)).length =
      c.rest.length - e.rest.length - 1 + 1 := by
    rw [List.length_take]
    omega
  have hloop : itemLoop (c.rest.take (c.rest.length - e.rest.length)).length
      { rest := c.rest.take (c.rest.length - e.rest.length), stop } =
        ([.function d span], e.cut e.rest.length stop) := by
    rw [hlength, itemLoop_apply _ (List.ne_nil_of_length_eq_add_one hlength), hitem]
    dsimp only
    rw [heat, itemLoop_nil _ hnil]
    rfl
  rw [tokens_eq_ok, hloop]
  exact ⟨hclear.trans hreports, rfl⟩

end Parse

/-! ## Texts -/

theorem Scan.placed_of_range {source : String} {start stop : Nat} {l : Lexeme}
    (h : l ∈ (Scan.range source start stop).tokens) : l.span.Placed := by
  have := (Scan.scanFrom_after _ _ _ l h).2
  unfold Span.Placed
  omega

/-- From the first token of a part of a text to its last one. -/
theorem Scan.merge_of_text {source : String} {front part back : List Lexeme} {first last : Lexeme}
    (h : (Scan.text source).tokens = front ++ part ++ back) (hfirst : part.head? = some first)
    (hlast : part.getLast? = some last) :
    first.span.merge last.span = ⟨first.span.start, last.span.stop⟩ := by
  have hpart : part <:+: (Scan.text source).tokens := ⟨front, back, h.symm⟩
  have hmem : ∀ l ∈ part, l ∈ (Scan.text source).tokens := fun l hl => hpart.subset hl
  have hfirst' := placed_of_range (hmem first (List.mem_of_head? hfirst))
  have hlast' := placed_of_range (hmem last (List.mem_of_getLast? hlast))
  have horder : first.span.start ≤ last.span.start ∧ first.span.stop ≤ last.span.stop := by
    have hsorted : part.Pairwise fun l m => l.span.stop ≤ m.span.start := by
      refine List.Pairwise.sublist hpart.sublist ?_
      rw [Scan.text_eq]
      exact Scan.scanFrom_ordered _ _ _
    have hsome : ∀ l ∈ part, l.span.start < l.span.stop := by
      intro l hl
      have := hmem l hl
      rw [Scan.text_eq] at this
      exact (Scan.scanFrom_after _ _ _ l this).2
    obtain ⟨tail, rfl⟩ := List.head?_eq_some_iff.mp hfirst
    rcases List.mem_cons.mp (List.mem_of_getLast? hlast) with rfl | htail
    · exact ⟨Nat.le_refl _, Nat.le_refl _⟩
    · have hnext := (List.pairwise_cons.mp hsorted).1 last htail
      have h₁ := hsome first List.mem_cons_self
      have h₂ := hsome last (List.mem_cons_of_mem _ htail)
      omega
  unfold Span.merge
  rw [hfirst'.not_dummy, hlast'.not_dummy]
  simp only [Bool.false_eq_true, if_false, Span.mk.injEq]
  omega

/-- The start of a part of a text that has an item is a place. -/
theorem Parse.placed_start {source : String} {start stop : Nat}
    (h : (Scan.range source start stop).tokens ≠ []) :
    Cursor.Placed { rest := (Scan.range source start stop).tokens
                    stop := (Scan.range source start stop).stop } := by
  refine ⟨fun l => Scan.placed_of_range, ?_, fun _ hs => nomatch hs⟩
  unfold Scan.range at h ⊢
  dsimp only at h ⊢
  rw [Scan.scanFrom_stop]
  show 0 < min stop source.toUTF8.data.toList.length
  refine Nat.pos_of_ne_zero fun hzero => h ?_
  rw [hzero, List.take_zero, List.drop_nil, Scan.scanFrom]

/-- An item of a text that is accepted was read somewhere on the way, without a report. -/
theorem Program.exists_markedItem_of_ofScan {source : String} {start stop : Nat} {p : Program}
    {i : Item} (hp : ofScan (Scan.range source start stop) = .ok p) (hi : i ∈ p.items) :
    ∃ c : Parse.Cursor, c.Placed ∧ (Parse.markedItem c).1 = some i ∧
      (Parse.markedItem c).2.reports = c.reports := by
  unfold ofScan at hp
  split at hp
  · obtain ⟨hclear, rfl⟩ := Parse.tokens_eq_ok.mp hp
    have hne : (Scan.range source start stop).tokens ≠ [] := by
      intro hnil
      rw [hnil] at hi
      exact absurd hi List.not_mem_nil
    have hstart := Parse.placed_start hne
    obtain ⟨c, hon, -, hclear', hread⟩ := Parse.exists_markedItem _ hstart hclear hi
    exact ⟨c, hon.placed hstart, hread, hclear'⟩
  · cases hp

/-- In a definition that was read every expression has a place. -/
theorem Program.placed_of_ofScan {source : String} {start stop : Nat} {p : Program} {d : Definition}
    {span : Span} (hp : ofScan (Scan.range source start stop) = .ok p)
    (hd : .function d span ∈ p.items) : d.body.Placed := by
  obtain ⟨c, hc, hread, hclear⟩ := exists_markedItem_of_ofScan hp hd
  exact (Parse.markedItem_cut hc (Prod.ext hread rfl) hclear).2.1

/-- A definition of a text stands in a part that ends with a closing brace, and the part reads as
the definition. -/
theorem Program.ofScan_part {source : String} {p : Program} {d : Definition} {span : Span}
    (hp : parse source = .ok p) (hd : .function d span ∈ p.items) :
    d.body.Placed ∧
      ofScan (Scan.range source span.start span.stop) = .ok ⟨[.function d span]⟩ := by
  unfold parse ofScan at hp
  split at hp
  · next hdiagnostics =>
    obtain ⟨hclear, rfl⟩ := Parse.tokens_eq_ok.mp hp
    have hne : (Scan.text source).tokens ≠ [] := by
      intro hnil
      rw [hnil] at hd
      exact absurd hd List.not_mem_nil
    have hstart := Parse.placed_start hne
    obtain ⟨c, hon, hreports, hclear', hread⟩ := Parse.exists_markedItem _ hstart hclear hd
    obtain ⟨e, he⟩ : ∃ e, (Parse.markedItem c).2 = e := ⟨_, rfl⟩
    have hrun : Parse.markedItem c = (some (.function d span), e) := Prod.ext hread he
    have hc := hon.placed hstart
    have hon' : c.Onward e := he ▸ Parse.markedItem_onward hc
    rw [he] at hclear'
    obtain ⟨⟨front, last, hrest, hbrace⟩, hbody, hspan, -⟩ := Parse.markedItem_cut hc hrun hclear'
    refine ⟨hbody, ?_⟩
    obtain ⟨before, hbefore, -⟩ := hon.passed
    -- the tokens of the definition, from its first one to the closing brace
    have hpart : c.rest = (front ++ [last]) ++ e.rest := by simp [hrest]
    have htokens : (Scan.text source).tokens = before ++ (front ++ [last]) ++ e.rest := by
      rw [List.append_assoc, ← hpart]
      exact hbefore
    have htake : c.rest.take (c.rest.length - e.rest.length) = front ++ [last] := by
      rw [hpart, List.length_append, Nat.add_sub_cancel, List.take_left]
    obtain ⟨first, hfirst⟩ : ∃ first, (front ++ [last]).head? = some first := by
      cases front <;> simp
    have hlast : (front ++ [last]).getLast? = some last := List.getLast?_concat
    have hplace : span = ⟨first.span.start, last.span.stop⟩ := by
      have hhere : c.here = first.span := by
        obtain ⟨tail, htail⟩ := List.head?_eq_some_iff.mp hfirst
        unfold Parse.Cursor.here
        rw [hpart, htail]
        rfl
      have hbehind : e.before = last.span := by
        unfold Parse.Cursor.before
        rw [hon'.behind_of_passed hrest]
        rfl
      rw [hspan, hhere, hbehind, Scan.merge_of_text htokens hfirst hlast]
    rw [hplace, Scan.range_part htokens (List.isEmpty_iff.mp hdiagnostics) hfirst hlast hbrace,
      ← hplace]
    have hplaced : Span.Placed ⟨last.span.stop, last.span.stop⟩ := by
      have hmem : last ∈ (Scan.text source).tokens := by simp [htokens]
      exact Scan.placed_of_range hmem
    have hread := Parse.tokens_part hc hplaced hrun hclear' hreports
      (hon.refused hreports)
    rwa [htake] at hread
  · cases hp

namespace Function

theorem placed_of_extract {f : Function} {d : Definition} {span : Span}
    (h : f.extract = .ok ⟨[.function d span]⟩) : d.body.Placed := by
  unfold extract at h
  split at h
  · cases h
  · split at h
    · next hunit =>
        cases h
        exact Program.placed_of_ofScan hunit List.mem_cons_self
    · cases h

theorem extract_build {file : SourceText} {p : Program} {d : Definition} {span : Span}
    (hp : Program.parse file.text = .ok p) (hd : .function d span ∈ p.items) (id : Nat)
    (home : NamespaceId) (captures : List (String × Value)) :
    (build id d (.source file span) home captures).extract = .ok ⟨[.function d span]⟩ := by
  unfold extract build
  simp only [(Program.ofScan_part hp hd).2]

theorem reassemble_build {file : SourceText} {d : Definition} {span : Span} (hd : d.body.Placed)
    (id newId : Nat) (home : NamespaceId) (captures : List (String × Value)) :
    (build id d (.source file span) home captures).reassemble newId ⟨[.function d span]⟩ =
      .ok (build newId { d with markers := d.markers.filter fun m => m.text ≠ "fs" }
        (.source file span) home captures) := by
  have hlocate : (build id d (.source file span) home captures).locate? ⟨[.function d span]⟩ =
      some d := by
    simp [locate?, build, Function.name, declaredAt]
  unfold reassemble definitionIn
  simp only [hlocate]
  rw [fixSpans_of_placed (d := { d with markers := d.markers.filter fun m => m.text ≠ "fs" }) hd]
  rfl

end Function

/-- What holds of the function that a text's item is bound to as a callable `c`: its source gives back
the item, at the same places, and the function that is made of the unit again is the same one without
the marker `fs`. -/
structure Item.Recovered (d : Definition) (span : Span) (home : NamespaceId) (c : Callable)
    (f : Function) : Prop where
  plain : c.plain? = some f
  definition : f.definition = d
  home : f.home = home
  extract : f.extract = .ok ⟨[.function d span]⟩
  reassemble : ∀ id, ∃ g, f.reassemble id ⟨[.function d span]⟩ = .ok g ∧
    g.definition.name = f.definition.name ∧ g.definition.params = f.definition.params ∧
    g.definition.body = f.definition.body ∧ g.captures = f.captures ∧ g.home = f.home ∧
    g.definition.isMarked "fs" = false

theorem Definition.isMarked_filter (d : Definition) (name : String) :
    Definition.isMarked { d with markers := d.markers.filter fun m => m.text ≠ name } name =
      false := by
  unfold isMarked
  rw [List.any_eq_false]
  intro m hm
  have := (List.mem_filter.mp hm).2
  simpa using this

/-- Every function of a text that reads without a mistake is recovered from the text: nothing around
its item has a part in how the item is read. -/
theorem Item.callableOf_recovered {file : SourceText} {p : Program} {d : Definition} {span : Span}
    (hp : Program.parse file.text = .ok p) (hd : .function d span ∈ p.items) (home : NamespaceId)
    (w : World) :
    ∃ c w' f, callableOf home d (.source file span) w = (.ok c, w') ∧
      Recovered d span home c f := by
  have recovered : ∀ (id : Nat) (c : Callable),
      c.plain? = some (.build id d (.source file span) home []) →
      Recovered d span home c (.build id d (.source file span) home []) := by
    intro id c hplain
    refine ⟨hplain, rfl, rfl, Function.extract_build hp hd id home [], fun newId => ?_⟩
    have hplaced := (Program.ofScan_part hp hd).1
    exact ⟨_, Function.reassemble_build hplaced id newId home [], rfl, rfl, rfl, rfl, rfl,
      d.isMarked_filter "fs"⟩
  by_cases hmarked : d.isMarked "fs" = true
  · refine ⟨.gateway ⟨w.nextId + 1, .build w.nextId d (.source file span) home []⟩,
      { w with nextId := w.nextId + 2 }, _, ?_, recovered _ _ rfl⟩
    show (if d.isMarked "fs" = true then _ else _ : Act Callable)
      { w with nextId := w.nextId + 1 } = _
    rw [if_pos hmarked]
    rfl
  · refine ⟨.function (.build w.nextId d (.source file span) home []),
      { w with nextId := w.nextId + 1 }, _, ?_, recovered _ _ rfl⟩
    show (if d.isMarked "fs" = true then _ else _ : Act Callable)
      { w with nextId := w.nextId + 1 } = _
    rw [if_neg hmarked]
    rfl

/-- A marked function with comments around it, and another function after it. -/
def markedText : String :=
  "// one \x7d\n@fs // two \x7b\nfn f(x) \x7b !(x || x) \x7d // \x7d\nfn g(y) \x7b f(y) \x7d"

/-- The program is of two functions, at these places. -/
def Program.isFunctionsAt (s t : Span) : Except (List Diagnostic) Program → Bool
  | .ok ⟨[.function _ s', .function _ t']⟩ => decide (s' = s ∧ t' = t)
  | _ => false

theorem Program.exists_of_isFunctionsAt {s t : Span} {o : Except (List Diagnostic) Program}
    (h : isFunctionsAt s t o = true) : ∃ d e, o = .ok ⟨[.function d s, .function e t]⟩ := by
  rw [isFunctionsAt.eq_def] at h
  split at h
  · next d s' e t' =>
      obtain ⟨rfl, rfl⟩ := of_decide_eq_true h
      exact ⟨d, e, rfl⟩
  · cases h

theorem Item.callableOf_recovered_marked :
    ∃ d e, Program.parse markedText = .ok ⟨[.function d ⟨9, 43⟩, .function e ⟨49, 65⟩]⟩ ∧
      ∃ c w' f, callableOf 1 d (.source ⟨"m.fst", markedText⟩ ⟨9, 43⟩) default = (.ok c, w') ∧
        Recovered d ⟨9, 43⟩ 1 c f := by
  have hfunctions : Program.isFunctionsAt ⟨9, 43⟩ ⟨49, 65⟩ (Program.parse markedText) = true := by
    decide +kernel
  obtain ⟨d, e, hp⟩ := Program.exists_of_isFunctionsAt hfunctions
  refine ⟨d, e, hp, ?_⟩
  exact @callableOf_recovered ⟨"m.fst", markedText⟩ _ d ⟨9, 43⟩ hp List.mem_cons_self 1 default

end Graft
