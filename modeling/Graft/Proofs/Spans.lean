import Graft.Proofs.Outlines
import Graft.Proofs.Extraction
import Graft.Proofs.Partition

/-!
# Spans nest

Every node of a program that was read stands around its parts, and these stand one after the other
in the order of the text. One lemma for each production says which row it leaves: a node starts
where its first token or its first part does, and it ends with the last token that was read.
-/

namespace Graft.Parse

attribute [local simp] Expr.outline

/-- A step that starts where `P` holds and reports nothing comes to where `Q` holds. -/
structure Clear {α : Type} (size : Nat) (P : Cursor → Prop) (x : Parse α)
    (Q : α → Cursor → Prop) : Prop where
  onward : ∀ c : Cursor, c.Onward (x c).2
  holds : ∀ c : Cursor, c.Sorted size → P c → (x c).2.reports = [] → Q (x c).1 (x c).2

/-- Going on does not end what `P` says. -/
def Lasting (size : Nat) (P : Cursor → Prop) : Prop :=
  ∀ c d : Cursor, c.Sorted size → c.Onward d → P c → P d

variable {α β : Type} {size lo : Nat} {os : List Outline} {s : Span} {x : Parse α}

theorem lasting_upto : Lasting size (Cursor.Upto lo os) :=
  fun _ _ hc h hrow => hrow.mono (Nat.le_refl _) (h.sorted hc).2.1

theorem lasting_since : Lasting size (Cursor.Since s lo os) := by
  intro c d hc h hsince
  obtain ⟨-, hreached, hbehind⟩ := h.sorted hc
  refine { hsince with
    row := lasting_upto c d hc h hsince.row
    stop := Nat.le_trans hsince.stop hreached
    behind := ?_ }
  rcases hbehind with hsame | ⟨b, hb, hstart⟩
  · rw [hsame]
    exact hsince.behind
  · have hlo := hsince.row.le
    exact ⟨b, hb, Nat.le_trans hsince.start (Nat.le_trans hlo hstart)⟩

theorem lasting_growing {o : Outline} {os' : List Outline} :
    Lasting size (Cursor.Growing lo os o os') :=
  fun c d hc hon h => ⟨h.row, lasting_since c d hc hon h.since⟩

namespace Clear

variable {P P' : Cursor → Prop} {Q Q' : α → Cursor → Prop} {R : β → Cursor → Prop}

theorem pure {a : α} (h : ∀ c : Cursor, c.Sorted size → P c → Q a c) : Clear size P (pure a) Q :=
  ⟨fun c => .refl c, fun c hc hP _ => h c hc hP⟩

theorem bind {f : α → Parse β} (h : Clear size P x Q) (hf : ∀ a, Clear size (Q a) (f a) R) :
    Clear size P (x >>= f) R := by
  refine ⟨fun c => (h.onward c).trans ((hf _).onward _), fun c hc hP hclear => ?_⟩
  have hlater := (hf (x c).1).onward (x c).2
  have hnone : (x c).2.reports = [] := by
    have hsuffix := hlater.reports
    rw [show (f (x c).1 (x c).2).2.reports = [] from hclear] at hsuffix
    exact List.suffix_nil.mp hsuffix
  exact (hf _).holds _ ((h.onward c).sorted hc).1 (h.holds c hc hP hnone) hclear

theorem mono (h : Clear size P x Q) (hP : ∀ c : Cursor, c.Sorted size → P' c → P c)
    (hQ : ∀ (a : α) (c : Cursor), c.Sorted size → Q a c → Q' a c) : Clear size P' x Q' :=
  ⟨h.onward, fun c hc hP' hclear =>
    hQ _ _ ((h.onward c).sorted hc).1 (h.holds c hc (hP c hc hP') hclear)⟩

theorem ite {p : Prop} [Decidable p] {y : Parse α} (h : p → Clear size P x Q)
    (h' : ¬p → Clear size P y Q) : Clear size P (if p then x else y) Q := by
  split
  · next hp => exact h hp
  · next hp => exact h' hp

/-- A step that only looks. -/
theorem look {h : Cursor → α} {f : α → Parse β}
    (hf : ∀ v, Clear size (fun c => P c ∧ h c = v) (f v) R) :
    Clear size P ((do return h (← get)) >>= f) R :=
  ⟨fun c => (hf (h c)).onward c, fun c hc hP hclear => (hf (h c)).holds c hc ⟨hP, rfl⟩ hclear⟩

theorem advance {R : Unit → Cursor → Prop}
    (h : ∀ c : Cursor, c.Sorted size → P c → R () c.advance) : Clear size P advance R :=
  ⟨.advance, fun c hc hP _ => h c hc hP⟩

/-- After a report there is nothing to show. -/
theorem reportAt {R : Unit → Cursor → Prop} (p : Problem) (span : Span) :
    Clear size P (reportAt p span) R :=
  ⟨fun c => .report c p span, fun _ _ _ hclear => absurd hclear (List.cons_ne_nil _ _)⟩

theorem report {R : Unit → Cursor → Prop} (p : Problem) : Clear size P (report p) R :=
  ⟨fun c => .report c p c.here, fun _ _ _ hclear => absurd hclear (List.cons_ne_nil _ _)⟩

theorem refuse {stub : Span → α} : Clear size P (refuse stub) Q := by
  have hreported : ∀ c : Cursor, (Parse.refuse stub c).2.reports ≠ c.reports :=
    fun c => List.cons_ne_self _ _
  refine ⟨fun c => ⟨⟨c.rest, (List.append_nil _).symm, rfl⟩, rfl, List.suffix_cons _ _,
    fun h => absurd h (hreported c)⟩, fun c _ _ hclear => ?_⟩
  exact absurd hclear (List.cons_ne_nil _ _)

theorem deeper {levels : Nat} {stub : Span → α} (h : Clear size P x Q) :
    Clear size P (deeper levels stub x) Q := by
  have hrun : ∀ c, Parse.deeper levels stub x c =
      if levels ≤ c.refused then Parse.refuse stub c else x c := by
    intro c
    show (if levels ≤ c.refused then Parse.refuse stub else x) c = _
    split <;> rfl
  have hrefuse : Clear size P (Parse.refuse stub) Q := refuse
  constructor
  · intro c
    rw [hrun]
    split
    · exact hrefuse.onward c
    · exact h.onward c
  · intro c hc hP
    rw [hrun]
    split
    · exact hrefuse.holds c hc hP
    · exact h.holds c hc hP

theorem eat {s : Symbol} {R : Bool → Cursor → Prop}
    (h : ∀ c : Cursor, c.Sorted size → P c → c.isAt s = true → R true c.advance)
    (h' : ∀ c : Cursor, c.Sorted size → P c → R false c) : Clear size P (Parse.eat s) R := by
  refine look fun b => ite (fun hb => ?_) fun _ => pure fun c hc hP => h' c hc hP.1
  exact (advance (R := fun _ => R true) fun c hc hP => h c hc hP.1 (hP.2.trans hb)).bind fun _ =>
    pure fun _ _ hR => hR

theorem eatWord {k : Keyword} {R : Bool → Cursor → Prop}
    (h : ∀ c : Cursor, c.Sorted size → P c → c.isAtWord k = true → R true c.advance)
    (h' : ∀ c : Cursor, c.Sorted size → P c → R false c) : Clear size P (Parse.eatWord k) R := by
  refine look fun b => ite (fun hb => ?_) fun _ => pure fun c hc hP => h' c hc hP.1
  exact (advance (R := fun _ => R true) fun c hc hP => h c hc hP.1 (hP.2.trans hb)).bind fun _ =>
    pure fun _ _ hR => hR

theorem expect {s : Symbol} {R : Unit → Cursor → Prop}
    (h : ∀ c : Cursor, c.Sorted size → P c → c.isAt s = true → R () c.advance) :
    Clear size P (Parse.expect s) R := by
  refine (eat (R := fun b c => b = true → R () c) (fun c hc hP hs _ => h c hc hP hs)
    fun _ _ _ hb => absurd hb Bool.false_ne_true).bind fun b => ?_
  exact ite (fun hb => pure fun _ _ hR => hR hb) fun _ => look fun _ => report _

theorem expectWord {k : Keyword} {R : Unit → Cursor → Prop}
    (h : ∀ c : Cursor, c.Sorted size → P c → c.isAtWord k = true → R () c.advance) :
    Clear size P (Parse.expectWord k) R := by
  refine (eatWord (R := fun b c => b = true → R () c) (fun c hc hP hs _ => h c hc hP hs)
    fun _ _ _ hb => absurd hb Bool.false_ne_true).bind fun b => ?_
  exact ite (fun hb => pure fun _ _ hR => hR hb) fun _ => look fun _ => report _

theorem name? {R : Option Ident → Cursor → Prop}
    (h : ∀ (c : Cursor) (text : String), c.Sorted size → P c → c.peek = some (.name text) →
      R (some ⟨text, c.here⟩) c.advance)
    (h' : ∀ c : Cursor, c.Sorted size → P c → R none c) : Clear size P name? R := by
  refine look fun t? => ?_
  split
  · next text =>
      refine look fun s => (advance (R := fun _ => R (some ⟨text, s⟩)) ?_).bind fun _ =>
        pure fun _ _ hR => hR
      rintro c hc ⟨⟨hP, hpeek⟩, rfl⟩
      exact h c text hc hP hpeek
  · exact pure fun c hc hP => h' c hc hP.1

theorem expectName {R : Ident → Cursor → Prop}
    (h : ∀ (c : Cursor) (text : String), c.Sorted size → P c → c.peek = some (.name text) →
      R ⟨text, c.here⟩ c.advance) : Clear size P expectName R := by
  refine (name? (R := fun n c => ∀ i ∈ n, R i c) ?_ (by simp)).bind fun n => ?_
  · rintro c text hc hP hpeek _ ⟨⟩
    exact h c text hc hP hpeek
  · cases n with
    | some i => exact pure fun _ _ hR => hR i rfl
    | none =>
        refine look fun _ => (report (R := fun _ _ => False) _).bind fun _ => look fun _ => ?_
        exact pure fun _ _ h => h.1.elim

/-! Steps over single tokens change nothing that lasts. -/

section

variable (hP : Lasting size P)

include hP

theorem advanceKeep : Clear size P Parse.advance fun _ => P :=
  advance fun c hc h => hP c _ hc (.advance c) h

theorem eatKeep (s : Symbol) : Clear size P (Parse.eat s) fun _ => P :=
  eat (fun c hc h _ => hP c _ hc (.advance c) h) fun _ _ h => h

theorem eatWordKeep (k : Keyword) : Clear size P (Parse.eatWord k) fun _ => P :=
  eatWord (fun c hc h _ => hP c _ hc (.advance c) h) fun _ _ h => h

theorem expectKeep (s : Symbol) : Clear size P (Parse.expect s) fun _ => P :=
  expect fun c hc h _ => hP c _ hc (.advance c) h

theorem expectWordKeep (k : Keyword) : Clear size P (Parse.expectWord k) fun _ => P :=
  expectWord fun c hc h _ => hP c _ hc (.advance c) h

/-- What lasts holds after any step. -/
theorem frame (h : Clear size P' x Q) :
    Clear size (fun c => P c ∧ P' c) x fun a c => P c ∧ Q a c :=
  ⟨h.onward, fun c hc ⟨hp, hp'⟩ hclear => ⟨hP c _ hc (h.onward c) hp, h.holds c hc hp' hclear⟩⟩

end

/-! The first token of a node. -/

theorem advanceFirst : Clear size (fun c => c.here = s ∧ c.rest ≠ []) Parse.advance
    fun _ => Cursor.Since s s.stop [] := by
  apply advance
  rintro c hc ⟨rfl, hne⟩
  exact hc.since_advance hne

theorem advancePeeked {t? : Option Token} (ht : t? ≠ none) :
    Clear size (fun c => c.here = s ∧ c.peek = t?) Parse.advance
      fun _ => Cursor.Since s s.stop [] := by
  refine advanceFirst.mono ?_ fun _ _ _ h => h
  rintro c - ⟨hs, rfl⟩
  exact ⟨hs, fun hnil => ht (by simp [Cursor.peek, hnil])⟩

theorem expectFirst (m : Symbol) : Clear size (fun c => c.here = s) (Parse.expect m)
    fun _ => Cursor.Since s s.stop [] := by
  apply expect
  rintro c hc rfl hm
  exact hc.since_advance (Cursor.ne_nil_of_isAt hm)

theorem expectWordFirst (k : Keyword) : Clear size (fun c => c.here = s) (Parse.expectWord k)
    fun _ => Cursor.Since s s.stop [] := by
  apply expectWord
  rintro c hc rfl hk
  exact hc.since_advance (Cursor.ne_nil_of_isAtWord hk)

theorem start {f : α → List Outline}
    (h : Clear size (fun c => c.here = s ∧ P c) x fun a => Cursor.Upto s.start (f a)) :
    Clear size (fun c => (Cursor.Upto lo os c ∧ c.here = s) ∧ P c) x
      fun a => Cursor.Upto lo (os ++ f a) := by
  refine ⟨h.onward, fun c hc ⟨⟨hrow, hs⟩, hP⟩ hclear => ?_⟩
  have hle := hc.reached_le_here
  rw [hs] at hle
  exact Outline.Row.append hrow ((h.holds c hc ⟨hs, hP⟩ hclear).mono hle (Nat.le_refl _))

end Clear

/-- If nothing is reported, the step reads what has the outlines `f`, one after the other. -/
def ReadsRow (size : Nat) (x : Parse α) (f : α → List Outline) : Prop :=
  ∀ lo os, Clear size (Cursor.Upto lo os) x fun a => Cursor.Upto lo (os ++ f a)

namespace ReadsRow

variable {f : α → List Outline}

/-- What is read within a node are further parts of it. -/
theorem since (h : ReadsRow size x f) :
    Clear size (Cursor.Since s lo os) x fun a => Cursor.Since s lo (os ++ f a) := by
  have hrow := h lo os
  refine ⟨hrow.onward, fun c hc hsince hclear => ?_⟩
  have hkept := lasting_since c _ hc (hrow.onward c) hsince
  exact { hkept with row := hrow.holds c hc hsince.row hclear }

theorem growing {o : Outline} {os' : List Outline} (h : ReadsRow size x f) :
    Clear size (Cursor.Growing lo os o os') x fun a => Cursor.Growing lo os o (os' ++ f a) :=
  ⟨(h lo os).onward, fun c hc hgrowing hclear =>
    ⟨hgrowing.row, h.since.holds c hc hgrowing.since hclear⟩⟩

theorem node {y : Span → Parse α}
    (h : ∀ s, Clear size (fun c => c.here = s) (y s) fun a => Cursor.Upto s.start (f a)) :
    ReadsRow size (here >>= y) f := by
  refine fun lo os => .look fun s => .mono (.start (P := fun _ => True) ?_)
    (fun _ _ hs => ⟨hs, trivial⟩) fun _ _ _ hrow => hrow
  exact (h s).mono (fun _ _ hs => hs.1) fun _ _ _ hrow => hrow

theorem expectName : ReadsRow size expectName fun n => [n.outline] := by
  refine fun lo os => .expectName fun c text hc hrow hpeek => ?_
  have hne : c.rest ≠ [] := by
    intro hnil
    simp [Cursor.peek, hnil] at hpeek
  exact hrow.append ((hc.since_advance hne).leaf.mono hc.reached_le_here (Nat.le_refl _))

theorem list (close : Symbol) {g : α → Outline} (h : ReadsRow size x fun a => [g a]) :
    ReadsRow size (list close x) fun as => as.map g := by
  intro lo os
  refine .look fun n => .mono ?_ (fun _ _ hrow => hrow.1) fun _ _ _ hrow => hrow
  induction n generalizing os with
  | zero => exact .pure fun _ _ hrow => by simpa using hrow
  | succ n ih =>
      refine .look fun _ => .look fun _ => .mono ?_ (fun _ _ hrow => hrow.1.1)
        fun _ _ _ hrow => hrow
      refine .ite (fun _ => .pure fun _ _ hrow => by simpa using hrow) fun _ => ?_
      refine (h lo os).bind fun a => (Clear.eatKeep lasting_upto _).bind fun _ => ?_
      refine .ite (fun _ => (ih (os ++ [g a])).bind fun as => .pure fun _ _ hrow => ?_)
        fun _ => .pure fun _ _ hrow => by simpa using hrow
      simpa using hrow

end ReadsRow

/-! ## Expressions -/

theorem pathLoop_keeps {P : Cursor → Prop} (hP : Lasting size P) (n : Nat) :
    Clear size P (pathLoop n) fun _ => P := by
  induction n with
  | zero => exact .pure fun _ _ h => h
  | succ n ih =>
      refine (Clear.eatKeep hP _).bind fun _ => .ite (fun _ => ?_) fun _ => .pure fun _ _ h => h
      refine (Clear.name? (R := fun _ => P) (fun c _ hc h _ => hP c _ hc (.advance c) h)
        fun _ _ h => h).bind fun n => ?_
      cases n with
      | some n => exact ih.bind fun _ => .pure fun _ _ h => h
      | none => exact (Clear.report (R := fun _ => P) _).bind fun _ => .pure fun _ _ h => h

theorem path_starts : Clear size (fun c => c.here = s) path fun _ => Cursor.Since s s.stop [] := by
  refine (Clear.expectName (R := fun _ => Cursor.Since s s.stop []) ?_).bind fun _ =>
    .look fun _ => ?_
  · rintro c text hc rfl hpeek
    apply hc.since_advance
    intro hnil
    simp [Cursor.peek, hnil] at hpeek
  · refine Clear.mono ?_ (fun _ _ h => h.1) fun _ _ _ h => h
    exact (pathLoop_keeps lasting_since _).bind fun _ => .pure fun _ _ h => h

section

variable {sub : Nat → Parse Expr} (hsub : ∀ power, ReadsRow size (sub power) fun e => [e.outline])

include hsub

theorem parenthesized_row (s : Span) :
    Clear size (Cursor.Since s s.stop []) (parenthesized sub s)
      fun e => Cursor.Upto s.start [e.outline] := by
  refine (hsub 0).since.bind fun first => (Clear.eatKeep lasting_since _).bind fun _ =>
    .ite (fun _ => ?_) fun _ => (Clear.expectKeep lasting_since _).bind fun _ => .pure ?_
  · refine (ReadsRow.list _ (hsub 0)).since.bind fun more =>
      (Clear.expectKeep lasting_since _).bind fun _ => .look fun b => .pure ?_
    rintro c hc ⟨h, rfl⟩
    simpa using h.close
  · intro c hc h
    exact h.row.mono (Nat.le_of_lt h.nonempty) (Nat.le_refl _)

theorem named_row (s : Span) :
    Clear size (fun c => c.here = s) (named sub s) fun e => Cursor.Upto s.start [e.outline] := by
  refine path_starts.bind fun p => .look fun b => ?_
  -- the path is the first part of a call
  have hpath : ∀ c : Cursor, c.Sorted size → c.Since s s.stop [] ∧ c.before = b →
      c.Since s s.start [.node (s.merge b) []] := by
    rintro c hc ⟨h, rfl⟩
    exact { h with start := Nat.le_refl _, row := h.close }
  refine Clear.mono ?_ hpath fun _ _ _ h => h
  refine (Clear.eatKeep lasting_since _).bind fun _ => .ite (fun _ => ?_) fun _ =>
    .ite (fun _ => .pure fun _ _ h => h.row) fun _ => .pure fun _ _ h => h.row
  refine (ReadsRow.list _ (hsub 0)).since.bind fun args =>
    (Clear.expectKeep lasting_since _).bind fun _ => .look fun b' => .pure ?_
  rintro c hc ⟨h, rfl⟩
  simpa using h.close

theorem primary_row : ReadsRow size (primary sub) fun e => [e.outline] := by
  apply ReadsRow.node
  intro s
  refine .look fun t? => ?_
  -- every case but that of a name starts with a step over one token
  have first : t? ≠ none → ∀ {f : Unit → Parse Expr},
      Clear size (Cursor.Since s s.stop []) (f ()) (fun e => Cursor.Upto s.start [e.outline]) →
      Clear size (fun c => c.here = s ∧ c.peek = t?) (advance >>= f)
        fun e => Cursor.Upto s.start [e.outline] :=
    fun ht _ hf => (Clear.advancePeeked ht).bind fun _ => hf
  split
  · exact first (by simp) (.pure fun _ _ h => h.leaf)
  · exact first (by simp) (.pure fun _ _ h => h.leaf)
  · exact first (by simp) (.pure fun _ _ h => h.leaf)
  · exact first (by simp) (parenthesized_row hsub s)
  · refine first (by simp) ((ReadsRow.list _ (hsub 0)).since.bind fun es =>
      (Clear.expectKeep lasting_since _).bind fun _ => .look fun b => .pure ?_)
    rintro c hc ⟨h, rfl⟩
    simpa using h.close
  · exact (named_row hsub s).mono (fun _ _ h => h.1) fun _ _ _ h => h
  · refine .look fun _ => (Clear.report (R := fun _ _ => False) _).bind fun _ => ?_
    exact (Clear.advance (R := fun _ _ => False) fun _ _ h => h).bind fun _ =>
      .pure fun _ _ h => h.elim

theorem postfixLoop_row (n : Nat) (e : Expr) :
    Clear size (Cursor.Upto lo (os ++ [e.outline])) (postfixLoop sub n e)
      fun e => Cursor.Upto lo (os ++ [e.outline]) := by
  induction n generalizing e with
  | zero => exact .pure fun _ _ h => h
  | succ n ih =>
      refine (Clear.eat (R := fun b c => if b = true then c.Growing lo os e.outline []
        else c.Upto lo (os ++ [e.outline])) (fun c hc h hm => ?_) fun _ _ h => h).bind fun b => ?_
      · exact hc.growing_advance (Cursor.ne_nil_of_isAt hm) h
      cases b with
      | false => exact .pure fun _ _ h => h
      | true =>
          refine (hsub 0).growing.bind fun first => (Clear.eatKeep lasting_growing _).bind fun _ =>
            .ite (fun _ => ?_) fun _ => ?_
          · refine (hsub 0).growing.bind fun last => (Clear.expectKeep lasting_growing _).bind
              fun _ => .look fun b => .mono (ih _) ?_ fun _ _ _ h => h
            rintro c hc ⟨h, rfl⟩
            simpa [Expr.outline_span] using h.close
          · refine (Clear.expectKeep lasting_growing _).bind
              fun _ => .look fun b => .mono (ih _) ?_ fun _ _ _ h => h
            rintro c hc ⟨h, rfl⟩
            simpa [Expr.outline_span] using h.close

theorem operatorLoop_row (power n : Nat) (left : Expr) :
    Clear size (Cursor.Upto lo (os ++ [left.outline])) (operatorLoop sub power n left)
      fun e => Cursor.Upto lo (os ++ [e.outline]) := by
  induction n generalizing left with
  | zero => exact .pure fun _ _ h => h
  | succ n ih =>
      refine .look fun t? => .mono ?_ (fun _ _ h => h.1) fun _ _ _ h => h
      split
      · exact .pure fun _ _ h => h
      · refine .ite (fun _ => .pure fun _ _ h => h) fun _ =>
          (Clear.advanceKeep lasting_upto).bind fun _ => (hsub _ lo _).bind fun right =>
            .mono (ih _) ?_ fun _ _ _ h => h
        intro c hc h
        rw [List.append_assoc] at h
        refine h.replace fun mid hrow => ?_
        rw [Expr.outline, ← left.outline_span, ← right.outline_span]
        exact hrow.join ⟨Nat.le_refl _, hrow.2.1, hrow.2.2.1, hrow.2.2.2.1, Nat.le_refl _⟩

theorem operand_row : ReadsRow size (operand sub) fun e => [e.outline] := by
  refine fun lo os => .look fun s => .look fun t? => ?_
  split
  · next op hop =>
      have htoken : t? ≠ none := by
        rintro rfl
        cases hop
      refine .start ((Clear.advancePeeked htoken).bind fun _ => (hsub _).since.bind fun e =>
        .pure fun c _ h => ?_)
      have hrow : Outline.Row s.stop c.reached ([] ++ [e.outline]) := h.row
      have hle : s.start ≤ e.outline.span.start := Nat.le_trans (Nat.le_of_lt h.nonempty) hrow.1
      rw [Expr.outline, ← e.outline_span]
      exact hrow.joinToken h.nonempty ⟨hle, hrow.2.1, Nat.le_refl _⟩
  · refine Clear.mono ?_ (fun _ _ h => h.1.1) fun _ _ _ h => h
    refine (primary_row hsub lo os).bind fun e => .look fun n => ?_
    exact (postfixLoop_row hsub n e).mono (fun _ _ h => h.1) fun _ _ _ h => h

end

theorem expr_row (levels power : Nat) :
    ReadsRow size (expr levels power) fun e => [e.outline] := by
  induction levels generalizing power with
  | zero => exact fun lo os => .refuse
  | succ levels ih =>
      refine fun lo os => .deeper ((operand_row ih lo os).bind fun left => .look fun n => ?_)
      exact (operatorLoop_row ih power n left).mono (fun _ _ h => h.1) fun _ _ _ h => h

/-! ## Statements -/

/-- A place stands where the expression does that it was read as. -/
theorem placeOf_outline {P : Cursor → Prop} (e : Expr) :
    Clear size P (placeOf e) fun p c => P c ∧ p.outline = e.outline := by
  unfold placeOf
  split
  · split <;> exact .pure fun _ _ h => ⟨h, rfl⟩
  · exact .pure fun _ _ h => ⟨h, rfl⟩
  · exact (Clear.reportAt (R := fun _ _ => False) _ _).bind fun _ => .pure fun _ _ h => h.elim

theorem placesOf_outline {P : Cursor → Prop} (es : List Expr) :
    Clear size P (es.mapM placeOf) fun ps c =>
      P c ∧ ps.map Place.outline = es.map Expr.outline := by
  induction es generalizing P with
  | nil =>
      rw [List.mapM_nil]
      exact .pure fun _ _ h => ⟨h, rfl⟩
  | cons e es ih =>
      rw [List.mapM_cons]
      refine (placeOf_outline e).bind fun p => ih.bind fun ps => .pure ?_
      rintro c - ⟨⟨h, hp⟩, hps⟩
      exact ⟨h, by rw [List.map_cons, List.map_cons, hp, hps]⟩

theorem pattern_row : ReadsRow size pattern fun t => t.idents.map Ident.outline := by
  refine fun lo os => (Clear.eatKeep lasting_upto _).bind fun _ => .ite (fun _ => ?_) fun _ =>
    (ReadsRow.expectName lo os).bind fun n => .pure fun _ _ h => h
  exact (ReadsRow.list _ ReadsRow.expectName lo os).bind fun ns =>
    (Clear.expectKeep lasting_upto _).bind fun _ => .pure fun _ _ h => h

section

variable {e : Parse Expr} {b : Parse Block} (he : ReadsRow size e fun x => [x.outline])
  (hb : ReadsRow size b fun x => [x.outline])

include he

theorem bindStmt_row : ReadsRow size (bindStmt e) fun x => [x.outline] := by
  refine .node fun s => (Clear.expectWordFirst _).bind fun _ => pattern_row.since.bind fun t =>
    (Clear.expectKeep lasting_since _).bind fun _ => he.since.bind fun init => .pure ?_
  intro c hc h
  have hrow : Outline.Row s.stop c.reached (t.idents.map Ident.outline ++ [init.outline]) := h.row
  rw [Stmt.outline, ← init.outline_span]
  exact hrow.joinToken h.nonempty (hrow.upto_last.mono (Nat.le_of_lt h.nonempty) (Nat.le_refl _))

theorem giveStmt_row : ReadsRow size (giveStmt e) fun x => [x.outline] := by
  refine .node fun s => (Clear.expectWordFirst _).bind fun _ => .look fun _ => .look fun _ =>
    .look fun _ => .mono ?_ (fun _ _ h => h.1.1.1) fun _ _ _ h => h
  refine .ite (fun _ => .look fun b => .pure ?_) fun _ => he.since.bind fun value =>
    .look fun b => .pure ?_
  · rintro c hc ⟨h, rfl⟩
    exact h.close
  · rintro c hc ⟨h, rfl⟩
    exact h.close

theorem exprStmt_row :
    ReadsRow size (exprStmt e) fun r => [Sum.elim Stmt.outline Expr.outline r] := by
  refine fun lo os => (he lo os).bind fun left => .look fun _ => .mono ?_ (fun _ _ h => h.1)
    fun _ _ _ h => h
  refine .ite (fun _ => .pure fun _ _ h => h) fun _ => (Clear.eatKeep lasting_upto _).bind
    fun _ => .ite (fun _ => (he lo _).bind fun value => ?_) fun _ => .pure fun c hc h => ?_
  · dsimp only
    have hjoin : ∀ (c : Cursor) (ps : List Outline),
        c.Upto lo (os ++ [left.outline] ++ [value.outline]) →
        (∀ hi, Outline.Row left.span.start hi [left.outline, value.outline] →
          Outline.Row left.span.start value.span.stop ps) →
        c.Upto lo (os ++ [.node (left.span.merge value.span) ps]) := by
      intro c ps h hps
      rw [List.append_assoc] at h
      refine h.replace fun mid hrow => ?_
      rw [← left.outline_span, ← value.outline_span]
      refine hrow.join ?_
      rw [left.outline_span, value.outline_span]
      exact hps _ ⟨by rw [left.outline_span], hrow.2⟩
    split
    · next es s =>
        refine (placesOf_outline es).bind fun ps => .pure ?_
        rintro c - ⟨h, hps⟩
        refine hjoin c _ h fun hi hrow => ?_
        -- the parts of the tuple take its place
        obtain ⟨-, htuple, hstart, hvalue, -⟩ := hrow
        rw [hps, ← Expr.outlineAll_eq, ← value.outline_span]
        exact Outline.Row.append htuple.2 ⟨hstart, hvalue, Nat.le_refl _⟩
    · refine (placeOf_outline left).bind fun p => .pure ?_
      rintro c - ⟨h, hp⟩
      refine hjoin c _ h fun hi hrow => ?_
      rw [hp, ← value.outline_span]
      exact ⟨hrow.1, hrow.2.1, hrow.2.2.1, hrow.2.2.2.1, Nat.le_refl _⟩
  · refine h.replace fun mid hrow => ?_
    show Outline.Row mid _ [.node left.span [left.outline]]
    rw [← left.outline_span]
    exact hrow.wrap

include hb

theorem branchStmt_row (n : Nat) : ReadsRow size (branchStmt e b n) fun x => [x.outline] := by
  have step : ∀ n, (∀ m, n = m + 1 → ReadsRow size (branchStmt e b m) fun x => [x.outline]) →
      ReadsRow size (branchStmt e b n) fun x => [x.outline] := by
    intro n ih
    rw [branchStmt.eq_def]
    refine .node fun s => (Clear.expectWordFirst _).bind fun _ => he.since.bind fun condition =>
      hb.since.bind fun yes => (Clear.eatWordKeep lasting_since _).bind fun _ =>
        .ite (fun _ => .look fun _ => .mono (.ite (fun _ => ?_) fun _ => ?_) (fun _ _ h => h.1)
          fun _ _ _ h => h) fun _ => .look fun stop => .pure ?_
    · cases n with
      | zero =>
          refine .look fun stop => .pure ?_
          rintro c - ⟨h, rfl⟩
          exact h.close
      | succ m =>
          refine (ih m rfl).since.bind fun inner => .look fun stop => .pure ?_
          rintro c - ⟨h, rfl⟩
          have hblock : c.Since s s.stop _ := h.replace fun mid hrow => hrow.wrap
          rw [inner.outline_span] at hblock
          exact hblock.close
    · refine hb.since.bind fun no => .look fun stop => .pure ?_
      rintro c - ⟨h, rfl⟩
      exact h.close
    · rintro c - ⟨h, rfl⟩
      exact h.close
  induction n with
  | zero => exact step 0 fun m h => absurd h (Nat.succ_ne_zero m).symm
  | succ n ih => exact step (n + 1) fun m h => Nat.succ.inj h ▸ ih

theorem forStmt_row : ReadsRow size (forStmt e b) fun x => [x.outline] := by
  refine .node fun s => (Clear.expectWordFirst _).bind fun _ => ReadsRow.expectName.since.bind
    fun counter => (Clear.expectWordKeep lasting_since _).bind fun _ => he.since.bind fun first =>
      (Clear.expectKeep lasting_since _).bind fun _ => he.since.bind fun last =>
        hb.since.bind fun body => .look fun stop => .pure ?_
  rintro c - ⟨h, rfl⟩
  exact h.close

theorem whileStmt_row : ReadsRow size (whileStmt e b) fun x => [x.outline] := by
  refine .node fun s => (Clear.expectWordFirst _).bind fun _ => he.since.bind fun condition =>
    hb.since.bind fun body => .look fun stop => .pure ?_
  rintro c - ⟨h, rfl⟩
  exact h.close

theorem stmt_row : ReadsRow size (stmt e b) fun r => [Sum.elim Stmt.outline Expr.outline r] := by
  -- a statement that is told by its first word
  have whole : ∀ {x : Parse Stmt}, (ReadsRow size x fun x => [x.outline]) → ∀ lo os,
      Clear size (Cursor.Upto lo os) (x >>= fun r => pure (Sum.inl r : Stmt ⊕ Expr))
        fun r => Cursor.Upto lo (os ++ [Sum.elim Stmt.outline Expr.outline r]) :=
    fun hx lo os => (hx lo os).bind fun r => .pure fun _ _ h => h
  refine fun lo os => .look fun t? => .mono ?_ (fun _ _ h => h.1) fun _ _ _ h => h
  split
  · exact whole (bindStmt_row he) lo os
  · exact .look fun n => (whole (branchStmt_row he hb n) lo os).mono (fun _ _ h => h.1)
      fun _ _ _ h => h
  · exact whole (forStmt_row he hb) lo os
  · exact whole (whileStmt_row he hb) lo os
  · exact whole (giveStmt_row he) lo os
  · exact exprStmt_row he lo os

theorem stmtLoop_row (n : Nat) : ReadsRow size (stmtLoop e b n) fun r =>
    r.1.map Stmt.outline ++ r.2.toList.map Expr.outline := by
  induction n with
  | zero => exact fun lo os => .pure fun _ _ h => by simpa using h
  | succ n ih =>
      refine fun lo os => .look fun _ => .look fun _ => .mono ?_ (fun _ _ h => h.1.1)
        fun _ _ _ h => h
      refine .ite (fun _ => .pure fun _ _ h => by simpa using h) fun _ =>
        (Clear.eatKeep lasting_upto _).bind fun _ => .ite (fun _ => ih lo os) fun _ =>
          (stmt_row he hb lo os).bind fun r => ?_
      cases r with
      | inl x => exact (ih lo _).bind fun r => .pure fun _ _ h => by simpa using h
      | inr tail => exact .pure fun _ _ h => by simpa using h

end

theorem block_row (levels : Nat) : ReadsRow size (block levels) fun b => [b.outline] := by
  induction levels with
  | zero => exact fun lo os => .refuse
  | succ levels ih =>
      refine fun lo os => .deeper (ReadsRow.node (f := fun b : Block => [b.outline]) (fun s => ?_) lo os)
      refine (Clear.expectFirst _).bind fun _ => .look fun n => .mono ?_ (fun _ _ h => h.1)
        fun _ _ _ h => h
      refine (stmtLoop_row (expr_row levels 0) ih n).since.bind fun r => .look fun stop => ?_
      -- the closing brace is the last token
      refine (Clear.expect (R := fun _ c => c.Since s s.stop
        ([] ++ (r.1.map Stmt.outline ++ r.2.toList.map Expr.outline)) ∧ c.before = stop) ?_).bind
        fun _ => .pure ?_
      · rintro c hc ⟨h, rfl⟩ hbrace
        exact ⟨lasting_since c _ hc (.advance c) h,
          Cursor.before_advance (Cursor.ne_nil_of_isAt hbrace)⟩
      · rintro c - ⟨h, rfl⟩
        rw [Block.outline, Block.outlineAll_eq]
        exact h.close

/-! ## Items -/

/-- An item starts at `s`, and `ms` are its markers, which were read. -/
def Marked (s : Span) (ms : List Outline) (c : Cursor) : Prop :=
  if ms = [] then c.here = s else c.Since s s.start ms

theorem Marked.since {ms : List Outline} {c : Cursor} (h : Marked s ms c) (hc : c.Sorted size)
    (hne : c.rest ≠ []) : c.advance.Since s s.start ms := by
  unfold Marked at h
  split at h
  · next hnil =>
      subst hnil h
      have hfirst := hc.since_advance hne
      exact hfirst.weaken (Nat.le_refl _) (Nat.le_of_lt hfirst.nonempty)
  · exact lasting_since c _ hc (.advance c) h

/-- Behind the markers of an item, a further one starts at `t`. -/
structure Marking (s : Span) (ms : List Outline) (t : Span) (os : List Outline) (c : Cursor) :
    Prop where
  row : ∃ mid ≤ t.start, Outline.Row s.start mid ms
  nonempty : s.start < s.stop
  stop : s.stop ≤ t.stop
  since : c.Since t t.stop os

theorem Marked.marking {ms : List Outline} {c : Cursor} (h : Marked s ms c) (hc : c.Sorted size)
    (hne : c.rest ≠ []) : Marking s ms c.here [] c.advance := by
  have hfirst := hc.since_advance hne
  have hhere := hc.reached_le_here
  have hnonempty := hfirst.nonempty
  unfold Marked at h
  split at h
  · next hnil =>
      subst hnil h
      exact ⟨⟨_, Nat.le_refl _, Nat.le_refl _⟩, hnonempty, Nat.le_refl _, hfirst⟩
  · have hstop := h.stop
    exact ⟨⟨_, hhere, h.row⟩, h.nonempty, by omega, hfirst⟩

theorem Marking.marked {ms : List Outline} {t : Span} {n : Ident} {c : Cursor}
    (h : Marking s ms t [n.outline] c) : Marked s (ms ++ [.node (t.merge n.span) []]) c := by
  obtain ⟨mid, hmid, hrow⟩ := h.row
  obtain ⟨b, hb, hstart⟩ := h.since.behind
  have hnext : Outline.Row t.stop c.reached ([] ++ [n.outline]) := h.since.row
  have hle : t.start ≤ n.outline.span.stop := by
    have hlt := h.since.nonempty
    have hstart := hnext.1
    have hname := hnext.2.1.lt
    omega
  have hmarker : Outline.Row t.start c.reached [.node (t.merge n.span) []] :=
    hnext.joinToken h.since.nonempty hle
  have hlo := hrow.le
  unfold Marked
  rw [if_neg (by simp)]
  exact ⟨h.nonempty, Nat.le_refl _, hrow.append (hmarker.mono hmid (Nat.le_refl _)),
    Nat.le_trans h.stop h.since.stop, b, hb, by omega⟩

theorem markerLoop_row (n : Nat) (ms : List Outline) :
    Clear size (Marked s ms) (markerLoop n) fun more => Marked s (ms ++ more.map Ident.outline) := by
  induction n generalizing ms with
  | zero => exact .pure fun _ _ h => by simpa using h
  | succ n ih =>
      refine .look fun at? => .ite (fun hat => .look fun t => ?_) fun _ =>
        .pure fun _ _ h => by simpa using h.1
      refine (Clear.advance (R := fun _ => Marking s ms t []) ?_).bind fun _ => ?_
      · rintro c hc ⟨⟨h, hmark⟩, rfl⟩
        exact h.marking hc (Cursor.ne_nil_of_isAt (hmark.trans hat))
      have hname : Clear size (Marking s ms t []) expectName
          fun n => Marking s ms t [n.outline] := by
        have hsince : Clear size (Cursor.Since t t.stop []) expectName
            fun n => Cursor.Since t t.stop [n.outline] := ReadsRow.expectName.since
        exact ⟨hsince.onward, fun c hc h hclear =>
          { h with since := hsince.holds c hc h.since hclear }⟩
      refine hname.bind fun i => ?_
      have more : ∀ text, Clear size (Marking s ms t [i.outline])
          (do return (⟨text, t.merge i.span⟩ : Ident) :: (← markerLoop n))
          fun more => Marked s (ms ++ more.map Ident.outline) := by
        intro text
        refine ((ih (ms ++ [.node (t.merge i.span) []])).mono (fun _ _ h => h.marked)
          fun _ _ _ h => h).bind fun more => .pure fun _ _ h => ?_
        simpa [Ident.outline] using h
      exact .ite (fun _ => more _) fun _ => (Clear.reportAt _ _).bind fun _ => more _

theorem paramLoop_row (n : Nat) (seen : List Ident) :
    ReadsRow size (paramLoop n seen) fun ps => ps.map Ident.outline := by
  induction n generalizing seen with
  | zero => exact fun lo os => .pure fun _ _ h => by simpa using h
  | succ n ih =>
      refine fun lo os => .look fun _ => .look fun _ => .mono ?_ (fun _ _ h => h.1.1)
        fun _ _ _ h => h
      refine .ite (fun _ => .pure fun _ _ h => by simpa using h) fun _ =>
        (ReadsRow.expectName lo os).bind fun p => ?_
      have more : Clear size (Cursor.Upto lo (os ++ [p.outline])) (do
          if ← eat .comma then return p :: (← paramLoop n (p :: seen)) else return [p])
          fun ps => Cursor.Upto lo (os ++ ps.map Ident.outline) := by
        refine (Clear.eatKeep lasting_upto _).bind fun _ => .ite (fun _ => ?_) fun _ =>
          .pure fun _ _ h => h
        exact (ih (p :: seen) lo _).bind fun ps => .pure fun _ _ h => by simpa using h
      exact .ite (fun _ => (Clear.reportAt _ _).bind fun _ => more) fun _ => more

theorem definition_row (markers : List Ident) :
    Clear size (Marked s (markers.map Ident.outline)) (definition markers) fun d c =>
      ∀ span, (s.merge c.before = span → c.Upto s.start [(Item.function d span).outline]) := by
  refine (Clear.expectWord (R := fun _ => Cursor.Since s s.start (markers.map Ident.outline)) ?_).bind
    fun _ => ReadsRow.expectName.since.bind fun name => (Clear.expectKeep lasting_since _).bind
      fun _ => .look fun n => .mono ?_ (fun _ _ h => h.1) fun _ _ _ h => h
  · exact fun c hc h hword => h.since hc (Cursor.ne_nil_of_isAtWord hword)
  · refine (paramLoop_row n []).since.bind fun params => (Clear.expectKeep lasting_since _).bind
      fun _ => (block_row maxLevels).since.bind fun body => .pure ?_
    rintro c - h _ rfl
    simpa [Item.outline] using h.close

theorem item_row (markers : List Ident) :
    Clear size (fun c => Marked s (markers.map Ident.outline) c ∧
        (markers ≠ [] → c.isAtWord .fnWord = true)) (item s markers)
      fun read => Cursor.Upto s.start (read.toList.map Item.outline) := by
  refine .look fun t? => ?_
  -- other items than functions have no markers
  have bare : ∀ {w : Keyword}, w ≠ .fnWord → ∀ {c : Cursor}, c.Sorted size →
      (Marked s (markers.map Ident.outline) c ∧ (markers ≠ [] → c.isAtWord .fnWord = true)) ∧
        c.peek = some (.word w) → c.here = s := by
    rintro w hw c - ⟨⟨h, hfn⟩, hpeek⟩
    have hnil : markers = [] := by
      by_contra hne
      have hword := hfn hne
      rw [Cursor.isAtWord, hpeek] at hword
      exact hw (by simpa using hword)
    subst hnil
    exact h
  split
  · refine ((definition_row markers).mono (fun _ _ h => h.1.1) fun _ _ _ h => h).bind fun d =>
      .look fun stop => .pure ?_
    rintro c - ⟨h, hstop⟩
    exact h _ (congrArg s.merge hstop)
  · refine (Clear.expectWordFirst _).mono (fun _ hc h => bare (by decide) hc h) (fun _ _ _ h => h)
      |>.bind fun _ => .look fun t => ?_
    -- the path starts behind the word
    have hlasting : Lasting size fun c => c.Since s s.stop [] ∧ s.stop ≤ t.start :=
      fun c d hc hon h => ⟨lasting_since c d hc hon h.1, h.2⟩
    have hpath : Clear size (fun c => (c.Since s s.stop [] ∧ s.stop ≤ t.start) ∧ c.here = t) path
        fun _ c => (c.Since s s.stop [] ∧ s.stop ≤ t.start) ∧ c.Since t t.stop [] :=
      path_starts.frame hlasting
    refine (hpath.mono ?_ fun _ _ _ h => h).bind fun p => ?_
    · rintro c hc ⟨h, rfl⟩
      exact ⟨⟨h, Nat.le_trans h.row.le hc.reached_le_here⟩, rfl⟩
    · refine .ite (fun _ => .look fun stop => .pure ?_) fun _ =>
        (Clear.report (R := fun _ _ => False) _).bind fun _ => .look fun stop =>
          .pure fun _ _ h => h.1.elim
      rintro c - ⟨⟨⟨h, hle⟩, hpath⟩, rfl⟩
      have hrow : c.Since s s.stop [.node (t.merge c.before) []] :=
        { h with row := hpath.close.mono hle (Nat.le_refl _) }
      exact hrow.close
  · refine (Clear.expectWordFirst _).mono (fun _ hc h => bare (by decide) hc h) (fun _ _ _ h => h)
      |>.bind fun _ => ReadsRow.expectName.since.bind fun name =>
        (Clear.expectKeep lasting_since _).bind fun _ => (expr_row _ _).since.bind fun value =>
          .look fun stop => .pure ?_
    rintro c - ⟨h, rfl⟩
    exact h.close
  · refine .look fun _ => (Clear.report (R := fun _ _ => False) _).bind fun _ => ?_
    exact (Clear.advance (R := fun _ _ => False) fun _ _ h => h).bind fun _ =>
      .pure fun _ _ h => h.elim

theorem itemLoop_row (n : Nat) :
    ReadsRow size (itemLoop n) fun items => items.map Item.outline := by
  induction n with
  | zero => exact fun lo os => .pure fun _ _ h => by simpa using h
  | succ n ih =>
      intro lo os
      refine .look fun ended => .mono (.ite (fun _ => .pure fun _ _ h => by simpa using h) fun _ =>
        .look fun s => .look fun m => ?_) (fun _ _ h => h.1) fun _ _ _ h => h
      -- what was read before the item stands before it
      have hbehind : Lasting size fun _ => ∃ mid ≤ s.start, Outline.Row lo mid os :=
        fun _ _ _ _ h => h
      have hmore : ∀ markers, Clear size
          (fun c => (∃ mid ≤ s.start, Outline.Row lo mid os) ∧
            (Marked s (markers.map Ident.outline) c ∧
              (markers ≠ [] → c.isAtWord .fnWord = true)))
          (do
            let read ← item s markers
            let _ ← eat .semicolon
            let more ← itemLoop n
            return read.toList ++ more)
          fun items => Cursor.Upto lo (os ++ items.map Item.outline) := by
        intro markers
        refine ((item_row markers).frame hbehind).bind fun read => ?_
        have hrest : Clear size (Cursor.Upto lo (os ++ read.toList.map Item.outline))
            (do
              let _ ← eat .semicolon
              let more ← itemLoop n
              return read.toList ++ more)
            fun items => Cursor.Upto lo (os ++ items.map Item.outline) :=
          (Clear.eatKeep lasting_upto _).bind fun _ => (ih lo _).bind fun more =>
            .pure fun _ _ h => by simpa using h
        refine hrest.mono ?_ fun _ _ _ h => h
        rintro c - ⟨⟨mid, hmid, hrow⟩, h⟩
        exact hrow.append (h.mono hmid (Nat.le_refl _))
      have hmarkers : Clear size
          (fun c => (∃ mid ≤ s.start, Outline.Row lo mid os) ∧ Marked s [] c) (markerLoop m)
          fun markers c => (∃ mid ≤ s.start, Outline.Row lo mid os) ∧
            Marked s (markers.map Ident.outline) c := (markerLoop_row m []).frame hbehind
      refine (hmarkers.mono ?_ fun _ _ _ h => h).bind fun markers => .look fun atFn => ?_
      · rintro c hc ⟨⟨hrow, rfl⟩, -⟩
        exact ⟨⟨_, hc.reached_le_here, hrow⟩, rfl⟩
      refine .ite (fun _ => (Clear.report _).bind fun _ => hmore markers) fun hfn =>
        (hmore markers).mono ?_ fun _ _ _ h => h
      rintro c - ⟨⟨hrow, hmarked⟩, rfl⟩
      exact ⟨hrow, hmarked, by simpa using hfn⟩

theorem sorted_start (source : String) : Cursor.Sorted source.utf8ByteSize
    { rest := (Scan.text source).tokens, stop := (Scan.text source).stop } where
  ahead l hl := ⟨Nat.zero_le _, Scan.token_inside hl⟩
  ordered := Scan.scanFrom_ordered _ _ _
  reached := Nat.zero_le _
  stop := by
    rw [Scan.text, Scan.range_eq (Nat.zero_le _) (Nat.le_refl _), Scan.scanFrom_stop]

end Graft.Parse

namespace Graft.Program

/-- In a program that was read, each node is in the text and not empty, its parts are within it and
stand apart from each other in the order of the text, and so do the items. -/
theorem spans_nest {source : String} {p : Program} (h : parse source = .ok p) :
    (∀ i ∈ p.items, ∀ o ∈ i.outline.nodes, o.Fits source.utf8ByteSize) ∧
      p.items.Pairwise fun i j => i.span.stop ≤ j.span.start := by
  unfold parse ofScan at h
  split at h
  case isFalse => cases h
  obtain ⟨hclear, rfl⟩ := Parse.tokens_eq_ok.mp h
  have hsorted := Parse.sorted_start source
  have hitems : Parse.Clear source.utf8ByteSize (Parse.Cursor.Upto 0 [])
      (Parse.itemLoop (Scan.text source).tokens.length)
      fun items => Parse.Cursor.Upto 0 (items.map Item.outline) := Parse.itemLoop_row _ 0 []
  have hrow := hitems.holds _ hsorted (Nat.le_refl _) hclear
  have hsize := ((hitems.onward _).sorted hsorted).1.reached
  constructor
  · intro i hi
    have ho : i.outline ∈ List.map Item.outline _ := List.mem_map_of_mem hi
    exact (Outline.Row.nested hrow ho).fits (Nat.le_trans (Outline.Row.le_stop hrow ho).2 hsize)
  · have hapart := List.pairwise_map.mp (Outline.Row.apart hrow)
    refine hapart.imp fun {i j} h => ?_
    rwa [i.outline_span, j.outline_span] at h

/-- Markers, parentheses that are dropped, and an `else if`, which stands in a block of its own. -/
theorem spans_nest_elseIf : ∃ p,
    parse "@fs fn f(x) \x7b if (x) \x7b\x7d else if !x \x7b\x7d x[(1)] = -(x + 2) \x7d" = .ok p ∧
      (∀ i ∈ p.items, ∀ o ∈ i.outline.nodes, o.Fits 57) ∧
      p.items.Pairwise fun i j => i.span.stop ≤ j.span.start := by
  have hread : (parse
      "@fs fn f(x) \x7b if (x) \x7b\x7d else if !x \x7b\x7d x[(1)] = -(x + 2) \x7d").isOk = true := by
    decide +kernel
  generalize hp : parse _ = r at hread
  cases r with
  | error ds => cases hread
  | ok p => exact ⟨p, rfl, spans_nest hp⟩

end Graft.Program
