import Graft.Proofs.Fingerprints

/-!
# Texts laid out anew

Two texts with the same tokens differ in blanks, line ends and comments only. No span decides how
reading goes on: at alike cursors every production takes the same steps, and what it gives and what
it reports are the same but for their places. This holds after a mistake as well.
-/

namespace Graft

/-- The diagnostic without its place. -/
def Diagnostic.unplaced (d : Diagnostic) : Diagnostic := d.locate .dummy

theorem Expr.erase_erase (e : Expr) : e.erase.erase = e.erase := by
  induction e with
  | binary op l r s ihl ihr => simp only [erase, ihl, ihr]
  | unary op e s ih => simp only [erase, ih]
  | index e i s ihe ihi => simp only [erase, ihe, ihi]
  | slice e a b s ihe iha ihb => simp only [erase, ihe, iha, ihb]
  | call p t es s ih | array es s ih | tuple es s ih =>
      have hes : (es.map erase).map erase = es.map erase := by
        rw [List.map_map]
        exact List.map_congr_left ih
      simp only [erase, eraseAll_eq, hes]
  | _ => rfl

theorem Expr.eq_tuple_of_erase {e : Expr} {es : List Expr} {s : Span}
    (h : e.erase = .tuple es s) : ∃ es' s', e = .tuple es' s' ∧ es'.map erase = es := by
  cases e with
  | tuple es' s' =>
      rw [erase, eraseAll_eq] at h
      injection h with hes
      exact ⟨es', s', rfl, hes⟩
  | _ => cases h

namespace Parse

/-! ## Cursors -/

/-- Two cursors that differ in places only. -/
structure Cursor.Alike (c d : Cursor) : Prop where
  rest : c.rest.map Lexeme.token = d.rest.map Lexeme.token
  refused : c.refused = d.refused
  reports : c.reports.map Diagnostic.unplaced = d.reports.map Diagnostic.unplaced

namespace Cursor.Alike

variable {c d e : Cursor}

theorem refl (c : Cursor) : c.Alike c := ⟨rfl, rfl, rfl⟩

theorem symm (h : c.Alike d) : d.Alike c := ⟨h.rest.symm, h.refused.symm, h.reports.symm⟩

theorem trans (h : c.Alike d) (h' : d.Alike e) : c.Alike e :=
  ⟨h.rest.trans h'.rest, h.refused.trans h'.refused, h.reports.trans h'.reports⟩

theorem length (h : c.Alike d) : c.rest.length = d.rest.length := by
  simpa using congrArg List.length h.rest

theorem peek (h : c.Alike d) : c.peek = d.peek := by
  rw [Cursor.peek, Cursor.peek, ← List.head?_map, ← List.head?_map, h.rest]

theorem found (h : c.Alike d) : c.found = d.found := by rw [Cursor.found, Cursor.found, h.peek]

theorem isAt (s : Symbol) (h : c.Alike d) : c.isAt s = d.isAt s := by
  rw [Cursor.isAt, Cursor.isAt, h.peek]

theorem isAtWord (k : Keyword) (h : c.Alike d) : c.isAtWord k = d.isAtWord k := by
  rw [Cursor.isAtWord, Cursor.isAtWord, h.peek]

theorem isAtEnd (h : c.Alike d) : c.isAtEnd = d.isAtEnd := by
  rw [Cursor.isAtEnd, Cursor.isAtEnd, Bool.eq_iff_iff, List.isEmpty_iff_length_eq_zero,
    List.isEmpty_iff_length_eq_zero, h.length]

theorem advance (h : c.Alike d) : c.advance.Alike d.advance := by
  have step : ∀ e : Cursor, e.advance.refused = e.refused ∧ e.advance.reports = e.reports := by
    intro e
    unfold Cursor.advance
    split <;> exact ⟨rfl, rfl⟩
  refine ⟨?_, ?_, ?_⟩
  · rw [advance_rest, advance_rest, List.map_tail, List.map_tail, h.rest]
  · rw [(step c).1, (step d).1, h.refused]
  · rw [(step c).2, (step d).2, h.reports]

theorem report (p : Problem) (s t : Span) (h : c.Alike d) : (c.report p s).Alike (d.report p t) :=
  ⟨h.rest, h.refused, congrArg (_ :: ·) h.reports⟩

end Cursor.Alike

/-! ## Steps -/

/-- From alike cursors, `x` and `y` come to alike cursors, and what they give is the same as far as
`f` tells. -/
def Alike {α γ : Type} (f : α → γ) (x y : Parse α) : Prop :=
  ∀ c d : Cursor, c.Alike d → f (x c).1 = f (y d).1 ∧ (x c).2.Alike (y d).2

namespace Alike

variable {α β γ δ : Type} {f : α → γ} {g : β → δ} {x y z : Parse α} {k l : α → Parse β}

theorem pure {a b : α} (h : f a = f b) : Alike f (pure a) (pure b) := fun _ _ hc => ⟨h, hc⟩

theorem bind (h : Alike f x y) (hkl : ∀ a b, f a = f b → Alike g (k a) (l b)) :
    Alike g (x >>= k) (y >>= l) := by
  intro c d hc
  obtain ⟨hvalue, hafter⟩ := h c d hc
  exact hkl _ _ hvalue _ _ hafter

theorem symm (h : Alike f x y) : Alike f y x := by
  intro c d hc
  obtain ⟨hvalue, hafter⟩ := h d c hc.symm
  exact ⟨hvalue.symm, hafter.symm⟩

theorem trans (h : Alike f x y) (h' : Alike f y z) : Alike f x z := by
  intro c d hc
  obtain ⟨hvalue, hafter⟩ := h c d hc
  obtain ⟨hvalue', hafter'⟩ := h' d d (.refl d)
  exact ⟨hvalue.trans hvalue', hafter.trans hafter'⟩

/-- Both steps give one value. -/
theorem bindSame (h : Alike id x y) (hkl : ∀ a, Alike g (k a) (l a)) :
    Alike g (x >>= k) (y >>= l) :=
  h.bind fun a _ hab => (show a = _ from hab) ▸ hkl a

theorem ite {p : Prop} [Decidable p] {x' y' : Parse α} (h : Alike f x y) (h' : Alike f x' y') :
    Alike f (if p then x else x') (if p then y else y') := by
  split
  · exact h
  · exact h'

/-- A step that only looks, and not at a place. -/
theorem look {h : Cursor → α} (hh : ∀ {c d : Cursor}, c.Alike d → h c = h d)
    (hkl : ∀ a, Alike g (k a) (l a)) :
    Alike g ((do return h (← get)) >>= k) ((do return h (← get)) >>= l) := by
  intro c d hc
  have hlater := hkl (h c) c d hc
  rwa [show ((do return h (← get)) >>= l) d = l (h c) d by rw [hh hc]; rfl]

/-- A step that asks for a place, about which nothing is known. -/
theorem place {h : Cursor → Span} {k l : Span → Parse β} (hkl : ∀ s t, Alike g (k s) (l t)) :
    Alike g ((do return h (← get)) >>= k) ((do return h (← get)) >>= l) :=
  fun c d hc => hkl (h c) (h d) c d hc

theorem advance : Alike id advance advance := fun _ _ hc => ⟨rfl, hc.advance⟩

theorem reportAt (p : Problem) (s t : Span) : Alike id (reportAt p s) (reportAt p t) :=
  fun _ _ hc => ⟨rfl, hc.report p s t⟩

theorem report (p : Problem) : Alike id (report p) (report p) :=
  fun c d hc => ⟨rfl, hc.report p c.here d.here⟩

theorem eat (s : Symbol) : Alike id (eat s) (eat s) :=
  look (Cursor.Alike.isAt s) fun _ => ite (advance.bindSame fun _ => pure rfl) (pure rfl)

theorem eatWord (k : Keyword) : Alike id (eatWord k) (eatWord k) :=
  look (Cursor.Alike.isAtWord k) fun _ => ite (advance.bindSame fun _ => pure rfl) (pure rfl)

theorem expect (s : Symbol) : Alike id (expect s) (expect s) :=
  (eat s).bindSame fun _ => ite (pure rfl) (look Cursor.Alike.found fun _ => report _)

theorem expectWord (k : Keyword) : Alike id (expectWord k) (expectWord k) :=
  (eatWord k).bindSame fun _ => ite (pure rfl) (look Cursor.Alike.found fun _ => report _)

theorem name? : Alike (Option.map Ident.text) name? name? := by
  apply look Cursor.Alike.peek
  intro t?
  split
  · exact place fun _ _ => advance.bindSame fun _ => pure rfl
  · exact pure rfl

theorem expectName : Alike Ident.text expectName expectName := by
  apply name?.bind
  intro a b hab
  cases a with
  | some m =>
      obtain ⟨n, rfl, hmn⟩ := Option.map_eq_some_iff.mp hab.symm
      exact pure hmn.symm
  | none =>
      obtain rfl := Option.map_eq_none_iff.mp hab.symm
      exact look Cursor.Alike.found fun _ => (report _).bindSame fun _ => place fun _ _ => pure rfl

/-- The two names have one text. -/
theorem bindName {k l : Ident → Parse β} (hkl : ∀ n s t, Alike g (k ⟨n, s⟩) (l ⟨n, t⟩)) :
    Alike g (Parse.expectName >>= k) (Parse.expectName >>= l) := by
  apply expectName.bind
  rintro ⟨n, s⟩ ⟨_, t⟩ ⟨⟩
  exact hkl n s t

theorem list (close : Symbol) (h : Alike f x y) :
    Alike (List.map f) (list close x) (list close y) := by
  apply look Cursor.Alike.length
  intro n
  induction n with
  | zero => exact pure rfl
  | succ n ih =>
      refine look (Cursor.Alike.isAt close) fun _ => look Cursor.Alike.isAtEnd fun _ =>
        ite (pure rfl) (h.bind fun a b hab => (eat _).bindSame fun _ => ite ?_ (pure ?_))
      · exact ih.bind fun as bs habs => pure (by rw [List.map_cons, List.map_cons, hab, habs])
      · rw [List.map_singleton, List.map_singleton, hab]

theorem refuse {stub : Span → α} (h : ∀ s t, f (stub s) = f (stub t)) :
    Alike f (refuse stub) (refuse stub) :=
  fun c d hc => ⟨h _ _, rfl, congrArg (· + 1) hc.refused,
    (hc.report .tooDeep c.here d.here).reports⟩

theorem deeper (levels : Nat) {stub : Span → α} (hstub : ∀ s t, f (stub s) = f (stub t))
    (h : Alike f x y) : Alike f (deeper levels stub x) (deeper levels stub y) := by
  have hrun : ∀ (z : Parse α) (c : Cursor), Parse.deeper levels stub z c =
      (if levels ≤ c.refused then Parse.refuse stub else z : Parse α) c := fun _ _ => rfl
  intro c d hc
  rw [hrun, hrun, ← hc.refused]
  exact ite (refuse hstub) h c d hc

end Alike

/-! ## Expressions -/

theorem pathLoop_alike (n : Nat) : Alike id (pathLoop n) (pathLoop n) := by
  induction n with
  | zero => exact .pure rfl
  | succ n ih =>
      refine (Alike.eat _).bindSame fun _ => .ite (Alike.name?.bind fun a b hab => ?_) (.pure rfl)
      cases a with
      | some m =>
          obtain ⟨n, rfl, hmn⟩ := Option.map_eq_some_iff.mp hab.symm
          exact ih.bindSame fun _ => .pure (by rw [hmn])
      | none =>
          obtain rfl := Option.map_eq_none_iff.mp hab.symm
          exact (Alike.report _).bindSame fun _ => .pure rfl

theorem path_alike : Alike id path path :=
  .bindName fun _ _ _ => .look Cursor.Alike.length fun _ =>
    (pathLoop_alike _).bindSame fun _ => .pure rfl

section

variable {sub : Nat → Parse Expr} (hsub : ∀ power, Alike Expr.erase (sub power) (sub power))

include hsub

theorem parenthesized_alike (s t : Span) :
    Alike Expr.erase (parenthesized sub s) (parenthesized sub t) := by
  refine (hsub 0).bind fun first first' hfirst => (Alike.eat _).bindSame fun _ => .ite ?_ ?_
  · refine (Alike.list _ (hsub 0)).bind fun more more' hmore => (Alike.expect _).bindSame fun _ =>
      .place fun _ _ => .pure ?_
    simp only [Expr.erase, Expr.eraseAll_eq, List.map_cons, hfirst, hmore]
  · exact (Alike.expect _).bindSame fun _ => .pure hfirst

theorem named_alike (s t : Span) : Alike Expr.erase (named sub s) (named sub t) := by
  refine path_alike.bindSame fun p => .place fun _ _ => (Alike.eat _).bindSame fun _ =>
    .ite ?_ (.ite (.pure rfl) (.pure rfl))
  refine (Alike.list _ (hsub 0)).bind fun args args' hargs => (Alike.expect _).bindSame fun _ =>
    .place fun _ _ => .pure ?_
  simp only [Expr.erase, Expr.eraseAll_eq, hargs]

theorem primary_alike : Alike Expr.erase (primary sub) (primary sub) := by
  refine .place fun s t => .look Cursor.Alike.peek fun t? => ?_
  split
  · exact Alike.advance.bindSame fun _ => .pure rfl
  · exact Alike.advance.bindSame fun _ => .pure rfl
  · exact Alike.advance.bindSame fun _ => .pure rfl
  · exact Alike.advance.bindSame fun _ => parenthesized_alike hsub s t
  · refine Alike.advance.bindSame fun _ => (Alike.list _ (hsub 0)).bind fun es es' hes =>
      (Alike.expect _).bindSame fun _ => .place fun _ _ => .pure ?_
    simp only [Expr.erase, Expr.eraseAll_eq, hes]
  · exact named_alike hsub s t
  · exact .look Cursor.Alike.found fun _ => (Alike.report _).bindSame fun _ =>
      Alike.advance.bindSame fun _ => .pure rfl

theorem postfixLoop_alike (n : Nat) {e e' : Expr} (h : e.erase = e'.erase) :
    Alike Expr.erase (postfixLoop sub n e) (postfixLoop sub n e') := by
  induction n generalizing e e' with
  | zero => exact .pure h
  | succ n ih =>
      refine (Alike.eat _).bindSame fun _ => .ite ((hsub 0).bind fun first first' hfirst =>
        (Alike.eat _).bindSame fun _ => .ite ?_ ?_) (.pure h)
      · refine (hsub 0).bind fun last last' hlast => (Alike.expect _).bindSame fun _ =>
          .place fun _ _ => ih ?_
        simp only [Expr.erase, h, hfirst, hlast]
      · refine (Alike.expect _).bindSame fun _ => .place fun _ _ => ih ?_
        simp only [Expr.erase, h, hfirst]

theorem operand_alike : Alike Expr.erase (operand sub) (operand sub) := by
  refine .place fun s t => .look Cursor.Alike.peek fun t? => ?_
  split
  · exact Alike.advance.bindSame fun _ => (hsub _).bind fun e e' he =>
      .pure (by simp only [Expr.erase, he])
  · exact (primary_alike hsub).bind fun e e' he => .look Cursor.Alike.length fun n =>
      postfixLoop_alike hsub n he

theorem operatorLoop_alike (power n : Nat) {left left' : Expr} (h : left.erase = left'.erase) :
    Alike Expr.erase (operatorLoop sub power n left) (operatorLoop sub power n left') := by
  induction n generalizing left left' with
  | zero => exact .pure h
  | succ n ih =>
      refine .look Cursor.Alike.peek fun t? => ?_
      split
      · exact .pure h
      · exact .ite (.pure h) (Alike.advance.bindSame fun _ => (hsub _).bind
          fun right right' hright => ih (by simp only [Expr.erase, h, hright]))

end

theorem expr_alike (levels power : Nat) :
    Alike Expr.erase (expr levels power) (expr levels power) := by
  induction levels generalizing power with
  | zero => exact .refuse fun _ _ => rfl
  | succ levels ih =>
      exact .deeper _ (fun _ _ => rfl) ((operand_alike ih).bind fun left left' hleft =>
        .look Cursor.Alike.length fun n => operatorLoop_alike ih power n hleft)

/-! ## Statements -/

/-- Which place an expression names does not depend on its spans. -/
theorem placeOf_erase (e : Expr) : Alike Place.erase (placeOf e) (placeOf e.erase) := by
  have refused : ∀ s t : Span, Alike Place.erase (do reportAt .notAPlace s; return .discard s)
      (do reportAt .notAPlace t; return .discard t) :=
    fun s t => (Alike.reportAt _ s t).bindSame fun _ => .pure rfl
  cases e with
  | var n s =>
      show Alike Place.erase (pure (if n == "_" then _ else _)) (pure (if n == "_" then _ else _))
      split <;> exact .pure rfl
  | index base i s =>
      cases base with
      | var n t => exact .pure (by simp only [Place.erase, i.erase_erase])
      | _ => exact refused _ _
  | _ => exact refused _ _

theorem placeOf_alike {e e' : Expr} (h : e.erase = e'.erase) :
    Alike Place.erase (placeOf e) (placeOf e') :=
  (placeOf_erase e).trans (h ▸ (placeOf_erase e').symm)

theorem placesOf_alike {es es' : List Expr} (h : es.map Expr.erase = es'.map Expr.erase) :
    Alike (List.map Place.erase) (es.mapM placeOf) (es'.mapM placeOf) := by
  induction es generalizing es' with
  | nil =>
      obtain rfl := List.map_eq_nil_iff.mp h.symm
      exact .pure rfl
  | cons e es ih =>
      obtain ⟨e', es', rfl, he, hes⟩ := List.map_eq_cons_iff.mp h.symm
      rw [List.mapM_cons, List.mapM_cons]
      refine (placeOf_alike he.symm).bind fun p p' hp => (ih hes.symm).bind fun ps ps' hps =>
        .pure ?_
      rw [List.map_cons, List.map_cons, hp, hps]

/-- Names without their places are their texts. -/
theorem bare_eq (ns : List Ident) : ns.map (fun n => (⟨n.text, .dummy⟩ : Ident)) =
    (ns.map Ident.text).map fun n => ⟨n, .dummy⟩ := by
  rw [List.map_map]
  rfl

theorem pattern_alike : Alike Pattern.erase pattern pattern := by
  refine (Alike.eat _).bindSame fun _ => .ite ?_ (.bindName fun _ _ _ => .pure rfl)
  refine (Alike.list _ Alike.expectName).bind fun ns ns' hns => (Alike.expect _).bindSame fun _ =>
    .pure ?_
  rw [Pattern.erase, Pattern.erase, bare_eq, bare_eq, hns]

section

variable {e : Parse Expr} {b : Parse Block} (he : Alike Expr.erase e e)
  (hb : Alike Block.erase b b)

include he

theorem bindStmt_alike : Alike Stmt.erase (bindStmt e) (bindStmt e) := by
  refine .place fun _ _ => (Alike.expectWord _).bindSame fun _ => pattern_alike.bind fun t t' ht =>
    (Alike.expect _).bindSame fun _ => he.bind fun init init' hinit => .pure ?_
  rw [Stmt.erase, Stmt.erase, ht, hinit]

theorem giveStmt_alike : Alike Stmt.erase (giveStmt e) (giveStmt e) := by
  refine .place fun _ _ => (Alike.expectWord _).bindSame fun _ =>
    .look (Cursor.Alike.isAt _) fun _ => .look (Cursor.Alike.isAt _) fun _ =>
      .look Cursor.Alike.isAtEnd fun _ => .ite (.place fun _ _ => .pure rfl) ?_
  refine he.bind fun value value' hvalue => .place fun _ _ => .pure ?_
  rw [Stmt.erase, Stmt.erase, Option.map_some, Option.map_some, hvalue]

theorem exprStmt_alike :
    Alike (Sum.map Stmt.erase Expr.erase) (exprStmt e) (exprStmt e) := by
  refine he.bind fun left left' hleft => .look (Cursor.Alike.isAt _) fun _ => .ite ?_
    ((Alike.eat _).bindSame fun _ => .ite (he.bind fun value value' hvalue => ?_) ?_)
  · exact .pure (congrArg Sum.inr hleft)
  · dsimp only
    split
    · next es s =>
        obtain ⟨es', s', rfl, hes⟩ := Expr.eq_tuple_of_erase hleft.symm
        rw [Expr.eraseAll_eq] at hes
        refine (placesOf_alike hes.symm).bind fun ps ps' hps => .pure (congrArg Sum.inl ?_)
        rw [Stmt.erase, Stmt.erase, hps, hvalue]
    · next hother =>
        split
        · next es' s' =>
            obtain ⟨es, s, rfl, -⟩ := Expr.eq_tuple_of_erase hleft
            exact absurd rfl (hother es s)
        · refine (placeOf_alike hleft).bind fun p p' hp => .pure (congrArg Sum.inl ?_)
          rw [Stmt.erase, Stmt.erase, hp, hvalue]
  · refine .pure (congrArg Sum.inl ?_)
    rw [Stmt.erase, Stmt.erase, hleft]

include hb

theorem branchStmt_alike (n : Nat) : Alike Stmt.erase (branchStmt e b n) (branchStmt e b n) := by
  have step : ∀ n, (∀ m, n = m + 1 → Alike Stmt.erase (branchStmt e b m) (branchStmt e b m)) →
      Alike Stmt.erase (branchStmt e b n) (branchStmt e b n) := by
    intro n ih
    rw [branchStmt.eq_def]
    refine .place fun s t => (Alike.expectWord _).bindSame fun _ => he.bind
      fun condition condition' hcondition => hb.bind fun yes yes' hyes =>
        (Alike.eatWord _).bindSame fun _ => .ite (.look (Cursor.Alike.isAtWord _) fun _ =>
          .ite ?_ ?_) (.place fun _ _ => .pure ?_)
    · cases n with
      | zero =>
          refine .place fun _ _ => .pure ?_
          rw [Stmt.erase, Stmt.erase, hcondition, hyes]
      | succ m =>
          refine (ih m rfl).bind fun inner inner' hinner => .place fun _ _ => .pure ?_
          simp only [Stmt.erase, Block.erase, Block.eraseAll, hcondition, hyes, hinner]
    · refine hb.bind fun no no' hno => .place fun _ _ => .pure ?_
      rw [Stmt.erase, Stmt.erase, hcondition, hyes, hno]
    · rw [Stmt.erase, Stmt.erase, hcondition, hyes]
  induction n with
  | zero => exact step 0 fun m h => absurd h (Nat.succ_ne_zero m).symm
  | succ n ih => exact step (n + 1) fun m h => Nat.succ.inj h ▸ ih

theorem forStmt_alike : Alike Stmt.erase (forStmt e b) (forStmt e b) := by
  refine .place fun _ _ => (Alike.expectWord _).bindSame fun _ => .bindName fun v _ _ =>
    (Alike.expectWord _).bindSame fun _ => he.bind fun first first' hfirst =>
      (Alike.expect _).bindSame fun _ => he.bind fun last last' hlast =>
        hb.bind fun body body' hbody => .place fun _ _ => .pure ?_
  simp only [Stmt.erase, hfirst, hlast, hbody]

theorem whileStmt_alike : Alike Stmt.erase (whileStmt e b) (whileStmt e b) := by
  refine .place fun _ _ => (Alike.expectWord _).bindSame fun _ => he.bind
    fun condition condition' hcondition => hb.bind fun body body' hbody =>
      .place fun _ _ => .pure ?_
  simp only [Stmt.erase, hcondition, hbody]

theorem stmt_alike : Alike (Sum.map Stmt.erase Expr.erase) (stmt e b) (stmt e b) := by
  -- every statement but that of an expression is told by its first word
  have wrapped : ∀ {x : Parse Stmt}, Alike Stmt.erase x x → Alike (Sum.map Stmt.erase Expr.erase)
      (do return .inl (← x)) (do return .inl (← x)) :=
    fun h => h.bind fun _ _ hs => .pure (congrArg Sum.inl hs)
  refine .look Cursor.Alike.peek fun t? => ?_
  split
  · exact wrapped (bindStmt_alike he)
  · exact .look Cursor.Alike.length fun n => wrapped (branchStmt_alike he hb n)
  · exact wrapped (forStmt_alike he hb)
  · exact wrapped (whileStmt_alike he hb)
  · exact wrapped (giveStmt_alike he)
  · exact exprStmt_alike he

theorem stmtLoop_alike (n : Nat) : Alike (Prod.map (List.map Stmt.erase) (Option.map Expr.erase))
    (stmtLoop e b n) (stmtLoop e b n) := by
  induction n with
  | zero => exact .pure rfl
  | succ n ih =>
      refine .look (Cursor.Alike.isAt _) fun _ => .look Cursor.Alike.isAtEnd fun _ =>
        .ite (.pure rfl) ((Alike.eat _).bindSame fun _ => .ite ih ?_)
      refine (stmt_alike he hb).bind fun r r' hr => ?_
      cases r with
      | inl x =>
          cases r' with
          | inl x' =>
              refine ih.bind fun p p' hp => .pure ?_
              obtain ⟨hss, htail⟩ := Prod.mk.inj hp
              exact Prod.ext (by simp [hss, Sum.inl.inj hr]) htail
          | inr t' => cases hr
      | inr t =>
          cases r' with
          | inl x' => cases hr
          | inr t' => exact .pure (Prod.ext rfl (congrArg some (Sum.inr.inj hr)))

end

theorem block_alike (levels : Nat) : Alike Block.erase (block levels) (block levels) := by
  induction levels with
  | zero => exact .refuse fun _ _ => rfl
  | succ levels ih =>
      refine .deeper _ (fun _ _ => rfl) (.place fun _ _ => (Alike.expect _).bindSame fun _ =>
        .look Cursor.Alike.length fun n => ?_)
      refine (stmtLoop_alike (expr_alike levels 0) ih n).bind fun r r' hr => ?_
      refine .place fun _ _ => (Alike.expect _).bindSame fun _ => .pure ?_
      obtain ⟨hss, htail⟩ := Prod.mk.inj hr
      simp only [Block.erase, Block.eraseAll_eq, hss, htail]

/-! ## Items -/

theorem markerLoop_alike (n : Nat) :
    Alike (List.map Ident.text) (markerLoop n) (markerLoop n) := by
  induction n with
  | zero => exact .pure rfl
  | succ n ih =>
      refine .look (Cursor.Alike.isAt _) fun _ => .ite ?_ (.pure rfl)
      refine .place fun s t => Alike.advance.bindSame fun _ => .bindName fun name u v => ?_
      have more : Alike (List.map Ident.text)
          (do return ⟨name, s.merge u⟩ :: (← markerLoop n))
          (do return ⟨name, t.merge v⟩ :: (← markerLoop n)) :=
        ih.bind fun ms ms' hms => .pure (by rw [List.map_cons, List.map_cons, hms])
      exact .ite more ((Alike.reportAt _ _ _).bindSame fun _ => more)

theorem paramLoop_alike (n : Nat) {seen seen' : List Ident}
    (h : seen.map Ident.text = seen'.map Ident.text) :
    Alike (List.map Ident.text) (paramLoop n seen) (paramLoop n seen') := by
  induction n generalizing seen seen' with
  | zero => exact .pure rfl
  | succ n ih =>
      refine .look (Cursor.Alike.isAt _) fun _ => .look Cursor.Alike.isAtEnd fun _ =>
        .ite (.pure rfl) (.bindName fun name s t => ?_)
      have more : Alike (List.map Ident.text)
          (do if ← eat .comma then return ⟨name, s⟩ :: (← paramLoop n (⟨name, s⟩ :: seen))
              else return [⟨name, s⟩])
          (do if ← eat .comma then return ⟨name, t⟩ :: (← paramLoop n (⟨name, t⟩ :: seen'))
              else return [⟨name, t⟩]) := by
        refine (Alike.eat _).bindSame fun _ => .ite ((ih ?_).bind fun ps ps' hps => .pure ?_)
          (.pure rfl)
        · rw [List.map_cons, List.map_cons, h]
        · rw [List.map_cons, List.map_cons, hps]
      -- a parameter is repeated by its text
      have hany : ∀ ns : List Ident,
          (ns.any fun p => p.text == name) = (ns.map Ident.text).any (· == name) := by
        intro ns
        rw [List.any_map]
        rfl
      dsimp only
      rw [hany, hany, h]
      exact .ite ((Alike.reportAt _ _ _).bindSame fun _ => more) more

theorem definition_alike {markers markers' : List Ident}
    (h : markers.map Ident.text = markers'.map Ident.text) :
    Alike Definition.erase (definition markers) (definition markers') := by
  refine (Alike.expectWord _).bindSame fun _ => .bindName fun name s t =>
    (Alike.expect _).bindSame fun _ => .look Cursor.Alike.length fun n =>
      (paramLoop_alike n rfl).bind fun ps ps' hps => (Alike.expect _).bindSame fun _ =>
        (block_alike maxLevels).bind fun body body' hbody => .pure ?_
  simp only [Definition.erase, bare_eq, h, hps, hbody]

theorem item_alike (s t : Span) {markers markers' : List Ident}
    (h : markers.map Ident.text = markers'.map Ident.text) :
    Alike (Option.map Item.erase) (item s markers) (item t markers') := by
  refine .look Cursor.Alike.peek fun t? => ?_
  split
  · refine (definition_alike h).bind fun d d' hd => .place fun _ _ => .pure ?_
    simp only [Option.map_some, Item.erase, hd]
  · refine (Alike.expectWord _).bindSame fun _ => .place fun _ _ => path_alike.bindSame fun p => ?_
    exact .ite (.place fun _ _ => .pure rfl)
      ((Alike.report _).bindSame fun _ => .place fun _ _ => .pure rfl)
  · refine (Alike.expectWord _).bindSame fun _ => .bindName fun name _ _ =>
      (Alike.expect _).bindSame fun _ => (expr_alike _ _).bind fun value value' hvalue =>
        .place fun _ _ => .pure ?_
    simp only [Option.map_some, Item.erase, hvalue]
  · exact .look Cursor.Alike.found fun _ => (Alike.report _).bindSame fun _ =>
      Alike.advance.bindSame fun _ => .pure rfl

theorem itemLoop_alike (n : Nat) : Alike (List.map Item.erase) (itemLoop n) (itemLoop n) := by
  induction n with
  | zero => exact .pure rfl
  | succ n ih =>
      refine .look Cursor.Alike.isAtEnd fun _ => .ite (.pure rfl) (.place fun s t =>
        .look Cursor.Alike.length fun m => (markerLoop_alike m).bind fun ms ms' hms => ?_)
      have more : Alike (List.map Item.erase)
          (do
            let read ← item s ms
            let _ ← eat .semicolon
            let more ← itemLoop n
            return read.toList ++ more)
          (do
            let read ← item t ms'
            let _ ← eat .semicolon
            let more ← itemLoop n
            return read.toList ++ more) := by
        refine (item_alike s t hms).bind fun i i' hi => (Alike.eat _).bindSame fun _ =>
          ih.bind fun is is' his => .pure ?_
        have hread : i.toList.map Item.erase = i'.toList.map Item.erase := by
          rw [← Option.toList_map, ← Option.toList_map, hi]
        rw [List.map_append, List.map_append, hread, his]
      have hempty : ms.isEmpty = ms'.isEmpty := by
        rw [← List.isEmpty_map (f := Ident.text), hms, List.isEmpty_map]
      refine .look (Cursor.Alike.isAtWord _) fun _ => ?_
      rw [hempty]
      exact .ite ((Alike.report _).bindSame fun _ => more) more

/-- Both lists are accepted, or both are rejected. -/
theorem tokens_alike {ls ls' : List Lexeme} (stop stop' : Span)
    (h : ls.map Lexeme.token = ls'.map Lexeme.token) :
    (∃ p q, tokens ls stop = .ok p ∧ tokens ls' stop' = .ok q ∧ p.erase = q.erase) ∨
      ∃ ds es, tokens ls stop = .error ds ∧ tokens ls' stop' = .error es ∧
        ds.map Diagnostic.unplaced = es.map Diagnostic.unplaced := by
  have hlength : ls.length = ls'.length := by simpa using congrArg List.length h
  obtain ⟨hitems, -, -, hreports⟩ := itemLoop_alike ls.length { rest := ls, stop }
    { rest := ls', stop := stop' } ⟨h, rfl, rfl⟩
  rw [hlength] at hitems hreports
  have hrun : ∀ (ls : List Lexeme) (stop : Span), tokens ls stop =
      if (itemLoop ls.length { rest := ls, stop }).2.reports.isEmpty = true
      then .ok ⟨(itemLoop ls.length { rest := ls, stop }).1⟩
      else .error (itemLoop ls.length { rest := ls, stop }).2.reports.reverse := fun _ _ => rfl
  have hempty := congrArg List.isEmpty hreports
  rw [List.isEmpty_map, List.isEmpty_map] at hempty
  rw [hrun, hrun, hlength, hempty]
  split
  · exact .inl ⟨_, _, rfl, rfl, congrArg Program.mk hitems⟩
  · refine .inr ⟨_, _, rfl, rfl, ?_⟩
    rw [List.map_reverse, List.map_reverse, hreports]

end Parse

namespace Program

theorem functions_erase (p : Program) : p.erase.functions = p.functions.map Definition.erase := by
  obtain ⟨items⟩ := p
  rw [functions, functions, List.map_filterMap]
  show (items.map Item.erase).filterMap _ = _
  rw [List.filterMap_map]
  refine List.filterMap_congr fun i _ => ?_
  cases i <;> rfl

theorem fingerprints_erase (p : Program) :
    p.erase.functions.map Definition.fingerprint = p.functions.map Definition.fingerprint := by
  rw [functions_erase, List.map_map]
  refine List.map_congr_left fun d _ => ?_
  show d.erase.fingerprint = d.fingerprint
  rw [Definition.fingerprint, Definition.fingerprint, d.text_erase]

/-- Two texts without stray characters that have the same tokens are both accepted, as programs that
differ in spans only, are printed alike and have the same fingerprints, or both are rejected, with
the same reports in the same order but for their places. -/
theorem parse_relaidOut {source source' : String} (h : (Scan.text source).diagnostics = [])
    (h' : (Scan.text source').diagnostics = [])
    (hsame : (Scan.text source).tokens.map Lexeme.token =
      (Scan.text source').tokens.map Lexeme.token) :
    (∃ p q, parse source = .ok p ∧ parse source' = .ok q ∧ p.erase = q.erase ∧ p.text = q.text ∧
      p.functions.map Definition.fingerprint = q.functions.map Definition.fingerprint) ∨
    ∃ ds es, parse source = .error ds ∧ parse source' = .error es ∧
      ds.map Diagnostic.unplaced = es.map Diagnostic.unplaced := by
  have hparse : ∀ {source : String}, (Scan.text source).diagnostics = [] →
      parse source = Parse.tokens (Scan.text source).tokens (Scan.text source).stop := by
    intro source h
    rw [parse, ofScan, h]
    rfl
  rw [hparse h, hparse h']
  obtain ⟨p, q, hp, hq, hpq⟩ | hrejected := Parse.tokens_alike _ _ hsame
  · refine .inl ⟨p, q, hp, hq, hpq, ?_, ?_⟩
    · rw [← p.text_erase, hpq, q.text_erase]
    · rw [← p.fingerprints_erase, hpq, q.fingerprints_erase]
  · exact .inr hrejected

/-- A function on one line and on four, and what is wrong with another one on one line and on
two. -/
theorem parse_relaidOut_lines :
    (∃ p q, parse "fn f(x) { x }
" = .ok p ∧
      parse "fn f(x)
{
  x // again
}
" = .ok q ∧ p.erase = q.erase ∧ p.text = q.text ∧
      p.functions.map Definition.fingerprint = q.functions.map Definition.fingerprint) ∧
    ∃ ds es, parse "fn f(x, x) { x + }" = .error ds ∧
      parse "fn f(x, x) // twice
{ x + }" = .error es ∧
      ds.map Diagnostic.unplaced = es.map Diagnostic.unplaced := by
  have haccepted : (parse "fn f(x) { x }
").isOk = true := by decide +kernel
  have hrejected : (parse "fn f(x, x) { x + }").isOk = false := by decide +kernel
  constructor
  · have hone : (Scan.text "fn f(x) { x }
").diagnostics = [] := by decide +kernel
    have hother : (Scan.text "fn f(x)
{
  x // again
}
").diagnostics = [] := by
      decide +kernel
    obtain h | ⟨_, _, herror, _⟩ := parse_relaidOut hone hother (by cbv)
    · exact h
    · rw [herror] at haccepted
      cases haccepted
  · have hone : (Scan.text "fn f(x, x) { x + }").diagnostics = [] := by decide +kernel
    have hother : (Scan.text "fn f(x, x) // twice
{ x + }").diagnostics = [] := by
      decide +kernel
    obtain ⟨_, _, hok, _⟩ | h := parse_relaidOut hone hother (by cbv)
    · rw [hok] at hrejected
      cases hrejected
    · exact h

end Program

end Graft
