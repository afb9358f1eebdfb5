import Graft.Pass.Substitute
import Graft.Proofs.Linking

/-!
# Aliases and texts

No text holds an alias: every alias has a byte in it that no name of a text has. What a step of
reading gives has no alias in it if the tokens ahead are none.
-/

namespace Graft

/-- A name that is no alias. -/
def PlainName (n : String) : Prop := ∀ m, n ≠ overrideAlias m

/-- Names that are no aliases, and paths that do not start with one. -/
def Names.plain : Names := ⟨PlainName, fun p => PlainName p.first⟩

theorem plainName_of_not_mem {n : String} (h : '@' ∉ n.toList) : PlainName n := by
  rintro m rfl
  refine h ?_
  rw [overrideAlias, String.toList_append]
  exact List.mem_append_right _ (by decide)

theorem overrideAlias_inj {m n : String} (h : overrideAlias m = overrideAlias n) : m = n := by
  rw [overrideAlias, overrideAlias] at h
  exact (String.append_left_inj _).mp h

/-! ## Scanning -/

/-- A name that the token holds is no alias. -/
def Lexeme.Plain (l : Lexeme) : Prop := ∀ text, l.token = .name text → PlainName text

namespace Scan

theorem plainName_asciiText {bytes : List UInt8} (h : ∀ b ∈ bytes, isNamePart b = true) :
    PlainName (asciiText bytes) := by
  refine plainName_of_not_mem fun hmem => ?_
  rw [asciiText, String.toList_ofList] at hmem
  obtain ⟨b, hb, hchar⟩ := List.mem_map.mp hmem
  have hbyte : b = 64 := by
    have hnat : b.toUInt32.toNat = 64 := congrArg Char.toNat hchar
    rw [UInt8.toNat_toUInt32] at hnat
    exact UInt8.toNat_inj.mp hnat
  subst hbyte
  exact absurd (h _ hb) (by decide)

theorem piece_plain {b : UInt8} {rest : List UInt8} {text : String}
    (h : (piece b rest).1 = .token (.name text)) : PlainName text := by
  rw [piece] at h
  split at h
  · cases h
  · split at h
    · cases h
    · split at h
      · next hb =>
          dsimp only at h
          rw [wordOf] at h
          split at h
          · cases h
          · cases h
            refine plainName_asciiText fun c hc => ?_
            rcases List.mem_cons.mp hc with rfl | hc
            · rw [isNamePart, hb]
              rfl
            · exact List.all_eq_true.mp List.all_takeWhile c hc
      · split at h
        · dsimp only at h
          rw [numberOf] at h
          split at h
          · cases h
          · cases h
        · rw [markPiece] at h
          split at h
          · split at h
            · cases h
            · cases h
          · split at h
            · split at h
              · cases h
              · cases h
            · split at h
              · cases h
              · cases h

theorem scanFrom_plain (stop position : Nat) (bytes : List UInt8) :
    ∀ l ∈ (scanFrom stop position bytes).tokens, l.Plain := by
  induction position, bytes using scanFrom.induct with
  | case1 position =>
      rw [scanFrom]
      exact fun l hl => absurd hl List.not_mem_nil
  | case2 position b rest p more hp next ih =>
      rw [scanFrom, hp]
      intro l hl
      cases p with
      | blank => exact ih l hl
      | fault problem => exact ih l hl
      | token t =>
          rcases List.mem_cons.mp hl with rfl | hl
          · intro text ht
            have hname : (piece b rest).1 = .token (.name text) := by rw [hp, ← ht]
            exact piece_plain hname
          · exact ih l hl

theorem range_plain (source : String) (start stop : Nat) :
    ∀ l ∈ (range source start stop).tokens, l.Plain := scanFrom_plain _ _ _

end Scan

/-! ## Steps of reading -/

namespace Parse

variable {α β : Type} {P : α → Prop} {Q : β → Prop}

/-- No name ahead is an alias. -/
def Cursor.Plain (c : Cursor) : Prop := ∀ l ∈ c.rest, l.Plain

/-- With no alias ahead, the step leaves none ahead and gives what has the property. -/
def Ensures (x : Parse α) (P : α → Prop) : Prop := ∀ c, c.Plain → P (x c).1 ∧ (x c).2.Plain

namespace Ensures

theorem pure {a : α} (h : P a) : Ensures (pure a) P := fun _ hc => ⟨h, hc⟩

theorem bind {x : Parse α} {f : α → Parse β} (h : Ensures x P)
    (step : ∀ a, P a → Ensures (f a) Q) : Ensures (x >>= f) Q := by
  intro c hc
  obtain ⟨ha, hc⟩ := h c hc
  exact step _ ha _ hc

theorem cursor : Ensures get fun _ => True := fun _ hc => ⟨trivial, hc⟩

/-- A step that only looks. -/
theorem look (f : Cursor → α) : Ensures (do return f (← get)) fun _ => True :=
  fun _ hc => ⟨trivial, hc⟩

theorem report (p : Problem) : Ensures (report p) fun _ => True := fun _ hc => ⟨trivial, hc⟩

theorem reportAt (p : Problem) (span : Span) : Ensures (reportAt p span) fun _ => True :=
  fun _ hc => ⟨trivial, hc⟩

theorem peek : Ensures peek fun t => ∀ text, t = some (.name text) → PlainName text := by
  refine fun c hc => ⟨fun text ht => ?_, hc⟩
  have ht : c.rest.head?.map Lexeme.token = some (.name text) := ht
  obtain ⟨l, hl, ht⟩ := Option.map_eq_some_iff.mp ht
  exact hc l (List.mem_of_head? hl) text ht

theorem advance : Ensures advance fun _ => True := by
  refine fun c hc => ⟨trivial, fun l hl => hc l ?_⟩
  have hrest : (Parse.advance c).2.rest = c.rest.tail := c.advance_rest
  rw [hrest] at hl
  exact List.mem_of_mem_tail hl

theorem ite {p : Prop} [Decidable p] {x y : Parse α} (hx : Ensures x P) (hy : Ensures y P) :
    Ensures (if p then x else y) P := by
  split
  · exact hx
  · exact hy

/-- A step that is taken only if a condition fails, and what follows. -/
theorem unlessThen {p : Prop} [Decidable p] {x : Parse Unit} {next : Unit → Parse α}
    (hx : Ensures x fun _ => True) (hnext : Ensures (next ()) P) :
    Ensures (if p then next () else x >>= next) P := ite hnext (hx.bind fun _ _ => hnext)

/-- A step that is taken only if a condition holds, and what follows. -/
theorem whenThen {p : Prop} [Decidable p] {x : Parse Unit} {next : Unit → Parse α}
    (hx : Ensures x fun _ => True) (hnext : Ensures (next ()) P) :
    Ensures (if p then x >>= next else next ()) P := ite (hx.bind fun _ _ => hnext) hnext

theorem eat (s : Symbol) : Ensures (eat s) fun _ => True :=
  (look _).bind fun _ _ => ite (advance.bind fun _ _ => pure trivial) (pure trivial)

theorem eatWord (k : Keyword) : Ensures (eatWord k) fun _ => True :=
  (look _).bind fun _ _ => ite (advance.bind fun _ _ => pure trivial) (pure trivial)

theorem expect (s : Symbol) : Ensures (expect s) fun _ => True :=
  (eat s).bind fun _ _ => ite (pure trivial) ((look _).bind fun _ _ => report _)

theorem expectWord (k : Keyword) : Ensures (expectWord k) fun _ => True :=
  (eatWord k).bind fun _ _ => ite (pure trivial) ((look _).bind fun _ _ => report _)

theorem name? : Ensures name? fun n => ∀ i ∈ n, PlainName i.text := by
  refine peek.bind fun t ht => ?_
  split
  · next text =>
      refine (look _).bind fun _ _ => advance.bind fun _ _ => pure fun i hi => ?_
      cases hi
      exact ht text rfl
  · exact pure fun i hi => nomatch hi

theorem expectName : Ensures expectName fun n => PlainName n.text := by
  refine name?.bind fun n hn => ?_
  cases n with
  | some n => exact pure (hn n rfl)
  | none =>
      refine (look _).bind fun _ _ => (report _).bind fun _ _ => (look _).bind fun _ _ => pure ?_
      have h : '@' ∉ "_error_".toList := by decide
      exact plainName_of_not_mem h

theorem list (close : Symbol) {element : Parse α} (h : Ensures element P) :
    Ensures (list close element) fun xs => ∀ x ∈ xs, P x := by
  have loop : ∀ fuel, Ensures (listLoop close element fuel) fun xs => ∀ x ∈ xs, P x := by
    intro fuel
    induction fuel with
    | zero => exact pure fun x hx => absurd hx List.not_mem_nil
    | succ fuel ih =>
        refine (look _).bind fun _ _ => (look _).bind fun _ _ => ite ?_ ?_
        · exact pure fun x hx => absurd hx List.not_mem_nil
        · refine h.bind fun x hx => (eat .comma).bind fun _ _ => ite ?_ ?_
          · refine ih.bind fun xs hxs => pure fun y hy => ?_
            rcases List.mem_cons.mp hy with rfl | hy
            · exact hx
            · exact hxs y hy
          · refine pure fun y hy => ?_
            obtain rfl := List.mem_singleton.mp hy
            exact hx
  exact (look _).bind fun _ _ => loop _

theorem refuse {stub : Span → α} (h : ∀ s, P (stub s)) : Ensures (refuse stub) P := by
  refine (report _).bind fun _ _ => (look _).bind fun s _ => ?_
  intro c hc
  exact ⟨h s, fun l hl => absurd hl List.not_mem_nil⟩

theorem deeper (levels : Nat) {stub : Span → α} (h : ∀ s, P (stub s)) {body : Parse α}
    (hbody : Ensures body P) : Ensures (deeper levels stub body) P :=
  cursor.bind fun _ _ => ite (refuse h) hbody

theorem remaining : Ensures remaining fun _ => True := look _

end Ensures

/-! ## Expressions -/

end Parse

/-- No alias is read or called in the expression. -/
def Expr.Tidy (e : Expr) : Prop := Names.plain.Within e.subterms

theorem Expr.tidy_of_parts {e : Expr} {parts : List Expr} (h : Names.plain.Within parts)
    (he : Names.plain.Admits e) (hparts : e.subterms = parts ++ [e]) : e.Tidy := by
  rw [Tidy, hparts, Names.within_append]
  exact ⟨h, fun x hx => by rwa [List.mem_singleton.mp hx]⟩

theorem Expr.tidy_of_leaf {e : Expr} (hparts : e.subterms = [e]) (he : Names.plain.Admits e) :
    e.Tidy := by
  rw [Tidy, hparts]
  exact fun x hx => by rwa [List.mem_singleton.mp hx]

namespace Parse

theorem pathLoop_ensures (fuel : Nat) : Ensures (pathLoop fuel) fun _ => True := by
  induction fuel with
  | zero => exact .pure trivial
  | succ fuel ih =>
      refine (Ensures.eat .dot).bind fun _ _ => .ite ?_ (.pure trivial)
      refine Ensures.name?.bind fun n _ => ?_
      cases n with
      | some n => exact ih.bind fun _ _ => .pure trivial
      | none => exact (Ensures.report _).bind fun _ _ => .pure trivial

theorem path_ensures : Ensures path fun p => PlainName p.first :=
  Ensures.expectName.bind fun _ hn => Ensures.remaining.bind fun _ _ =>
    (pathLoop_ensures _).bind fun _ _ => .pure hn

section

variable {sub : Nat → Parse Expr} (hsub : ∀ power, Ensures (sub power) Expr.Tidy)

include hsub

theorem parenthesized_ensures (start : Span) : Ensures (parenthesized sub start) Expr.Tidy := by
  refine (hsub 0).bind fun first hfirst => (Ensures.eat .comma).bind fun _ _ => .ite ?_ ?_
  · refine (Ensures.list .closeParen (hsub 0)).bind fun more hmore => ?_
    refine (Ensures.expect _).bind fun _ _ => (Ensures.look _).bind fun _ _ => .pure ?_
    refine Expr.tidy_of_parts (Names.within_exprs.mpr fun e he => ?_) trivial rfl
    rcases List.mem_cons.mp he with rfl | he
    · exact hfirst
    · exact hmore e he
  · exact (Ensures.expect _).bind fun _ _ => .pure hfirst

theorem named_ensures (start : Span) : Ensures (named sub start) Expr.Tidy := by
  refine path_ensures.bind fun p hp => (Ensures.look _).bind fun _ _ =>
    (Ensures.eat .openParen).bind fun _ _ => .ite ?_ (.ite ?_ ?_)
  · refine (Ensures.list .closeParen (hsub 0)).bind fun args hargs => ?_
    refine (Ensures.expect _).bind fun _ _ => (Ensures.look _).bind fun _ _ => .pure ?_
    exact Expr.tidy_of_parts (Names.within_exprs.mpr hargs) hp rfl
  · exact .pure (Expr.tidy_of_leaf rfl trivial)
  · exact .pure (Expr.tidy_of_leaf rfl hp)

theorem primary_ensures : Ensures (primary sub) Expr.Tidy := by
  have leaf : ∀ {e : Expr}, e.subterms = [e] → Names.plain.Admits e → Ensures (pure e) Expr.Tidy :=
    fun hparts he => .pure (Expr.tidy_of_leaf hparts he)
  refine (Ensures.look _).bind fun start _ => Ensures.peek.bind fun t _ => ?_
  split
  · exact Ensures.advance.bind fun _ _ => leaf rfl trivial
  · exact Ensures.advance.bind fun _ _ => leaf rfl trivial
  · exact Ensures.advance.bind fun _ _ => leaf rfl trivial
  · exact Ensures.advance.bind fun _ _ => parenthesized_ensures hsub start
  · refine Ensures.advance.bind fun _ _ => (Ensures.list _ (hsub 0)).bind fun elements hes => ?_
    refine (Ensures.expect _).bind fun _ _ => (Ensures.look _).bind fun _ _ => .pure ?_
    exact Expr.tidy_of_parts (Names.within_exprs.mpr hes) trivial rfl
  · exact named_ensures hsub start
  · exact (Ensures.look _).bind fun _ _ => (Ensures.report _).bind fun _ _ =>
      Ensures.advance.bind fun _ _ => leaf rfl trivial

theorem postfixLoop_ensures (fuel : Nat) {e : Expr} (he : e.Tidy) :
    Ensures (postfixLoop sub fuel e) Expr.Tidy := by
  induction fuel generalizing e with
  | zero => exact .pure he
  | succ fuel ih =>
      refine (Ensures.eat .openBracket).bind fun _ _ => .ite ?_ (.pure he)
      refine (hsub 0).bind fun first hfirst => (Ensures.eat .dotDot).bind fun _ _ => .ite ?_ ?_
      · refine (hsub 0).bind fun last hlast => (Ensures.expect _).bind fun _ _ =>
          (Ensures.look _).bind fun _ _ => ih ?_
        refine Expr.tidy_of_parts ?_ trivial rfl
        exact Names.within_append.mpr ⟨Names.within_append.mpr ⟨he, hfirst⟩, hlast⟩
      · refine (Ensures.expect _).bind fun _ _ => (Ensures.look _).bind fun _ _ => ih ?_
        exact Expr.tidy_of_parts (Names.within_append.mpr ⟨he, hfirst⟩) trivial rfl

theorem operand_ensures : Ensures (operand sub) Expr.Tidy := by
  refine (Ensures.look _).bind fun start _ => Ensures.peek.bind fun t _ => ?_
  split
  · exact Ensures.advance.bind fun _ _ => (hsub _).bind fun e he =>
      .pure (Expr.tidy_of_parts he trivial rfl)
  · exact (primary_ensures hsub).bind fun e he => Ensures.remaining.bind fun _ _ =>
      postfixLoop_ensures hsub _ he

theorem operatorLoop_ensures (power fuel : Nat) {left : Expr} (hleft : left.Tidy) :
    Ensures (operatorLoop sub power fuel left) Expr.Tidy := by
  induction fuel generalizing left with
  | zero => exact .pure hleft
  | succ fuel ih =>
      refine Ensures.peek.bind fun t _ => ?_
      split
      · exact .pure hleft
      · refine .ite (.pure hleft) (Ensures.advance.bind fun _ _ => ?_)
        refine (hsub _).bind fun right hright => ?_
        exact ih (Expr.tidy_of_parts (Names.within_append.mpr ⟨hleft, hright⟩) trivial rfl)

end

theorem tidy_num (s : Span) : (Expr.num 0 s).Tidy := Expr.tidy_of_leaf rfl trivial

theorem expr_ensures (levels power : Nat) : Ensures (expr levels power) Expr.Tidy := by
  induction levels generalizing power with
  | zero => exact .refuse tidy_num
  | succ levels ih =>
      refine .deeper _ tidy_num ?_
      exact (operand_ensures ih).bind fun left hleft => Ensures.remaining.bind fun _ _ =>
        operatorLoop_ensures ih power _ hleft

end Parse

/-! ## Statements and blocks -/

/-- No alias is stored into. -/
def Place.Plain (p : Place) : Prop := ∀ base i s, p = .index base i s → PlainName base.text

/-- No alias is read, called or stored into in the statement. -/
structure Stmt.Tidy (x : Stmt) : Prop where
  uses : Names.plain.Within x.subterms
  stores : ∀ p ∈ x.places, p.Plain

/-- No alias is read, called or stored into in the block. -/
structure Block.Tidy (b : Block) : Prop where
  uses : Names.plain.Within b.subterms
  stores : ∀ p ∈ b.places, p.Plain

theorem Block.Tidy.mk_of {ss : List Stmt} {tail : Option Expr} {s : Span} (hss : ∀ x ∈ ss, x.Tidy)
    (htail : ∀ e ∈ tail, e.Tidy) : (Block.mk ss tail s).Tidy := by
  have huses : Names.plain.Within (Block.subtermsAll ss) :=
    Names.within_stmts.mpr fun x hx => (hss x hx).uses
  constructor
  · cases tail with
    | none => exact huses
    | some e => exact Names.within_append.mpr ⟨huses, htail e rfl⟩
  · change ∀ p ∈ Block.placesAll ss, p.Plain
    clear huses htail
    induction ss with
    | nil => exact fun p hp => absurd hp List.not_mem_nil
    | cons x rest ih =>
        intro p hp
        rcases List.mem_append.mp hp with hp | hp
        · exact (hss x List.mem_cons_self).stores p hp
        · exact ih (fun y hy => hss y (List.mem_cons_of_mem x hy)) p hp

theorem Definition.within_of_tidy {d : Definition} (h : d.body.Tidy) : d.Within .plain where
  uses := h.uses
  stores n hn := by
    obtain ⟨p, hp, hbase⟩ := List.mem_filterMap.mp hn
    cases p with
    | index base i s =>
        obtain rfl := Option.some.inj hbase
        exact h.stores _ hp base i s rfl
    | var _ _ => cases hbase
    | discard _ => cases hbase

namespace Parse

theorem placeOf_ensures {e : Expr} (he : e.Tidy) :
    Ensures (placeOf e) fun p => Names.plain.Within p.subterms ∧ p.Plain := by
  rw [placeOf.eq_def]
  split
  · next n s =>
      split
      · exact .pure ⟨fun _ hx => absurd hx List.not_mem_nil, fun _ _ _ h => nomatch h⟩
      · exact .pure ⟨fun _ hx => absurd hx List.not_mem_nil, fun _ _ _ h => nomatch h⟩
  · next n s i span =>
      have hparts := Names.within_append.mp (Names.within_append.mp he).1
      refine .pure ⟨hparts.2, fun base j t h => ?_⟩
      cases h
      exact hparts.1 _ (List.mem_singleton_self _)
  · exact (Ensures.reportAt _ _).bind fun _ _ =>
      .pure ⟨fun _ hx => absurd hx List.not_mem_nil, fun _ _ _ h => nomatch h⟩

theorem placesOf_ensures {es : List Expr} (hes : ∀ e ∈ es, e.Tidy) :
    Ensures (es.mapM placeOf) fun ps => Names.plain.Within (ps.flatMap Place.subterms) ∧
      ∀ p ∈ ps, p.Plain := by
  induction es with
  | nil =>
      rw [List.mapM_nil]
      exact .pure ⟨fun _ hx => absurd hx List.not_mem_nil, fun _ hx => absurd hx List.not_mem_nil⟩
  | cons e rest ih =>
      rw [List.mapM_cons]
      refine (placeOf_ensures (hes e List.mem_cons_self)).bind fun p hp =>
        (ih fun e' he' => hes e' (List.mem_cons_of_mem e he')).bind fun ps hps => .pure ?_
      rw [List.flatMap_cons, Names.within_append]
      refine ⟨⟨hp.1, hps.1⟩, fun q hq => ?_⟩
      rcases List.mem_cons.mp hq with rfl | hq
      · exact hp.2
      · exact hps.2 q hq

theorem pattern_ensures : Ensures pattern fun _ => True := by
  refine (Ensures.eat _).bind fun _ _ => .ite ?_ ?_
  · exact (Ensures.list _ Ensures.expectName).bind fun _ _ => (Ensures.expect _).bind fun _ _ =>
      .pure trivial
  · exact Ensures.expectName.bind fun _ _ => .pure trivial

section

variable {e : Parse Expr} {b : Parse Block} (he : Ensures e Expr.Tidy)
  (hb : Ensures b Block.Tidy)

include he

theorem bindStmt_ensures : Ensures (bindStmt e) Stmt.Tidy :=
  (Ensures.look _).bind fun _ _ => (Ensures.expectWord _).bind fun _ _ =>
    pattern_ensures.bind fun _ _ => (Ensures.expect _).bind fun _ _ => he.bind fun _ hinit =>
      .pure ⟨hinit, fun _ hp => absurd hp List.not_mem_nil⟩

theorem giveStmt_ensures : Ensures (giveStmt e) Stmt.Tidy := by
  refine (Ensures.look _).bind fun _ _ => (Ensures.expectWord _).bind fun _ _ =>
    (Ensures.look _).bind fun _ _ => (Ensures.look _).bind fun _ _ =>
      (Ensures.look _).bind fun _ _ => .ite ?_ ?_
  · exact (Ensures.look _).bind fun _ _ =>
      .pure ⟨fun _ hx => absurd hx List.not_mem_nil, fun _ hp => absurd hp List.not_mem_nil⟩
  · exact he.bind fun _ hvalue => (Ensures.look _).bind fun _ _ =>
      .pure ⟨hvalue, fun _ hp => absurd hp List.not_mem_nil⟩

theorem exprStmt_ensures : Ensures (exprStmt e) (Sum.elim Stmt.Tidy Expr.Tidy) := by
  refine he.bind fun left hleft => (Ensures.look _).bind fun _ _ => .ite (.pure hleft) ?_
  refine (Ensures.eat _).bind fun _ _ => .ite ?_
    (.pure ⟨hleft, fun _ hp => absurd hp List.not_mem_nil⟩)
  refine he.bind fun value hvalue => ?_
  dsimp only
  split
  · next elements s =>
      have hparts := Names.within_exprs.mp (Names.within_append.mp hleft).1
      exact (placesOf_ensures hparts).bind fun ps hps =>
        .pure ⟨Names.within_append.mpr ⟨hps.1, hvalue⟩, hps.2⟩
  · refine (placeOf_ensures hleft).bind fun p hp =>
      .pure ⟨Names.within_append.mpr ⟨hp.1, hvalue⟩, fun q hq => ?_⟩
    obtain rfl := List.mem_singleton.mp hq
    exact hp.2

include hb

theorem branchStmt_ensures (fuel : Nat) : Ensures (branchStmt e b fuel) Stmt.Tidy := by
  have single : ∀ {c : Expr} {yes : Block} {s : Span}, c.Tidy → yes.Tidy →
      (Stmt.branch c yes none s).Tidy :=
    fun hc hyes => ⟨Names.within_append.mpr ⟨hc, hyes.uses⟩, hyes.stores⟩
  have double : ∀ {c : Expr} {yes no : Block} {s : Span}, c.Tidy → yes.Tidy → no.Tidy →
      (Stmt.branch c yes (some no) s).Tidy := by
    intro c yes no s hc hyes hno
    refine ⟨Names.within_append.mpr ⟨Names.within_append.mpr ⟨hc, hyes.uses⟩, hno.uses⟩, ?_⟩
    exact fun p hp => (List.mem_append.mp hp).elim (hyes.stores p) (hno.stores p)
  induction fuel with
  | zero =>
      rw [branchStmt.eq_def]
      refine (Ensures.look _).bind fun _ _ => (Ensures.expectWord _).bind fun _ _ =>
        he.bind fun c hc => hb.bind fun yes hyes => (Ensures.eatWord _).bind fun _ _ => .ite ?_ ?_
      · refine (Ensures.look _).bind fun _ _ => .ite ?_ ?_
        · exact (Ensures.look _).bind fun _ _ => .pure (single hc hyes)
        · exact hb.bind fun no hno => (Ensures.look _).bind fun _ _ => .pure (double hc hyes hno)
      · exact (Ensures.look _).bind fun _ _ => .pure (single hc hyes)
  | succ fuel ih =>
      rw [branchStmt.eq_def]
      refine (Ensures.look _).bind fun _ _ => (Ensures.expectWord _).bind fun _ _ =>
        he.bind fun c hc => hb.bind fun yes hyes => (Ensures.eatWord _).bind fun _ _ => .ite ?_ ?_
      · refine (Ensures.look _).bind fun _ _ => .ite ?_ ?_
        · refine ih.bind fun inner hinner => (Ensures.look _).bind fun _ _ =>
            .pure (double hc hyes (.mk_of (fun x hx => ?_) fun _ h => nomatch h))
          rwa [List.mem_singleton.mp hx]
        · exact hb.bind fun no hno => (Ensures.look _).bind fun _ _ => .pure (double hc hyes hno)
      · exact (Ensures.look _).bind fun _ _ => .pure (single hc hyes)

theorem forStmt_ensures : Ensures (forStmt e b) Stmt.Tidy :=
  (Ensures.look _).bind fun _ _ => (Ensures.expectWord _).bind fun _ _ =>
    Ensures.expectName.bind fun _ _ => (Ensures.expectWord _).bind fun _ _ =>
      he.bind fun _ hfirst => (Ensures.expect _).bind fun _ _ => he.bind fun _ hlast =>
        hb.bind fun _ hbody => (Ensures.look _).bind fun _ _ =>
          .pure ⟨Names.within_append.mpr ⟨Names.within_append.mpr ⟨hfirst, hlast⟩, hbody.uses⟩,
            hbody.stores⟩

theorem whileStmt_ensures : Ensures (whileStmt e b) Stmt.Tidy :=
  (Ensures.look _).bind fun _ _ => (Ensures.expectWord _).bind fun _ _ => he.bind fun _ hc =>
    hb.bind fun _ hbody => (Ensures.look _).bind fun _ _ =>
      .pure ⟨Names.within_append.mpr ⟨hc, hbody.uses⟩, hbody.stores⟩

theorem stmt_ensures : Ensures (stmt e b) (Sum.elim Stmt.Tidy Expr.Tidy) := by
  refine Ensures.peek.bind fun t _ => ?_
  split
  · exact (bindStmt_ensures he).bind fun _ h => .pure h
  · exact Ensures.remaining.bind fun _ _ => (branchStmt_ensures he hb _).bind fun _ h => .pure h
  · exact (forStmt_ensures he hb).bind fun _ h => .pure h
  · exact (whileStmt_ensures he hb).bind fun _ h => .pure h
  · exact (giveStmt_ensures he).bind fun _ h => .pure h
  · exact exprStmt_ensures he

theorem stmtLoop_ensures (fuel : Nat) :
    Ensures (stmtLoop e b fuel) fun r => (∀ x ∈ r.1, x.Tidy) ∧ ∀ t ∈ r.2, t.Tidy := by
  have none_ : (∀ x ∈ ([] : List Stmt), x.Tidy) ∧ ∀ t ∈ (none : Option Expr), t.Tidy :=
    ⟨fun _ hx => absurd hx List.not_mem_nil, fun _ h => nomatch h⟩
  induction fuel with
  | zero => exact .pure none_
  | succ fuel ih =>
      refine (Ensures.look _).bind fun _ _ => (Ensures.look _).bind fun _ _ =>
        .ite (.pure none_) ?_
      refine (Ensures.eat _).bind fun _ _ => .ite ih ?_
      refine (stmt_ensures he hb).bind fun r hr => ?_
      cases r with
      | inl x =>
          refine ih.bind fun r hr' => .pure ⟨fun y hy => ?_, hr'.2⟩
          rcases List.mem_cons.mp hy with rfl | hy
          · exact hr
          · exact hr'.1 y hy
      | inr t =>
          refine .pure ⟨none_.1, fun u hu => ?_⟩
          cases hu
          exact hr

end

theorem block_ensures (levels : Nat) : Ensures (block levels) Block.Tidy := by
  have stub : ∀ s : Span, (Block.mk [] none s).Tidy :=
    fun s => .mk_of (fun _ hx => absurd hx List.not_mem_nil) fun _ h => nomatch h
  induction levels with
  | zero => exact .refuse stub
  | succ levels ih =>
      refine .deeper _ stub ?_
      exact (Ensures.look _).bind fun _ _ => (Ensures.expect _).bind fun _ _ =>
        Ensures.remaining.bind fun _ _ =>
          (stmtLoop_ensures (expr_ensures levels 0) ih _).bind fun r hr =>
            (Ensures.look _).bind fun _ _ => (Ensures.expect _).bind fun _ _ =>
              .pure (.mk_of hr.1 hr.2)

/-! ## Items -/

theorem markerLoop_ensures (fuel : Nat) : Ensures (markerLoop fuel) fun _ => True := by
  induction fuel with
  | zero => exact .pure trivial
  | succ fuel ih =>
      refine (Ensures.look _).bind fun _ _ => .ite ?_ (.pure trivial)
      refine (Ensures.look _).bind fun _ _ => Ensures.advance.bind fun _ _ =>
        Ensures.expectName.bind fun n _ => ?_
      exact .unlessThen (Ensures.reportAt _ _) (ih.bind fun _ _ => .pure trivial)

theorem paramLoop_ensures (fuel : Nat) (seen : List Ident) :
    Ensures (paramLoop fuel seen) fun _ => True := by
  induction fuel generalizing seen with
  | zero => exact .pure trivial
  | succ fuel ih =>
      refine (Ensures.look _).bind fun _ _ => (Ensures.look _).bind fun _ _ =>
        .ite (.pure trivial) ?_
      refine Ensures.expectName.bind fun n _ => ?_
      exact .whenThen (Ensures.reportAt _ _) ((Ensures.eat _).bind fun _ _ =>
        .ite ((ih _).bind fun _ _ => .pure trivial) (.pure trivial))

theorem definition_ensures (markers : List Ident) :
    Ensures (definition markers) fun d => d.body.Tidy :=
  (Ensures.expectWord _).bind fun _ _ => Ensures.expectName.bind fun _ _ =>
    (Ensures.expect _).bind fun _ _ => Ensures.remaining.bind fun _ _ =>
      (paramLoop_ensures _ _).bind fun _ _ => (Ensures.expect _).bind fun _ _ =>
        (block_ensures _).bind fun _ hbody => .pure hbody

/-- The body of a definition is tidy. -/
def TidyItem (i : Item) : Prop := ∀ d span, i = .function d span → d.body.Tidy

theorem item_ensures (start : Span) (markers : List Ident) :
    Ensures (item start markers) fun r => ∀ i ∈ r, TidyItem i := by
  refine Ensures.peek.bind fun t _ => ?_
  split
  · refine (definition_ensures markers).bind fun d hd => (Ensures.look _).bind fun _ _ =>
      .pure fun i hi d' span h => ?_
    cases hi
    cases h
    exact hd
  · refine (Ensures.expectWord _).bind fun _ _ => (Ensures.look _).bind fun _ _ =>
      path_ensures.bind fun p _ => ?_
    refine .unlessThen (Ensures.report _) ((Ensures.look _).bind fun _ _ =>
      .pure fun i hi d span h => ?_)
    cases hi
    cases h
  · refine (Ensures.expectWord _).bind fun _ _ => Ensures.expectName.bind fun _ _ =>
      (Ensures.expect _).bind fun _ _ => (expr_ensures _ _).bind fun _ _ =>
        (Ensures.look _).bind fun _ _ => .pure fun i hi d span h => ?_
    cases hi
    cases h
  · exact (Ensures.look _).bind fun _ _ => (Ensures.report _).bind fun _ _ =>
      Ensures.advance.bind fun _ _ => .pure fun i hi => nomatch hi

theorem itemLoop_ensures (fuel : Nat) :
    Ensures (itemLoop fuel) fun items => ∀ i ∈ items, TidyItem i := by
  induction fuel with
  | zero => exact .pure fun _ hi => absurd hi List.not_mem_nil
  | succ fuel ih =>
      refine (Ensures.look _).bind fun _ _ =>
        .ite (.pure fun _ hi => absurd hi List.not_mem_nil) ?_
      refine (Ensures.look _).bind fun start _ => Ensures.remaining.bind fun _ _ =>
        (markerLoop_ensures _).bind fun markers _ => (Ensures.look _).bind fun _ _ => ?_
      refine .whenThen (Ensures.report _) ((item_ensures start markers).bind fun read hread =>
        (Ensures.eat _).bind fun _ _ => ih.bind fun more hmore => .pure fun i hi => ?_)
      rcases List.mem_append.mp hi with hi | hi
      · exact hread i (Option.mem_toList.mp hi)
      · exact hmore i hi

theorem tokens_tidy {lexemes : List Lexeme} {stop : Span} {p : Program}
    (hl : ∀ l ∈ lexemes, l.Plain) (h : tokens lexemes stop = .ok p) :
    ∀ i ∈ p.items, TidyItem i := by
  have hitems := (itemLoop_ensures lexemes.length { rest := lexemes, stop } hl).1
  have hp : p.items = (itemLoop lexemes.length { rest := lexemes, stop }).1 := by
    change (if _ then Except.ok _ else Except.error _) = _ at h
    split at h
    · cases h
      rfl
    · cases h
  rwa [hp]

end Parse

/-- No item that is read again from a text has an alias in it. -/
theorem Function.tidy_of_extract {f : Function} {unit : Program} (h : f.extract = .ok unit) :
    ∀ i ∈ unit.items, Parse.TidyItem i := by
  rw [extract] at h
  split at h
  · cases h
  · next file source horigin =>
      split at h
      · next unit hunit =>
          cases h
          rw [Program.ofScan] at hunit
          split at hunit
          · exact Parse.tokens_tidy (Scan.range_plain _ _ _) hunit
          · cases hunit
      · cases h

/-- A definition that was read again from its text has no alias in it. -/
theorem Function.within_plain_of_extract {f : Function} {d : Definition} {span : Span}
    (h : f.extract = .ok ⟨[.function d span]⟩) : d.Within .plain :=
  Definition.within_of_tidy (tidy_of_extract h _ (List.mem_singleton_self _) d span rfl)

end Graft
