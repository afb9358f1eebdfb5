import Graft.Proofs.Extraction
import Graft.Proofs.Pacing

/-!
# Reading stays in the text

The reader with a position reads every list of tokens to its end: no place outside the list is
looked at, no loop goes on without having stepped over a token, no level is left that was not
entered, and what is read and reported is what the cursor reads and reports.
-/

namespace Graft.Parse

variable {α β : Type} {frame : Frame} {active most : Nat} {m : Machine} {c : Cursor}

/-! ## Statements -/

theorem placeOf_paces (e : Expr) : Paces frame active 0 (Indexed.placeOf e) (placeOf e) := by
  intro n m c h
  cases e with
  | var => exact .pure h
  | index base =>
      cases base with
      | var => exact .pure h
      | _ => exact (Mirrors.reportAt h _ _).bind fun _ m c h => .pure h
  | _ => exact (Mirrors.reportAt h _ _).bind fun _ m c h => .pure h

theorem mapM_paces {x : α → Indexed β} {y : α → Parse β}
    (hxy : ∀ a, Paces frame active 0 (x a) (y a)) (as : List α) :
    Paces frame active 0 (as.mapM x) (as.mapM y) := by
  induction as with
  | nil =>
      intro n m c h
      exact .pure h
  | cons a as ih =>
      intro n m c h
      rw [List.mapM_cons, List.mapM_cons]
      exact (hxy a h).bind fun b m c h => (ih h).bind fun bs m c h => .pure h

theorem eat_paces (s : Symbol) : Paces frame active 0 (Indexed.eat s) (eat s) := by
  intro n m c h
  apply (Mirrors.eat h s).mono
  intro b m' c' hate
  cases b with
  | true => exact hate.2.2.loosen (Nat.sub_le _ _)
  | false =>
      obtain ⟨-, rfl, rfl⟩ := hate
      exact h

theorem expectName_paces : Paces frame active 0 Indexed.expectName expectName := fun _ _ _ h =>
  (Mirrors.expectName h).mono fun _ _ _ h' => h'.1

theorem pattern_paces : Paces frame active 0 Indexed.pattern pattern := by
  intro n m c h
  refine .eatThen h (fun m c h _ => ?_) ?_
  · refine (Mirrors.list _ expectName_paces h).bind fun names m c h => ?_
    exact (Mirrors.expect h _).bind fun _ m c h => .pure (h.loosen (Nat.sub_le _ _))
  · exact (expectName_paces h).bind fun name m c h => .pure h

section

variable {e : Indexed Expr} {e' : Parse Expr} {b : Indexed Block} {b' : Parse Block}
  (he : Paces frame active 1 e e') (hb : Paces frame active 0 b b')

include he

theorem bindStmt_mirrors (hlet : c.isAtWord .letWord = true) (h : Level frame active most m c) :
    Mirrors m c (Indexed.bindStmt e) (bindStmt e') fun _ => Level frame active (most - 1) := by
  refine .look h.here rfl ((Mirrors.keyword h hlet).bind fun _ m c h => ?_)
  refine (pattern_paces h).bind fun target m c h => ?_
  refine (Mirrors.expect h _).bind fun _ m c h => ?_
  exact (he.loosen h).bind fun init m c h => .pure h

theorem giveStmt_mirrors (hgive : c.isAtWord .returnWord = true) (h : Level frame active most m c) :
    Mirrors m c (Indexed.giveStmt e) (giveStmt e') fun _ => Level frame active (most - 1) := by
  refine .look h.here rfl ((Mirrors.keyword h hgive).bind fun _ m c h => ?_)
  refine .look (h.isAt _) rfl (.look (h.isAt _) rfl (.look h.isAtEnd rfl ?_))
  refine .ite (fun _ => ?_) fun _ => ?_
  · exact .look h.before rfl (.pure h)
  · exact (he.loosen h).bind fun value m c h => .look h.before rfl (.pure h)

theorem exprStmt_paces : Paces frame active 1 (Indexed.exprStmt e) (exprStmt e') := by
  intro n m c h
  refine (he h).bind fun left m c h => ?_
  refine .look (h.isAt _) rfl (.ite (fun _ => .pure h) fun _ => .eatThen h (fun m c h _ => ?_) ?_)
  · refine (he.loosen h).bind fun value m c h => ?_
    have h := h.loosen (Nat.sub_le (n - 1) 1)
    cases left with
    | tuple elements =>
        exact (mapM_paces placeOf_paces elements h).bind fun places m c h => .pure h
    | _ => exact (placeOf_paces _ h).bind fun place m c h => .pure h
  · exact .pure h

include hb

theorem forStmt_mirrors (hfor : c.isAtWord .forWord = true) (h : Level frame active most m c) :
    Mirrors m c (Indexed.forStmt e b) (forStmt e' b') fun _ => Level frame active (most - 1) := by
  refine .look h.here rfl ((Mirrors.keyword h hfor).bind fun _ m c h => ?_)
  refine (expectName_paces h).bind fun counter m c h => ?_
  refine (Mirrors.expectWord h _).bind fun _ m' c' h => ?_
  have h := h.loosen (by split <;> omega : _ ≤ most - 1)
  refine (he.loosen h).bind fun first m c h => ?_
  refine (Mirrors.expect h _).bind fun _ m c h => ?_
  refine (he.loosen h).bind fun last m c h => ?_
  exact (hb h).bind fun body m c h => .look h.before rfl (.pure h)

theorem whileStmt_mirrors (hwhile : c.isAtWord .whileWord = true)
    (h : Level frame active most m c) :
    Mirrors m c (Indexed.whileStmt e b) (whileStmt e' b') fun _ =>
      Level frame active (most - 1) := by
  refine .look h.here rfl ((Mirrors.keyword h hwhile).bind fun _ m c h => ?_)
  refine (he.loosen h).bind fun condition m c h => ?_
  exact (hb h).bind fun body m c h => .look h.before rfl (.pure h)

/-- A chain of conditionals is no longer than the tokens ahead. -/
theorem branchStmt_mirrors {fuel : Nat} (hif : c.isAtWord .ifWord = true)
    (h : Level frame active most m c) (hfuel : c.rest.length ≤ fuel) :
    Mirrors m c (Indexed.branchStmt e b) (branchStmt e' b' fuel) fun _ =>
      Level frame active (most - 1) := by
  induction fuel generalizing m c most with
  | zero =>
      have hnil := List.length_eq_zero_iff.mp (Nat.le_zero.mp hfuel)
      exact absurd hnil (Cursor.ne_nil_of_isAtWord hif)
  | succ fuel ih =>
      have htight := h.tighten
      have hahead := h.ahead
      rw [branchStmt]
      apply Mirrors.step
      refine .look h.here rfl ((Mirrors.keyword htight hif).bind fun _ m₁ c₁ h₁ => ?_)
      refine (he.loosen h₁).bind fun condition m₂ c₂ h₂ => (hb h₂).bind fun yes m₃ c₃ h₃ => ?_
      refine (Mirrors.eatWord h₃ _).bind fun b m₄ c₄ hate => ?_
      refine .ite (fun htrue => ?_) fun hfalse => ?_
      · rw [if_pos htrue] at hate
        obtain ⟨-, hpos, h₄⟩ := hate
        refine .look (h₄.isAtWord _) rfl (.ite (fun hif => ?_) fun _ => ?_)
        · have hahead₄ := h₄.ahead
          -- the words `if` and `else` were stepped over
          have hinner := ih hif h₄ (by omega)
          refine (Mirrors.goOn htight h₄ (by omega) hinner).bind fun inner m c h => ?_
          exact .look h.before rfl (.pure (h.loosen (by omega)))
        · refine (hb h₄).bind fun no m c h => ?_
          exact .look h.before rfl (.pure (h.loosen (by omega)))
      · rw [if_neg hfalse] at hate
        obtain ⟨-, rfl, rfl⟩ := hate
        exact .look h₃.before rfl (.pure (h₃.loosen (by omega)))

theorem stmt_paces : Paces frame active 1 (Indexed.stmt e b) (stmt e' b') := by
  intro n m c h
  have hother := exprStmt_paces he h
  refine .look h.peek rfl ?_
  cases hpeek : c.peek with
  | none => exact hother
  | some t =>
      cases t with
      | word k =>
          have hword := Cursor.isAtWord_of_peek hpeek
          cases k with
          | letWord => exact (bindStmt_mirrors he hword h).bind fun s m c h => .pure h
          | ifWord =>
              have hbranch := branchStmt_mirrors he hb hword h (Nat.le_refl _)
              exact .count (hbranch.bind fun s m c h => .pure h)
          | forWord => exact (forStmt_mirrors he hb hword h).bind fun s m c h => .pure h
          | whileWord => exact (whileStmt_mirrors he hb hword h).bind fun s m c h => .pure h
          | returnWord => exact (giveStmt_mirrors he hword h).bind fun s m c h => .pure h
          | _ => exact hother
      | _ => exact hother

theorem stmts_mirrors (h : Level frame active most m c) :
    Mirrors m c (Indexed.stmts e b) (stmtLoop e' b' c.rest.length) fun _ =>
      Level frame active most := by
  refine .again (fun fuel _ => stmtLoop e' b' fuel) (fun _ _ => rfl) ?_ h (Nat.le_refl _) ()
  intro fuel _ n m c next h hnext
  refine .look (h.isAt _) rfl (.look h.isAtEnd rfl (.ite (fun _ => .pure h) fun hend => ?_))
  have hpos : 0 < n := by
    apply h.pos
    grind [Cursor.isAtEnd]
  refine .eatThen h (fun m c h _ => ?_) ?_
  · exact (hnext () _ m c h (by omega)).mono fun _ _ _ h => h.loosen (Nat.sub_le _ _)
  · refine (stmt_paces he hb h).bind fun read m c h => ?_
    cases read with
    | inl s =>
        exact (hnext () _ m c h (by omega)).bind fun more m c h =>
          .pure (h.loosen (Nat.sub_le _ _))
    | inr tail => exact .pure (h.loosen (Nat.sub_le _ _))

end

/-- Blocks are read alike at every level, the refused ones too. -/
theorem block_paces {levels : Nat} (hlevels : levels + active = maxLevels) :
    Paces frame active 0 (Indexed.block (levels + 1)) (block levels) := by
  induction levels generalizing active with
  | zero => exact fun n m c h => .refuse (by omega) h
  | succ levels ih =>
      intro n m c h
      refine .nested hlevels (fun h => ?_) h
      have hinner : levels + (active + 1) = maxLevels := by omega
      refine .look h.here rfl ((Mirrors.expect h _).bind fun _ m c h => .count ?_)
      refine (stmts_mirrors (expr_paces hinner 0) (ih hinner) h).bind fun read m c h => ?_
      exact .look h.here rfl ((Mirrors.expect h _).bind fun _ m c h => .pure h)

/-! ## Items -/

theorem markers_mirrors (h : Level frame active most m c) :
    Mirrors m c Indexed.markers (markerLoop c.rest.length) fun _ => Level frame active most := by
  refine .again (fun fuel _ => markerLoop fuel) (fun _ _ => rfl) ?_ h (Nat.le_refl _) ()
  intro fuel _ n m c next h hnext
  refine .look (h.isAt _) rfl (.ite (fun hat => ?_) fun _ => .pure h)
  have hpos := h.pos (Cursor.ne_nil_of_isAt hat)
  refine .look h.here rfl ((Mirrors.advance h).bind fun _ m c h => ?_)
  refine (expectName_paces h).bind fun name m c h => ?_
  refine .ite (fun _ => ?_) fun _ => (Mirrors.reportAt h _ _).bind fun _ m c h => ?_
  all_goals
    exact (hnext () _ m c h (by omega)).bind fun more m c h => .pure (h.loosen (Nat.sub_le n 1))

theorem params_mirrors (h : Level frame active most m c) :
    Mirrors m c Indexed.params (paramLoop c.rest.length []) fun _ => Level frame active most := by
  refine .again paramLoop (fun _ _ => rfl) ?_ h (Nat.le_refl _) []
  intro fuel seen n m c next h hnext
  refine .look (h.isAt _) rfl (.look h.isAtEnd rfl (.ite (fun _ => .pure h) fun _ => ?_))
  refine (expectName_paces h).bind fun name m c h => ?_
  refine .ite (fun _ => (Mirrors.reportAt h _ _).bind fun _ m c h => ?_) fun _ => ?_
  all_goals
    refine .eatThen h (fun m c h hpos => ?_) (.pure h)
    exact (hnext _ _ m c h (by omega)).bind fun more m c h => .pure (h.loosen (Nat.sub_le _ _))

theorem definition_mirrors (ms : List Ident) (hfn : c.isAtWord .fnWord = true)
    (h : Level frame 0 most m c) :
    Mirrors m c (Indexed.definition ms) (definition ms) fun _ => Level frame 0 (most - 1) := by
  refine (Mirrors.keyword h hfn).bind fun _ m c h => ?_
  refine (expectName_paces h).bind fun name m c h => ?_
  refine (Mirrors.expect h _).bind fun _ m c h => .count ?_
  refine (params_mirrors h).bind fun params m c h => ?_
  refine (Mirrors.expect h _).bind fun _ m c h => ?_
  exact (block_paces (Nat.add_zero _) h).bind fun body m c h => .pure h

@[simp]
theorem Cursor.advance_reports (c : Cursor) : c.advance.reports = c.reports := by
  grind [advance]

/-- Every item steps over a token; where none is read, that is reported. -/
theorem item_mirrors (start : Span) (ms : List Ident) (h : Level frame 0 most m c) :
    Mirrors m c (Indexed.item start ms) (item start ms) fun read m' c' =>
      Level frame 0 (most - 1) m' c' ∧ (read = none → c'.reports ≠ []) := by
  have hother : Mirrors m c
      (do
        Indexed.report (.notAnItem (← Indexed.found))
        Indexed.advance
        return (none : Option Item))
      (do
        report (.notAnItem (← found))
        advance
        return none) fun read m' c' =>
          Level frame 0 (most - 1) m' c' ∧ (read = none → c'.reports ≠ []) := by
    obtain ⟨m', hrun, h'⟩ := (h.reportAt (.notAnItem c.found) c.here).advance
    refine .look h.found rfl ⟨m', ?_, h', fun _ => ?_⟩
    · rw [Indexed.bind_apply (Indexed.bind_apply h.here), Indexed.bind_apply hrun]
      rfl
    · show (c.report (.notAnItem c.found) c.here).advance.reports ≠ []
      simp [Cursor.report]
  refine .look h.peek rfl ?_
  cases hpeek : c.peek with
  | none => exact hother
  | some t =>
      cases t with
      | word k =>
          have hword := Cursor.isAtWord_of_peek hpeek
          cases k with
          | fnWord =>
              refine (definition_mirrors ms hword h).bind fun d m c h => ?_
              exact .look h.before rfl (.pure ⟨h, by simp⟩)
          | useWord =>
              refine (Mirrors.keyword h hword).bind fun _ m c h => .look h.here rfl ?_
              refine (path_paces h).bind fun p m c h => ?_
              refine .ite (fun _ => ?_) fun _ => (Mirrors.report h _).bind fun _ m c h => ?_
              all_goals exact .look h.before rfl (.pure ⟨h, by simp⟩)
          | constWord =>
              refine (Mirrors.keyword h hword).bind fun _ m c h => ?_
              refine (expectName_paces h).bind fun name m c h => ?_
              refine (Mirrors.expect h _).bind fun _ m c h => ?_
              refine ((expr_paces (Nat.add_zero _) 0).loosen h).bind fun value m c h => ?_
              exact .look h.before rfl (.pure ⟨h, by simp⟩)
          | _ => exact hother
      | _ => exact hother

theorem markedItem_mirrors (h : Level frame 0 most m c) :
    Mirrors m c Indexed.markedItem markedItem fun read m' c' =>
      Level frame 0 (most - 1) m' c' ∧ (read = none → c'.reports ≠ []) := by
  refine .look h.here rfl (.count ((markers_mirrors h).bind fun ms m c h => ?_))
  refine .look (h.isAtWord _) rfl ?_
  refine .ite (fun _ => (Mirrors.report h _).bind fun _ m c h => ?_) fun _ => ?_
  all_goals exact item_mirrors _ ms h

/-- After an item no level is left open, unless something was reported. -/
theorem Level.note (h : Level frame 0 most m c) {read : Option Item}
    (hread : read = none → c.reports ≠ []) :
    Level { frame with done := frame.done + read.toList.length } 0 most
      { m with depths := m.depths ++ [m.depth] } c :=
  { h with
    clear := by
      intro hclear
      obtain ⟨hrefused, hdepths⟩ := h.clear hclear
      have hdepth : m.depth = 0 := by rw [h.depth, hrefused]
      cases read with
      | none => exact absurd hclear (hread rfl)
      | some i =>
          refine ⟨hrefused, ?_⟩
          rw [hdepths, hdepth]
          exact List.replicate_succ'.symm }

theorem items_mirrors_nil (fuel : Nat) (hnil : c.rest = []) (h : Level frame 0 most m c) :
    Mirrors m c Indexed.items (itemLoop fuel) fun items =>
      Level { frame with done := frame.done + items.length } 0 0 := by
  have hend : c.isAtEnd = true := by simp [Cursor.isAtEnd, hnil]
  rw [Mirrors, itemLoop_nil fuel hnil]
  refine ⟨m, ?_, { h with ahead := by simp [hnil] }⟩
  rw [Indexed.items, Indexed.again_apply, Indexed.bind_apply h.isAtEnd, if_pos hend]
  rfl

/-- All items are read alike, to the end of the text. -/
theorem items_mirrors {fuel : Nat} (h : Level frame 0 most m c) (hfuel : c.rest.length ≤ fuel) :
    Mirrors m c Indexed.items (itemLoop fuel) fun items =>
      Level { frame with done := frame.done + items.length } 0 0 := by
  induction fuel generalizing frame m c most with
  | zero => exact items_mirrors_nil 0 (List.length_eq_zero_iff.mp (Nat.le_zero.mp hfuel)) h
  | succ fuel ih =>
      by_cases hnil : c.rest = []
      · exact items_mirrors_nil _ hnil h
      have htight := h.tighten
      have hpos := List.length_pos_iff.mpr hnil
      rw [itemLoop_succ]
      apply Mirrors.step
      refine .look h.isAtEnd rfl (.ite (fun hend => ?_) fun _ => ?_)
      · exact absurd (List.isEmpty_iff.mp hend) hnil
      refine (markedItem_mirrors htight).bind fun read m₁ c₁ h₁ => ?_
      refine .note ((eat_paces _ (h₁.1.note h₁.2)).bind fun _ m₂ c₂ h₂ => ?_)
      -- the rest is read in a frame with one item more, where one was read
      have hahead := h₂.ahead
      have hmore := ih h₂ (by omega)
      refine (Mirrors.goOn htight h₂ (by omega) hmore).bind fun more m c h => .pure ?_
      simpa [Nat.add_assoc] using h

/-- Reading by position goes well for every list of tokens and comes to its end. What it gives is
what reading with a cursor gives: a program if nothing was reported, and then no level was open
after any of the items. -/
theorem file_in_bounds (lexemes : List Lexeme) (stop : Span) :
    ∃ items m, Indexed.file lexemes stop = .ok (items, m) ∧ m.tokens = slots lexemes stop ∧
      m.position = lexemes.length ∧
      tokens lexemes stop =
        (if m.diagnostics.isEmpty then .ok ⟨items⟩ else .error m.diagnostics) ∧
      (m.diagnostics = [] → m.depth = 0 ∧ m.depths = List.replicate items.length 0) := by
  have hstart : Level { lexemes, stop } 0 lexemes.length { tokens := slots lexemes stop }
      { rest := lexemes, stop } := by
    constructor <;> simp
  obtain ⟨m, hrun, h⟩ := items_mirrors hstart (Nat.le_refl _)
  refine ⟨_, m, hrun, h.tokens, ?_, ?_, ?_⟩
  · have hahead := h.ahead
    have hposition := h.position
    rw [h.rest, List.length_drop] at hahead
    dsimp only at hahead hposition
    omega
  · rw [h.diagnostics, List.isEmpty_reverse]
    rfl
  · intro hnone
    have hclear := h.clear (by simpa [h.diagnostics] using hnone)
    rw [h.depth, hclear.1, hclear.2]
    simp

end Graft.Parse
