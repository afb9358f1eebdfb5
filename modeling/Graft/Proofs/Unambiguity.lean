import Graft.Proofs.Layout
import Graft.Proofs.Precedence

/-!
# Printed trees determine trees

The tokens of a printed tree, with the ends of its lines, determine the tree up to spans: what a
statement starts with tells its kind, and its expressions are read back. There is one exception. A
block may end in an expression whose value it drops, and then it is printed like the block that has
this expression for its value.
-/

namespace Graft

open Parse (Stops endsExpr)

attribute [local simp] Stmt.erase Block.erase Block.eraseAll

/-! ## Values that are dropped -/

def Stmt.isEval : Stmt → Bool
  | .eval .. => true
  | _ => false

mutual

/-- Whether a block in the statement ends in an expression whose value it drops. -/
def Stmt.dropsLast : Stmt → Bool
  | .branch _ yes none _ => Block.dropsLast yes
  | .branch _ yes (some no) _ => Block.dropsLast yes || Block.dropsLast no
  | .forRange _ _ _ body _ => Block.dropsLast body
  | .whileLoop _ body _ => Block.dropsLast body
  | _ => false
  termination_by structural s => s

/-- Whether the block, or one in it, ends in an expression whose value it drops. -/
def Block.dropsLast : Block → Bool
  | .mk stmts tail _ => Block.dropsLastAll tail.isNone stmts
  termination_by structural b => b

/-- The same of the statements of a block, which drops the last value if it is `bare`. -/
def Block.dropsLastAll (bare : Bool) : List Stmt → Bool
  | [] => false
  | s :: rest => Stmt.dropsLast s || (bare && rest.isEmpty && s.isEval) ||
      Block.dropsLastAll bare rest
  termination_by structural ss => ss

end

/-! ## Lists -/

theorem Parse.Stops.none (ts : List (Option Token)) : Stops (none :: ts) := by
  rintro t ⟨⟩

theorem Parse.Stops.cons {t : Token} (h : endsExpr t = true) (ts : List (Option Token)) :
    Stops (some t :: ts) := by
  rintro u ⟨⟩
  exact h

theorem Expr.plain_append_inj {e e' : Expr} {ts ts' : List (Option Token)}
    (he : e.Throughout Named) (he' : e'.Throughout Named) (hts : Stops ts) (hts' : Stops ts')
    (h : e.tokens.map some ++ ts = e'.tokens.map some ++ ts') : e.erase = e'.erase ∧ ts = ts' :=
  tokens_append_inj he he' hts hts' (show (parenTokens false e.tokens).map some ++ ts =
    (parenTokens false e'.tokens).map some ++ ts' from h)

/-- A list in parentheses is what follows the name in a call. -/
theorem listTokens_append_inj {es es' : List Expr} {ts ts' : List (Option Token)}
    (hes : ∀ e ∈ es, e.Throughout Expr.Named) (hes' : ∀ e ∈ es', e.Throughout Expr.Named)
    (hts : Stops ts) (hts' : Stops ts')
    (h : (listTokens es).map some ++ ts = (listTokens es').map some ++ ts') :
    es.map Expr.erase = es'.map Expr.erase ∧ ts = ts' := by
  have hpath : Path.Named ⟨"f", []⟩ := by
    intro n hn
    obtain rfl := List.mem_singleton.mp hn
    exact ⟨.of_bytes rfl rfl rfl, rfl⟩
  have hcall : ∀ es : List Expr, (Expr.call ⟨"f", []⟩ .dummy es .dummy).tokens =
      .name "f" :: listTokens es := by
    intro es
    rw [Expr.tokens, Expr.tokensAll_eq]
    rfl
  obtain ⟨herase, hrest⟩ := Expr.plain_append_inj
    (Expr.throughout_call.mpr ⟨hes, hpath⟩ : (Expr.call ⟨"f", []⟩ .dummy es .dummy).Throughout _)
    (Expr.throughout_call.mpr ⟨hes', hpath⟩ : (Expr.call ⟨"f", []⟩ .dummy es' .dummy).Throughout _)
    hts hts' (by rw [hcall, hcall, List.map_cons, List.map_cons, List.cons_append, h]; rfl)
  rw [Expr.erase, Expr.erase, Expr.eraseAll_eq, Expr.eraseAll_eq] at herase
  exact ⟨by injection herase, hrest⟩

theorem map_eq_of_map_eq {α β γ : Type} {f : α → β} {g : α → γ} {l l' : List α}
    (hfg : ∀ x ∈ l, ∀ y ∈ l', f x = f y → g x = g y) (h : l.map f = l'.map f) :
    l.map g = l'.map g := by
  induction l generalizing l' with
  | nil =>
      obtain rfl := List.map_eq_nil_iff.mp h.symm
      rfl
  | cons x l ih =>
      cases l' with
      | nil => cases h
      | cons y l' =>
          obtain ⟨hxy, hrest⟩ := List.cons.inj h
          rw [List.map_cons, List.map_cons, hfg x List.mem_cons_self y List.mem_cons_self hxy,
            ih (fun z hz w hw => hfg z (List.mem_cons_of_mem x hz) w (List.mem_cons_of_mem y hw))
              hrest]

theorem Ident.named_exprs {ns : List Ident} (h : ∀ n ∈ ns, Scan.IsName n.text) :
    ∀ e ∈ ns.map Ident.expr, e.Throughout Expr.Named := by
  intro e he
  obtain ⟨n, hn, rfl⟩ := List.mem_map.mp he
  exact Expr.throughout_var.mpr (h n hn)

theorem Ident.erase_of_exprs {ns ns' : List Ident}
    (h : (ns.map Ident.expr).map Expr.erase = (ns'.map Ident.expr).map Expr.erase) :
    (ns.map fun n => (⟨n.text, .dummy⟩ : Ident)) = ns'.map fun n => ⟨n.text, .dummy⟩ := by
  rw [List.map_map, List.map_map] at h
  apply map_eq_of_map_eq ?_ h
  intro m _ n _ hmn
  have htext : Expr.var m.text .dummy = .var n.text .dummy := hmn
  injection htext with htext
  rw [htext]

theorem Place.named_expr {p : Place} (h : p.Named) : p.expr.Throughout Expr.Named := by
  cases p with
  | var n s => exact Expr.throughout_var.mpr h.1
  | discard s => exact Expr.throughout_var.mpr (⟨.of_bytes rfl rfl rfl, rfl⟩ : Scan.IsName "_")
  | index base i s =>
      exact Expr.throughout_index.mpr ⟨Expr.throughout_var.mpr h.1, h.2, trivial⟩

theorem Place.named_exprs {ps : List Place} (h : ∀ p ∈ ps, p.Named) :
    ∀ e ∈ ps.map Place.expr, e.Throughout Expr.Named := by
  intro e he
  obtain ⟨p, hp, rfl⟩ := List.mem_map.mp he
  exact named_expr (h p hp)

/-- `_` is not the name of a place. -/
theorem Place.erase_of_expr {p p' : Place} (h : p.Named) (h' : p'.Named)
    (he : p.expr.erase = p'.expr.erase) : p.erase = p'.erase := by
  cases p <;> cases p' <;> simp_all [expr, Expr.erase, erase, Named]

theorem Place.erase_of_exprs {ps ps' : List Place} (h : ∀ p ∈ ps, p.Named)
    (h' : ∀ p ∈ ps', p.Named)
    (he : (ps.map Place.expr).map Expr.erase = (ps'.map Place.expr).map Expr.erase) :
    ps.map Place.erase = ps'.map Place.erase := by
  rw [List.map_map, List.map_map] at he
  exact map_eq_of_map_eq (fun p hp q hq hpq => erase_of_expr (h p hp) (h' q hq) hpq) he

theorem Pattern.tokens_append_inj {t t' : Pattern} {ts ts' : List (Option Token)}
    (ht : ∀ n ∈ t.idents, Scan.IsName n.text) (ht' : ∀ n ∈ t'.idents, Scan.IsName n.text)
    (hts : Stops ts) (hts' : Stops ts')
    (h : t.tokens.map some ++ ts = t'.tokens.map some ++ ts') : t.erase = t'.erase ∧ ts = ts' := by
  cases t with
  | name n =>
      cases t' with
      | name n' =>
          obtain ⟨hn, hrest⟩ := List.cons.inj h
          injection hn with hn
          injection hn with hn
          exact ⟨by rw [erase, erase, hn], hrest⟩
      | names ns' => cases (List.cons.inj h).1
  | names ns =>
      cases t' with
      | name n' => cases (List.cons.inj h).1
      | names ns' =>
          obtain ⟨hnames, hrest⟩ := listTokens_append_inj (Ident.named_exprs ht)
            (Ident.named_exprs ht') hts hts' h
          exact ⟨congrArg Pattern.names (Ident.erase_of_exprs hnames), hrest⟩

/-! ## What a statement starts with -/

/-- The word that a statement starts with, if it does not start like an expression. -/
def Stmt.leader : Stmt → Option Keyword
  | .bind .. => some .letWord
  | .branch .. => some .ifWord
  | .forRange .. => some .forWord
  | .whileLoop .. => some .whileWord
  | .give .. => some .returnWord
  | .assign .. | .assignTuple .. | .eval .. => none

/-- The word, if it opens no expression. -/
def Token.leader : Token → Option Keyword
  | .word k => if (Token.word k).opens then none else some k
  | _ => none

theorem Token.leader_of_opens {t : Token} (h : t.opens = true) :
    t.leader = none ∧ t ≠ .mark .closeBrace := by
  constructor
  · cases t with
    | word k => exact if_pos h
    | _ => rfl
  · rintro rfl
    cases h

theorem Stmt.layout_leader (x : Stmt) : ∃ t more, x.layout = some t :: more ∧
    x.leader = t.leader ∧ t ≠ .mark .closeBrace := by
  have opening : ∀ {ts : List Token} {more : List (Option Token)}, Opening ts →
      ∃ t rest, ts.map some ++ more = some t :: rest ∧ none = t.leader ∧
        t ≠ .mark .closeBrace := by
    rintro _ more ⟨t, rest, rfl, ht⟩
    obtain ⟨hleader, hbrace⟩ := Token.leader_of_opens ht
    exact ⟨t, _, rfl, hleader.symm, hbrace⟩
  have word : ∀ {k : Keyword} {more : List (Option Token)}, (Token.word k).opens = false →
      ∃ t rest, some (.word k) :: more = some t :: rest ∧ some k = t.leader ∧
        t ≠ .mark .closeBrace := by
    intro k more hk
    refine ⟨.word k, more, rfl, ?_, by rintro ⟨⟩⟩
    rw [Token.leader, hk]
    rfl
  cases x with
  | bind t e s => exact word rfl
  | branch c yes no s => cases no <;> exact word rfl
  | forRange v a b body s => exact word rfl
  | whileLoop c body s => exact word rfl
  | give v s => cases v <;> exact word rfl
  | assign p e s =>
      rw [layout, List.map_append]
      exact opening p.expr.opening
  | assignTuple ps e s => exact ⟨_, _, rfl, rfl, by rintro ⟨⟩⟩
  | eval e s =>
      rw [layout, ← List.append_nil (e.tokens.map some)]
      exact opening e.opening

theorem Stmt.leader_eq {x y : Stmt} {ts ts' : List (Option Token)}
    (h : x.layout ++ ts = y.layout ++ ts') : x.leader = y.leader := by
  obtain ⟨t, more, ht, hleader, -⟩ := x.layout_leader
  obtain ⟨t', more', ht', hleader', -⟩ := y.layout_leader
  rw [ht, ht'] at h
  obtain rfl : t = t' := Option.some.inj (List.cons.inj h).1
  rw [hleader, hleader']

/-! ## Statements -/

/-- A line ends, with a semicolon or without one. -/
def LineEnds (ts : List (Option Token)) : Prop :=
  ∃ more, ts = none :: more ∨ ts = some (.mark .semicolon) :: more

theorem LineEnds.stops {ts : List (Option Token)} (h : LineEnds ts) : Stops ts := by
  obtain ⟨more, rfl | rfl⟩ := h
  · exact .none more
  · exact .cons rfl more

/-- Where a line ends, no token but a semicolon is ahead. -/
theorem LineEnds.ne_cons {ts more : List (Option Token)} (h : LineEnds ts) {t : Token}
    (ht : t ≠ .mark .semicolon) : ts ≠ some t :: more := by
  obtain ⟨rest, rfl | rfl⟩ := h
  · rintro ⟨⟩
  · rintro ⟨⟩
    exact ht rfl

section

variable {e v v' : Expr} {p p' : Place} {ps ps' : List Place} {s s' : Span}
  {ts ts' : List (Option Token)}

theorem Stmt.eval_ne_assign (he : e.Throughout Expr.Named) (hp : p.Named) (hts : LineEnds ts) :
    (Stmt.eval e s).layout ++ ts ≠ (Stmt.assign p v s').layout ++ ts' := by
  intro h
  rw [layout, layout, List.map_append, List.append_assoc] at h
  obtain ⟨-, hrest⟩ := Expr.plain_append_inj he (Place.named_expr hp) hts.stops (.cons rfl _) h
  exact hts.ne_cons (by rintro ⟨⟩) hrest

/-- Several places are written like a tuple, and a single one like an expression in parentheses. -/
theorem Stmt.eval_ne_assignTuple (he : e.Throughout Expr.Named) (hne : ps ≠ [])
    (hps : ∀ p ∈ ps, p.Named) (hts : LineEnds ts) :
    (Stmt.eval e s).layout ++ ts ≠ (Stmt.assignTuple ps v s').layout ++ ts' := by
  intro h
  rw [layout, layout, List.map_append, List.append_assoc] at h
  have hexprs := Place.named_exprs hps
  have hrest : ts = some (.mark .assign) :: (v.tokens.map some ++ ts') := by
    obtain ⟨p, ps, rfl⟩ := List.exists_cons_of_ne_nil hne
    cases ps with
    | nil =>
        have hp : p.expr.Throughout Expr.Named := hexprs _ List.mem_cons_self
        exact (Expr.tokens_append_inj he hp hts.stops (.cons rfl _)
          (show (parenTokens false e.tokens).map some ++ ts =
            (parenTokens true p.expr.tokens).map some ++ _ from h)).2
    | cons q ps =>
        have htuple : (Expr.tuple ((p :: q :: ps).map Place.expr) .dummy).tokens =
            listTokens ((p :: q :: ps).map Place.expr) := by
          rw [List.map_cons, Expr.tokens_tuple_cons, listTokens]
          simp [commaTokens]
        rw [← htuple] at h
        exact (Expr.plain_append_inj he (Expr.throughout_tuple.mpr
          ⟨hexprs, List.cons_ne_nil _ _⟩) hts.stops (.cons rfl _) h).2
  exact hts.ne_cons (by rintro ⟨⟩) hrest

theorem Stmt.assign_ne_assignTuple :
    (Stmt.assign p v s).layout ++ ts ≠ (Stmt.assignTuple ps v' s').layout ++ ts' := by
  intro h
  cases p <;> cases (List.cons.inj h).1

end

/-- The statement is told from any other by its layout. -/
def Stmt.Told (x : Stmt) : Prop :=
  x.Named → x.dropsLast = false → ∀ y : Stmt, y.Named → y.dropsLast = false →
    ∀ ts ts', LineEnds ts → LineEnds ts' → x.layout ++ ts = y.layout ++ ts' →
      x.erase = y.erase ∧ ts = ts'

/-- The block is told from any other by its layout, also after `else`. -/
def Block.Told (b : Block) : Prop :=
  b.Named → b.dropsLast = false → ∀ b' : Block, b'.Named → b'.dropsLast = false →
    (∀ ts ts', b.layout ++ ts = b'.layout ++ ts' → b.erase = b'.erase ∧ ts = ts') ∧
    ∀ ts ts', LineEnds ts → LineEnds ts' → b.elseLayout ++ ts = b'.elseLayout ++ ts' →
      b.erase = b'.erase ∧ ts = ts'

theorem Stmt.told_bind (t : Pattern) (e : Expr) (s : Span) : (Stmt.bind t e s).Told := by
  rintro ⟨ht, he⟩ - y hy - ts ts' hts hts' h
  have hleader := Stmt.leader_eq h
  cases y with
  | bind t' e' s' =>
      obtain ⟨ht', he'⟩ := hy
      simp only [layout, List.map_append, List.map_cons, List.cons_append, List.append_assoc,
        List.cons.injEq, true_and] at h
      obtain ⟨htarget, h⟩ := Pattern.tokens_append_inj ht ht' (.cons rfl _) (.cons rfl _) h
      obtain ⟨hinit, h⟩ := Expr.plain_append_inj he he' hts.stops hts'.stops (List.cons.inj h).2
      exact ⟨by rw [erase, erase, htarget, hinit], h⟩
  | _ => cases hleader

theorem Stmt.told_assign (p : Place) (e : Expr) (s : Span) : (Stmt.assign p e s).Told := by
  rintro ⟨hp, he⟩ - y hy - ts ts' hts hts' h
  have hleader := Stmt.leader_eq h
  cases y with
  | assign p' e' s' =>
      obtain ⟨hp', he'⟩ := hy
      simp only [layout, List.map_append, List.map_cons, List.cons_append, List.append_assoc] at h
      obtain ⟨hplace, h⟩ := Expr.plain_append_inj (Place.named_expr hp) (Place.named_expr hp')
        (.cons rfl _) (.cons rfl _) h
      obtain ⟨hvalue, h⟩ := Expr.plain_append_inj he he' hts.stops hts'.stops (List.cons.inj h).2
      exact ⟨by rw [erase, erase, Place.erase_of_expr hp hp' hplace, hvalue], h⟩
  | assignTuple ps e' s' => exact absurd h Stmt.assign_ne_assignTuple
  | eval e' s' => exact absurd h.symm (Stmt.eval_ne_assign hy hp hts')
  | _ => cases hleader

theorem Stmt.told_assignTuple (ps : List Place) (e : Expr) (s : Span) :
    (Stmt.assignTuple ps e s).Told := by
  rintro ⟨hne, hps, he⟩ - y hy - ts ts' hts hts' h
  have hleader := Stmt.leader_eq h
  cases y with
  | assignTuple ps' e' s' =>
      obtain ⟨-, hps', he'⟩ := hy
      simp only [layout, List.map_append, List.map_cons, List.cons_append, List.append_assoc] at h
      obtain ⟨hplaces, h⟩ := listTokens_append_inj (Place.named_exprs hps)
        (Place.named_exprs hps') (.cons rfl _) (.cons rfl _) h
      obtain ⟨hvalue, h⟩ := Expr.plain_append_inj he he' hts.stops hts'.stops (List.cons.inj h).2
      exact ⟨by rw [erase, erase, Place.erase_of_exprs hps hps' hplaces, hvalue], h⟩
  | assign p e' s' => exact absurd h.symm Stmt.assign_ne_assignTuple
  | eval e' s' => exact absurd h.symm (Stmt.eval_ne_assignTuple hy hne hps hts')
  | _ => cases hleader

theorem Stmt.told_eval (e : Expr) (s : Span) : (Stmt.eval e s).Told := by
  intro he _ y hy _ ts ts' hts hts' h
  have hleader := Stmt.leader_eq h
  cases y with
  | eval e' s' =>
      obtain ⟨hvalue, h⟩ := Expr.plain_append_inj he hy hts.stops hts'.stops h
      exact ⟨by rw [erase, erase, hvalue], h⟩
  | assign p e' s' => exact absurd h (Stmt.eval_ne_assign he hy.1 hts)
  | assignTuple ps e' s' => exact absurd h (Stmt.eval_ne_assignTuple he hy.1 hy.2.1 hts)
  | _ => cases hleader

theorem Stmt.told_give (v : Option Expr) (s : Span) : (Stmt.give v s).Told := by
  intro hv _ y hy _ ts ts' hts hts' h
  have hleader := Stmt.leader_eq h
  -- a line that ends does not start like an expression
  have hends : ∀ {e : Expr} {ts ts' : List (Option Token)}, LineEnds ts →
      ts ≠ e.tokens.map some ++ ts' := by
    intro e ts ts' hts
    obtain ⟨t, rest, ht, hopens⟩ := e.opening
    rw [ht]
    apply hts.ne_cons
    rintro rfl
    cases hopens
  cases y with
  | give v' s' =>
      cases v with
      | none =>
          cases v' with
          | none => exact ⟨rfl, (List.cons.inj h).2⟩
          | some e' => exact absurd (List.cons.inj h).2 (hends hts)
      | some e =>
          cases v' with
          | none => exact absurd (List.cons.inj h).2.symm (hends hts')
          | some e' =>
              obtain ⟨hvalue, h⟩ := Expr.plain_append_inj (hv e rfl) (hy e' rfl) hts.stops
                hts'.stops (List.cons.inj h).2
              exact ⟨by rw [erase, erase, Option.map_some, Option.map_some, hvalue], h⟩
  | _ => cases hleader

theorem Block.layout_open (b : Block) : ∃ more, b.layout = some (.mark .openBrace) :: more := by
  obtain ⟨ss, t, s⟩ := b
  rw [layout, framedLayout]
  split <;> exact ⟨_, rfl⟩

theorem Block.stops_layout (b : Block) (ts : List (Option Token)) : Stops (b.layout ++ ts) := by
  obtain ⟨more, hmore⟩ := b.layout_open
  rw [hmore]
  exact .cons rfl _

/-- What stands between a line of `if` and its end: the other block, if there is one. -/
def elseLayouts : Option Block → List (Option Token)
  | none => []
  | some b => some (.word .elseWord) :: b.elseLayout

section

variable {c : Expr} {yes : Block} {no : Option Block} {s : Span}

theorem Stmt.layout_branch : (Stmt.branch c yes no s).layout =
    some (.word .ifWord) :: (c.tokens.map some ++ (yes.layout ++ elseLayouts no)) := by
  cases no with
  | none => rw [layout, elseLayouts, List.append_nil]
  | some no => rw [layout, elseLayouts]

theorem Stmt.named_branch : (Stmt.branch c yes no s).Named ↔
    c.Throughout Expr.Named ∧ yes.Named ∧ ∀ b ∈ no, b.Named := by
  cases no <;> simp [Named]

theorem Stmt.dropsLast_branch : (Stmt.branch c yes no s).dropsLast = false ↔
    yes.dropsLast = false ∧ ∀ b ∈ no, b.dropsLast = false := by
  cases no <;> simp [dropsLast]

end

theorem elseLayouts_append_inj {no no' : Option Block} (hno : ∀ b ∈ no, b.Told)
    (hn : ∀ b ∈ no, b.Named) (hn' : ∀ b ∈ no', b.Named) (hlast : ∀ b ∈ no, b.dropsLast = false)
    (hlast' : ∀ b ∈ no', b.dropsLast = false) {ts ts' : List (Option Token)} (hts : LineEnds ts)
    (hts' : LineEnds ts') (h : elseLayouts no ++ ts = elseLayouts no' ++ ts') :
    no.map Block.erase = no'.map Block.erase ∧ ts = ts' := by
  cases no with
  | none =>
      cases no' with
      | none => exact ⟨rfl, h⟩
      | some b' => exact absurd h (hts.ne_cons (by rintro ⟨⟩))
  | some b =>
      cases no' with
      | none => exact absurd h.symm (hts'.ne_cons (by rintro ⟨⟩))
      | some b' =>
          obtain ⟨hblock, h⟩ := (hno b rfl (hn b rfl) (hlast b rfl) b' (hn' b' rfl)
            (hlast' b' rfl)).2 ts ts' hts hts' (List.cons.inj h).2
          exact ⟨by rw [Option.map_some, Option.map_some, hblock], h⟩

theorem Stmt.told_branch {c : Expr} {yes : Block} {no : Option Block} {s : Span}
    (hyes : yes.Told) (hno : ∀ b ∈ no, b.Told) : (Stmt.branch c yes no s).Told := by
  intro hx hlast y hy hlast' ts ts' hts hts' h
  have hleader := Stmt.leader_eq h
  cases y with
  | branch c' yes' no' s' =>
      obtain ⟨hc, hn, hn'⟩ := named_branch.mp hx
      obtain ⟨hc', hm, hm'⟩ := named_branch.mp hy
      obtain ⟨hl, hl'⟩ := dropsLast_branch.mp hlast
      obtain ⟨hk, hk'⟩ := dropsLast_branch.mp hlast'
      simp only [layout_branch, List.cons_append, List.append_assoc, List.cons.injEq,
        true_and] at h
      obtain ⟨hcond, h⟩ := Expr.plain_append_inj hc hc' (yes.stops_layout _) (yes'.stops_layout _) h
      obtain ⟨hblock, h⟩ := (hyes hn hl yes' hm hk).1 _ _ h
      obtain ⟨hother, h⟩ := elseLayouts_append_inj hno hn' hm' hl' hk' hts hts' h
      refine ⟨?_, h⟩
      cases no <;> cases no' <;> simp_all [erase]
  | _ => cases hleader

theorem Stmt.told_forRange {v : Ident} {a b : Expr} {body : Block} {s : Span} (hbody : body.Told) :
    (Stmt.forRange v a b body s).Told := by
  rintro ⟨hv, ha, hb, hn⟩ hlast y hy hlast' ts ts' hts hts' h
  have hleader := Stmt.leader_eq h
  cases y with
  | forRange v' a' b' body' s' =>
      obtain ⟨hv', ha', hb', hn'⟩ := hy
      simp only [layout, List.map_append, List.map_cons, List.cons_append, List.append_assoc,
        List.cons.injEq, true_and, Option.some.injEq, Token.name.injEq] at h
      obtain ⟨hcounter, h⟩ := h
      obtain ⟨hfirst, h⟩ := Expr.plain_append_inj ha ha' (.cons rfl _) (.cons rfl _) h
      obtain ⟨hlastValue, h⟩ := Expr.plain_append_inj hb hb' (body.stops_layout _)
        (body'.stops_layout _) (List.cons.inj h).2
      obtain ⟨hblock, h⟩ := (hbody hn hlast body' hn' hlast').1 _ _ h
      exact ⟨by rw [erase, erase, hcounter, hfirst, hlastValue, hblock], h⟩
  | _ => cases hleader

theorem Stmt.told_whileLoop {c : Expr} {body : Block} {s : Span} (hbody : body.Told) :
    (Stmt.whileLoop c body s).Told := by
  rintro ⟨hc, hn⟩ hlast y hy hlast' ts ts' hts hts' h
  have hleader := Stmt.leader_eq h
  cases y with
  | whileLoop c' body' s' =>
      obtain ⟨hc', hn'⟩ := hy
      simp only [layout, List.cons_append, List.append_assoc, List.cons.injEq, true_and] at h
      obtain ⟨hcond, h⟩ := Expr.plain_append_inj hc hc' (body.stops_layout _)
        (body'.stops_layout _) h
      obtain ⟨hblock, h⟩ := (hbody hn hlast body' hn' hlast').1 _ _ h
      exact ⟨by rw [erase, erase, hcond, hblock], h⟩
  | _ => cases hleader

/-! ## Blocks -/

/-- What stands between a statement and the next line. -/
def lineEnd (semicolon : Bool) : List (Option Token) :=
  if semicolon then [some (.mark .semicolon)] else []

theorem lineEnds_lineEnd (semicolon : Bool) (more : List (Option Token)) :
    LineEnds (lineEnd semicolon ++ none :: more) := by
  cases semicolon
  · exact ⟨more, .inl rfl⟩
  · exact ⟨none :: more, .inr rfl⟩

theorem lineEnd_append_inj {b b' : Bool} {more more' : List (Option Token)}
    (h : lineEnd b ++ none :: more = lineEnd b' ++ none :: more') : b = b' ∧ more = more' := by
  cases b <;> cases b' <;> simp_all [lineEnd]

theorem Block.linesLayout_cons (tail : Option Expr) (x : Stmt) (ss : List Stmt) :
    Block.linesLayout tail (x :: ss) =
      x.layout ++ (lineEnd (x.needsSemicolon ss tail) ++ none :: Block.linesLayout tail ss) := by
  rw [linesLayout, lineEnd]

/-- The value of a block has the layout of a statement. -/
theorem Block.linesLayout_some (e : Expr) (s : Span) :
    Block.linesLayout (some e) [] = (Stmt.eval e s).layout ++ (lineEnd false ++ [none]) := rfl

/-- A block without lines is empty. -/
theorem Block.eq_of_linesLayout {ss : List Stmt} {tail : Option Expr} {ts ts' : List (Option Token)}
    (h : Block.linesLayout tail ss ++ ts = some (.mark .closeBrace) :: ts') :
    ss = [] ∧ tail = none := by
  have hline : ∀ (x : Stmt) (more : List (Option Token)),
      x.layout ++ more ≠ some (.mark .closeBrace) :: ts' := by
    intro x more hx
    obtain ⟨t, rest, ht, -, hbrace⟩ := x.layout_leader
    rw [ht] at hx
    exact hbrace (Option.some.inj (List.cons.inj hx).1)
  cases ss with
  | nil =>
      cases tail with
      | none => exact ⟨rfl, rfl⟩
      | some e =>
          rw [linesLayout_some e .dummy, List.append_assoc] at h
          exact absurd h (hline _ _)
  | cons x ss =>
      rw [linesLayout_cons, List.append_assoc] at h
      exact absurd h (hline _ _)

theorem Block.dropsLastAll_cons {bare : Bool} {x : Stmt} {ss : List Stmt} :
    Block.dropsLastAll bare (x :: ss) = false ↔ x.dropsLast = false ∧
      (bare && ss.isEmpty && x.isEval) = false ∧ Block.dropsLastAll bare ss = false := by
  rw [dropsLastAll, Bool.or_eq_false_iff, Bool.or_eq_false_iff, and_assoc]

theorem Stmt.isEval_of_erase {e : Expr} {s : Span} {x : Stmt}
    (h : (Stmt.eval e s).erase = x.erase) : x.isEval = true := by
  cases x with
  | eval e' s' => rfl
  | branch c yes no s' => cases no <;> cases h
  | _ => cases h

/-- The last line of a block is its value if the line is that of an expression. -/
theorem Block.eval_ne_last {e : Expr} {s : Span} {x : Stmt} {ss : List Stmt} {tail : Option Expr}
    {ts ts' : List (Option Token)} (hx : (Stmt.eval e s).erase = x.erase)
    (hlast : Block.dropsLastAll tail.isNone (x :: ss) = false) :
    some (.mark .closeBrace) :: ts ≠ Block.linesLayout tail ss ++ ts' := by
  intro h
  obtain ⟨rfl, rfl⟩ := Block.eq_of_linesLayout h.symm
  obtain ⟨-, hbare, -⟩ := Block.dropsLastAll_cons.mp hlast
  rw [Stmt.isEval_of_erase hx] at hbare
  cases hbare

theorem Block.lines_append_inj {ss ss' : List Stmt} {tail tail' : Option Expr}
    (hss : ∀ x ∈ ss, x.Told) (hn : ∀ x ∈ ss, x.Named) (hn' : ∀ x ∈ ss', x.Named)
    (ht : ∀ e ∈ tail, e.Throughout Expr.Named) (ht' : ∀ e ∈ tail', e.Throughout Expr.Named)
    (hlast : Block.dropsLastAll tail.isNone ss = false)
    (hlast' : Block.dropsLastAll tail'.isNone ss' = false) {ts ts' : List (Option Token)}
    (h : Block.linesLayout tail ss ++ some (.mark .closeBrace) :: ts =
      Block.linesLayout tail' ss' ++ some (.mark .closeBrace) :: ts') :
    Block.eraseAll ss = Block.eraseAll ss' ∧ tail.map Expr.erase = tail'.map Expr.erase ∧
      ts = ts' := by
  induction ss generalizing ss' with
  | nil =>
      cases tail with
      | none =>
          obtain ⟨rfl, rfl⟩ := Block.eq_of_linesLayout h.symm
          exact ⟨rfl, rfl, (List.cons.inj h).2⟩
      | some e =>
          have he := ht e rfl
          cases ss' with
          | nil =>
              cases tail' with
              | none => cases (Block.eq_of_linesLayout h).2
              | some e' =>
                  rw [linesLayout_some e .dummy, linesLayout_some e' .dummy, List.append_assoc,
                    List.append_assoc, List.append_assoc, List.append_assoc] at h
                  obtain ⟨herase, h⟩ := Stmt.told_eval e .dummy he rfl (.eval e' .dummy)
                    (ht' e' rfl) rfl _ _ (lineEnds_lineEnd _ _) (lineEnds_lineEnd _ _) h
                  rw [Stmt.erase, Stmt.erase] at herase
                  injection herase with herase
                  obtain ⟨-, h⟩ := lineEnd_append_inj h
                  exact ⟨rfl, by rw [Option.map_some, Option.map_some, herase],
                    (List.cons.inj h).2⟩
          | cons y ss' =>
              rw [linesLayout_some e .dummy, linesLayout_cons, List.append_assoc,
                List.append_assoc, List.append_assoc, List.append_assoc] at h
              obtain ⟨hy, -⟩ := List.forall_mem_cons.mp hn'
              obtain ⟨herase, h⟩ := Stmt.told_eval e .dummy he rfl y hy
                (Block.dropsLastAll_cons.mp hlast').1 _ _ (lineEnds_lineEnd _ _)
                (lineEnds_lineEnd _ _) h
              -- the value of one block would be the last statement of the other one, without a `;`
              exact absurd (lineEnd_append_inj h).2 (Block.eval_ne_last herase hlast')
  | cons x ss ih =>
      obtain ⟨hx, hss⟩ := List.forall_mem_cons.mp hss
      obtain ⟨hnx, hn⟩ := List.forall_mem_cons.mp hn
      obtain ⟨hlx, -, hl⟩ := Block.dropsLastAll_cons.mp hlast
      cases ss' with
      | nil =>
          cases tail' with
          | none => cases (Block.eq_of_linesLayout h).1
          | some e' =>
              rw [linesLayout_cons, linesLayout_some e' .dummy, List.append_assoc,
                List.append_assoc, List.append_assoc, List.append_assoc] at h
              obtain ⟨herase, h⟩ := hx hnx hlx (.eval e' .dummy) (ht' e' rfl) rfl _ _
                (lineEnds_lineEnd _ _) (lineEnds_lineEnd _ _) h
              exact absurd (lineEnd_append_inj h).2.symm (Block.eval_ne_last herase.symm hlast)
      | cons y ss' =>
          obtain ⟨hny, hn'⟩ := List.forall_mem_cons.mp hn'
          obtain ⟨hly, -, hl'⟩ := Block.dropsLastAll_cons.mp hlast'
          rw [linesLayout_cons, linesLayout_cons, List.append_assoc, List.append_assoc,
            List.append_assoc, List.append_assoc] at h
          obtain ⟨herase, h⟩ := hx hnx hlx y hny hly _ _ (lineEnds_lineEnd _ _)
            (lineEnds_lineEnd _ _) h
          obtain ⟨herases, htails, h⟩ := ih hss hn hn' hl hl' (lineEnd_append_inj h).2
          exact ⟨by rw [eraseAll, eraseAll, herase, herases], htails, h⟩

theorem framedLayout_append_inj {lines lines' ts ts' : List (Option Token)}
    (h : framedLayout lines ++ ts = framedLayout lines' ++ ts') :
    lines ++ some (.mark .closeBrace) :: ts = lines' ++ some (.mark .closeBrace) :: ts' := by
  cases lines with
  | nil =>
      cases lines' with
      | nil => exact (List.cons.inj h).2
      | cons l lines' => cases (List.cons.inj (List.cons.inj h).2).1
  | cons l lines =>
      cases lines' with
      | nil => cases (List.cons.inj (List.cons.inj h).2).1
      | cons l' lines' =>
          have hlines := (List.cons.inj (List.cons.inj h).2).2
          simpa using hlines

theorem Block.told_mk {ss : List Stmt} {tail : Option Expr} {s : Span} (hss : ∀ x ∈ ss, x.Told) :
    (Block.mk ss tail s).Told := by
  rintro ⟨hn, ht⟩ hlast ⟨ss', tail', s'⟩ ⟨hn', ht'⟩ hlast'
  have hn := Block.namedAll_iff.mp hn
  have hn' := Block.namedAll_iff.mp hn'
  have hlayout : ∀ ts ts',
      (Block.mk ss tail s).layout ++ ts = (Block.mk ss' tail' s').layout ++ ts' →
      (Block.mk ss tail s).erase = (Block.mk ss' tail' s').erase ∧ ts = ts' := by
    intro ts ts' h
    rw [layout, layout] at h
    obtain ⟨herases, htails, h⟩ := Block.lines_append_inj hss hn hn' ht ht' hlast hlast'
      (framedLayout_append_inj h)
    exact ⟨by rw [erase, erase, herases, htails], h⟩
  refine ⟨hlayout, ?_⟩
  intro ts ts' hts hts' h
  -- an `if` does not start like a block in braces
  have hword : ∀ {c : Expr} {yes b : Block} {no : Option Block} {span : Span}
      {ts ts' : List (Option Token)},
      (Stmt.branch c yes no span).layout ++ ts ≠ b.layout ++ ts' := by
    intro c yes b no span ts ts' h
    obtain ⟨more, hmore⟩ := b.layout_open
    rw [Stmt.layout_branch, hmore] at h
    cases (List.cons.inj h).1
  obtain ⟨c, yes, no, span, s₁, hb⟩ | ⟨-, hb⟩ := Block.else_cases (.mk ss tail s)
  · cases hb
    obtain ⟨c', yes', no', span', s₂, hb'⟩ | ⟨-, hb'⟩ := Block.else_cases (.mk ss' tail' s')
    · cases hb'
      obtain ⟨herase, h⟩ := hss _ List.mem_cons_self (hn _ List.mem_cons_self)
        (Block.dropsLastAll_cons.mp hlast).1 _ (hn' _ List.mem_cons_self)
        (Block.dropsLastAll_cons.mp hlast').1 ts ts' hts hts' h
      exact ⟨by rw [erase, erase, eraseAll, eraseAll, herase]; rfl, h⟩
    · rw [hb'] at h
      exact absurd h hword
  · obtain ⟨c', yes', no', span', s₂, hb'⟩ | ⟨-, hb'⟩ := Block.else_cases (.mk ss' tail' s')
    · cases hb'
      rw [hb] at h
      exact absurd h.symm hword
    · rw [hb, hb'] at h
      exact hlayout ts ts' h

theorem Block.told (b : Block) : b.Told :=
  Block.induction Stmt.Told Block.Told Stmt.told_bind Stmt.told_assign Stmt.told_assignTuple
    (fun _ _ _ hyes => Stmt.told_branch hyes (by rintro _ ⟨⟩))
    (fun _ _ _ _ hyes hno => Stmt.told_branch hyes (by rintro _ ⟨⟩; exact hno))
    (fun _ _ _ _ _ => Stmt.told_forRange) (fun _ _ _ => Stmt.told_whileLoop)
    Stmt.told_eval Stmt.told_give (fun _ _ _ => Block.told_mk) b

/-! ## Definitions -/

/-- The tokens of a printed definition, and where its lines end. -/
def Definition.layout (d : Definition) : List (Option Token) :=
  (d.markers.flatMap fun m => [some (.mark .atSign), some (.name m.text), none]) ++
    (.word .fnWord :: .name d.name.text :: listTokens (d.params.map Ident.expr) : List Token).map
      some ++ d.body.layout ++ [none]

theorem markers_append_inj {ms ms' : List Ident} {ts ts' : List (Option Token)}
    (h : (ms.flatMap fun m => [some (.mark .atSign), some (.name m.text), none]) ++
        some (.word .fnWord) :: ts =
      (ms'.flatMap fun m => [some (.mark .atSign), some (.name m.text), none]) ++
        some (.word .fnWord) :: ts') :
    (ms.map fun n => (⟨n.text, .dummy⟩ : Ident)) = (ms'.map fun n => ⟨n.text, .dummy⟩) ∧
      ts = ts' := by
  induction ms generalizing ms' with
  | nil =>
      cases ms' with
      | nil => exact ⟨rfl, (List.cons.inj h).2⟩
      | cons m' ms' => cases (List.cons.inj h).1
  | cons m ms ih =>
      cases ms' with
      | nil => cases (List.cons.inj h).1
      | cons m' ms' =>
          simp only [List.flatMap_cons, List.cons_append, List.nil_append, List.cons.injEq,
            true_and, Option.some.injEq, Token.name.injEq] at h
          obtain ⟨hms, hts⟩ := ih h.2
          exact ⟨by rw [List.map_cons, List.map_cons, h.1, hms], hts⟩

/-- The layout of a definition determines it. -/
theorem Definition.layout_inj {d d' : Definition} (hd : d.Named) (hd' : d'.Named)
    (hlast : d.body.dropsLast = false) (hlast' : d'.body.dropsLast = false)
    (h : d.layout = d'.layout) : d.erase = d'.erase := by
  simp only [layout, List.map_cons, List.cons_append, List.append_assoc] at h
  obtain ⟨hmarkers, h⟩ := markers_append_inj h
  obtain ⟨hname, h⟩ := List.cons.inj h
  obtain ⟨hparams, h⟩ := listTokens_append_inj (Ident.named_exprs hd.params)
    (Ident.named_exprs hd'.params) (d.body.stops_layout _) (d'.body.stops_layout _) h
  obtain ⟨hbody, -⟩ := (d.body.told hd.body hlast d'.body hd'.body hlast').1 _ _ h
  injection hname with hname
  injection hname with hname
  simp only [erase, hmarkers, hname, Ident.erase_of_exprs hparams, hbody]

end Graft
