import Graft.Proofs.Lowering

/-!
# The code that lowering gives

Where every name is linked at once, lowering gives one code whatever went before. There is a rule
for each form of the tree, which tells the code of the form from the codes of its parts.
-/

namespace Graft

namespace Compile.Target

/-- The code of a call of the target. -/
def code (args : List Code) (span : Span) : Target → Code
  | .native n => .native n args span
  | .artifact a => .linked a args span

end Compile.Target

/-- The step gives `a`, whatever was compiled and recorded before, and compiles nothing. -/
def Lower.Gives {α : Type} (m : Lower α) (a : α) : Prop :=
  ∀ callees st, ∃ callees', m callees st = .ok ((a, callees'), st)

namespace Lower.Gives

variable {α β : Type} {m : Lower α} {a : α} {b : β} {c : Compile.Context}

theorem pure (a : α) : Lower.Gives (pure a) a := fun callees _ => ⟨callees, rfl⟩

theorem bind {f : α → Lower β} (h : m.Gives a) (k : (f a).Gives b) : (m >>= f).Gives b := by
  intro callees st
  obtain ⟨callees', hm⟩ := h callees st
  obtain ⟨callees'', hf⟩ := k callees' st
  refine ⟨callees'', ?_⟩
  rw [bind_apply, hm]
  exact hf

theorem ofOutcome {o : Outcome α} (h : o = .ok a) : Lower.Gives (Compile.ofOutcome o) a := by
  rw [h]
  exact pure a

/-- A bare name that is linked is recorded. -/
theorem target {name : String} {span : Span} {t : Compile.Target}
    (h : ∀ st, c.link name span st = .ok (t, st)) :
    Lower.Gives (Compile.target c ⟨name, []⟩ span) t := by
  have hlink : Lower.Gives (liftM (c.link name span) : Lower Compile.Target) t := by
    intro callees st
    rw [lift_apply, h]
    exact ⟨callees, rfl⟩
  exact hlink.bind (.bind (a := ⟨⟩) (fun _ _ => ⟨_, rfl⟩) (.pure t))

theorem member {p : Path} {span : Span} {n : Native} (hp : p.single? = none)
    (h : Calls.member? p span = .ok n) : Lower.Gives (Compile.target c p span) (.native n) := by
  rw [Compile.target, hp]
  exact (ofOutcome h).bind (.pure _)

theorem var {n : String} (h : c.layout.contains n = true) (span : Span) :
    ((Expr.var n span).lower c).Gives (.slot (c.slot n) n (c.outer? n) span) := by
  rw [Expr.lower, Compile.variable_, if_pos h]
  exact pure _

theorem num (x : Float) (span : Span) :
    ((Expr.num x span).lower c).Gives (.constant (.num x) span) := by
  rw [Expr.lower]
  exact pure _

theorem path {p : Path} {span : Span} {v : Value} (h : p.constant? span = .ok v) :
    ((Expr.path p span).lower c).Gives (.constant v span) := by
  rw [Expr.lower]
  exact (ofOutcome h).bind (.pure _)

variable {d e g : Expr} {dc ec gc : Code}

theorem binary {op : BinaryOp} (hand : op ≠ .and) (hor : op ≠ .or) (hd : (d.lower c).Gives dc)
    (he : (e.lower c).Gives ec) (span : Span) :
    ((Expr.binary op d e span).lower c).Gives (.binary op dc ec span) := by
  rw [Expr.lower]
  refine hd.bind (he.bind ?_)
  cases op with
  | and => exact absurd rfl hand
  | or => exact absurd rfl hor
  | _ => exact pure _

theorem slice (hd : (d.lower c).Gives dc) (he : (e.lower c).Gives ec) (hg : (g.lower c).Gives gc)
    (span : Span) : ((Expr.slice d e g span).lower c).Gives (.slice dc ec gc span) := by
  rw [Expr.lower]
  exact hd.bind (he.bind (hg.bind (.pure _)))

theorem index (hd : (d.lower c).Gives dc) (he : (e.lower c).Gives ec) (span : Span) :
    ((Expr.index d e span).lower c).Gives (.index dc ec span) := by
  rw [Expr.lower]
  exact hd.bind (he.bind (.pure _))

theorem nil : (Expr.lower.lowerAll c []).Gives [] := by
  rw [Expr.lower.lowerAll]
  exact pure _

theorem cons {es : List Expr} {codes : List Code} (hd : (d.lower c).Gives dc)
    (hes : (Expr.lower.lowerAll c es).Gives codes) :
    (Expr.lower.lowerAll c (d :: es)).Gives (dc :: codes) := by
  rw [Expr.lower.lowerAll]
  exact hd.bind (hes.bind (.pure _))

theorem call {p : Path} {pathSpan span : Span} {t : Compile.Target} {args : List Expr}
    {codes : List Code} (ht : (Compile.target c p pathSpan).Gives t)
    (hargs : (Expr.lower.lowerAll c args).Gives codes) :
    ((Expr.call p pathSpan args span).lower c).Gives (t.code codes span) := by
  rw [Expr.lower]
  refine ht.bind (hargs.bind ?_)
  cases t with
  | native n => exact pure _
  | artifact a => exact pure _

theorem element {base : Ident} {i : Expr} {ic : Code} (hi : (i.lower c).Gives ic) (span : Span) :
    ((Place.index base i span).lower c).Gives
      (.element (c.slot base.text) base.text (c.outer? base.text) ic span) := by
  rw [Place.lower]
  exact hi.bind (.pure _)

theorem slot (name : String) (span : Span) :
    ((Place.var name span).lower c).Gives (.slot (c.slot name)) := by
  rw [Place.lower]
  exact pure _

theorem places_nil : (Compile.lowerPlaces c []).Gives [] := by
  rw [Compile.lowerPlaces]
  exact pure _

theorem places_cons {p : Place} {ps : List Place} {store : Store} {stores : List Store}
    (hp : (p.lower c).Gives store) (hps : (Compile.lowerPlaces c ps).Gives stores) :
    (Compile.lowerPlaces c (p :: ps)).Gives (store :: stores) := by
  rw [Compile.lowerPlaces]
  exact hp.bind (hps.bind (.pure _))

theorem assign {p : Place} {store : Store} (he : (e.lower c).Gives ec)
    (hp : (p.lower c).Gives store) (span : Span) :
    (Stmt.lower c (.assign p e span)).Gives (.assign store ec) := by
  rw [Stmt.lower]
  exact he.bind (hp.bind (.pure _))

theorem assignTuple {ps : List Place} {stores : List Store} (he : (e.lower c).Gives ec)
    (hps : (Compile.lowerPlaces c ps).Gives stores) (span : Span) :
    (Stmt.lower c (.assignTuple ps e span)).Gives (.assignAll stores ec span) := by
  rw [Stmt.lower]
  exact he.bind (hps.bind (.pure _))

theorem bindName {n : Ident} (he : (e.lower c).Gives ec) (span : Span) :
    (Stmt.lower c (.bind (.name n) e span)).Gives (.bind (c.slot n.text) ec) := by
  rw [Stmt.lower]
  exact he.bind (.pure _)

theorem forRange {v : Ident} {body : Block} {steps : Steps} (hd : (d.lower c).Gives dc)
    (he : (e.lower c).Gives ec) (hbody : (Block.lower c body).Gives steps) (span : Span) :
    (Stmt.lower c (.forRange v d e body span)).Gives (.forRange (c.slot v.text) dc ec steps) := by
  rw [Stmt.lower]
  exact hd.bind (he.bind (hbody.bind (.pure _)))

theorem block {stmts : List Stmt} {steps : List Step} (h : (Block.lowerAll c stmts).Gives steps)
    (span : Span) : (Block.lower c (.mk stmts .none span)).Gives (.mk steps .none) := by
  rw [Block.lower]
  exact h.bind (.bind (.pure _) (.pure _))

theorem blockTail {stmts : List Stmt} {steps : List Step} (h : (Block.lowerAll c stmts).Gives steps)
    (he : (e.lower c).Gives ec) (span : Span) :
    (Block.lower c (.mk stmts (some e) span)).Gives (.mk steps (some ec)) := by
  rw [Block.lower]
  refine h.bind (.bind (a := some ec) ?_ (.pure _))
  rw [Compile.lowerOption]
  exact he.bind (.pure _)

theorem lowerAll_nil : (Block.lowerAll c []).Gives [] := by
  rw [Block.lowerAll]
  exact pure _

theorem lowerAll_cons {s : Stmt} {ss : List Stmt} {step : Step} {steps : List Step}
    (h : (Stmt.lower c s).Gives step) (hss : (Block.lowerAll c ss).Gives steps) :
    (Block.lowerAll c (s :: ss)).Gives (step :: steps) := by
  rw [Block.lowerAll]
  exact h.bind (hss.bind (.pure _))

end Lower.Gives

end Graft
