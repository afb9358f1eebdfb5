import Graft.Proofs.Cursors

/-!
# Spans of trees

The outline of a tree is the tree of its spans: it tells once what the nodes are and which nodes are
the parts of which. Outlines stand in a row if each of them starts where the one before it ends, or
further on, and the parts of each stand in a row within it. Reading keeps rows: a step that reports
nothing leaves what it gives in a row, between the place where it started and the place that it came
to.
-/

namespace Graft

/-- The span of a node, over the outlines of its parts in the order of the text. -/
inductive Outline where
  | node (span : Span) (parts : List Outline)

namespace Outline

def span : Outline → Span
  | node s _ => s

def parts : Outline → List Outline
  | node _ ps => ps

/-- The outline and those of all its parts, at any depth. -/
def nodes : Outline → List Outline
  | node s ps => node s ps :: nodesAll ps
where
  nodesAll : List Outline → List Outline
    | [] => []
    | o :: os => o.nodes ++ nodesAll os

/-- The node stands in a text of `size` bytes, around its parts, and these stand apart from each
other. -/
structure Fits (size : Nat) (o : Outline) : Prop where
  nonempty : o.span.start < o.span.stop
  inside : o.span.stop ≤ size
  somewhere : o.span ≠ .dummy
  around : ∀ q ∈ o.parts, o.span.start ≤ q.span.start ∧ q.span.stop ≤ o.span.stop
  apart : o.parts.Pairwise fun q r => q.span.stop ≤ r.span.start

end Outline

/-! ## Outlines of trees -/

def Ident.outline (n : Ident) : Outline := .node n.span []

def Expr.outline : Expr → Outline
  | .num _ s | .bool _ s | .var _ s | .path _ s => .node s []
  | .binary _ l r s => .node s [l.outline, r.outline]
  | .unary _ e s => .node s [e.outline]
  | .call _ t es s => .node s (.node t [] :: outlineAll es)
  | .index e i s => .node s [e.outline, i.outline]
  | .slice e a b s => .node s [e.outline, a.outline, b.outline]
  | .array es s | .tuple es s => .node s (outlineAll es)
where
  outlineAll : List Expr → List Outline
    | [] => []
    | e :: es => e.outline :: outlineAll es

def Place.outline : Place → Outline
  | .var _ s | .discard s => .node s []
  | .index base i s => .node s [base.outline, i.outline]

mutual

def Stmt.outline : Stmt → Outline
  | .bind t e s => .node s (t.idents.map Ident.outline ++ [e.outline])
  | .assign p e s => .node s [p.outline, e.outline]
  | .assignTuple ps e s => .node s (ps.map Place.outline ++ [e.outline])
  | .branch c yes none s => .node s [c.outline, Block.outline yes]
  | .branch c yes (some no) s => .node s [c.outline, Block.outline yes, Block.outline no]
  | .forRange v a b body s => .node s [v.outline, a.outline, b.outline, Block.outline body]
  | .whileLoop c body s => .node s [c.outline, Block.outline body]
  | .eval e s => .node s [e.outline]
  | .give v s => .node s (v.toList.map Expr.outline)
  termination_by structural s => s

def Block.outline : Block → Outline
  | .mk ss tail s => .node s (Block.outlineAll ss ++ tail.toList.map Expr.outline)
  termination_by structural b => b

def Block.outlineAll : List Stmt → List Outline
  | [] => []
  | s :: ss => Stmt.outline s :: Block.outlineAll ss
  termination_by structural ss => ss

end

def Item.outline : Item → Outline
  | .import_ _ t s => .node s [.node t []]
  | .constant n e s => .node s [n.outline, e.outline]
  | .function d s => .node s (d.markers.map Ident.outline ++ d.name.outline ::
      d.params.map Ident.outline ++ [d.body.outline])

@[simp] theorem Expr.outlineAll_eq (es : List Expr) : outline.outlineAll es = es.map outline := by
  induction es with
  | nil => rfl
  | cons e es ih => rw [outline.outlineAll, ih, List.map_cons]

@[simp] theorem Block.outlineAll_eq (ss : List Stmt) : outlineAll ss = ss.map Stmt.outline := by
  induction ss with
  | nil => rfl
  | cons s ss ih => rw [outlineAll, ih, List.map_cons]

section

variable {e : Expr} {s : Span}

theorem Expr.outline_span (e : Expr) : e.outline.span = e.span := by cases e <;> rfl

theorem Stmt.outline_span (x : Stmt) : x.outline.span = x.span := by
  cases x with
  | branch c yes no s => cases no <;> rw [outline] <;> rfl
  | _ => rw [outline]; rfl

theorem Item.outline_span (i : Item) : i.outline.span = i.span := by cases i <;> rfl

end

/-! ## Rows -/

mutual

/-- The node is not empty, and its parts stand in a row within it. -/
def Outline.Nested : Outline → Prop
  | .node s ps => s.start < s.stop ∧ Outline.Row s.start s.stop ps
  termination_by structural o => o

/-- The outlines stand one after the other from `lo` up to `hi`, and each is nested. -/
def Outline.Row (lo hi : Nat) : List Outline → Prop
  | [] => lo ≤ hi
  | o :: os => lo ≤ o.span.start ∧ o.Nested ∧ Outline.Row o.span.stop hi os
  termination_by structural os => os

end

namespace Outline

variable {lo mid hi lo' hi' size : Nat} {o q : Outline} {os os' ps : List Outline} {s t : Span}

theorem Nested.lt (h : o.Nested) : o.span.start < o.span.stop := by
  cases o
  exact h.1

theorem Row.le (h : Row lo hi os) : lo ≤ hi := by
  induction os generalizing lo with
  | nil => exact h
  | cons o os ih =>
      obtain ⟨hlo, ho, hos⟩ := h
      have := ho.lt
      have := ih hos
      omega

theorem Row.mono (h : Row lo hi os) (hlo : lo' ≤ lo) (hhi : hi ≤ hi') : Row lo' hi' os := by
  induction os generalizing lo lo' with
  | nil => exact Nat.le_trans hlo (Nat.le_trans h.le hhi)
  | cons o os ih => exact ⟨Nat.le_trans hlo h.1, h.2.1, ih h.2.2 (Nat.le_refl _)⟩

theorem Row.append (h : Row lo mid os) (h' : Row mid hi os') : Row lo hi (os ++ os') := by
  induction os generalizing lo with
  | nil => exact h'.mono h (Nat.le_refl _)
  | cons o os ih => exact ⟨h.1, h.2.1, ih h.2.2⟩

theorem Row.split (h : Row lo hi (os ++ os')) : ∃ mid, Row lo mid os ∧ Row mid hi os' := by
  induction os generalizing lo with
  | nil => exact ⟨lo, Nat.le_refl _, h⟩
  | cons o os ih =>
      obtain ⟨mid, hrow, hrow'⟩ := ih h.2.2
      exact ⟨mid, ⟨h.1, h.2.1, hrow⟩, hrow'⟩

/-- The end of a row can be told in another way. -/
theorem Row.replace (h : Row lo hi (os ++ os')) (hps : ∀ mid, Row mid hi os' → Row mid hi ps) :
    Row lo hi (os ++ ps) := by
  obtain ⟨mid, hrow, hrow'⟩ := h.split
  exact hrow.append (hps mid hrow')

/-- A row becomes the parts of a node. -/
theorem Row.node (h : Row s.start s.stop ps) (hs : s.start < s.stop) :
    Row s.start s.stop [.node s ps] := ⟨Nat.le_refl _, ⟨hs, h⟩, Nat.le_refl _⟩

/-- A node that adds nothing around one part. -/
theorem Row.wrap (h : Row lo hi [o]) : Row lo hi [.node o.span [o]] :=
  ⟨h.1, ⟨h.2.1.lt, Nat.le_refl _, h.2.1, Nat.le_refl _⟩, h.2.2⟩

theorem Row.le_stop (h : Row lo hi os) (ho : o ∈ os) : lo ≤ o.span.start ∧ o.span.stop ≤ hi := by
  induction os generalizing lo with
  | nil => exact absurd ho List.not_mem_nil
  | cons p os ih =>
      have := h.2.1.lt
      have := h.1
      rcases List.mem_cons.mp ho with rfl | ho
      · exact ⟨h.1, Row.le h.2.2⟩
      · have := ih h.2.2 ho
        omega

theorem Row.nested (h : Row lo hi os) (ho : o ∈ os) : o.Nested := by
  induction os generalizing lo with
  | nil => exact absurd ho List.not_mem_nil
  | cons p os ih =>
      rcases List.mem_cons.mp ho with rfl | ho
      · exact h.2.1
      · exact ih h.2.2 ho

theorem Row.apart (h : Row lo hi os) : os.Pairwise fun o q => o.span.stop ≤ q.span.start := by
  induction os generalizing lo with
  | nil => exact .nil
  | cons o os ih => exact .cons (fun q hq => (Row.le_stop h.2.2 hq).1) (ih h.2.2)

theorem Row.around (hs : s.start < s.stop) (hsize : s.stop ≤ size) (h : Row s.start s.stop ps) :
    Fits size (.node s ps) where
  nonempty := hs
  inside := hsize
  somewhere := by
    intro hdummy
    rw [show s = .dummy from hdummy] at hs
    exact Nat.lt_irrefl _ hs
  around _ hq := h.le_stop hq
  apart := h.apart

/-- What holds of a node whenever it holds of its parts holds of all outlines. -/
theorem induction {motive : Outline → Prop}
    (node : ∀ s ps, (∀ o ∈ ps, motive o) → motive (.node s ps)) (o : Outline) : motive o := by
  refine Outline.rec (motive_1 := motive) (motive_2 := fun os => ∀ o ∈ os, motive o)
    node ?nil ?cons o
  case nil => exact fun _ h => absurd h List.not_mem_nil
  case cons =>
    intro head tail hhead htail o ho
    rcases List.mem_cons.mp ho with rfl | ho
    · exact hhead
    · exact htail o ho

theorem mem_nodesAll : q ∈ nodes.nodesAll os ↔ ∃ o ∈ os, q ∈ o.nodes := by
  induction os with
  | nil => simp [nodes.nodesAll]
  | cons o os ih => simp [nodes.nodesAll, ih]

/-- In a row every node at any depth fits into the text. -/
theorem Nested.fits (h : o.Nested) (hsize : o.span.stop ≤ size) : ∀ q ∈ o.nodes, q.Fits size := by
  induction o using induction with
  | node s ps ih =>
      rw [nodes, List.forall_mem_cons]
      refine ⟨Row.around h.1 hsize h.2, fun q hq => ?_⟩
      obtain ⟨o, ho, hq⟩ := mem_nodesAll.mp hq
      exact ih o ho (Row.nested h.2 ho) (Nat.le_trans (Row.le_stop h.2 ho).2 hsize) q hq

end Outline

/-! ## Merged spans -/

/-- Two spans that follow each other are merged into the stretch from the one to the other. -/
theorem Span.merge_eq {a b : Span} (ha : a.start < a.stop) (hstart : a.start ≤ b.start)
    (hstop : a.stop ≤ b.stop) : a.merge b = ⟨a.start, b.stop⟩ := by
  have hplaced : a.Placed := by
    unfold Placed
    omega
  have hplaced' : b.Placed := by
    unfold Placed
    omega
  rw [merge, hplaced.not_dummy, hplaced'.not_dummy]
  simp [Nat.min_eq_left hstart, Nat.max_eq_right hstop]

namespace Outline

variable {lo hi : Nat} {o q : Outline} {os : List Outline} {s : Span}

theorem Row.upto_last (h : Row lo hi (os ++ [o])) : Row lo o.span.stop (os ++ [o]) := by
  obtain ⟨mid, hrow, hlast⟩ := h.split
  exact hrow.append ⟨hlast.1, hlast.2.1, Nat.le_refl _⟩

/-- A node from its first part to its last one, which may have taken the place of the parts of its
own. -/
theorem Row.join (h : Row lo hi [q, o]) {ps : List Outline}
    (hps : Row q.span.start o.span.stop ps) : Row lo hi [.node (q.span.merge o.span) ps] := by
  obtain ⟨hlo, hq, hstart, ho, hhi⟩ := h
  have hq := hq.lt
  have ho := ho.lt
  have hhi : o.span.stop ≤ hi := hhi
  rw [Span.merge_eq hq (by omega) (by omega)]
  have hnode := Row.node (s := ⟨q.span.start, o.span.stop⟩) hps (by dsimp only; omega)
  exact hnode.mono hlo hhi

/-- A node from a token to its last part. -/
theorem Row.joinToken (h : Row s.stop hi (os ++ [o])) (hs : s.start < s.stop) {ps : List Outline}
    (hps : Row s.start o.span.stop ps) : Row s.start hi [.node (s.merge o.span) ps] := by
  obtain ⟨mid, hrow, hmid, ho, hhi⟩ := h.split
  have hle := hrow.le
  have hlast := ho.lt
  rw [Span.merge_eq hs (by omega) (by omega)]
  have hnode := Row.node (s := ⟨s.start, o.span.stop⟩) hps (by dsimp only; omega)
  exact hnode.mono (Nat.le_refl _) hhi

end Outline

/-! ## Rows of what was read -/

namespace Parse

namespace Cursor

/-- How far the text was read: up to where the token behind ends. -/
def reached (c : Cursor) : Nat := (c.behind.map Span.stop).getD 0

/-- The tokens ahead stand one after the other behind what was read, in a text of `size` bytes. -/
structure Sorted (size : Nat) (c : Cursor) : Prop where
  ahead : ∀ l ∈ c.rest,
    c.reached ≤ l.span.start ∧ l.span.start < l.span.stop ∧ l.span.stop ≤ size
  ordered : c.rest.Pairwise fun l m => l.span.stop ≤ m.span.start
  reached : c.reached ≤ size
  stop : c.stop.start = size

/-- What was read since `lo` stands in a row. -/
def Upto (lo : Nat) (os : List Outline) (c : Cursor) : Prop := Outline.Row lo c.reached os

/-- The token at `s` was read, and at least that; `os` are the parts from `lo` on of a node that
starts there. -/
structure Since (s : Span) (lo : Nat) (os : List Outline) (c : Cursor) : Prop where
  nonempty : s.start < s.stop
  start : s.start ≤ lo
  row : c.Upto lo os
  stop : s.stop ≤ c.reached
  behind : ∃ b, c.behind = some b ∧ s.start ≤ b.start

variable {c d : Cursor} {size lo lo' : Nat} {os : List Outline} {s : Span}

theorem reached_of_behind {b : Span} (h : c.behind = some b) : c.reached = b.stop := by
  rw [reached, h]
  rfl

theorem before_advance (h : c.rest ≠ []) : c.advance.before = c.here := by
  cases hrest : c.rest with
  | nil => exact absurd hrest h
  | cons l rest =>
      have hhere : c.here = l.span := by rw [here, hrest]
      have hbehind : c.advance.behind = some l.span := by rw [advance, hrest]
      rw [before, hbehind, hhere]
      rfl

theorem Onward.sorted (h : c.Onward d) (hc : c.Sorted size) : d.Sorted size ∧
    c.reached ≤ d.reached ∧
      (d.behind = c.behind ∨ ∃ b, d.behind = some b ∧ c.reached ≤ b.start) := by
  obtain ⟨front, hrest, hbehind⟩ := h.passed
  have hahead := hc.ahead
  have hordered := hc.ordered
  rw [hrest] at hahead hordered
  have hrow := List.pairwise_append.mp hordered
  have hstop : d.stop.start = size := h.stop ▸ hc.stop
  cases hlast : front.getLast? with
  | none =>
      rw [hlast] at hbehind
      have hreached : d.reached = c.reached := by rw [reached, hbehind, reached]; rfl
      refine ⟨⟨fun l hl => ?_, hrow.2.1, hreached ▸ hc.reached, hstop⟩,
        Nat.le_of_eq hreached.symm, .inl hbehind⟩
      rw [hreached]
      exact hahead l (List.mem_append_right _ hl)
  | some m =>
      rw [hlast] at hbehind
      have hm := List.mem_of_getLast? hlast
      have hread := hahead m (List.mem_append_left _ hm)
      have hreached : d.reached = m.span.stop := reached_of_behind hbehind
      refine ⟨⟨fun l hl => ?_, hrow.2.1, ?_, hstop⟩, ?_, .inr ⟨_, hbehind, hread.1⟩⟩
      · rw [hreached]
        exact ⟨hrow.2.2 m hm l hl, (hahead l (List.mem_append_right _ hl)).2⟩
      · omega
      · omega

theorem Sorted.reached_le_here (hc : c.Sorted size) : c.reached ≤ c.here.start := by
  cases hrest : c.rest with
  | nil =>
      rw [here, hrest]
      exact hc.stop.symm ▸ hc.reached
  | cons l rest =>
      rw [here, hrest]
      exact (hc.ahead l (by simp [hrest])).1

/-- The node from `s` on ends where the text was read up to. -/
theorem Since.merge (h : c.Since s lo os) : s.merge c.before = ⟨s.start, c.reached⟩ := by
  obtain ⟨b, hb, hstart⟩ := h.behind
  have hbefore : c.before = b := by rw [before, hb]; rfl
  have hreached : c.reached = b.stop := reached_of_behind hb
  rw [hbefore, hreached]
  exact Span.merge_eq h.nonempty hstart (hreached ▸ h.stop)

/-- Its parts are all that was read. -/
theorem Since.close (h : c.Since s lo os) : c.Upto s.start [.node (s.merge c.before) os] := by
  rw [h.merge]
  have hlt : s.start < c.reached := Nat.lt_of_lt_of_le h.nonempty h.stop
  exact Outline.Row.node (s := ⟨s.start, c.reached⟩) (h.row.mono h.start (Nat.le_refl _)) hlt

/-- A node that is only the token at `s`. -/
theorem Since.leaf (h : c.Since s lo os) : c.Upto s.start [.node s []] :=
  ⟨Nat.le_refl _, ⟨h.nonempty, Nat.le_of_lt h.nonempty⟩, h.stop⟩

theorem Since.weaken (h : c.Since s lo os) (hs : s.start ≤ lo') (hlo : lo' ≤ lo) :
    c.Since s lo' os := { h with start := hs, row := h.row.mono hlo (Nat.le_refl _) }

theorem Since.replace {os' ps : List Outline} (h : c.Since s lo (os ++ os'))
    (hps : ∀ mid, Outline.Row mid c.reached os' → Outline.Row mid c.reached ps) :
    c.Since s lo (os ++ ps) := { h with row := h.row.replace hps }

/-- A step over a token starts a node. -/
theorem Sorted.since_advance (hc : c.Sorted size) (h : c.rest ≠ []) :
    c.advance.Since c.here c.here.stop [] := by
  cases hrest : c.rest with
  | nil => exact absurd hrest h
  | cons l rest =>
      have hl := hc.ahead l (by simp [hrest])
      have hhere : c.here = l.span := by rw [here, hrest]
      have hbehind : c.advance.behind = some l.span := by rw [advance, hrest]
      have hreached : l.span.stop ≤ c.advance.reached :=
        Nat.le_of_eq (reached_of_behind hbehind).symm
      rw [hhere]
      exact ⟨hl.2.1, Nat.le_of_lt hl.2.1, hreached, hreached, _, hbehind, Nat.le_refl _⟩

/-- Behind the row `os` stands `o`, which is to be the first part of a node; `os'` are the parts
that were read since. -/
structure Growing (lo : Nat) (os : List Outline) (o : Outline) (os' : List Outline)
    (c : Cursor) : Prop where
  row : ∃ mid ≤ o.span.start, Outline.Row lo mid os
  since : c.Since o.span o.span.start (o :: os')

theorem Sorted.growing_advance {o : Outline} (hc : c.Sorted size) (hne : c.rest ≠ [])
    (h : c.Upto lo (os ++ [o])) : c.advance.Growing lo os o [] := by
  obtain ⟨mid, hrow, hstart, ho, hstop⟩ := Outline.Row.split h
  have hfirst := hc.since_advance hne
  have hstop : o.span.stop ≤ c.reached := hstop
  have hlt := ho.lt
  have hhere := hc.reached_le_here
  have hreached := ((Onward.advance c).sorted hc).2.1
  obtain ⟨b, hb, hbstart⟩ := hfirst.behind
  exact ⟨⟨mid, hstart, hrow⟩, hlt, Nat.le_refl _,
    ⟨Nat.le_refl _, ho, Nat.le_trans hstop hreached⟩, Nat.le_trans hstop hreached, b, hb, by omega⟩

theorem Growing.close {o : Outline} {os' : List Outline} (h : c.Growing lo os o os') :
    c.Upto lo (os ++ [.node (o.span.merge c.before) (o :: os')]) := by
  obtain ⟨mid, hmid, hrow⟩ := h.row
  exact hrow.append (h.since.close.mono hmid (Nat.le_refl _))

end Cursor

end Parse

end Graft
