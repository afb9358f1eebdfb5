import Graft.Proofs.Accepting

/-!
# Parameters have distinct names

A parameter whose name was there before is reported. So in a text that is accepted no function has
two parameters of one name, and a parameter can be told by its name.
-/

namespace Graft

namespace Parse

/-! ## Definitions -/

variable {c : Cursor}

/-- The parameters have distinct names, none of them among `seen`. -/
def Distinct (seen params : List Ident) : Prop :=
  (params.map Ident.text).Nodup ∧ ∀ p ∈ params, ∀ q ∈ seen, q.text ≠ p.text

theorem Distinct.nil (seen : List Ident) : Distinct seen [] :=
  ⟨List.nodup_nil, fun _ hp => absurd hp List.not_mem_nil⟩

theorem Distinct.cons {seen params : List Ident} {n : Ident} (hnew : ∀ q ∈ seen, q.text ≠ n.text)
    (h : Distinct (n :: seen) params) : Distinct seen (n :: params) := by
  refine ⟨List.nodup_cons.mpr ⟨fun hmem => ?_, h.1⟩,
    List.forall_mem_cons.mpr ⟨hnew, fun p hp q hq => h.2 p hp q (List.mem_cons_of_mem _ hq)⟩⟩
  obtain ⟨p, hp, htext⟩ := List.mem_map.mp hmem
  exact h.2 p hp n List.mem_cons_self htext.symm

theorem paramLoop_distinct (fuel : Nat) (seen : List Ident) :
    Clean c (paramLoop fuel seen) fun params _ => Distinct seen params := by
  induction fuel generalizing seen c with
  | zero => exact .pure (.nil seen)
  | succ fuel ih =>
      refine .look (.look (.ite (fun _ => .pure (.nil seen)) fun _ =>
        Clean.expectName.bind fun n d => ?_))
      have more (d : Cursor) : Clean d
          (do if ← eat .comma then return n :: (← paramLoop fuel (n :: seen)) else return [n])
          fun params _ => (∀ q ∈ seen, q.text ≠ n.text) → Distinct seen params :=
        (Clean.eat _).bind fun _ e => .ite
          (fun _ => (ih (n :: seen)).bind fun params _ => .pure fun h _ hnew => .cons hnew h)
          fun _ => .pure fun _ hnew => .cons hnew (.nil _)
      refine .ite (fun _ => ?_) fun hfree => (more d).mono fun params _ h _ => h fun q hq htext => ?_
      · exact (Clean.reportAt _ _).bind fun _ e => (more e).mono fun _ _ _ => False.elim
      · exact hfree (List.any_eq_true.mpr ⟨q, hq, beq_iff_eq.mpr htext⟩)

theorem definition_distinct (markers : List Ident) :
    Clean c (definition markers) fun d _ => (d.params.map Ident.text).Nodup :=
  (Clean.expectWord _).bind fun _ _ => Clean.expectName.bind fun _ _ =>
    (Clean.expect _).bind fun _ _ => .look ((paramLoop_distinct _ []).bind fun _ _ =>
      (Clean.expect _).bind fun _ e => (Clean.of_local (block_local maxLevels e).loosen).bind
        fun _ _ => .pure fun _ _ h _ _ _ => h.1)

/-- A function that was read without a report has distinct parameters. -/
theorem markedItem_distinct {d : Definition} {span : Span} (hc : c.Placed)
    (h : (markedItem c).1 = some (.function d span))
    (hclear : (markedItem c).2.reports = c.reports) : (d.params.map Ident.text).Nodup := by
  obtain ⟨markers, e, hmarkers, hpeek⟩ := exists_markers hc h
  have hon : c.Onward e := by
    have hloop : Local 0 c.stop 1 c (markerLoop c.rest.length) (markerLoop c.rest.length)
        fun _ _ => True := markerLoop_local c
    have := (hloop hc).onward
    rwa [hmarkers] at this
  obtain ⟨hon', hdistinct⟩ := definition_distinct markers (hon.placed hc)
  rw [markedItem_apply hmarkers hpeek rfl] at h hclear
  cases h
  exact hdistinct (hon.clear hon' hclear).2

end Parse

/-- In a text that is accepted, no function has two parameters of one name. -/
theorem Program.nodup_params {source : String} {start stop : Nat} {p : Program} {d : Definition}
    {span : Span} (hp : ofScan (Scan.range source start stop) = .ok p)
    (hd : .function d span ∈ p.items) : (d.params.map Ident.text).Nodup := by
  obtain ⟨c, hc, hread, hclear⟩ := exists_markedItem_of_ofScan hp hd
  exact Parse.markedItem_distinct hc hread hclear

end Graft
