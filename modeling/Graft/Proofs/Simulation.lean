import Graft.Proofs.Agreement
import Graft.Proofs.Slots

/-!
# Simulation of evaluation by code

A step of a function body is simulated by a step of an artifact when both, started with the same
local values, give the same value and leave the same local values, or fail with faults that belong together.
The world around is only looked at. Each way of putting steps together keeps simulation; the loops do
by induction on their rounds.
-/

namespace Graft

variable {σ α β : Type} {R : Fault → Fault → Prop} {layout : List String} {s : σ}

/-! ## Steps of artifacts -/

namespace Exec

theorem bind_apply (x : Exec α) (f : α → Exec β) (slots : Slots) :
    (x >>= f) slots = match x slots with
      | .ok (a, slots) => f a slots
      | .error e => .error e := by
  simp only [bind, StateT.bind, Except.bind]
  rcases x slots with _ | _ <;> rfl

theorem at_apply (span : Span) (o : Outcome α) (slots : Slots) :
    at_ span o slots =
      match o with
      | .ok a => .ok (a, slots)
      | .error d => .error (.report (d.orSpan span)) := by cases o <;> rfl

theorem get?_apply (n : Nat) (slots : Slots) : get? n slots = .ok (slots.getD n none, slots) := rfl

theorem put_apply (n : Nat) (v : Value) (slots : Slots) :
    put n v slots = .ok (⟨⟩, slots.setIfInBounds n (some v)) := rfl

theorem forLoop_succ (slot : Nat) (body : Exec Flow) (count : Nat) (i : Int) :
    forLoop slot body (count + 1) i = (do
      put slot (.num (Float.ofInt i))
      (← body).andThen (forLoop slot body count (i + 1)) : Exec Flow) := by
  funext slots
  rw [forLoop, bind_apply, put_apply]
  dsimp only
  rw [bind_apply]
  rcases body (slots.setIfInBounds slot (some (.num (Float.ofInt i)))) with e | ⟨_ | _, t⟩ <;> rfl

theorem whileLoop_succ (test : Exec Bool) (body : Exec Flow) (fuel : Nat) :
    whileLoop test body (fuel + 1) = (do
      if ← test then
        (← body).andThen (whileLoop test body fuel)
      else pure .next : Exec Flow) := by
  funext slots
  rw [whileLoop, bind_apply]
  rcases test slots with e | ⟨_ | _, t⟩
  · rfl
  · rfl
  · dsimp only
    rw [if_pos rfl, bind_apply]
    rcases body t with e | ⟨_ | _, t⟩ <;> rfl

end Exec

/-! ## Simulation -/

/-- What the outcomes of the two steps have to do with each other. -/
def Simulates.Ends (R : Fault → Fault → Prop) (layout : List String) (s : σ) :
    Except Fault (α × Locals) × σ → Except Fault (α × Slots) → Prop
  | (.ok (a, locals), t), .ok (b, slots) => a = b ∧ t = s ∧ Slots.Hold layout locals slots
  | (.error e, t), .error f => R e f ∧ t = s
  | _, _ => False

/-- Both steps give a value, or both fail. -/
theorem Simulates.Ends.cases {p : Except Fault (α × Locals) × σ} {q : Except Fault (α × Slots)}
    (h : Simulates.Ends R layout s p q) :
    (∃ a locals slots, p = (.ok (a, locals), s) ∧ q = .ok (a, slots) ∧
      Slots.Hold layout locals slots) ∨
    (∃ e f, p = (.error e, s) ∧ q = .error f ∧ R e f) := by
  rcases p with ⟨e | ⟨a, l⟩, t⟩ <;> rcases q with f | ⟨b, r⟩
  · obtain ⟨ha, rfl⟩ := h
    exact .inr ⟨e, f, rfl, rfl, ha⟩
  · exact h.elim
  · exact h.elim
  · obtain ⟨rfl, rfl, hold⟩ := h
    exact .inl ⟨a, l, r, rfl, rfl, hold⟩

/-- In the state `s`, the step `y` of an artifact does what the step `x` of a body does. -/
def Simulates (R : Fault → Fault → Prop) (layout : List String) (s : σ) (x : Eval σ α)
    (y : Exec α) : Prop :=
  ∀ locals slots, Slots.Hold layout locals slots →
    Simulates.Ends R layout s (x locals s) (y slots)

namespace Simulates

theorem pure (a : α) : Simulates R layout s (pure a : Eval σ α) (pure a) :=
  fun _ _ h => ⟨rfl, rfl, h⟩

theorem bind {x : Eval σ α} {y : Exec α} {f : α → Eval σ β} {g : α → Exec β}
    (h : Simulates R layout s x y) (k : ∀ a, Simulates R layout s (f a) (g a)) :
    Simulates R layout s (x >>= f) (y >>= g) := by
  intro locals slots hold
  rw [Eval.bind_apply, Exec.bind_apply]
  obtain ⟨a, l, r, hx, hy, hold'⟩ | ⟨e, f, hx, hy, ha⟩ := (h locals slots hold).cases
  · rw [hx, hy]
    exact k a l r hold'
  · rw [hx, hy]
    exact ⟨ha, rfl⟩

theorem map {x : Eval σ α} {y : Exec α} (h : Simulates R layout s x y) (f : α → β) :
    Simulates R layout s (do return f (← x)) (do return f (← y)) :=
  h.bind fun a => .pure (f a)

/-- An operation on values whose report both put in the same place. -/
theorem at_ [Fault.Congruence R] (span : Span) (o : Outcome α) :
    Simulates R layout s (Eval.at_ span o) (Exec.at_ span o) := by
  intro locals slots hold
  rw [Eval.at_apply, Exec.at_apply]
  cases o with
  | ok a => exact ⟨rfl, rfl, hold⟩
  | error d => exact ⟨Fault.Congruence.refl _, rfl⟩

theorem set {n : String} (hn : n ∈ layout) (v : Value) :
    Simulates R layout s (modify (Locals.set n v) : Eval σ PUnit)
      (Exec.put (Compile.slotOf n layout) v) :=
  fun _ _ h => ⟨rfl, rfl, h.set hn v⟩

/-- A run that only looks at the world, as a step. -/
theorem lift {x : Run σ α} {y : Except Fault α} {z : Exec α} (h : Run.Yields R s x y)
    (hz : ∀ slots, z slots = y.map fun a => (a, slots)) :
    Simulates R layout s (liftM x : Eval σ α) z := by
  intro locals slots hold
  obtain ⟨hagree, hkeep⟩ := h
  rw [Eval.lift_apply, hkeep, hz]
  rcases hx : (x s).1 with e | a <;> rcases y with f | b <;> rw [hx] at hagree
  · exact ⟨hagree, rfl⟩
  · exact hagree.elim
  · exact hagree.elim
  · exact ⟨hagree, rfl, hold⟩

/-- A call of a primitive. -/
theorem native [Fault.Congruence R] {n : Native} {args : List Value} {x : Run σ Value}
    (h : Run.Yields R s x ((n.call args).mapError .report)) (span : Span) :
    Simulates R layout s (Run.orSpan span x : Eval σ Value) (Exec.at_ span (n.call args)) := by
  refine lift (h.orSpan span) fun slots => ?_
  rw [Exec.at_apply]
  cases n.call args <;> rfl

/-- A call of an artifact. -/
theorem linked [Fault.Congruence R] {a : Artifact} {args : List Value} {fuel : Nat}
    {x : Run σ Value} (h : Run.Yields R s x (a.call fuel args)) (span : Span) :
    Simulates R layout s (Run.orSpan span x : Eval σ Value)
      (match a.call fuel args with
        | .ok v => Pure.pure v
        | .error e => throw (e.map (·.orSpan span))) := by
  refine lift (h.orSpan span) fun slots => ?_
  cases a.call fuel args <;> rfl

/-- A name of the layout that is read: what it holds, or else its outer value. -/
theorem read {n : String} (hn : n ∈ layout) {outer : Run σ Value} {initial : Option Value}
    {d : Diagnostic}
    (h : Run.Yields R s outer (match initial with
      | some v => .ok v
      | none => .error (.report d))) :
    Simulates R layout s
      (do
        match (← get).get? n with
        | some v => Pure.pure v
        | none => (outer : Eval σ Value))
      (do
        match (← Exec.get? (Compile.slotOf n layout)).or initial with
        | some v => Pure.pure v
        | none => throw (.report d)) := by
  intro locals slots hold
  rw [Eval.bind_apply, Eval.get_apply, Exec.bind_apply, Exec.get?_apply]
  dsimp only
  rw [hold.held n hn]
  cases hl : locals.get? n with
  | some v => exact ⟨rfl, rfl, hold⟩
  | none =>
      refine lift h (fun slots => ?_) locals slots hold
      cases initial <;> rfl

/-- A name that is not local is read from outside. -/
theorem outer {n : String} (hn : n ∉ layout) {outer : Run σ Value} {v : Value}
    (h : Run.Yields R s outer (.ok v)) :
    Simulates R layout s
      (do
        match (← get).get? n with
        | some v => Pure.pure v
        | none => (outer : Eval σ Value))
      (Pure.pure v) := by
  intro locals slots hold
  rw [Eval.bind_apply, Eval.get_apply]
  dsimp only
  rw [hold.only n hn]
  exact lift h (fun slots => rfl) locals slots hold

/-- A value that is made of what a name of the layout holds, or else of its outer value, and stored
under that name. The name becomes local before it is made, the slot is filled only afterwards. -/
theorem store [Fault.Congruence R] {n : String} (hn : n ∈ layout) {outer : Run σ Value}
    {initial : Option Value} {d : Diagnostic}
    (h : Run.Yields R s outer (match initial with
      | some v => .ok v
      | none => .error (.report d)))
    (span : Span) (made : Value → Outcome Value) :
    Simulates R layout s
      (do
        let current ← match (← get).get? n with
          | some v => Pure.pure v
          | none =>
            let v ← (outer : Eval σ Value)
            modify (Locals.set n v)
            Pure.pure v
        let stored ← Eval.at_ span (made current)
        modify (Locals.set n stored))
      (do
        match (← Exec.get? (Compile.slotOf n layout)).or initial with
        | none => throw (.report d)
        | some current =>
          let stored ← Exec.at_ span (made current)
          Exec.put (Compile.slotOf n layout) stored) := by
  intro locals slots hold
  rw [Eval.bind_apply, Eval.get_apply, Exec.bind_apply, Exec.get?_apply]
  dsimp only
  rw [hold.held n hn]
  cases hl : locals.get? n with
  | some v =>
      exact ((Simulates.at_ span (made v)).bind fun w => .set hn w) locals slots hold
  | none =>
      -- the name takes its outer value first, and then holds it while the new one is made
      obtain ⟨hagree, hkeep⟩ := h
      dsimp only
      rw [Eval.bind_apply, Eval.lift_apply, hkeep]
      cases initial with
      | none =>
          rcases ho : (outer s).1 with e | v
          · rw [ho] at hagree
            exact ⟨hagree, rfl⟩
          · rw [ho] at hagree
            exact hagree.elim
      | some v =>
          rw [AgreeUpTo.ok_iff.mp hagree]
          simp only [Except.map, Option.none_or, Eval.bind_apply, Eval.modify_apply,
            Eval.pure_apply, Eval.at_apply, Exec.bind_apply, Exec.at_apply]
          cases made v with
          | error e => exact ⟨Fault.Congruence.refl _, rfl⟩
          | ok w =>
              have h₂ := (hold.set hn v).set hn w
              rw [Array.setIfInBounds_setIfInBounds] at h₂
              exact ⟨rfl, rfl, h₂⟩

/-- Names of the layout that are bound one after another. -/
theorem setAll {names : List String} (hn : ∀ n ∈ names, n ∈ layout) (vs : List Value) :
    Simulates R layout s (modify fun l => l.setAll names vs : Eval σ PUnit)
      (Exec.putAll (names.map fun n => Compile.slotOf n layout) vs) := by
  intro locals slots hold
  rw [Eval.modify_apply]
  induction names generalizing vs locals slots with
  | nil => exact ⟨rfl, rfl, hold⟩
  | cons n rest ih =>
      cases vs with
      | nil => exact ⟨rfl, rfl, hold⟩
      | cons v vs =>
          rw [List.map_cons, Exec.putAll, Exec.bind_apply, Exec.put_apply]
          exact ih (fun m hm => hn m (List.mem_cons_of_mem n hm)) vs _ _
            (hold.set (hn n List.mem_cons_self) v)

/-! ## Loops -/

theorem andThen {x : Eval σ Flow} {y : Exec Flow} (h : Simulates R layout s x y) (flow : Flow) :
    Simulates R layout s (flow.andThen x) (flow.andThen y) := by
  cases flow with
  | next => exact h
  | give v => exact .pure _

theorem forLoop {n : String} (hn : n ∈ layout) {body : Eval σ Flow} {code : Exec Flow}
    (h : Simulates R layout s body code) (count : Nat) (i : Int) :
    Simulates R layout s (Eval.forLoop n body count i)
      (Exec.forLoop (Compile.slotOf n layout) code count i) := by
  induction count generalizing i with
  | zero => exact fun _ _ hold => ⟨rfl, rfl, hold⟩
  | succ count ih =>
      rw [Eval.forLoop_succ, Exec.forLoop_succ]
      refine (Simulates.set hn _).bind fun _ => ?_
      exact h.bind fun flow => (ih (i + 1)).andThen flow

theorem whileLoop [Fault.Congruence R] {test : Eval σ Bool} {testCode : Exec Bool}
    {body : Eval σ Flow} {code : Exec Flow} (ht : Simulates R layout s test testCode)
    (h : Simulates R layout s body code)    (fuel : Nat) :
    Simulates R layout s (Eval.whileLoop test body fuel) (Exec.whileLoop testCode code fuel) := by
  induction fuel with
  | zero => exact fun _ _ _ => ⟨Fault.Congruence.refl _, rfl⟩
  | succ fuel ih =>
      rw [Eval.whileLoop_succ, Exec.whileLoop_succ]
      refine ht.bind fun go => ?_
      cases go with
      | false => exact .pure _
      | true => exact h.bind fun flow => ih.andThen flow

end Simulates

end Graft
