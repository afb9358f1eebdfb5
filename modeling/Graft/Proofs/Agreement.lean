import Graft.Call
import Mathlib.Tactic.Common

/-!
# Agreement of runs

Two ways of running a program agree when both give the same value, or both end in a report, or both
use up their steps. What a report says is left out: it tells of the way as well as of the program.
How far faults have to be the same is a parameter of what is shown of single runs, so that the same
lemmas serve where reports do count.

The equations in front say what the steps of a run do to its state; later modules rewrite with them
and do not look into the monads.
-/

namespace Graft

variable {σ α β : Type}

/-! ## Runs, step by step -/

namespace Run

theorem pure_apply (a : α) (s : σ) : (pure a : Run σ α) s = (.ok a, s) := rfl

theorem bind_apply (x : Run σ α) (f : α → Run σ β) (s : σ) :
    (x >>= f) s = match x s with
      | (.ok a, s) => f a s
      | (.error e, s) => (.error e, s) := by
  simp only [bind, StateT.bind, ExceptT.bind, ExceptT.mk, ExceptT.bindCont]
  rcases x s with ⟨_ | _, _⟩ <;> rfl

theorem bind_ok {x : Run σ α} {s t : σ} {a : α} (h : x s = (.ok a, t)) (f : α → Run σ β) :
    (x >>= f) s = f a t := by rw [bind_apply, h]

theorem exists_of_isOk {x : Run σ α} {s : σ} (h : (x s).1.isOk = true) :
    ∃ a t, x s = (.ok a, t) := by
  rcases hx : x s with ⟨e | a, t⟩
  · rw [hx] at h
    cases h
  · exact ⟨a, t, rfl⟩

/-- A sequence gives a value only if its first step does. -/
theorem bind_eq_ok {x : Run σ α} {f : α → Run σ β} {s t : σ} {b : β}
    (h : (x >>= f) s = (.ok b, t)) : ∃ a s', x s = (.ok a, s') ∧ f a s' = (.ok b, t) := by
  rw [bind_apply] at h
  rcases hx : x s with ⟨e | a, s'⟩
  · rw [hx] at h
    cases h
  · rw [hx] at h
    exact ⟨a, s', rfl, h⟩

/-- A sequence fails if its first step does, or else the rest. -/
theorem bind_eq_error {x : Run σ α} {f : α → Run σ β} {s t : σ} {e : Fault}
    (h : (x >>= f) s = (.error e, t)) :
    x s = (.error e, t) ∨ ∃ a s', x s = (.ok a, s') ∧ f a s' = (.error e, t) := by
  rw [bind_apply] at h
  rcases hx : x s with ⟨e' | a, s'⟩
  · rw [hx] at h
    cases h
    exact .inl rfl
  · rw [hx] at h
    exact .inr ⟨a, s', rfl, h⟩

theorem get_apply (s : σ) : (get : Run σ σ) s = (.ok s, s) := rfl

theorem set_apply (s t : σ) : (set s : Run σ PUnit) t = (.ok ⟨⟩, s) := rfl

theorem modify_apply (f : σ → σ) (s : σ) : (modify f : Run σ PUnit) s = (.ok ⟨⟩, f s) := rfl

theorem ofOutcome_apply (o : Outcome α) (s : σ) :
    (ofOutcome o : Run σ α) s = (o.mapError .report, s) := by cases o <;> rfl

theorem ofExcept_apply (o : Except Fault α) (s : σ) : (ofExcept o : Run σ α) s = (o, s) := by
  cases o <;> rfl

theorem tryCatch_apply (x : Run σ α) (f : Fault → Run σ α) (s : σ) :
    (tryCatch x f : Run σ α) s =
      match x s with
      | (.ok a, t) => (.ok a, t)
      | (.error e, t) => f e t := by
  simp only [tryCatch, tryCatchThe, MonadExceptOf.tryCatch, ExceptT.tryCatch, ExceptT.mk, bind,
    StateT.bind]
  rcases x s with ⟨_ | _, _⟩ <;> rfl

theorem mapReport_apply (f : Diagnostic → Diagnostic) (x : Run σ α) (s : σ) :
    mapReport f x s = ((x s).1.mapError (Fault.map f), (x s).2) := by
  simp only [mapReport, tryCatch, tryCatchThe, MonadExceptOf.tryCatch, ExceptT.tryCatch,
    ExceptT.mk, bind, StateT.bind]
  rcases x s with ⟨_ | _, _⟩ <;> rfl

theorem orSpan_apply (span : Span) (x : Run σ α) (s : σ) :
    orSpan span x s = ((x s).1.mapError (Fault.map (·.orSpan span)), (x s).2) :=
  mapReport_apply _ x s

end Run

namespace Eval

theorem pure_apply (a : α) (l : Locals) (s : σ) :
    (pure a : Eval σ α) l s = (.ok (a, l), s) := rfl

theorem bind_apply (x : Eval σ α) (f : α → Eval σ β) (l : Locals) (s : σ) :
    (x >>= f) l s = match x l s with
      | (.ok (a, l), s) => f a l s
      | (.error e, s) => (.error e, s) := by
  simp only [bind, StateT.bind, ExceptT.bind, ExceptT.mk, ExceptT.bindCont]
  rcases x l s with ⟨_ | _, _⟩ <;> rfl

theorem get_apply (l : Locals) (s : σ) : (get : Eval σ Locals) l s = (.ok (l, l), s) := rfl

theorem modify_apply (f : Locals → Locals) (l : Locals) (s : σ) :
    (modify f : Eval σ PUnit) l s = (.ok (⟨⟩, f l), s) := rfl

theorem at_apply (span : Span) (o : Outcome α) (l : Locals) (s : σ) :
    (at_ span o : Eval σ α) l s =
      (match o with
        | .ok a => .ok (a, l)
        | .error d => .error (.report (d.orSpan span)), s) := by cases o <;> rfl

/-- A run that knows nothing of local variables, as a step of a function body. -/
theorem lift_apply (x : Run σ α) (l : Locals) (s : σ) :
    (liftM x : Eval σ α) l s = ((x s).1.map fun a => (a, l), (x s).2) := by
  simp only [liftM, monadLift, MonadLift.monadLift, StateT.lift, bind, StateT.bind,
    ExceptT.bind, ExceptT.mk, ExceptT.bindCont]
  rcases x s with ⟨_ | _, _⟩ <;> rfl

end Eval

/-! ## Rounds of loops -/

/-- What comes next, unless a value was given. -/
def Flow.andThen {m : Type → Type} [Monad m] (next : m Flow) : Flow → m Flow
  | .next => next
  | .give v => pure (.give v)

theorem Eval.forLoop_succ (name : String) (body : Eval σ Flow) (count : Nat) (i : Int) :
    forLoop name body (count + 1) i = (do
      modify (Locals.set name (.num (Float.ofInt i)))
      (← body).andThen (forLoop name body count (i + 1)) : Eval σ Flow) := by
  funext locals s
  rw [forLoop, bind_apply, modify_apply]
  dsimp only
  rw [bind_apply]
  rcases body (locals.set name (.num (Float.ofInt i))) s with ⟨e | ⟨_ | _, l⟩, t⟩ <;> rfl

theorem Eval.whileLoop_succ (test : Eval σ Bool) (body : Eval σ Flow) (fuel : Nat) :
    whileLoop test body (fuel + 1) = (do
      if ← test then
        (← body).andThen (whileLoop test body fuel)
      else pure .next : Eval σ Flow) := by
  funext locals s
  rw [whileLoop, bind_apply]
  rcases test locals s with ⟨e | ⟨_ | _, l⟩, t⟩
  · rfl
  · rfl
  · dsimp only
    rw [if_pos rfl, bind_apply]
    rcases body l t with ⟨e | ⟨_ | _, l⟩, t⟩ <;> rfl

/-! ## Agreement -/

/-- Both are reports, or both runs used up their steps. -/
def Fault.Alike : Fault → Fault → Prop
  | .report _, .report _ => True
  | .exhausted, .exhausted => True
  | _, _ => False

namespace Fault.Alike

@[refl] theorem refl (e : Fault) : e.Alike e := by cases e <;> trivial

theorem symm {e f : Fault} (h : e.Alike f) : f.Alike e := by
  cases e <;> cases f <;> exact h

theorem trans {e f g : Fault} (h : e.Alike f) (h' : f.Alike g) : e.Alike g := by
  cases e <;> cases f <;> cases g <;> trivial

/-- What a report says does not count. -/
theorem map_left {e f : Fault} (h : e.Alike f) (r : Diagnostic → Diagnostic) :
    (e.map r).Alike f := by cases e <;> cases f <;> exact h

theorem map_right {e f : Fault} (h : e.Alike f) (r : Diagnostic → Diagnostic) :
    e.Alike (f.map r) := (h.symm.map_left r).symm

end Fault.Alike

/-- The same value, or faults of one sort. -/
def Agree : Except Fault α → Except Fault α → Prop
  | .ok a, .ok b => a = b
  | .error e, .error f => e.Alike f
  | _, _ => False

namespace Agree

variable {x y z : Except Fault α}

@[refl] theorem refl (x : Except Fault α) : Agree x x := by
  cases x with
  | ok a => exact rfl
  | error e => exact Fault.Alike.refl e

theorem symm (h : Agree x y) : Agree y x := by
  cases x <;> cases y
  · exact Fault.Alike.symm h
  · exact h
  · exact h
  · exact Eq.symm h

theorem trans (h : Agree x y) (h' : Agree y z) : Agree x z := by
  cases x <;> cases y <;> cases z
  · exact Fault.Alike.trans h h'
  all_goals first | exact h.elim | exact h'.elim | exact Eq.trans h h'

/-- One way gives a value exactly when the other gives it. -/
theorem eq_ok_iff (h : Agree x y) (a : α) : x = .ok a ↔ y = .ok a := by
  cases x <;> cases y
  · simp
  · exact h.elim
  · exact h.elim
  · rw [show _ = _ from h]

end Agree

/-! ## Faults that belong together -/

/-- A relation of faults that holds of equal ones, and goes on to hold when both are put in the same
place. -/
class Fault.Congruence (R : Fault → Fault → Prop) : Prop where
  refl : ∀ e, R e e
  orSpan : ∀ {e f} (span : Span), R e f → R (e.map (·.orSpan span)) (f.map (·.orSpan span))

instance : Fault.Congruence Fault.Alike where
  refl := Fault.Alike.refl
  orSpan _ h := (h.map_left _).map_right _

instance : Fault.Congruence Eq where
  refl _ := rfl
  orSpan _ h := h ▸ rfl

/-- The same value, or faults that belong together. -/
def AgreeUpTo (R : Fault → Fault → Prop) : Except Fault α → Except Fault α → Prop
  | .ok a, .ok b => a = b
  | .error e, .error f => R e f
  | _, _ => False

namespace AgreeUpTo

variable {R : Fault → Fault → Prop} {x y : Except Fault α}

theorem refl [Fault.Congruence R] (x : Except Fault α) : AgreeUpTo R x x := by
  cases x with
  | ok a => exact rfl
  | error e => exact Fault.Congruence.refl e

theorem mono {R' : Fault → Fault → Prop} (h : AgreeUpTo R x y) (hle : ∀ {e f}, R e f → R' e f) :
    AgreeUpTo R' x y := by
  cases x <;> cases y
  · exact hle h
  · exact h
  · exact h
  · exact h

theorem orSpan [Fault.Congruence R] (h : AgreeUpTo R x y) (span : Span) :
    AgreeUpTo R (x.mapError (Fault.map (·.orSpan span))) (y.mapError (Fault.map (·.orSpan span))) := by
  cases x <;> cases y
  · exact Fault.Congruence.orSpan span h
  · exact h
  · exact h
  · exact h

theorem ok_iff {a : α} : AgreeUpTo R x (.ok a) ↔ x = .ok a := by
  cases x with
  | error e => exact ⟨False.elim, fun h => nomatch h⟩
  | ok b => exact ⟨congrArg Except.ok, fun h => Except.ok.inj h⟩

end AgreeUpTo

theorem agreeUpTo_alike {x y : Except Fault α} : AgreeUpTo Fault.Alike x y ↔ Agree x y := by
  cases x <;> cases y <;> exact Iff.rfl

theorem agreeUpTo_eq {x y : Except Fault α} : AgreeUpTo Eq x y ↔ x = y := by
  cases x <;> cases y <;> simp [AgreeUpTo]

/-- Run in the state `s`, `x` gives the value of the outcome `y`, or fails with a fault that belongs
to that of `y`, and leaves the state as it is. -/
def Run.Yields (R : Fault → Fault → Prop) (s : σ) (x : Run σ α) (y : Except Fault α) : Prop :=
  AgreeUpTo R (x s).1 y ∧ (x s).2 = s

namespace Run.Yields

variable {R : Fault → Fault → Prop} {s : σ} {x : Run σ α} {y : Except Fault α}

theorem agree (h : Run.Yields Fault.Alike s x y) : Agree (x s).1 y := agreeUpTo_alike.mp h.1

theorem mono {R' : Fault → Fault → Prop} (h : Run.Yields R s x y) (hle : ∀ {e f}, R e f → R' e f) :
    Run.Yields R' s x y := ⟨h.1.mono hle, h.2⟩

variable [Fault.Congruence R]

theorem of_eq (h : x s = (y, s)) : Run.Yields R s x y := by
  rw [Run.Yields, h]
  exact ⟨.refl y, rfl⟩

theorem orSpan (h : Run.Yields R s x y) (span : Span) :
    Run.Yields R s (Run.orSpan span x) (y.mapError (Fault.map (·.orSpan span))) := by
  rw [Run.Yields, Run.orSpan_apply]
  exact ⟨h.1.orSpan span, h.2⟩

theorem ofExcept (y : Except Fault α) : Run.Yields R s (Run.ofExcept y) y :=
  of_eq (Run.ofExcept_apply y s)

theorem ofOutcome (o : Outcome α) : Run.Yields R s (Run.ofOutcome o) (o.mapError .report) :=
  of_eq (Run.ofOutcome_apply o s)

end Run.Yields

end Graft
