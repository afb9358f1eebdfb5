import Graft.Proofs.HookedPasses
import Graft.Proofs.Windows

/-!
# Hooks of the pass over windows

A specialization of the pass over windows is linked to what was made for its hook. What the artifact
does then is told by the steps of the pass, and what it is linked to by the hook.
-/

namespace Graft

namespace CorePasses

/-- The pass over windows, whose hook is called under any name. -/
def windowed : HookedPass where
  toPassSource := windowedSource
  body := windowedBody
  slots := ["x", "win", "i", "result"]
  steps := windowedSteps
  renamed := by
    rw [Pass.renameCalls_eq]
    rfl
  called := .inl rfl
  layout := rfl
  gives := windowedBody_gives

/-- The artifact is the pass over windows with its hook linked. -/
def LinkedTo (t : Compile.Target) (a : Artifact) : Prop :=
  ∃ info outer, a = .mk info 4 (windowedSteps outer t) ∧ info.definition.params.length = 2

namespace Windowed

variable {w : World} {f : Function} {debug : Bool}

theorem bound (h : Windowed w f) : windowed.Bound w f := windowed_iff_bound.mp h

theorem of_same (h : Windowed w f) {v : World} (hv : w.Same v) : Windowed v f :=
  windowed_iff_bound.mpr (h.bound.of_same hv)

/-- A new specialization is the pass over windows, linked to what was made for the hook. -/
theorem specializeAnew_eq_ok (h : Windowed w f) {hook : Callable} {a : Artifact} {w' : World}
    (hok : f.specializeAnew [("value", hook)] debug w = (.ok a, w')) :
    ∃ t, LinkedTo t a ∧ Substitution.Prepared [("value", hook)] w hook t.callable :=
  h.bound.specializeAnew_eq_ok hok

/-- With a primitive or an artifact for its hook the pass can always be specialized. -/
theorem specialize_ok (h : Windowed w f) (t : Compile.Target) (debug : Bool) :
    ∃ a w', f.specialize [("value", t.callable)] debug w = (.ok a, w') :=
  h.bound.specialize_ok t debug

/-- Where the pass is specialized anew, it is as it was loaded. -/
theorem of_specializeAnew (h : Windowed w f) {u u' : World} {hook : Callable} {a : Artifact}
    (keeps : u.Keeps w) (hok : f.specializeAnew [("value", hook)] debug u = (.ok a, u')) :
    Windowed u f := windowed_iff_bound.mpr (h.bound.of_specializeAnew keeps hok)

end Windowed

/-! ## Every window -/

/-- The pass over windows computes every window. Let its hook be a primitive or an artifact, or a
function that is as it was read, that the pass can be specialized with, and that comes to no call
which the specialization replaces; and let what the cache holds be made under the same bindings.
Then the pass is specialized, and for every array and every window size the artifact gives an array
of the same length: an element before which no window ends is undefined, and every other one is the
value of the hook for the window that ends there. The artifact makes the result, asks for the length,
and calls what the hook is linked as once with each window, in their order. -/
theorem specialize_windows {w : World} {f : Function} {hook : Callable} {debug : Bool}
    {x : Array Float} {win : Nat} (pass : Windowed w f)
    (loaded : ∀ p, hook.plain? = some p → p.Loaded (unwrapOverrides [("value", hook)]) w)
    (free : ∀ p, Substitution.pending? (unwrapOverrides [("value", hook)]) hook.unwrapped = some p →
      ∀ c, ¬ p.Meets (unwrapOverrides [("value", hook)]) w c)
    (kept : ∀ b, w.cache.find? (w.cacheKey f (unwrapOverrides [("value", hook)])) = some b →
      ∃ u u' debug, u.Keeps w ∧
        f.specializeAnew (unwrapOverrides [("value", hook)]) debug u = (.ok b, u'))
    (ready : (∃ t : Compile.Target, hook = t.callable) ∨
      ∃ a w', f.specialize [("value", hook)] debug w = (.ok a, w'))
    (positive : 1 ≤ win) (hwin : win < 2 ^ 53) (hsize : x.size + 1 < 2 ^ 53)
    (numbers : ∀ k, win + k ≤ x.size →
      ∃ y, (hook.call [.array (x.extract k (win + k))] w).1 = .ok (.num y)) :
    ∃ a w' t r, f.specialize [("value", hook)] debug w = (.ok a, w') ∧ LinkedAs w hook t ∧
      a.call ampleFuel [.array x, .num (.ofNat win)] = .ok (.array r) ∧
      a.record ampleFuel [.array x, .num (.ofNat win)] = .ok (.array r, windowedCalls t x win) ∧
      r.size = x.size ∧ ∀ i (h : i < r.size),
        (i + 1 < win → r[i] = Decimal.undefinedNumber) ∧
        (win ≤ i + 1 →
          (hook.call [.array (x.extract (i + 1 - win) (i + 1))] w).1 = .ok (.num r[i])) := by
  obtain ⟨a, w', hok⟩ : ∃ a w', f.specialize [("value", hook)] debug w = (.ok a, w') := by
    obtain ⟨t, rfl⟩ | hok := ready
    · exact pass.specialize_ok t debug
    · exact hok
  have hraw : unwrapOverrides [("value", hook)] = [("value", hook.unwrapped)] := rfl
  -- at some time it was specialized anew, under the bindings of now
  obtain ⟨u, u', debug', ⟨hkeeps, hpass⟩, hanew⟩ := Function.specialize_eq_ok
    (P := fun u => u.Keeps w ∧ Windowed u f) hok
    (fun v hv => ⟨hv.keeps fun id hlive => ⟨hlive, fun _ => rfl⟩, pass.of_same hv⟩)
    fun b hb => by
      obtain ⟨u, u', debug', hkeeps, hanew⟩ := kept b hb
      exact ⟨u, u', debug', ⟨hkeeps, pass.of_specializeAnew hkeeps hanew⟩, hanew⟩
  -- what the hook was made into then is what it is linked as now
  obtain ⟨t, ⟨info, outer, rfl, hparams⟩, hprepared⟩ := hpass.specializeAnew_eq_ok hanew
  have hlinked : LinkedAs w hook t := by
    refine .of_unwrapped (hprepared.linkedAs (fun p hp => loaded p ?_) free hkeeps)
    rw [← Callable.plain?_unwrapped, hp]
    rfl
  obtain ⟨y, hy⟩ : ∃ y : Nat → Float, ∀ k, win + k ≤ x.size →
      (hook.call [.array (x.extract k (win + k))] w).1 = .ok (.num (y k)) := by
    have total : ∀ k, ∃ y, win + k ≤ x.size →
        (hook.call [.array (x.extract k (win + k))] w).1 = .ok (.num y) := fun k => by
      by_cases hk : win + k ≤ x.size
      · obtain ⟨y, hy⟩ := numbers k hk
        exact ⟨y, fun _ => hy⟩
      · exact ⟨0, fun h => absurd h hk⟩
    choose y hy using total
    exact ⟨y, hy⟩
  have hrecord : (Artifact.mk info 4 (windowedSteps outer t)).record ampleFuel
      [.array x, .num (.ofNat win)] =
        .ok (.array (windowedUpTo y x.size win (x.size + 1 - win)), windowedCalls t x win) :=
    Artifact.record_eq_ok hparams.symm
      (windowedSteps_does positive hsize hwin fun k hk => hlinked.run_eq_ok (hy k hk))
  refine ⟨_, w', t, _, hok, hlinked, ?_, hrecord, size_windowedUpTo, fun i hi => ⟨?_, ?_⟩⟩
  · rw [← Artifact.map_record, hrecord]
    rfl
  · intro hlt
    rw [getElem_windowedUpTo, if_neg (by omega)]
  · intro hle
    rw [size_windowedUpTo] at hi
    rw [getElem_windowedUpTo, if_pos (by omega)]
    have hcall := hy (i + 1 - win) (by omega)
    rwa [Nat.add_sub_cancel' hle] at hcall

/-- Whether both are the same number, or arrays of the same numbers. -/
def sameNumbers : Value → Value → Bool
  | .num x, .num y => x = y
  | .array xs, .array ys => xs = ys
  | _, _ => false

def gives (v : Value) : Except Fault Value → Bool
  | .ok u => sameNumbers u v
  | .error _ => false

theorem eq_ok_of_gives {v : Value} {r : Except Fault Value} (h : gives v r = true) : r = .ok v := by
  cases r with
  | error e => cases h
  | ok u =>
      rw [gives, sameNumbers.eq_def] at h
      split at h
      · rw [of_decide_eq_true h]
      · rw [of_decide_eq_true h]
      · cases h

theorem number_unique {y z : Float} {r : Except Fault Value} (hy : r = .ok (.num y))
    (hz : r = .ok (.num z)) : y = z := Value.num.inj (Except.ok.inj (hy.symm.trans hz))

def changeText : SourceText := ⟨"m.fst", "fn change(x) \x7b x[1] - x[0] \x7d\n"⟩

/-- A hook: how much a window of two elements rises. -/
def change : Function := Pass.loadAt changeText 2 ⟨0, 28⟩

def changeHook : List (String × Callable) := [("value", .function change)]

def changeBase : World where
  nextId := 3
  namespaces := [(1, { name := "m", globals := [("change", .callable (.function change))] })]

/-- The pass over windows is loaded next to the module with that hook. -/
def changeWorld : World := afterLoad changeBase

def changePass : Function := (loadedPass changeBase).function

theorem changePass_windowed : Windowed changeWorld changePass := windowed_afterLoad changeBase

theorem change_suits : Suits changeWorld changePass false (.function change) := by
  have one : Pass.isOneFunction change.extract = true := by decide +kernel
  exact .of_leaf one (Pass.readsBack_loadAt one) (by decide +kernel) (fun _ => rfl)
    (by decide +kernel)

theorem change_values :
    ((Callable.function change).call [.array ((#[3, 1, 2] : Array Float).extract 0 2)]
      changeWorld).1 = .ok (.num (-2)) ∧
    ((Callable.function change).call [.array ((#[3, 1, 2] : Array Float).extract 1 3)]
      changeWorld).1 = .ok (.num 1) :=
  ⟨eq_ok_of_gives (by decide +kernel), eq_ok_of_gives (by decide +kernel)⟩

theorem specialize_windows_change :
    ∃ a w', changePass.specialize changeHook false changeWorld = (.ok a, w') ∧
      a.call ampleFuel [.array #[3, 1, 2], .num (.ofNat 2)] =
        .ok (.array #[Decimal.undefinedNumber, -2, 1]) := by
  obtain ⟨a, w', t, r, hspecialize, -, hcall, -, hsize, helements⟩ :=
    @specialize_windows changeWorld changePass (.function change) false #[3, 1, 2] 2
      changePass_windowed change_suits.loaded change_suits.free change_suits.kept
      change_suits.ready (by decide) (by decide) (by decide)
      fun k hk => by
        obtain rfl | rfl : k = 0 ∨ k = 1 := by
          change 2 + k ≤ 3 at hk
          omega
        · exact ⟨_, change_values.1⟩
        · exact ⟨_, change_values.2⟩
  have hthree : r.size = 3 := hsize
  have hr : r = #[Decimal.undefinedNumber, -2, 1] := by
    refine Array.ext hthree fun i hi hi' => ?_
    obtain rfl | rfl | rfl : i = 0 ∨ i = 1 ∨ i = 2 := by
      change i < 3 at hi'
      omega
    · exact (helements 0 hi).1 (by decide)
    · exact number_unique ((helements 1 hi).2 (by decide)) change_values.1
    · exact number_unique ((helements 2 hi).2 (by decide)) change_values.2
  exact ⟨a, w', hspecialize, hr ▸ hcall⟩

def countText : SourceText :=
  ⟨"m.fst", "fn value(x) \x7b 1 \x7d\nfn count(x) \x7b value(x) + 1 \x7d\n"⟩

/-- A hook that calls another function by the name that is overridden. -/
def count : Function := Pass.loadAt countText 3 ⟨18, 46⟩

def countBase : World where
  nextId := 4
  namespaces :=
    [(1, { name := "m"
           globals := [("value", .callable (.function (Pass.loadAt countText 2 ⟨0, 17⟩))),
             ("count", .callable (.function count))] })]

/-- A call of the overridden name in the hook is replaced as well, so the artifact does not call the
hook as it is. -/
theorem specialize_not_windows :
    Windowed (afterLoad countBase) (loadedPass countBase).function ∧
      ((Callable.function count).call [.array #[5]] (afterLoad countBase)).1 =
        .ok (.num 2) ∧
      ∃ a w', (loadedPass countBase).function.specialize
          [("value", .function count)] false (afterLoad countBase) = (.ok a, w') ∧
        a.call ampleFuel [.array #[5], .num (.ofNat 1)] = .ok (.array #[3]) := by
  refine ⟨windowed_afterLoad countBase, eq_ok_of_gives (by decide +kernel), ?_⟩
  have hcheck : (((loadedPass countBase).function.specialize
      [("value", .function count)] false (afterLoad countBase)).1.toOption.any fun a =>
        gives (.array #[3]) (a.call ampleFuel [.array #[5], .num (.ofNat 1)])) = true := by
    decide +kernel
  rcases h : (loadedPass countBase).function.specialize
      [("value", .function count)] false (afterLoad countBase) with ⟨e | a, w'⟩
  · rw [h] at hcheck
    cases hcheck
  · rw [h] at hcheck
    exact ⟨a, w', rfl, eq_ok_of_gives hcheck⟩

end CorePasses

end Graft
