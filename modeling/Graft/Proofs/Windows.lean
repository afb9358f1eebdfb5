import Graft.Proofs.Addressing
import Graft.Proofs.Emitting
import Graft.Proofs.Recording
import Graft.Proofs.Wholes
import Graft.Proofs.WindowSource

/-!
# Windows

The code that the pass over windows becomes when its hook is linked, and what a run of it does. The
loop is told by what the slots hold before each round: the result is undefined except where a window
ends that was looked at.
-/

namespace Graft

namespace Compile.Target

theorem code_does {t : Target} {fuel : Nat} {s : Slots} {v : Value} {codes : List Code}
    {args : List Value} (hargs : (Code.recordAll fuel codes).Does s args [] s)
    (h : t.run fuel args = .ok v) (span : Span) :
    ((t.code codes span).record fuel).Does s v [⟨t, args⟩] s := by
  cases t with
  | native n =>
      refine Code.native_does hargs ?_ span
      rw [run] at h
      cases hn : n.call args with
      | ok w =>
          rw [hn] at h
          rw [Except.ok.inj h]
      | error d =>
          rw [hn] at h
          cases h
  | artifact a => exact Code.linked_does hargs h span

theorem code_fails {t : Target} {fuel : Nat} {s : Slots} {e : Fault} {codes : List Code}
    (h : (Code.recordAll fuel codes).Fails s e) (span : Span) :
    ((t.code codes span).record fuel).Fails s e := by
  cases t <;>
    · rw [code, Code.record]
      exact h.first _

end Compile.Target

namespace Value

theorem fromStart_natCast (n k : Nat) : fromStart n k = k :=
  if_neg (Int.not_lt.mpr (Int.natCast_nonneg k))

theorem clamp_natCast {n length : Nat} (h : n ≤ length) : clamp n length = n := by
  rw [clamp, ← fromStart, fromStart_natCast, Int.toNat_natCast, Nat.min_eq_left h]

theorem slice_natCast {xs : Array Float} {m n : Nat} (hm : m ≤ xs.size) (hn : n ≤ xs.size) :
    (array xs).slice m n = .ok (array (xs.extract m n)) := by
  show Except.ok (array (xs.extract (clamp m xs.size) (clamp n xs.size))) = _
  rw [clamp_natCast hm, clamp_natCast hn]

theorem index_natCast {xs : Array Float} {n : Nat} (h : n < xs.size) :
    (array xs).index n = .ok (num (xs.getD n 0)) := by
  rw [index_eq_ok (fromStart_natCast _ n) h, Array.getElem_eq_getD 0]

theorem index_natCast_of_le {xs : Array Float} {n : Nat} (h : xs.size ≤ n) :
    (array xs).index n = .error (outOfBounds n xs.size) :=
  index_eq_error fun hin => by
    have := hin.2
    omega

theorem store_natCast {xs : Array Float} {n : Nat} (h : n < xs.size) (y : Float) :
    (array xs).store n (num y) = .ok (array (xs.setIfInBounds n y)) := by
  rw [store_eq_ok (fromStart_natCast _ n) h, Array.setIfInBounds, dif_pos h]

end Value

namespace CorePasses

/-! ## The code -/

section

variable (outer : String → Option Value) (hook : Compile.Target)

def undefinedCode : Code :=
  .native .fullLike
    [.slot 0 "x" (outer "x") ⟨316, 317⟩, .constant (.num Decimal.undefinedNumber) ⟨319, 327⟩]
    ⟨300, 328⟩

def lastCode : Code :=
  .binary .add (.native .len [.slot 0 "x" (outer "x") ⟨351, 352⟩] ⟨347, 353⟩)
    (.constant (.num (.ofNat 1)) ⟨356, 357⟩) ⟨347, 357⟩

def windowCode : Code :=
  .slice (.slot 0 "x" (outer "x") ⟨390, 391⟩)
    (.binary .sub (.slot 2 "i" (outer "i") ⟨392, 393⟩) (.slot 1 "win" (outer "win") ⟨396, 399⟩)
      ⟨392, 399⟩)
    (.slot 2 "i" (outer "i") ⟨401, 402⟩) ⟨390, 403⟩

def windowStore : Store :=
  .element 3 "result" (outer "result")
    (.binary .sub (.slot 2 "i" (outer "i") ⟨375, 376⟩) (.constant (.num (.ofNat 1)) ⟨379, 380⟩)
      ⟨375, 380⟩) ⟨368, 381⟩

def windowSteps : Steps :=
  .mk [.assign (windowStore outer) (hook.code [windowCode outer] ⟨384, 404⟩)] none

/-- The steps of the pass over windows. The parameters `x` and `win` have the slots 0 and 1, the
counter and the result the slots 2 and 3. -/
def windowedSteps : Steps :=
  .mk
    [.bind 3 (undefinedCode outer),
      .forRange 2 (.slot 1 "win" (outer "win") ⟨342, 345⟩) (lastCode outer)
        (windowSteps outer hook)]
    (some (.slot 3 "result" (outer "result") ⟨415, 421⟩))

end

section

variable {c : Compile.Context} {names : List String} {name : String} {n : Nat}

theorem slot_eq (layout : c.layout = names) (hn : Compile.slotOf name names = n) :
    c.slot name = n := by rw [Compile.Context.slot, layout, hn]

theorem var_gives (layout : c.layout = names) (hname : name ∈ names)
    (hn : Compile.slotOf name names = n) (span : Span) :
    ((Expr.var name span).lower c).Gives (.slot n name (c.outer? name) span) := by
  rw [← hn, ← layout]
  exact .var (by rw [layout]; exact List.contains_iff_mem.mpr hname) span

end

section

variable {c : Compile.Context} {hook : String} {t : Compile.Target}
  (layout : c.layout = ["x", "win", "i", "result"])
  (len : ∀ span st, c.link "len" span st = .ok (.native .len, st))
  (linked : ∀ span st, c.link hook span st = .ok (t, st))
include layout

theorem undefinedTree_gives : (undefinedTree.lower c).Gives (undefinedCode c.outer?) :=
  .call (.member rfl rfl)
    (.cons (var_gives layout (by decide) (by decide) _) (.cons (.path rfl) .nil))

theorem windowTree_gives : (windowTree.lower c).Gives (windowCode c.outer?) := by
  have hi : ∀ span, ((Expr.var "i" span).lower c).Gives (.slot 2 "i" (c.outer? "i") span) :=
    var_gives layout (by decide) (by decide)
  exact .slice (var_gives layout (by decide) (by decide) _)
    (.binary (by decide) (by decide) (hi _) (var_gives layout (by decide) (by decide) _) _) (hi _) _

theorem windowPlace_gives : (windowPlace.lower c).Gives (windowStore c.outer?) := by
  have hslot : c.slot "result" = 3 := slot_eq layout (by decide)
  rw [windowStore, ← hslot]
  exact .element
    (.binary (by decide) (by decide) (var_gives layout (by decide) (by decide) _) (.num _ _) _) _

include linked in
theorem windowBlock_gives :
    (Block.lower c (windowBlock hook)).Gives (windowSteps c.outer? t) :=
  .block (.lowerAll_cons
    (.assign (.call (.target (linked _)) (.cons (windowTree_gives layout) .nil))
      (windowPlace_gives layout) _) .lowerAll_nil) _

include len

theorem lastTree_gives : (lastTree.lower c).Gives (lastCode c.outer?) :=
  .binary (by decide) (by decide)
    (.call (.target (len _)) (.cons (var_gives layout (by decide) (by decide) _) .nil)) (.num _ _) _

include linked

/-- Where the length and the hook are linked at once, the body becomes these steps. -/
theorem windowedBody_gives :
    (Block.lower c (windowedBody hook)).Gives (windowedSteps c.outer? t) := by
  have hbind := Lower.Gives.bindName (n := ⟨"result", ⟨291, 297⟩⟩) (undefinedTree_gives layout)
    ⟨287, 328⟩
  have hwin : ((Expr.var "win" ⟨342, 345⟩).lower c).Gives
      (.slot 1 "win" (c.outer? "win") ⟨342, 345⟩) := var_gives layout (by decide) (by decide) _
  have hloop := Lower.Gives.forRange (v := ⟨"i", ⟨337, 338⟩⟩) hwin (lastTree_gives layout len)
    (windowBlock_gives layout linked) ⟨333, 410⟩
  have hresult : c.slot "result" = 3 := slot_eq layout (by decide)
  have hcounter : c.slot "i" = 2 := slot_eq layout (by decide)
  rw [hresult] at hbind
  rw [hcounter] at hloop
  exact .blockTail (.lowerAll_cons hbind (.lowerAll_cons hloop .lowerAll_nil))
    (var_gives layout (by decide) (by decide) _) _

end

/-! ## What it does -/

/-- The result after `count` windows of `win` elements of `size`; `y` tells the value of the window
that starts at an element. -/
def windowedUpTo (y : Nat → Float) (size win count : Nat) : Array Float :=
  Array.ofFn fun i : Fin size =>
    if win ≤ i + 1 ∧ i + 1 < win + count then y (i + 1 - win) else Decimal.undefinedNumber

section

variable {y : Nat → Float} {size win count : Nat}

@[simp] theorem size_windowedUpTo : (windowedUpTo y size win count).size = size := by
  simp [windowedUpTo]

theorem getElem_windowedUpTo {i : Nat} (h : i < (windowedUpTo y size win count).size) :
    (windowedUpTo y size win count)[i] =
      if win ≤ i + 1 ∧ i + 1 < win + count then y (i + 1 - win)
      else Decimal.undefinedNumber := by
  simp [windowedUpTo]

theorem windowedUpTo_zero :
    windowedUpTo y size win 0 = Array.replicate size Decimal.undefinedNumber := by
  refine Array.ext (by simp) fun i h _ => ?_
  rw [getElem_windowedUpTo, if_neg (by omega), Array.getElem_replicate]

/-- The next window ends one element further on. -/
theorem windowedUpTo_succ (hwin : 1 ≤ win) :
    windowedUpTo y size win (count + 1) =
      (windowedUpTo y size win count).setIfInBounds (win + count - 1) (y count) := by
  refine Array.ext (by simp) fun i h _ => ?_
  rw [getElem_windowedUpTo, Array.getElem_setIfInBounds (by simpa using h), getElem_windowedUpTo]
  by_cases hi : win + count - 1 = i
  · rw [if_pos (by omega), if_pos hi, show i + 1 - win = count by omega]
  · rw [if_neg hi]
    refine if_congr ?_ rfl rfl
    omega

end

section

variable {outer : String → Option Value} {hook : Compile.Target} {fuel : Nat} {x : Array Float}
  {win : Nat} {y : Nat → Float}

/-- What the slots hold before the round of window `k`. -/
def slotsAt (x : Array Float) (win : Nat) (y : Nat → Float) (k : Nat) : Slots :=
  #[some (.array x), some (.num (.ofNat win)),
    if k = 0 then none else some (.num (.ofNat (win + k - 1))),
    some (.array (windowedUpTo y x.size win k))]

/-- The call of the hook with window `k`. -/
def windowCall (hook : Compile.Target) (x : Array Float) (win k : Nat) : LinkedCall :=
  ⟨hook, [.array (x.extract k (win + k))]⟩

/-- One round calls the hook once, with the next window, and keeps the value at the end of the
window. -/
theorem windowSteps_does {k : Nat} (hwin : 1 ≤ win) (hk : win + k ≤ x.size)
    (hsize : x.size + 1 < 2 ^ 53)
    (hy : hook.run fuel [.array (x.extract k (win + k))] = .ok (.num (y k))) :
    ((windowSteps outer hook).record fuel).Does
      ((slotsAt x win y k).setIfInBounds 2 (some (.num (Float.ofInt (win + k)))))
      .next [windowCall hook x win k] (slotsAt x win y (k + 1)) := by
  have hcounter : (.num (Float.ofInt (win + k)) : Value) = .num (.ofNat (win + k)) := by
    rw [← Int.natCast_add]
    rfl
  rw [hcounter]
  generalize hs : (slotsAt x win y k).setIfInBounds 2 (some (.num (.ofNat (win + k)))) = s
  -- what the round finds in the slots: both arguments, the counter and the result so far
  have hx : s.getD 0 none = some (.array x) := by rw [← hs]; rfl
  have hw : s.getD 1 none = some (.num (.ofNat win)) := by rw [← hs]; rfl
  have hi : s.getD 2 none = some (.num (.ofNat (win + k))) := by rw [← hs]; rfl
  have hr : s.getD 3 none = some (.array (windowedUpTo y x.size win k)) := by rw [← hs]; rfl
  have hwindow : ((windowCode outer).record fuel).Does s (.array (x.extract k (win + k))) [] s := by
    refine Code.slice_does (Code.slot_does hx _ _ _) (Code.binary_does (Code.slot_does hi _ _ _)
      (Code.slot_does hw _ _ _) ?_ _) (Value.asIndex_ofNat (n := k) (by omega))
      (Code.slot_does hi _ _ _) (Value.asIndex_ofNat (by omega)) ?_ _
    · show Except.ok (Value.num (Float.ofNat (win + k) - Float.ofNat win)) = _
      rw [Whole.ofNat_sub (by omega) (by omega), Nat.add_sub_cancel_left]
    · exact Value.slice_natCast (by omega) hk
  have hplace : ((windowStore outer).record fuel (.num (y k))).Does s ⟨⟩ []
      (s.setIfInBounds 3 (some (.array (windowedUpTo y x.size win (k + 1))))) := by
    have hat : Value.asIndex (.num (.ofNat (win + k - 1))) = .ok ((win + k - 1 : Nat) : Int) :=
      Value.asIndex_ofNat (by omega)
    refine Store.element_does (Code.binary_does (Code.slot_does hi _ _ _)
      (Code.constant_does _ _ s) ?_ _) hat hr ?_ _ _ _
    · show Except.ok (Value.num (Float.ofNat (win + k) - Float.ofNat 1)) = _
      rw [Whole.ofNat_sub (by omega) (by omega)]
    · rw [windowedUpTo_succ hwin]
      exact Value.store_natCast (by rw [size_windowedUpTo]; omega) _
  have hslots : s.setIfInBounds 3 (some (.array (windowedUpTo y x.size win (k + 1)))) =
      slotsAt x win y (k + 1) := by
    rw [← hs]
    rfl
  have hcall : ((hook.code [windowCode outer] ⟨384, 404⟩).record fuel).Does s (.num (y k))
      [windowCall hook x win k] s :=
    Compile.Target.code_does (Code.recordAll_cons_does hwindow (Code.recordAll_nil_does s)) hy _
  rw [← hslots, windowSteps, Steps.record]
  exact Step.recordAll_cons_does (Step.assign_does hcall hplace) (Step.recordAll_nil_does _)

/-- The pass makes the result, looks at the length, and calls the hook once with each window, in
their order. -/
def windowedCalls (hook : Compile.Target) (x : Array Float) (win : Nat) : List LinkedCall :=
  ⟨.native .fullLike, [.array x, .num Decimal.undefinedNumber]⟩ :: ⟨.native .len, [.array x]⟩ ::
    (List.range (x.size + 1 - win)).map (windowCall hook x win)

theorem windowedSteps_does (hwin : 1 ≤ win) (hsize : x.size + 1 < 2 ^ 53) (hlt : win < 2 ^ 53)
    (hy : ∀ k, win + k ≤ x.size →
      hook.run fuel [.array (x.extract k (win + k))] = .ok (.num (y k))) :
    ((windowedSteps outer hook).recordValue fuel).Does
      #[some (.array x), some (.num (.ofNat win)), none, none]
      (.array (windowedUpTo y x.size win (x.size + 1 - win))) (windowedCalls hook x win)
      (slotsAt x win y (x.size + 1 - win)) := by
  have hempty : (#[some (.array x), some (.num (.ofNat win)), none,
        some (.array (windowedUpTo y x.size win 0))] : Slots) = slotsAt x win y 0 := rfl
  have hresult : ((undefinedCode outer).record fuel).Does
      #[some (.array x), some (.num (.ofNat win)), none, none]
      (.array (windowedUpTo y x.size win 0))
      [⟨.native .fullLike, [.array x, .num Decimal.undefinedNumber]⟩]
      #[some (.array x), some (.num (.ofNat win)), none, none] := by
    refine Code.native_does (Code.recordAll_cons_does (Code.slot_does rfl _ _ _)
      (Code.recordAll_cons_does (Code.constant_does _ _ _) (Code.recordAll_nil_does _))) ?_ _
    rw [windowedUpTo_zero]
    rfl
  have hlast : ((lastCode outer).record fuel).Does (slotsAt x win y 0)
      (.num (.ofNat (x.size + 1))) [⟨.native .len, [.array x]⟩] (slotsAt x win y 0) := by
    refine Code.binary_does (Code.native_does (v := .num (.ofNat x.size))
      (Code.recordAll_cons_does (Code.slot_does rfl _ _ _) (Code.recordAll_nil_does _)) rfl _)
      (Code.constant_does _ _ _) ?_ _
    show Except.ok (Value.num (Float.ofNat x.size + Float.ofNat 1)) = _
    rw [Whole.ofNat_add hsize]
  have hloop : (Recorder.forLoop 2 ((windowSteps outer hook).record fuel)
      ((x.size + 1 : Nat) - win : Int).toNat win).Does (slotsAt x win y 0) .next
      ((List.range (x.size + 1 - win)).map (windowCall hook x win))
      (slotsAt x win y (x.size + 1 - win)) := by
    rw [Int.toNat_sub, ← List.flatMap_singleton' ((List.range _).map _), List.flatMap_map]
    exact .forLoop _ _ fun k hk => windowSteps_does hwin (by omega) hsize (hy k (by omega))
  have hfirst : ((Code.slot 1 "win" (outer "win") ⟨342, 345⟩).record fuel).Does (slotsAt x win y 0)
      (.num (.ofNat win)) [] (slotsAt x win y 0) := Code.slot_does rfl _ _ _
  have hrest := Step.recordAll_cons_does (Step.forRange_does hfirst (Value.asIndex_ofNat hlt) hlast
    (Value.asIndex_ofNat hsize) hloop) (Step.recordAll_nil_does _)
  rw [List.append_nil] at hrest
  exact Steps.recordValue_does (Step.recordAll_cons_does (Step.bind_does hresult 3) hrest)
    (Code.slot_does rfl _ _ _)

end

end CorePasses

end Graft
