import Graft.Proofs.StatefulSource
import Graft.Proofs.Windows

/-!
# Windows with a state

The code that the pass over windows with a state becomes when its hook is linked, and what a run of
it does with a hook that gives the state back. The slots are told as for the pass without a state:
the first window is looked at before the loop, and every round looks at one more.
-/

namespace Graft

namespace CorePasses

/-! ## One more and one less -/

/-- The code of a variable and one more, or one less. -/
def besidesCode (op : BinaryOp) (n : Nat) (name : String) (outer : String → Option Value)
    (nameSpan oneSpan : Span) : Code :=
  .binary op (.slot n name (outer name) nameSpan) (.constant (.num (.ofNat 1)) oneSpan)
    ⟨nameSpan.start, oneSpan.stop⟩

theorem besides_gives {c : Compile.Context} {names : List String} {name : String} {n : Nat}
    {op : BinaryOp} (layout : c.layout = names) (hand : op ≠ .and) (hor : op ≠ .or)
    (hname : name ∈ names) (hn : Compile.slotOf name names = n) (nameSpan oneSpan : Span) :
    ((besides op name nameSpan oneSpan).lower c).Gives
      (besidesCode op n name c.outer? nameSpan oneSpan) :=
  .binary hand hor (var_gives layout hname hn _) (.num _ _) _

section

variable {outer : String → Option Value} {fuel n m : Nat} {s : Slots}

theorem besidesCode_sub_does (h : s.getD n none = some (.num (.ofNat m))) (hpos : 1 ≤ m)
    (hlt : m < 2 ^ 53) (name : String) (nameSpan oneSpan : Span) :
    ((besidesCode .sub n name outer nameSpan oneSpan).record fuel).Does s (.num (.ofNat (m - 1)))
      [] s := by
  refine Code.binary_does (Code.slot_does h _ _ _) (Code.constant_does _ _ s) ?_ _
  show Except.ok (Value.num (Float.ofNat m - Float.ofNat 1)) = _
  rw [Whole.ofNat_sub hpos hlt]

theorem besidesCode_add_does (h : s.getD n none = some (.num (.ofNat m))) (hlt : m + 1 < 2 ^ 53)
    (name : String) (nameSpan oneSpan : Span) :
    ((besidesCode .add n name outer nameSpan oneSpan).record fuel).Does s (.num (.ofNat (m + 1)))
      [] s := by
  refine Code.binary_does (Code.slot_does h _ _ _) (Code.constant_does _ _ s) ?_ _
  show Except.ok (Value.num (Float.ofNat m + Float.ofNat 1)) = _
  rw [Whole.ofNat_add hlt]

end

namespace Stateful

/-! ## The code -/

section

variable (outer : String → Option Value) (hook : Compile.Target)

def undefinedCode : Code :=
  .native .fullLike
    [.slot 0 "x" (outer "x") ⟨613, 614⟩, .constant (.num Decimal.undefinedNumber) ⟨616, 624⟩]
    ⟨597, 625⟩

def emptyCode : Code := .native .empty [.constant (.num (.ofNat 0)) ⟨654, 655⟩] ⟨642, 656⟩

def firstStores : List Store :=
  [.element 3 "result" (outer "result") (besidesCode .sub 1 "win" outer ⟨670, 673⟩ ⟨676, 677⟩)
      ⟨663, 678⟩,
    .slot 5]

def firstCodes : List Code :=
  [.slice (.slot 0 "x" (outer "x") ⟨695, 696⟩) (.constant (.num (.ofNat 0)) ⟨697, 698⟩)
      (.slot 1 "win" (outer "win") ⟨700, 703⟩) ⟨695, 704⟩,
    .index (.slot 0 "x" (outer "x") ⟨706, 707⟩)
      (besidesCode .sub 1 "win" outer ⟨708, 711⟩ ⟨714, 715⟩) ⟨706, 716⟩,
    .constant (.num Decimal.undefinedNumber) ⟨718, 726⟩,
    .slot 5 "state" (outer "state") ⟨728, 733⟩]

def lastCode : Code :=
  .binary .add (.native .len [.slot 0 "x" (outer "x") ⟨761, 762⟩] ⟨757, 763⟩)
    (.constant (.num (.ofNat 1)) ⟨766, 767⟩) ⟨757, 767⟩

def startCode : Code :=
  .binary .sub (.slot 2 "i" (outer "i") ⟨790, 791⟩) (.slot 1 "win" (outer "win") ⟨794, 797⟩)
    ⟨790, 797⟩

def nextStores : List Store :=
  [.element 3 "result" (outer "result") (besidesCode .sub 2 "i" outer ⟨815, 816⟩ ⟨819, 820⟩)
      ⟨808, 821⟩,
    .slot 5]

def nextCodes : List Code :=
  [.slice (.slot 0 "x" (outer "x") ⟨838, 839⟩) (.slot 4 "start" (outer "start") ⟨840, 845⟩)
      (.slot 2 "i" (outer "i") ⟨847, 848⟩) ⟨838, 849⟩,
    .index (.slot 0 "x" (outer "x") ⟨851, 852⟩)
      (besidesCode .sub 2 "i" outer ⟨853, 854⟩ ⟨857, 858⟩) ⟨851, 859⟩,
    .index (.slot 0 "x" (outer "x") ⟨861, 862⟩)
      (besidesCode .sub 4 "start" outer ⟨863, 868⟩ ⟨871, 872⟩) ⟨861, 873⟩,
    .slot 5 "state" (outer "state") ⟨875, 880⟩]

def nextSteps : Steps :=
  .mk
    [.bind 4 (startCode outer),
      .assignAll (nextStores outer) (hook.code (nextCodes outer) ⟨832, 881⟩) ⟨807, 881⟩]
    none

/-- The steps of the pass. The parameters `x` and `win` have the slots 0 and 1, then come the
counter, the result, the start of the window and the state. -/
def steps : Steps :=
  .mk
    [.bind 3 (undefinedCode outer), .bind 5 emptyCode,
      .assignAll (firstStores outer) (hook.code (firstCodes outer) ⟨689, 734⟩) ⟨662, 734⟩,
      .forRange 2 (besidesCode .add 1 "win" outer ⟨748, 751⟩ ⟨754, 755⟩) (lastCode outer)
        (nextSteps outer hook)]
    (some (.slot 3 "result" (outer "result") ⟨892, 898⟩))

end

section

variable {c : Compile.Context} {hook : String} {t : Compile.Target}
  (layout : c.layout = ["x", "win", "i", "result", "start", "state"])
  (len : ∀ span st, c.link "len" span st = .ok (.native .len, st))
  (linked : ∀ span st, c.link hook span st = .ok (t, st))
include layout

theorem undefinedTree_gives : (undefinedTree.lower c).Gives (undefinedCode c.outer?) :=
  .call (.member rfl rfl)
    (.cons (var_gives layout (by decide) (by decide) _) (.cons (.path rfl) .nil))

omit layout in
theorem emptyTree_gives : (emptyTree.lower c).Gives emptyCode :=
  .call (.member rfl rfl) (.cons (.num _ _) .nil)

theorem result_slot : c.slot "result" = 3 := slot_eq layout (by decide)

theorem state_slot : c.slot "state" = 5 := slot_eq layout (by decide)

theorem firstPlaces_gives :
    (Compile.lowerPlaces c firstPlaces).Gives (firstStores c.outer?) := by
  rw [firstStores, ← result_slot layout, ← state_slot layout]
  exact .places_cons
    (.element (besides_gives layout (by decide) (by decide) (by decide) (by decide) _ _) _)
    (.places_cons (.slot _ _) .places_nil)

theorem nextPlaces_gives :
    (Compile.lowerPlaces c nextPlaces).Gives (nextStores c.outer?) := by
  rw [nextStores, ← result_slot layout, ← state_slot layout]
  exact .places_cons
    (.element (besides_gives layout (by decide) (by decide) (by decide) (by decide) _ _) _)
    (.places_cons (.slot _ _) .places_nil)

theorem firstArguments_gives :
    (Expr.lower.lowerAll c firstArguments).Gives (firstCodes c.outer?) := by
  have hx : ∀ span, ((Expr.var "x" span).lower c).Gives (.slot 0 "x" (c.outer? "x") span) :=
    var_gives layout (by decide) (by decide)
  refine .cons (.slice (hx _) (.num _ _) (var_gives layout (by decide) (by decide) _) _)
    (.cons (.index (hx _) ?_ _)
      (.cons (.path rfl) (.cons (var_gives layout (by decide) (by decide) _) .nil)))
  exact besides_gives layout (by decide) (by decide) (by decide) (by decide) _ _

theorem nextArguments_gives :
    (Expr.lower.lowerAll c nextArguments).Gives (nextCodes c.outer?) := by
  have hx : ∀ span, ((Expr.var "x" span).lower c).Gives (.slot 0 "x" (c.outer? "x") span) :=
    var_gives layout (by decide) (by decide)
  refine .cons (.slice (hx _) (var_gives layout (by decide) (by decide) _)
      (var_gives layout (by decide) (by decide) _) _)
    (.cons (.index (hx _) ?_ _) (.cons (.index (hx _) ?_ _)
      (.cons (var_gives layout (by decide) (by decide) _) .nil)))
  · exact besides_gives layout (by decide) (by decide) (by decide) (by decide) _ _
  · exact besides_gives layout (by decide) (by decide) (by decide) (by decide) _ _

theorem startTree_gives : (startTree.lower c).Gives (startCode c.outer?) :=
  .binary (by decide) (by decide) (var_gives layout (by decide) (by decide) _)
    (var_gives layout (by decide) (by decide) _) _

include linked in
theorem nextBlock_gives : (Block.lower c (nextBlock hook)).Gives (nextSteps c.outer? t) := by
  have hstart := Lower.Gives.bindName (n := ⟨"start", ⟨782, 787⟩⟩) (startTree_gives layout)
    ⟨778, 797⟩
  have hslot : c.slot "start" = 4 := slot_eq layout (by decide)
  rw [hslot] at hstart
  exact .block (.lowerAll_cons hstart (.lowerAll_cons
    (.assignTuple (.call (.target (linked _)) (nextArguments_gives layout))
      (nextPlaces_gives layout) _) .lowerAll_nil)) _

include len

theorem lastTree_gives : (lastTree.lower c).Gives (lastCode c.outer?) :=
  .binary (by decide) (by decide)
    (.call (.target (len _)) (.cons (var_gives layout (by decide) (by decide) _) .nil)) (.num _ _) _

include linked

/-- Where the length and the hook are linked at once, the body becomes these steps. -/
theorem body_gives : (Block.lower c (body hook)).Gives (steps c.outer? t) := by
  have hresult := Lower.Gives.bindName (n := ⟨"result", ⟨588, 594⟩⟩) (undefinedTree_gives layout)
    ⟨584, 625⟩
  have hstate := Lower.Gives.bindName (n := ⟨"state", ⟨634, 639⟩⟩) (emptyTree_gives (c := c))
    ⟨630, 656⟩
  have hcall : ((Expr.call ⟨hook, []⟩ ⟨689, 694⟩ firstArguments ⟨689, 734⟩).lower c).Gives
      (t.code (firstCodes c.outer?) ⟨689, 734⟩) :=
    .call (.target (linked _)) (firstArguments_gives layout)
  have hfirst := Lower.Gives.assignTuple hcall (firstPlaces_gives layout) ⟨662, 734⟩
  have hfrom : ((besides .add "win" ⟨748, 751⟩ ⟨754, 755⟩).lower c).Gives
      (besidesCode .add 1 "win" c.outer? ⟨748, 751⟩ ⟨754, 755⟩) :=
    besides_gives layout (by decide) (by decide) (by decide) (by decide) _ _
  have hloop := Lower.Gives.forRange (v := ⟨"i", ⟨743, 744⟩⟩) hfrom (lastTree_gives layout len)
    (nextBlock_gives layout linked) ⟨739, 887⟩
  have hcounter : c.slot "i" = 2 := slot_eq layout (by decide)
  rw [result_slot layout] at hresult
  rw [state_slot layout] at hstate
  rw [hcounter] at hloop
  exact .blockTail (.lowerAll_cons hresult (.lowerAll_cons hstate (.lowerAll_cons hfirst
    (.lowerAll_cons hloop .lowerAll_nil)))) (var_gives layout (by decide) (by decide) _) _

end

/-! ## What it does -/

section

variable {outer : String → Option Value} {hook : Compile.Target} {fuel : Nat} {x : Array Float}
  {win : Nat} {y : Nat → Float}

/-- What the slots hold before the first window. -/
def slotsBefore (x : Array Float) (win : Nat) : Slots :=
  #[some (.array x), some (.num (.ofNat win)), none,
    some (.array (Array.replicate x.size Decimal.undefinedNumber)), none, some (.array #[])]

/-- What the slots hold after the first window and `k` rounds. -/
def slotsAt (x : Array Float) (win : Nat) (y : Nat → Float) (k : Nat) : Slots :=
  #[some (.array x), some (.num (.ofNat win)),
    if k = 0 then none else some (.num (.ofNat (win + k))),
    some (.array (windowedUpTo y x.size win (k + 1))),
    if k = 0 then none else some (.num (.ofNat k)), some (.array #[])]

/-- The call of the hook with window `k`: with the element that enters it and the one that left. -/
def windowCall (hook : Compile.Target) (x : Array Float) (win k : Nat) : LinkedCall :=
  ⟨hook, [.array (x.extract k (win + k)), .num (x.getD (win + k - 1) 0),
    .num (if k = 0 then Decimal.undefinedNumber else x.getD (k - 1) 0), .array #[]]⟩

/-- The hook gives the number of every window, and the state as it was. -/
def Threads (hook : Compile.Target) (fuel : Nat) (x : Array Float) (win : Nat) (y : Nat → Float) :
    Prop :=
  ∀ k, win + k ≤ x.size → hook.run fuel (windowCall hook x win k).args =
    .ok (.tuple [.num (y k), .array #[]])

/-- The number of the next window is stored at its end, and the state as it is. -/
theorem stores_does {n k : Nat} {s : Slots} (hwin : 1 ≤ win) (hk : win + k ≤ x.size)
    (hsize : x.size + 1 < 2 ^ 53) (hend : s.getD n none = some (.num (.ofNat (win + k))))
    (hresult : s.getD 3 none = some (.array (windowedUpTo y x.size win k))) (name : String)
    (nameSpan oneSpan span : Span) :
    (Store.recordAll fuel
      [.element 3 "result" (outer "result") (besidesCode .sub n name outer nameSpan oneSpan) span,
        .slot 5] [.num (y k), .array #[]]).Does s ⟨⟩ []
      ((s.setIfInBounds 3 (some (.array (windowedUpTo y x.size win (k + 1))))).setIfInBounds 5
        (some (.array #[]))) := by
  have hat : Value.asIndex (.num (.ofNat (win + k - 1))) = .ok ((win + k - 1 : Nat) : Int) :=
    Value.asIndex_ofNat (by omega)
  refine Store.recordAll_cons_does (Store.element_does
    (besidesCode_sub_does hend (by omega) (by omega) _ _ _) hat hresult ?_ _ _ _)
    (Store.recordAll_cons_does (Store.slot_does _ _ _ _) (Store.recordAll_nil_does _ _))
  rw [windowedUpTo_succ hwin]
  exact Value.store_natCast (by rw [size_windowedUpTo]; omega) _

variable (outer x win) in
/-- The result is undefined at first. -/
theorem resultStep_does :
    ((Step.bind 3 (undefinedCode outer)).record fuel).Does
      #[some (.array x), some (.num (.ofNat win)), none, none, none, none] .next
      [⟨.native .fullLike, [.array x, .num Decimal.undefinedNumber]⟩]
      #[some (.array x), some (.num (.ofNat win)), none,
        some (.array (Array.replicate x.size Decimal.undefinedNumber)), none, none] :=
  Step.bind_does (Code.native_does (Code.recordAll_cons_does (Code.slot_does rfl _ _ _)
    (Code.recordAll_cons_does (Code.constant_does _ _ _) (Code.recordAll_nil_does _))) rfl _) 3

variable (x win) in
/-- The state is empty at first. -/
theorem stateStep_does :
    ((Step.bind 5 emptyCode).record fuel).Does
      #[some (.array x), some (.num (.ofNat win)), none,
        some (.array (Array.replicate x.size Decimal.undefinedNumber)), none, none] .next
      [⟨.native .empty, [.num (.ofNat 0)]⟩] (slotsBefore x win) := by
  have hlength : Native.lengthOf (.num (.ofNat 0)) = .ok 0 := by
    rw [Native.lengthOf, Value.asIndex_ofNat (by decide)]
    rfl
  have hempty : Native.empty.call [.num (.ofNat 0)] = .ok (.array #[]) := by
    show (Native.lengthOf (.num (.ofNat 0)) >>= fun n =>
      Except.ok (Native.filled n Decimal.undefinedNumber)) = _
    rw [hlength]
    rfl
  exact Step.bind_does (Code.native_does (Code.recordAll_cons_does (Code.constant_does _ _ _)
    (Code.recordAll_nil_does _)) hempty _) 5

variable (outer fuel x) in
/-- The first window is cut out of the array, whether or not the array is that long. -/
theorem firstWindow_does (hwin : win < 2 ^ 53) :
    ((Code.slice (.slot 0 "x" (outer "x") ⟨695, 696⟩) (.constant (.num (.ofNat 0)) ⟨697, 698⟩)
      (.slot 1 "win" (outer "win") ⟨700, 703⟩) ⟨695, 704⟩).record fuel).Does (slotsBefore x win)
      (.array (x.extract 0 (Value.clamp win x.size))) [] (slotsBefore x win) :=
  Code.slice_does (Code.slot_does rfl _ _ _) (Code.constant_does _ _ _)
    (Value.asIndex_ofNat (n := 0) (by decide)) (Code.slot_does rfl _ _ _)
    (Value.asIndex_ofNat hwin) rfl _

variable (outer) in
/-- The slots after the first window. -/
theorem firstStep_does (hwin : 1 ≤ win) (hle : win ≤ x.size) (hsize : x.size + 1 < 2 ^ 53)
    (hy : Threads hook fuel x win y) :
    ((Step.assignAll (firstStores outer) (hook.code (firstCodes outer) ⟨689, 734⟩)
      ⟨662, 734⟩).record fuel).Does (slotsBefore x win) .next [windowCall hook x win 0]
      (slotsAt x win y 0) := by
  have hw : (slotsBefore x win).getD 1 none = some (.num (.ofNat win)) := rfl
  have hr : (slotsBefore x win).getD 3 none = some (.array (windowedUpTo y x.size win 0)) := by
    rw [windowedUpTo_zero]
    rfl
  have hargs : (Code.recordAll fuel (firstCodes outer)).Does (slotsBefore x win)
      (windowCall hook x win 0).args [] (slotsBefore x win) := by
    have hwindow := firstWindow_does outer fuel x (show win < 2 ^ 53 by omega)
    rw [Value.clamp_natCast hle] at hwindow
    refine Code.recordAll_cons_does hwindow (Code.recordAll_cons_does ?_ (Code.recordAll_cons_does
      (Code.constant_does _ _ _) (Code.recordAll_cons_does (Code.slot_does rfl _ _ _)
        (Code.recordAll_nil_does _))))
    exact Code.index_does (Code.slot_does rfl _ _ _)
      (besidesCode_sub_does hw hwin (by omega) _ _ _) (Value.asIndex_ofNat (by omega))
      (Value.index_natCast (by omega)) _
  have hcall := Compile.Target.code_does hargs (hy 0 hle) ⟨689, 734⟩
  have hslots : ((slotsBefore x win).setIfInBounds 3
      (some (.array (windowedUpTo y x.size win 1)))).setIfInBounds 5 (some (.array #[])) =
        slotsAt x win y 0 := rfl
  rw [← hslots]
  exact Step.assignAll_does hcall rfl (stores_does hwin (k := 0) hle hsize hw hr _ _ _ _) _

/-- What is reported where no window fits into the array: the first one has no last element. -/
def unfilled (x : Array Float) (win : Nat) : Fault :=
  .report ((Value.outOfBounds (win - 1 : Nat) x.size).orSpan ⟨706, 716⟩)

variable (outer hook) in
/-- The first window is looked at, however short the array is. -/
theorem firstStep_fails (hlt : x.size < win) (hwin : win < 2 ^ 53) :
    ((Step.assignAll (firstStores outer) (hook.code (firstCodes outer) ⟨689, 734⟩)
      ⟨662, 734⟩).record fuel).Fails (slotsBefore x win) (unfilled x win) := by
  have hw : (slotsBefore x win).getD 1 none = some (.num (.ofNat win)) := rfl
  have hlast : (Value.array x).index (win - 1 : Nat) =
      .error (Value.outOfBounds (win - 1 : Nat) x.size) := Value.index_natCast_of_le (by omega)
  refine Step.assignAll_fails (Compile.Target.code_fails (Code.recordAll_cons_after
    (firstWindow_does outer _ x hwin) (Code.recordAll_cons_fails ?_ _)) _) _ _
  exact Code.index_fails (Code.slot_does rfl _ _ _)
    (besidesCode_sub_does hw (by omega) hwin _ _ _) (Value.asIndex_ofNat (by omega)) hlast _

/-- One round calls the hook once, with the next window. -/
theorem nextSteps_does {k : Nat} (hwin : 1 ≤ win) (hk : win + (k + 1) ≤ x.size)
    (hsize : x.size + 1 < 2 ^ 53) (hy : Threads hook fuel x win y) :
    ((nextSteps outer hook).record fuel).Does
      ((slotsAt x win y k).setIfInBounds 2 (some (.num (Float.ofInt ((win + 1 : Nat) + k)))))
      .next [windowCall hook x win (k + 1)] (slotsAt x win y (k + 1)) := by
  have hcounter : (.num (Float.ofInt ((win + 1 : Nat) + k)) : Value) =
      .num (.ofNat (win + (k + 1))) := by
    rw [← Int.natCast_add, show win + 1 + k = win + (k + 1) by omega]
    rfl
  rw [hcounter]
  generalize hs : (slotsAt x win y k).setIfInBounds 2 (some (.num (.ofNat (win + (k + 1))))) = s
  have hw : s.getD 1 none = some (.num (.ofNat win)) := by rw [← hs]; rfl
  have hi : s.getD 2 none = some (.num (.ofNat (win + (k + 1)))) := by rw [← hs]; rfl
  have hstart : ((startCode outer).record fuel).Does s (.num (.ofNat (k + 1))) [] s := by
    refine Code.binary_does (Code.slot_does hi _ _ _) (Code.slot_does hw _ _ _) ?_ _
    show Except.ok (Value.num (Float.ofNat (win + (k + 1)) - Float.ofNat win)) = _
    rw [Whole.ofNat_sub (by omega) (by omega), Nat.add_sub_cancel_left]
  generalize ht : s.setIfInBounds 4 (some (.num (.ofNat (k + 1)))) = t
  -- what the rest of the round finds: the start of the window is told as well
  have hx : t.getD 0 none = some (.array x) := by rw [← ht, ← hs]; rfl
  have hi : t.getD 2 none = some (.num (.ofNat (win + (k + 1)))) := by rw [← ht, ← hs]; rfl
  have hr : t.getD 3 none = some (.array (windowedUpTo y x.size win (k + 1))) := by
    rw [← ht, ← hs]
    rfl
  have hk' : t.getD 4 none = some (.num (.ofNat (k + 1))) := by rw [← ht, ← hs]; rfl
  have hstate : t.getD 5 none = some (.array #[]) := by rw [← ht, ← hs]; rfl
  have hargs : (Code.recordAll fuel (nextCodes outer)).Does t (windowCall hook x win (k + 1)).args
      [] t := by
    refine Code.recordAll_cons_does ?_ (Code.recordAll_cons_does ?_ (Code.recordAll_cons_does ?_
      (Code.recordAll_cons_does (Code.slot_does hstate _ _ _) (Code.recordAll_nil_does t))))
    · exact Code.slice_does (Code.slot_does hx _ _ _) (Code.slot_does hk' _ _ _)
        (Value.asIndex_ofNat (by omega)) (Code.slot_does hi _ _ _)
        (Value.asIndex_ofNat (by omega)) (Value.slice_natCast (by omega) hk) _
    · exact Code.index_does (Code.slot_does hx _ _ _)
        (besidesCode_sub_does hi (by omega) (by omega) _ _ _) (Value.asIndex_ofNat (by omega))
        (Value.index_natCast (by omega)) _
    · exact Code.index_does (Code.slot_does hx _ _ _)
        (besidesCode_sub_does hk' (by omega) (by omega) _ _ _) (Value.asIndex_ofNat (by omega))
        (Value.index_natCast (by omega)) _
  have hcall := Compile.Target.code_does hargs (hy (k + 1) hk) ⟨832, 881⟩
  have hslots : (t.setIfInBounds 3 (some (.array
      (windowedUpTo y x.size win (k + 1 + 1))))).setIfInBounds 5 (some (.array #[])) =
        slotsAt x win y (k + 1) := by
    rw [← ht, ← hs]
    rfl
  have hstores : (Store.recordAll fuel (nextStores outer) [.num (y (k + 1)), .array #[]]).Does t ⟨⟩
      [] ((t.setIfInBounds 3 (some (.array (windowedUpTo y x.size win (k + 1 + 1))))).setIfInBounds
        5 (some (.array #[]))) := stores_does hwin hk hsize hi hr _ _ _ _
  have hassign := Step.assignAll_does hcall rfl hstores ⟨807, 881⟩
  have hbind := Step.bind_does hstart 4
  rw [ht] at hbind
  rw [← hslots, nextSteps, Steps.record]
  exact Step.recordAll_cons_does hbind
    (Step.recordAll_cons_does hassign (Step.recordAll_nil_does _))

/-- The calls of the pass: those that make the result and the first state, the hook with the first
window, the length, and the hook with every other window. -/
def calls (hook : Compile.Target) (x : Array Float) (win : Nat) : List LinkedCall :=
  [⟨.native .fullLike, [.array x, .num Decimal.undefinedNumber]⟩,
    ⟨.native .empty, [.num (.ofNat 0)]⟩, windowCall hook x win 0, ⟨.native .len, [.array x]⟩] ++
      (List.range (x.size - win)).map fun k => windowCall hook x win (k + 1)

theorem steps_does (hwin : 1 ≤ win) (hle : win ≤ x.size) (hsize : x.size + 1 < 2 ^ 53)
    (hy : Threads hook fuel x win y) :
    ((steps outer hook).recordValue fuel).Does
      #[some (.array x), some (.num (.ofNat win)), none, none, none, none]
      (.array (windowedUpTo y x.size win (x.size + 1 - win))) (calls hook x win)
      (slotsAt x win y (x.size - win)) := by
  have hlast : ((lastCode outer).record fuel).Does (slotsAt x win y 0)
      (.num (.ofNat (x.size + 1))) [⟨.native .len, [.array x]⟩] (slotsAt x win y 0) := by
    refine Code.binary_does (Code.native_does (v := .num (.ofNat x.size))
      (Code.recordAll_cons_does (Code.slot_does rfl _ _ _) (Code.recordAll_nil_does _)) rfl _)
      (Code.constant_does _ _ _) ?_ _
    show Except.ok (Value.num (Float.ofNat x.size + Float.ofNat 1)) = _
    rw [Whole.ofNat_add hsize]
  have hloop : (Recorder.forLoop 2 ((nextSteps outer hook).record fuel)
      ((x.size + 1 : Nat) - (win + 1 : Nat) : Int).toNat (win + 1 : Nat)).Does (slotsAt x win y 0)
      .next ((List.range (x.size - win)).map fun k => windowCall hook x win (k + 1))
      (slotsAt x win y (x.size - win)) := by
    rw [Int.toNat_sub, Nat.add_sub_add_right, ← List.flatMap_singleton' ((List.range _).map _),
      List.flatMap_map]
    exact .forLoop _ _ fun k hk => nextSteps_does hwin (by omega) hsize hy
  have hfrom : ((besidesCode .add 1 "win" outer ⟨748, 751⟩ ⟨754, 755⟩).record fuel).Does
      (slotsAt x win y 0) (.num (.ofNat (win + 1))) [] (slotsAt x win y 0) :=
    besidesCode_add_does rfl (by omega) _ _ _
  have hrounds := Step.forRange_does hfrom (Value.asIndex_ofNat (by omega)) hlast
    (Value.asIndex_ofNat hsize) hloop
  have hrest := Step.recordAll_cons_does hrounds (Step.recordAll_nil_does _)
  rw [List.append_nil] at hrest
  have hall := Step.recordAll_cons_does (resultStep_does outer x win)
    (Step.recordAll_cons_does (stateStep_does x win)
      (Step.recordAll_cons_does (firstStep_does outer hwin hle hsize hy) hrest))
  rw [Nat.succ_sub hle]
  exact Steps.recordValue_does hall (Code.slot_does rfl _ _ _)

theorem steps_fails (hlt : x.size < win) (hwin : win < 2 ^ 53) :
    ((steps outer hook).recordValue fuel).Fails
      #[some (.array x), some (.num (.ofNat win)), none, none, none, none] (unfilled x win) :=
  Steps.recordValue_fails (Step.recordAll_cons_after (resultStep_does outer x win)
    (Step.recordAll_cons_after (stateStep_does x win)
      (Step.recordAll_cons_fails (firstStep_fails outer hook hlt hwin) _))) _

end

end Stateful

end CorePasses

end Graft
