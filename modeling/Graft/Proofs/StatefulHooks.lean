import Graft.Proofs.Hooks
import Graft.Proofs.StatefulWindows

/-!
# Hooks of both passes over windows

The pass over windows with a state can be given a hook that makes no use of the state. Where a window
fits into the array it gives what the pass without a state gives. Where none fits the pass without a
state gives an undefined result, while the one with a state looks at a first window all the same and
fails.
-/

namespace Graft

namespace CorePasses

/-- The pass over windows with a state, whose hook is called under any name. -/
def stateful : HookedPass where
  toPassSource := Stateful.source
  body := Stateful.body
  slots := ["x", "win", "i", "result", "start", "state"]
  steps := Stateful.steps
  renamed := by
    rw [Pass.renameCalls_eq]
    rfl
  called := .inr rfl
  layout := rfl
  gives := Stateful.body_gives

variable {w : World} {f g : Function} {debug : Bool} {plain threading : Callable}
  {x : Array Float} {win : Nat}

/-- The hook with a state gives for a window what the hook without one gives, whatever enters and
leaves, and the state as it was. -/
def Carries (w : World) (plain threading : Callable) (window : Array Float) : Prop :=
  ∃ y, (plain.call [.array window] w).1 = .ok (.num y) ∧
    ∀ entering leaving state,
      (threading.call [.array window, entering, leaving, state] w).1 =
        .ok (.tuple [.num y, state])

/-- The numbers that hooks make of the windows, told by where a window starts. -/
theorem exists_numbers
    (carries : ∀ k, win + k ≤ x.size → Carries w plain threading (x.extract k (win + k))) :
    ∃ y : Nat → Float, ∀ k, win + k ≤ x.size →
      (plain.call [.array (x.extract k (win + k))] w).1 = .ok (.num (y k)) ∧
        ∀ entering leaving state,
          (threading.call [.array (x.extract k (win + k)), entering, leaving, state] w).1 =
            .ok (.tuple [.num (y k), state]) := by
  have total : ∀ k, ∃ y, win + k ≤ x.size →
      (plain.call [.array (x.extract k (win + k))] w).1 = .ok (.num y) ∧
        ∀ entering leaving state,
          (threading.call [.array (x.extract k (win + k)), entering, leaving, state] w).1 =
            .ok (.tuple [.num y, state]) := fun k => by
    by_cases hk : win + k ≤ x.size
    · obtain ⟨y, hy⟩ := carries k hk
      exact ⟨y, fun _ => hy⟩
    · exact ⟨0, fun h => absurd h hk⟩
  choose y hy using total
  exact ⟨y, hy⟩

/-- The pass over windows, specialized with a hook that makes numbers of the windows. -/
theorem Suits.exists_windowed (suits : Suits w f debug plain) (windows : windowed.Bound w f)
    (positive : 1 ≤ win) (hwin : win < 2 ^ 53) (hsize : x.size + 1 < 2 ^ 53) {y : Nat → Float}
    (hy : ∀ k, win + k ≤ x.size →
      (plain.call [.array (x.extract k (win + k))] w).1 = .ok (.num (y k))) :
    ∃ a v, f.specialize [("value", plain)] debug w = (.ok a, v) ∧
      a.call ampleFuel [.array x, .num (.ofNat win)] =
        .ok (.array (windowedUpTo y x.size win (x.size + 1 - win))) := by
  obtain ⟨_, v, t, hf, hlinked, info, outer, rfl, hparams⟩ := suits.specialize_linked windows
  exact ⟨_, v, hf, Artifact.call_eq_ok hparams.symm
    (windowedSteps_does positive hsize hwin fun k hk => hlinked.run_eq_ok (hy k hk))⟩

/-- The pass with a state, specialized with a hook that makes numbers of the windows and gives the
state back. It fails if the array holds no window. -/
theorem Suits.exists_stateful (suits : Suits w g debug threading) (states : stateful.Bound w g)
    (positive : 1 ≤ win) (hwin : win < 2 ^ 53) (hsize : x.size + 1 < 2 ^ 53) {y : Nat → Float}
    (hy : ∀ k, win + k ≤ x.size → ∀ entering leaving state,
      (threading.call [.array (x.extract k (win + k)), entering, leaving, state] w).1 =
        .ok (.tuple [.num (y k), state])) :
    ∃ b v, g.specialize [("value", threading)] debug w = (.ok b, v) ∧
      (win ≤ x.size → b.call ampleFuel [.array x, .num (.ofNat win)] =
        .ok (.array (windowedUpTo y x.size win (x.size + 1 - win)))) ∧
      (x.size < win → b.call ampleFuel [.array x, .num (.ofNat win)] =
        .error (.report ((Value.outOfBounds (win - 1 : Nat) x.size).orSpan ⟨706, 716⟩))) := by
  obtain ⟨_, v, t, hg, hlinked, info, outer, rfl, hparams⟩ := suits.specialize_linked states
  refine ⟨_, v, hg, fun hle => ?_, fun hlt => ?_⟩
  · have threads : Stateful.Threads t ampleFuel x win y := fun k hk =>
      hlinked.run_eq_ok (hy k hk _ _ _)
    exact Artifact.call_eq_ok hparams.symm (Stateful.steps_does positive hle hsize threads)
  · exact Artifact.call_eq_error hparams.symm (Stateful.steps_fails hlt hwin)

/-- The pass over windows and the one with a state, specialized with hooks that make the same of
every window of the array. Where the array holds a window, both give the same array. Where it holds
none, the pass over windows gives an array that is undefined everywhere, and the pass with a state
reports that the last element of the first window is out of bounds. -/
theorem specialize_stateful (windows : windowed.Bound w f) (states : stateful.Bound w g)
    (suits : Suits w f debug plain) (suits' : Suits w g debug threading)
    (positive : 1 ≤ win) (hwin : win < 2 ^ 53) (hsize : x.size + 1 < 2 ^ 53)
    (carries : ∀ k, win + k ≤ x.size → Carries w plain threading (x.extract k (win + k))) :
    ∃ a b v v', f.specialize [("value", plain)] debug w = (.ok a, v) ∧
      g.specialize [("value", threading)] debug w = (.ok b, v') ∧
      (win ≤ x.size → ∃ r, a.call ampleFuel [.array x, .num (.ofNat win)] = .ok (.array r) ∧
        b.call ampleFuel [.array x, .num (.ofNat win)] = .ok (.array r)) ∧
      (x.size < win →
        a.call ampleFuel [.array x, .num (.ofNat win)] =
          .ok (.array (.replicate x.size Decimal.undefinedNumber)) ∧
        b.call ampleFuel [.array x, .num (.ofNat win)] =
          .error (.report ((Value.outOfBounds (win - 1 : Nat) x.size).orSpan ⟨706, 716⟩))) := by
  obtain ⟨y, hy⟩ := exists_numbers carries
  obtain ⟨a, v, hf, hcall⟩ :=
    suits.exists_windowed windows positive hwin hsize fun k hk => (hy k hk).1
  obtain ⟨b, v', hg, hlong, hshort⟩ :=
    suits'.exists_stateful states positive hwin hsize fun k hk => (hy k hk).2
  refine ⟨a, b, v, v', hf, hg, fun hle => ⟨_, hcall, hlong hle⟩, fun hlt => ⟨?_, hshort hlt⟩⟩
  rw [hcall, show x.size + 1 - win = 0 by omega, windowedUpTo_zero]

def rollText : SourceText :=
  ⟨"m.fst",
    "fn last(x) \x7b x[1] \x7d\nfn roll(x, entering, leaving, state) \x7b (x[1], state) \x7d\n"⟩

def lastDefinition : Definition where
  name := ⟨"last", ⟨3, 7⟩⟩
  params := [⟨"x", ⟨8, 9⟩⟩]
  body := .mk [] (some (.index (.var "x" ⟨13, 14⟩) (.num (.ofNat 1) ⟨15, 16⟩) ⟨13, 17⟩)) ⟨11, 19⟩

def rollDefinition : Definition where
  name := ⟨"roll", ⟨23, 27⟩⟩
  params := [⟨"x", ⟨28, 29⟩⟩, ⟨"entering", ⟨31, 39⟩⟩, ⟨"leaving", ⟨41, 48⟩⟩, ⟨"state", ⟨50, 55⟩⟩]
  body := .mk []
    (some (.tuple
      [.index (.var "x" ⟨60, 61⟩) (.num (.ofNat 1) ⟨62, 63⟩) ⟨60, 64⟩, .var "state" ⟨66, 71⟩]
      ⟨59, 72⟩)) ⟨57, 74⟩

/-- The second element of a window, without a state and with one that is given back. -/
def last : Function := .build 2 lastDefinition (.source rollText ⟨0, 19⟩) 1 []

def roll : Function := .build 3 rollDefinition (.source rollText ⟨20, 74⟩) 1 []

def rollTokens : List Lexeme :=
  [⟨.word .fnWord, ⟨0, 2⟩⟩, ⟨.name "last", ⟨3, 7⟩⟩, ⟨.mark .openParen, ⟨7, 8⟩⟩, ⟨.name "x", ⟨8, 9⟩⟩,
    ⟨.mark .closeParen, ⟨9, 10⟩⟩, ⟨.mark .openBrace, ⟨11, 12⟩⟩, ⟨.name "x", ⟨13, 14⟩⟩,
    ⟨.mark .openBracket, ⟨14, 15⟩⟩, ⟨.number (.ofNat 1), ⟨15, 16⟩⟩, ⟨.mark .closeBracket, ⟨16, 17⟩⟩,
    ⟨.mark .closeBrace, ⟨18, 19⟩⟩, ⟨.word .fnWord, ⟨20, 22⟩⟩, ⟨.name "roll", ⟨23, 27⟩⟩,
    ⟨.mark .openParen, ⟨27, 28⟩⟩, ⟨.name "x", ⟨28, 29⟩⟩, ⟨.mark .comma, ⟨29, 30⟩⟩,
    ⟨.name "entering", ⟨31, 39⟩⟩, ⟨.mark .comma, ⟨39, 40⟩⟩, ⟨.name "leaving", ⟨41, 48⟩⟩,
    ⟨.mark .comma, ⟨48, 49⟩⟩, ⟨.name "state", ⟨50, 55⟩⟩, ⟨.mark .closeParen, ⟨55, 56⟩⟩,
    ⟨.mark .openBrace, ⟨57, 58⟩⟩, ⟨.mark .openParen, ⟨59, 60⟩⟩, ⟨.name "x", ⟨60, 61⟩⟩,
    ⟨.mark .openBracket, ⟨61, 62⟩⟩, ⟨.number (.ofNat 1), ⟨62, 63⟩⟩, ⟨.mark .closeBracket, ⟨63, 64⟩⟩,
    ⟨.mark .comma, ⟨64, 65⟩⟩, ⟨.name "state", ⟨66, 71⟩⟩, ⟨.mark .closeParen, ⟨71, 72⟩⟩,
    ⟨.mark .closeBrace, ⟨73, 74⟩⟩]

theorem scan_rollText :
    (Scan.text rollText.text).tokens = rollTokens ∧
      (Scan.text rollText.text).diagnostics.isEmpty = true ∧
      (Scan.text rollText.text).stop = ⟨75, 75⟩ := by
  decide +kernel

set_option maxRecDepth 10000 in
theorem parse_rollTokens : Parse.tokens rollTokens ⟨75, 75⟩ =
    .ok ⟨[.function lastDefinition ⟨0, 19⟩, .function rollDefinition ⟨20, 74⟩]⟩ := by
  rw [rollTokens, lastDefinition, rollDefinition]
  generalize Float.ofNat 1 = one
  cbv

theorem parse_rollText : Program.parse rollText.text =
    .ok ⟨[.function lastDefinition ⟨0, 19⟩, .function rollDefinition ⟨20, 74⟩]⟩ := by
  obtain ⟨htokens, hdiagnostics, hstop⟩ := scan_rollText
  rw [Program.parse, Program.ofScan, if_pos hdiagnostics, htokens, hstop, parse_rollTokens]

theorem last_extract : last.extract = .ok ⟨[.function lastDefinition ⟨0, 19⟩]⟩ :=
  Function.extract_build parse_rollText List.mem_cons_self _ _ _

theorem roll_extract : roll.extract = .ok ⟨[.function rollDefinition ⟨20, 74⟩]⟩ :=
  Function.extract_build parse_rollText (List.mem_cons_of_mem _ List.mem_cons_self) _ _ _

theorem last_readsBack : last.ReadsBack := by
  intro unit hunit
  rw [last_extract] at hunit
  exact ⟨_, (Except.ok.inj hunit).symm⟩

theorem roll_readsBack : roll.ReadsBack := by
  intro unit hunit
  rw [roll_extract] at hunit
  exact ⟨_, (Except.ok.inj hunit).symm⟩

def rollBase : World where
  nextId := 4
  namespaces :=
    [(1, { name := "m"
           globals := [("last", .callable (.function last)), ("roll", .callable (.function roll))] })]

/-- Both passes are loaded next to the module with those hooks. -/
def rollWorld : World := stateful.afterLoad (windowed.afterLoad rollBase)

def rollWindows : Function := (windowed.loadedPass rollBase).function

def rollStates : Function := (stateful.loadedPass (windowed.afterLoad rollBase)).function

theorem rollWindows_bound : windowed.Bound rollWorld rollWindows := ⟨rfl, rfl, rfl, rfl⟩

theorem rollStates_bound : stateful.Bound rollWorld rollStates := stateful.bound_afterLoad _

theorem last_suits : Suits rollWorld rollWindows false (.function last) :=
  .of_leaf (by rw [last_extract]; rfl) last_readsBack rfl (fun _ => rfl) (by decide +kernel)

theorem roll_suits : Suits rollWorld rollStates false (.function roll) :=
  .of_leaf (by rw [roll_extract]; rfl) roll_readsBack rfl (fun _ => rfl) (by decide +kernel)

theorem roll_carries (y z : Float) :
    Carries rollWorld (.function last) (.function roll) #[y, z] :=
  ⟨z, rfl, fun _ _ _ => rfl⟩

theorem specialize_stateful_roll :
    ∃ a b v v',
      rollWindows.specialize [("value", .function last)] false rollWorld = (.ok a, v) ∧
      rollStates.specialize [("value", .function roll)] false rollWorld = (.ok b, v') ∧
      ∃ r, a.call ampleFuel [.array #[3, 1, 2], .num (.ofNat 2)] = .ok (.array r) ∧
        b.call ampleFuel [.array #[3, 1, 2], .num (.ofNat 2)] = .ok (.array r) := by
  obtain ⟨a, b, v, v', hf, hg, hsame, -⟩ :=
    @specialize_stateful rollWorld rollWindows rollStates false (.function last) (.function roll)
      #[3, 1, 2] 2 rollWindows_bound rollStates_bound last_suits roll_suits (by decide) (by decide)
      (by decide) fun k hk => by
        obtain rfl | rfl : k = 0 ∨ k = 1 := by
          change 2 + k ≤ 3 at hk
          omega
        · exact roll_carries 3 1
        · exact roll_carries 1 2
  exact ⟨a, b, v, v', hf, hg, hsame (by decide)⟩

/-- Of an array that is shorter than the window, the pass over windows makes one that is undefined
everywhere, while the pass with a state fails. -/
theorem specialize_not_stateful :
    windowed.Bound rollWorld rollWindows ∧ stateful.Bound rollWorld rollStates ∧
      (∃ a v, rollWindows.specialize [("value", .function last)] false rollWorld = (.ok a, v) ∧
        a.call ampleFuel [.array #[5], .num (.ofNat 2)] =
          .ok (.array #[Decimal.undefinedNumber])) ∧
      ∃ b v e, rollStates.specialize [("value", .function roll)] false rollWorld = (.ok b, v) ∧
        b.call ampleFuel [.array #[5], .num (.ofNat 2)] = .error e := by
  -- the array holds no window, so no number is made of one
  have none : ∀ k, 2 + k ≤ (#[5] : Array Float).size → False := fun k hk => by
    change 2 + k ≤ 1 at hk
    omega
  obtain ⟨a, v, hf, hcall⟩ := @Suits.exists_windowed rollWorld rollWindows false (.function last)
    #[5] 2 last_suits rollWindows_bound (by decide) (by decide) (by decide) (fun _ => 0)
    fun k hk => (none k hk).elim
  obtain ⟨b, v', hg, -, hshort⟩ := @Suits.exists_stateful rollWorld rollStates false
    (.function roll) #[5] 2 roll_suits rollStates_bound (by decide) (by decide) (by decide)
    (fun _ => 0) fun k hk => (none k hk).elim
  exact ⟨rollWindows_bound, rollStates_bound, ⟨a, v, hf, by rw [hcall]; rfl⟩,
    b, v', _, hg, hshort (by decide)⟩

end CorePasses

end Graft
