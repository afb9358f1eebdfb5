import Graft.Proofs.WindowSource

/-!
# The source of the pass over windows that threads a state

What the text of its module is read as.
-/

namespace Graft

namespace CorePasses

/-! ## The definition -/

/-- A variable and one more, or one less. -/
def besides (op : BinaryOp) (name : String) (nameSpan oneSpan : Span) : Expr :=
  .binary op (.var name nameSpan) (.num (.ofNat 1) oneSpan) ⟨nameSpan.start, oneSpan.stop⟩

namespace Stateful

/-- `array.full_like(x, math.nan)` -/
def undefinedTree : Expr :=
  .call ⟨"array", ["full_like"]⟩ ⟨597, 612⟩
    [.var "x" ⟨613, 614⟩, .path ⟨"math", ["nan"]⟩ ⟨616, 624⟩] ⟨597, 625⟩

/-- `array.empty(0)` -/
def emptyTree : Expr :=
  .call ⟨"array", ["empty"]⟩ ⟨642, 653⟩ [.num (.ofNat 0) ⟨654, 655⟩] ⟨642, 656⟩

/-- `(result[win - 1], state)` -/
def firstPlaces : List Place :=
  [.index ⟨"result", ⟨663, 669⟩⟩ (besides .sub "win" ⟨670, 673⟩ ⟨676, 677⟩) ⟨663, 678⟩,
    .var "state" ⟨680, 685⟩]

/-- `x[0..win]`, `x[win - 1]`, `math.nan` and `state` -/
def firstArguments : List Expr :=
  [.slice (.var "x" ⟨695, 696⟩) (.num (.ofNat 0) ⟨697, 698⟩) (.var "win" ⟨700, 703⟩) ⟨695, 704⟩,
    .index (.var "x" ⟨706, 707⟩) (besides .sub "win" ⟨708, 711⟩ ⟨714, 715⟩) ⟨706, 716⟩,
    .path ⟨"math", ["nan"]⟩ ⟨718, 726⟩, .var "state" ⟨728, 733⟩]

/-- `len(x) + 1` -/
def lastTree : Expr :=
  .binary .add (.call ⟨"len", []⟩ ⟨757, 760⟩ [.var "x" ⟨761, 762⟩] ⟨757, 763⟩)
    (.num (.ofNat 1) ⟨766, 767⟩) ⟨757, 767⟩

/-- `i - win` -/
def startTree : Expr :=
  .binary .sub (.var "i" ⟨790, 791⟩) (.var "win" ⟨794, 797⟩) ⟨790, 797⟩

/-- `(result[i - 1], state)` -/
def nextPlaces : List Place :=
  [.index ⟨"result", ⟨808, 814⟩⟩ (besides .sub "i" ⟨815, 816⟩ ⟨819, 820⟩) ⟨808, 821⟩,
    .var "state" ⟨823, 828⟩]

/-- `x[start..i]`, `x[i - 1]`, `x[start - 1]` and `state` -/
def nextArguments : List Expr :=
  [.slice (.var "x" ⟨838, 839⟩) (.var "start" ⟨840, 845⟩) (.var "i" ⟨847, 848⟩) ⟨838, 849⟩,
    .index (.var "x" ⟨851, 852⟩) (besides .sub "i" ⟨853, 854⟩ ⟨857, 858⟩) ⟨851, 859⟩,
    .index (.var "x" ⟨861, 862⟩) (besides .sub "start" ⟨863, 868⟩ ⟨871, 872⟩) ⟨861, 873⟩,
    .var "state" ⟨875, 880⟩]

/-- The round of a window after the first one, whose hook is called under the name `hook`. -/
def nextBlock (hook : String) : Block :=
  .mk
    [.bind (.name ⟨"start", ⟨782, 787⟩⟩) startTree ⟨778, 797⟩,
      .assignTuple nextPlaces (.call ⟨hook, []⟩ ⟨832, 837⟩ nextArguments ⟨832, 881⟩) ⟨807, 881⟩]
    none ⟨768, 887⟩

/-- The body of the pass: the first window is looked at before the loop over the others. -/
def body (hook : String) : Block :=
  .mk
    [.bind (.name ⟨"result", ⟨588, 594⟩⟩) undefinedTree ⟨584, 625⟩,
      .bind (.name ⟨"state", ⟨634, 639⟩⟩) emptyTree ⟨630, 656⟩,
      .assignTuple firstPlaces (.call ⟨hook, []⟩ ⟨689, 694⟩ firstArguments ⟨689, 734⟩) ⟨662, 734⟩,
      .forRange ⟨"i", ⟨743, 744⟩⟩ (besides .add "win" ⟨748, 751⟩ ⟨754, 755⟩) lastTree
        (nextBlock hook) ⟨739, 887⟩]
    (some (.var "result" ⟨892, 898⟩)) ⟨578, 900⟩

/-- The definition of the pass. -/
def definition : Definition where
  markers := [⟨"fs", ⟨540, 543⟩⟩]
  name := ⟨"windowed_stateful_pass", ⟨547, 569⟩⟩
  params := [⟨"x", ⟨570, 571⟩⟩, ⟨"win", ⟨573, 576⟩⟩]
  body := body "value"

/-- Where it stands in its text. -/
def span : Span := ⟨540, 900⟩

/-- The tokens of the definition. -/
def tokens : List Lexeme := [
  ⟨.mark .atSign, ⟨540, 541⟩⟩, ⟨.name "fs", ⟨541, 543⟩⟩, ⟨.word .fnWord, ⟨544, 546⟩⟩,
  ⟨.name "windowed_stateful_pass", ⟨547, 569⟩⟩, ⟨.mark .openParen, ⟨569, 570⟩⟩,
  ⟨.name "x", ⟨570, 571⟩⟩, ⟨.mark .comma, ⟨571, 572⟩⟩, ⟨.name "win", ⟨573, 576⟩⟩,
  ⟨.mark .closeParen, ⟨576, 577⟩⟩, ⟨.mark .openBrace, ⟨578, 579⟩⟩, ⟨.word .letWord, ⟨584, 587⟩⟩,
  ⟨.name "result", ⟨588, 594⟩⟩, ⟨.mark .assign, ⟨595, 596⟩⟩, ⟨.name "array", ⟨597, 602⟩⟩,
  ⟨.mark .dot, ⟨602, 603⟩⟩, ⟨.name "full_like", ⟨603, 612⟩⟩, ⟨.mark .openParen, ⟨612, 613⟩⟩,
  ⟨.name "x", ⟨613, 614⟩⟩, ⟨.mark .comma, ⟨614, 615⟩⟩, ⟨.name "math", ⟨616, 620⟩⟩,
  ⟨.mark .dot, ⟨620, 621⟩⟩, ⟨.name "nan", ⟨621, 624⟩⟩, ⟨.mark .closeParen, ⟨624, 625⟩⟩,
  ⟨.word .letWord, ⟨630, 633⟩⟩, ⟨.name "state", ⟨634, 639⟩⟩, ⟨.mark .assign, ⟨640, 641⟩⟩,
  ⟨.name "array", ⟨642, 647⟩⟩, ⟨.mark .dot, ⟨647, 648⟩⟩, ⟨.name "empty", ⟨648, 653⟩⟩,
  ⟨.mark .openParen, ⟨653, 654⟩⟩, ⟨.number (.ofNat 0), ⟨654, 655⟩⟩, ⟨.mark .closeParen, ⟨655, 656⟩⟩,
  ⟨.mark .semicolon, ⟨656, 657⟩⟩, ⟨.mark .openParen, ⟨662, 663⟩⟩, ⟨.name "result", ⟨663, 669⟩⟩,
  ⟨.mark .openBracket, ⟨669, 670⟩⟩, ⟨.name "win", ⟨670, 673⟩⟩, ⟨.mark .minus, ⟨674, 675⟩⟩,
  ⟨.number (.ofNat 1), ⟨676, 677⟩⟩, ⟨.mark .closeBracket, ⟨677, 678⟩⟩, ⟨.mark .comma, ⟨678, 679⟩⟩,
  ⟨.name "state", ⟨680, 685⟩⟩, ⟨.mark .closeParen, ⟨685, 686⟩⟩, ⟨.mark .assign, ⟨687, 688⟩⟩,
  ⟨.name "value", ⟨689, 694⟩⟩, ⟨.mark .openParen, ⟨694, 695⟩⟩, ⟨.name "x", ⟨695, 696⟩⟩,
  ⟨.mark .openBracket, ⟨696, 697⟩⟩, ⟨.number (.ofNat 0), ⟨697, 698⟩⟩, ⟨.mark .dotDot, ⟨698, 700⟩⟩,
  ⟨.name "win", ⟨700, 703⟩⟩, ⟨.mark .closeBracket, ⟨703, 704⟩⟩, ⟨.mark .comma, ⟨704, 705⟩⟩,
  ⟨.name "x", ⟨706, 707⟩⟩, ⟨.mark .openBracket, ⟨707, 708⟩⟩, ⟨.name "win", ⟨708, 711⟩⟩,
  ⟨.mark .minus, ⟨712, 713⟩⟩, ⟨.number (.ofNat 1), ⟨714, 715⟩⟩, ⟨.mark .closeBracket, ⟨715, 716⟩⟩,
  ⟨.mark .comma, ⟨716, 717⟩⟩, ⟨.name "math", ⟨718, 722⟩⟩, ⟨.mark .dot, ⟨722, 723⟩⟩,
  ⟨.name "nan", ⟨723, 726⟩⟩, ⟨.mark .comma, ⟨726, 727⟩⟩, ⟨.name "state", ⟨728, 733⟩⟩,
  ⟨.mark .closeParen, ⟨733, 734⟩⟩, ⟨.word .forWord, ⟨739, 742⟩⟩, ⟨.name "i", ⟨743, 744⟩⟩,
  ⟨.word .inWord, ⟨745, 747⟩⟩, ⟨.name "win", ⟨748, 751⟩⟩, ⟨.mark .plus, ⟨752, 753⟩⟩,
  ⟨.number (.ofNat 1), ⟨754, 755⟩⟩, ⟨.mark .dotDot, ⟨755, 757⟩⟩, ⟨.name "len", ⟨757, 760⟩⟩,
  ⟨.mark .openParen, ⟨760, 761⟩⟩, ⟨.name "x", ⟨761, 762⟩⟩, ⟨.mark .closeParen, ⟨762, 763⟩⟩,
  ⟨.mark .plus, ⟨764, 765⟩⟩, ⟨.number (.ofNat 1), ⟨766, 767⟩⟩, ⟨.mark .openBrace, ⟨768, 769⟩⟩,
  ⟨.word .letWord, ⟨778, 781⟩⟩, ⟨.name "start", ⟨782, 787⟩⟩, ⟨.mark .assign, ⟨788, 789⟩⟩,
  ⟨.name "i", ⟨790, 791⟩⟩, ⟨.mark .minus, ⟨792, 793⟩⟩, ⟨.name "win", ⟨794, 797⟩⟩,
  ⟨.mark .semicolon, ⟨797, 798⟩⟩, ⟨.mark .openParen, ⟨807, 808⟩⟩, ⟨.name "result", ⟨808, 814⟩⟩,
  ⟨.mark .openBracket, ⟨814, 815⟩⟩, ⟨.name "i", ⟨815, 816⟩⟩, ⟨.mark .minus, ⟨817, 818⟩⟩,
  ⟨.number (.ofNat 1), ⟨819, 820⟩⟩, ⟨.mark .closeBracket, ⟨820, 821⟩⟩, ⟨.mark .comma, ⟨821, 822⟩⟩,
  ⟨.name "state", ⟨823, 828⟩⟩, ⟨.mark .closeParen, ⟨828, 829⟩⟩, ⟨.mark .assign, ⟨830, 831⟩⟩,
  ⟨.name "value", ⟨832, 837⟩⟩, ⟨.mark .openParen, ⟨837, 838⟩⟩, ⟨.name "x", ⟨838, 839⟩⟩,
  ⟨.mark .openBracket, ⟨839, 840⟩⟩, ⟨.name "start", ⟨840, 845⟩⟩, ⟨.mark .dotDot, ⟨845, 847⟩⟩,
  ⟨.name "i", ⟨847, 848⟩⟩, ⟨.mark .closeBracket, ⟨848, 849⟩⟩, ⟨.mark .comma, ⟨849, 850⟩⟩,
  ⟨.name "x", ⟨851, 852⟩⟩, ⟨.mark .openBracket, ⟨852, 853⟩⟩, ⟨.name "i", ⟨853, 854⟩⟩,
  ⟨.mark .minus, ⟨855, 856⟩⟩, ⟨.number (.ofNat 1), ⟨857, 858⟩⟩, ⟨.mark .closeBracket, ⟨858, 859⟩⟩,
  ⟨.mark .comma, ⟨859, 860⟩⟩, ⟨.name "x", ⟨861, 862⟩⟩, ⟨.mark .openBracket, ⟨862, 863⟩⟩,
  ⟨.name "start", ⟨863, 868⟩⟩, ⟨.mark .minus, ⟨869, 870⟩⟩, ⟨.number (.ofNat 1), ⟨871, 872⟩⟩,
  ⟨.mark .closeBracket, ⟨872, 873⟩⟩, ⟨.mark .comma, ⟨873, 874⟩⟩, ⟨.name "state", ⟨875, 880⟩⟩,
  ⟨.mark .closeParen, ⟨880, 881⟩⟩, ⟨.mark .closeBrace, ⟨886, 887⟩⟩, ⟨.name "result", ⟨892, 898⟩⟩,
  ⟨.mark .closeBrace, ⟨899, 900⟩⟩]

/-! ## The text -/

/-- The hook: the newest element, and the state as it is. -/
def hookDefinition : Definition where
  name := ⟨"value", ⟨482, 487⟩⟩
  params := [⟨"x", ⟨488, 489⟩⟩, ⟨"val_in", ⟨491, 497⟩⟩, ⟨"val_out", ⟨499, 506⟩⟩,
    ⟨"state", ⟨508, 513⟩⟩]
  body := .mk [] (some (.tuple [.var "val_in" ⟨522, 528⟩, .var "state" ⟨530, 535⟩] ⟨521, 536⟩))
    ⟨515, 538⟩

def hookTokens : List Lexeme := [
  ⟨.word .fnWord, ⟨479, 481⟩⟩, ⟨.name "value", ⟨482, 487⟩⟩, ⟨.mark .openParen, ⟨487, 488⟩⟩,
  ⟨.name "x", ⟨488, 489⟩⟩, ⟨.mark .comma, ⟨489, 490⟩⟩, ⟨.name "val_in", ⟨491, 497⟩⟩,
  ⟨.mark .comma, ⟨497, 498⟩⟩, ⟨.name "val_out", ⟨499, 506⟩⟩, ⟨.mark .comma, ⟨506, 507⟩⟩,
  ⟨.name "state", ⟨508, 513⟩⟩, ⟨.mark .closeParen, ⟨513, 514⟩⟩, ⟨.mark .openBrace, ⟨515, 516⟩⟩,
  ⟨.mark .openParen, ⟨521, 522⟩⟩, ⟨.name "val_in", ⟨522, 528⟩⟩, ⟨.mark .comma, ⟨528, 529⟩⟩,
  ⟨.name "state", ⟨530, 535⟩⟩, ⟨.mark .closeParen, ⟨535, 536⟩⟩, ⟨.mark .closeBrace, ⟨537, 538⟩⟩]

theorem scan_text :
    (Scan.text windowedStatefulPass).tokens = hookTokens ++ tokens ∧
      (Scan.text windowedStatefulPass).diagnostics.isEmpty = true ∧
      (Scan.text windowedStatefulPass).stop = ⟨901, 901⟩ := by
  decide +kernel

set_option maxRecDepth 10000 in
theorem parse_hook_tokens : Parse.tokens (hookTokens ++ tokens) ⟨901, 901⟩ =
    .ok ⟨[.function hookDefinition ⟨479, 538⟩, .function definition span]⟩ := by
  rw [hookTokens, hookDefinition, tokens, definition, body, span, nextBlock, nextArguments,
    nextPlaces, startTree, lastTree, firstArguments, firstPlaces, emptyTree, undefinedTree]
  simp only [besides]
  generalize Float.ofNat 1 = one
  generalize Float.ofNat 0 = zero
  cbv

theorem parse : Program.parse windowedStatefulPass =
    .ok ⟨[.function hookDefinition ⟨479, 538⟩, .function definition span]⟩ := by
  obtain ⟨htokens, hdiagnostics, hstop⟩ := scan_text
  rw [Program.parse, Program.ofScan, if_pos hdiagnostics, htokens, hstop, parse_hook_tokens]

/-- The pass, as it stands in its text. -/
def source : PassSource where
  name := "windowed_stateful_pass"
  source := windowedStatefulPass
  hook := hookDefinition
  hookSpan := ⟨479, 538⟩
  definition := definition
  span := span
  parse := parse
  ofScan := (Program.ofScan_part parse (List.mem_cons_of_mem _ List.mem_cons_self)).2
  hookName := rfl
  hookPlain := rfl
  passName := rfl
  passMarked := rfl
  name_ne_value := by decide
  name_ne_len := by decide

end Stateful

end CorePasses

end Graft
