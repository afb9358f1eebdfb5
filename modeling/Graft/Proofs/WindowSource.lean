import Graft.Proofs.Extraction
import Graft.Proofs.PassSources
import Mathlib

/-!
# The source of the pass over windows

What the text of its module is read as, and how it is bound when the text is loaded.
-/

namespace Graft

namespace CorePasses

/-! ## The definition -/

/-- `array.full_like(x, math.nan)` -/
def undefinedTree : Expr :=
  .call ⟨"array", ["full_like"]⟩ ⟨300, 315⟩
    [.var "x" ⟨316, 317⟩, .path ⟨"math", ["nan"]⟩ ⟨319, 327⟩] ⟨300, 328⟩

/-- `len(x) + 1` -/
def lastTree : Expr :=
  .binary .add (.call ⟨"len", []⟩ ⟨347, 350⟩ [.var "x" ⟨351, 352⟩] ⟨347, 353⟩)
    (.num (.ofNat 1) ⟨356, 357⟩) ⟨347, 357⟩

/-- `x[i - win..i]` -/
def windowTree : Expr :=
  .slice (.var "x" ⟨390, 391⟩)
    (.binary .sub (.var "i" ⟨392, 393⟩) (.var "win" ⟨396, 399⟩) ⟨392, 399⟩)
    (.var "i" ⟨401, 402⟩) ⟨390, 403⟩

/-- `result[i - 1]` -/
def windowPlace : Place :=
  .index ⟨"result", ⟨368, 374⟩⟩
    (.binary .sub (.var "i" ⟨375, 376⟩) (.num (.ofNat 1) ⟨379, 380⟩) ⟨375, 380⟩) ⟨368, 381⟩

/-- The round of one window, whose hook is called under the name `hook`. -/
def windowBlock (hook : String) : Block :=
  .mk [.assign windowPlace (.call ⟨hook, []⟩ ⟨384, 389⟩ [windowTree] ⟨384, 404⟩) ⟨368, 404⟩] none
    ⟨358, 410⟩

/-- The body of the pass over windows. -/
def windowedBody (hook : String) : Block :=
  .mk
    [.bind (.name ⟨"result", ⟨291, 297⟩⟩) undefinedTree ⟨287, 328⟩,
      .forRange ⟨"i", ⟨337, 338⟩⟩ (.var "win" ⟨342, 345⟩) lastTree (windowBlock hook) ⟨333, 410⟩]
    (some (.var "result" ⟨415, 421⟩)) ⟨281, 423⟩

/-- The definition of the pass over windows. -/
def windowedDefinition : Definition where
  markers := [⟨"fs", ⟨252, 255⟩⟩]
  name := ⟨"windowed_pass", ⟨259, 272⟩⟩
  params := [⟨"x", ⟨273, 274⟩⟩, ⟨"win", ⟨276, 279⟩⟩]
  body := windowedBody "value"

/-- Where it stands in its text. -/
def windowedSpan : Span := ⟨252, 423⟩

/-- The tokens of the definition. -/
def windowedTokens : List Lexeme := [
  ⟨.mark .atSign, ⟨252, 253⟩⟩, ⟨.name "fs", ⟨253, 255⟩⟩, ⟨.word .fnWord, ⟨256, 258⟩⟩,
  ⟨.name "windowed_pass", ⟨259, 272⟩⟩, ⟨.mark .openParen, ⟨272, 273⟩⟩, ⟨.name "x", ⟨273, 274⟩⟩,
  ⟨.mark .comma, ⟨274, 275⟩⟩, ⟨.name "win", ⟨276, 279⟩⟩, ⟨.mark .closeParen, ⟨279, 280⟩⟩,
  ⟨.mark .openBrace, ⟨281, 282⟩⟩, ⟨.word .letWord, ⟨287, 290⟩⟩, ⟨.name "result", ⟨291, 297⟩⟩,
  ⟨.mark .assign, ⟨298, 299⟩⟩, ⟨.name "array", ⟨300, 305⟩⟩, ⟨.mark .dot, ⟨305, 306⟩⟩,
  ⟨.name "full_like", ⟨306, 315⟩⟩, ⟨.mark .openParen, ⟨315, 316⟩⟩, ⟨.name "x", ⟨316, 317⟩⟩,
  ⟨.mark .comma, ⟨317, 318⟩⟩, ⟨.name "math", ⟨319, 323⟩⟩, ⟨.mark .dot, ⟨323, 324⟩⟩,
  ⟨.name "nan", ⟨324, 327⟩⟩, ⟨.mark .closeParen, ⟨327, 328⟩⟩, ⟨.word .forWord, ⟨333, 336⟩⟩,
  ⟨.name "i", ⟨337, 338⟩⟩, ⟨.word .inWord, ⟨339, 341⟩⟩, ⟨.name "win", ⟨342, 345⟩⟩,
  ⟨.mark .dotDot, ⟨345, 347⟩⟩, ⟨.name "len", ⟨347, 350⟩⟩, ⟨.mark .openParen, ⟨350, 351⟩⟩,
  ⟨.name "x", ⟨351, 352⟩⟩, ⟨.mark .closeParen, ⟨352, 353⟩⟩, ⟨.mark .plus, ⟨354, 355⟩⟩,
  ⟨.number (.ofNat 1), ⟨356, 357⟩⟩, ⟨.mark .openBrace, ⟨358, 359⟩⟩, ⟨.name "result", ⟨368, 374⟩⟩,
  ⟨.mark .openBracket, ⟨374, 375⟩⟩, ⟨.name "i", ⟨375, 376⟩⟩, ⟨.mark .minus, ⟨377, 378⟩⟩,
  ⟨.number (.ofNat 1), ⟨379, 380⟩⟩, ⟨.mark .closeBracket, ⟨380, 381⟩⟩, ⟨.mark .assign, ⟨382, 383⟩⟩,
  ⟨.name "value", ⟨384, 389⟩⟩, ⟨.mark .openParen, ⟨389, 390⟩⟩, ⟨.name "x", ⟨390, 391⟩⟩,
  ⟨.mark .openBracket, ⟨391, 392⟩⟩, ⟨.name "i", ⟨392, 393⟩⟩, ⟨.mark .minus, ⟨394, 395⟩⟩,
  ⟨.name "win", ⟨396, 399⟩⟩, ⟨.mark .dotDot, ⟨399, 401⟩⟩, ⟨.name "i", ⟨401, 402⟩⟩,
  ⟨.mark .closeBracket, ⟨402, 403⟩⟩, ⟨.mark .closeParen, ⟨403, 404⟩⟩,
  ⟨.mark .closeBrace, ⟨409, 410⟩⟩, ⟨.name "result", ⟨415, 421⟩⟩, ⟨.mark .closeBrace, ⟨422, 423⟩⟩]

deriving instance DecidableEq for Token

deriving instance DecidableEq for Lexeme

/-! ## The text -/

/-- The hook of the pass over windows: the newest element. -/
def hookDefinition : Definition where
  name := ⟨"value", ⟨220, 225⟩⟩
  params := [⟨"x", ⟨226, 227⟩⟩]
  body := .mk []
    (some (.index (.var "x" ⟨235, 236⟩)
      (.binary .sub (.call ⟨"len", []⟩ ⟨237, 240⟩ [.var "x" ⟨241, 242⟩] ⟨237, 243⟩)
        (.num (.ofNat 1) ⟨246, 247⟩) ⟨237, 247⟩) ⟨235, 248⟩)) ⟨229, 250⟩

def hookTokens : List Lexeme := [
  ⟨.word .fnWord, ⟨217, 219⟩⟩, ⟨.name "value", ⟨220, 225⟩⟩, ⟨.mark .openParen, ⟨225, 226⟩⟩,
  ⟨.name "x", ⟨226, 227⟩⟩, ⟨.mark .closeParen, ⟨227, 228⟩⟩, ⟨.mark .openBrace, ⟨229, 230⟩⟩,
  ⟨.name "x", ⟨235, 236⟩⟩, ⟨.mark .openBracket, ⟨236, 237⟩⟩, ⟨.name "len", ⟨237, 240⟩⟩,
  ⟨.mark .openParen, ⟨240, 241⟩⟩, ⟨.name "x", ⟨241, 242⟩⟩, ⟨.mark .closeParen, ⟨242, 243⟩⟩,
  ⟨.mark .minus, ⟨244, 245⟩⟩, ⟨.number (.ofNat 1), ⟨246, 247⟩⟩, ⟨.mark .closeBracket, ⟨247, 248⟩⟩,
  ⟨.mark .closeBrace, ⟨249, 250⟩⟩]

theorem scan_windowedPass :
    (Scan.text windowedPass).tokens = hookTokens ++ windowedTokens ∧
      (Scan.text windowedPass).diagnostics.isEmpty = true ∧
      (Scan.text windowedPass).stop = ⟨424, 424⟩ := by
  decide +kernel

set_option maxRecDepth 10000 in
theorem parse_hook_windowed : Parse.tokens (hookTokens ++ windowedTokens) ⟨424, 424⟩ =
    .ok ⟨[.function hookDefinition ⟨217, 250⟩, .function windowedDefinition windowedSpan]⟩ := by
  rw [hookTokens, hookDefinition, windowedTokens, windowedDefinition, windowedBody, windowedSpan,
    windowBlock, windowTree, windowPlace, undefinedTree, lastTree]
  generalize Float.ofNat 1 = one
  cbv

theorem parse_windowedPass : Program.parse windowedPass =
    .ok ⟨[.function hookDefinition ⟨217, 250⟩, .function windowedDefinition windowedSpan]⟩ := by
  obtain ⟨htokens, hdiagnostics, hstop⟩ := scan_windowedPass
  rw [Program.parse, Program.ofScan, if_pos hdiagnostics, htokens, hstop, parse_hook_windowed]

/-! ## Loading -/

/-- The text of the module of the pass. -/
def windowedText : SourceText := ⟨Module.fileName "windowed_pass", windowedPass⟩

/-- The pass over windows, as it stands in its text. -/
def windowedSource : PassSource where
  name := "windowed_pass"
  source := windowedPass
  hook := hookDefinition
  hookSpan := ⟨217, 250⟩
  definition := windowedDefinition
  span := windowedSpan
  parse := parse_windowedPass
  ofScan := (Program.ofScan_part parse_windowedPass (List.mem_cons_of_mem _ List.mem_cons_self)).2
  hookName := rfl
  hookPlain := rfl
  passName := rfl
  passMarked := rfl
  name_ne_value := by decide
  name_ne_len := by decide

section

variable (w : World)

/-- The hook, as it is bound next to the pass. -/
def loadedHook : Function :=
  .build (w.nextId + 1) hookDefinition (.source windowedText ⟨217, 250⟩) w.nextId []

/-- The pass, as it is bound. -/
def loadedPass : Gateway where
  id := w.nextId + 3
  function :=
    .build (w.nextId + 2) windowedDefinition (.source windowedText windowedSpan) w.nextId []

/-- The module of the pass. -/
def loadedModule : Module := { name := "windowed_pass", home := w.nextId, sources := [windowedText] }

/-- The world after the module was loaded. -/
def afterLoad : World :=
  ({ (w.addNamespace "windowed_pass").2 with nextId := w.nextId + 4 }.define w.nextId "value"
    (.callable (.function (loadedHook w)))).define w.nextId "windowed_pass"
      (.callable (.gateway (loadedPass w)))

theorem load_windowedPass :
    Module.load "windowed_pass" windowedPass w = (.ok (.ok (loadedModule w)), afterLoad w) :=
  windowedSource.load w

end

/-- The function is the pass over windows as it was loaded: its source is that of the core pass, its
hook is bound where it was loaded, and the length is the builtin one. -/
structure Windowed (w : World) (f : Function) : Prop where
  origin : f.origin = .source windowedText windowedSpan
  definition : f.definition = windowedDefinition
  hook : (w.lookup f.home "value").isSome
  len : w.lookup f.home "len" = none

theorem windowed_iff_bound {w : World} {f : Function} : Windowed w f ↔ windowedSource.Bound w f :=
  ⟨fun h => ⟨h.origin, h.definition, h.hook, h.len⟩,
    fun h => ⟨h.origin, h.definition, h.hook, h.len⟩⟩

theorem windowed_afterLoad (w : World) : Windowed (afterLoad w) (loadedPass w).function :=
  windowed_iff_bound.mpr (windowedSource.bound_afterLoad w)

/-- Loading the source of the core pass gives a module whose gateway is the pass over windows. -/
theorem load_windowed (w : World) :
    ∃ m v g, Module.load "windowed_pass" windowedPass w = (.ok (.ok m), v) ∧
      m.gateway "windowed_pass" v = (.ok g, v) ∧ Windowed v g.function := by
  obtain ⟨m, v, g, hload, hgateway, hbound⟩ := windowedSource.exists_load w
  exact ⟨m, v, g, hload, hgateway, windowed_iff_bound.mpr hbound⟩

end CorePasses

end Graft
