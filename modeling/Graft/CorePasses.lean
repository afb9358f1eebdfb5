import Graft.Module

/-!
# Core passes

Three loops over arrays that come with the library. Each is a gateway that calls a hook `value`,
bound next to it, for every element or window; who wants another loop body overrides the hook. Every
pass has a module of its own, since each binds a hook of its own.
-/

namespace Graft

/-- The core passes, loaded. -/
structure CorePasses where
  modules : List Module
  deriving Inhabited

namespace CorePasses

/-! ## Sources -/

/-- A text of the given lines. -/
def lines (ls : List String) : String := String.join (ls.map (· ++ "\n"))

/-- Maps every element. -/
def singlePass : String := lines [
  "// One iteration over the elements of `x`, mapping each through `value`.",
  "//",
  "//     single_pass(data, value=square)",
  "",
  "fn value(x) \x7b",
  "    x",
  "\x7d",
  "",
  "@fs",
  "fn single_pass(x) \x7b",
  "    let result = array.zeros_like(x)",
  "    for i in 0..len(x) \x7b",
  "        result[i] = value(x[i])",
  "    \x7d",
  "    result",
  "\x7d"]

/-- Maps every window of a fixed size. -/
def windowedPass : String := lines [
  "// Fixed-size rolling window over `x`. The first `win - 1` outputs are",
  "// NaN; output `i` is `value` of the window ending at element `i`.",
  "//",
  "//     windowed_pass(data, 5, value=mean)",
  "",
  "// Newest element of the window.",
  "fn value(x) \x7b",
  "    x[len(x) - 1]",
  "\x7d",
  "",
  "@fs",
  "fn windowed_pass(x, win) \x7b",
  "    let result = array.full_like(x, math.nan)",
  "    for i in win..len(x) + 1 \x7b",
  "        result[i - 1] = value(x[i - win..i])",
  "    \x7d",
  "    result",
  "\x7d"]

/-- Maps every window of a fixed size, with a state that goes from one to the next. -/
def windowedStatefulPass : String := lines [
  "// Rolling window that threads state through `value`, so a window can be",
  "// updated from the element entering it (`val_in`) and the one that just",
  "// left it (`val_out`) instead of being recomputed.",
  "//",
  "// `value(window, val_in, val_out, state)` returns `(result, state)`. The",
  "// state starts as an empty array; the first call sees `val_out = NaN`.",
  "// Arrays are values, so the returned state is rebound on every step.",
  "//",
  "//     windowed_stateful_pass(data, 4, value=rolling_sum)",
  "",
  "fn value(x, val_in, val_out, state) \x7b",
  "    (val_in, state)",
  "\x7d",
  "",
  "@fs",
  "fn windowed_stateful_pass(x, win) \x7b",
  "    let result = array.full_like(x, math.nan)",
  "    let state = array.empty(0);",
  "    (result[win - 1], state) = value(x[0..win], x[win - 1], math.nan, state)",
  "    for i in win + 1..len(x) + 1 \x7b",
  "        let start = i - win;",
  "        (result[i - 1], state) = value(x[start..i], x[i - 1], x[start - 1], state)",
  "    \x7d",
  "    result",
  "\x7d"]

/-! ## Loading -/

/-- The names of the passes, each with its source. -/
def sources : List (String × String) :=
  [("single_pass", singlePass), ("windowed_pass", windowedPass),
    ("windowed_stateful_pass", windowedStatefulPass)]

def loadAll : List (String × String) → Act (Module.Checked (List Module))
  | [] => return .ok []
  | (name, source) :: rest => do
    match ← Module.load name source with
    | .error reports => return .error reports
    | .ok m => return (← loadAll rest).map (m :: ·)

/-- Loads the passes. -/
def load : Act (Module.Checked CorePasses) := do return (← loadAll sources).map CorePasses.mk

def names (c : CorePasses) : List String := c.modules.map Module.name

def unknown (c : CorePasses) (name : String) : Diagnostic :=
  (Diagnostic.of .name ("`" ++ name ++ "` is not a core pass")).withHelp
    ("core passes are: " ++ String.intercalate ", " c.names)

def module? (c : CorePasses) (name : String) : Option Module :=
  c.modules.find? fun m => m.name = name

/-- The pass of that name. -/
def gateway (c : CorePasses) (name : String) : Act Gateway := do
  match c.module? name with
  | some m => m.gateway name
  | none => Run.fail (c.unknown name)

end CorePasses

end Graft
