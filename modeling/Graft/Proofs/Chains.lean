import Graft.Proofs.Extraction
import Graft.Proofs.Heights
import Graft.Proofs.Layout
import Graft.Proofs.Precedence

/-!
# Chains of any length

However few levels there are, a chain of operators, of brackets or of `else if` is read to its end,
and each link puts one more node on top of the tree. So the height of a program is bounded only
where no kind of link counts. The texts with such chains are made of tokens with blanks between
them.
-/

namespace Graft

/-! ## Texts of given tokens -/

/-- A reserved word, a mark or a name: a token that is written in one way only. -/
def Token.Plain : Token → Prop
  | .name n => Scan.IsName n
  | .number _ => False
  | _ => True

/-- How a plain token is written. -/
def Token.plainText : Token → String
  | .word k => k.text
  | .mark s => s.text
  | .name n => n
  | .number _ => ""

namespace Scan

theorem spells_plain {t : Token} (h : t.Plain) :
    Spells (fun _ => True) (t.plainText ++ " ") [some t] := by
  cases t with
  | word k => exact (Spells.keyword k).spaced
  | mark s => exact (Spells.symbol s).symbolSpaced
  | name n => exact (Spells.name h).spaced
  | number x => exact h.elim

/-- Plain tokens with a blank behind each of them are a text with these tokens. -/
theorem spells_blanks {ts : List Token} (h : ∀ t ∈ ts, t.Plain) :
    Spells (fun _ => True) (String.join (ts.map fun t => t.plainText ++ " ")) (ts.map some) := by
  induction ts with
  | nil => exact Spells.empty
  | cons t ts ih =>
      obtain ⟨ht, hts⟩ := List.forall_mem_cons.mp h
      rw [List.map_cons, String.join_cons]
      exact (spells_plain ht).then (ih hts)

theorem exists_text {ts : List Token} (h : ∀ t ∈ ts, t.Plain) :
    ∃ source, (text source).diagnostics = [] ∧ (text source).tokens.map Lexeme.token = ts :=
  ⟨_, (spells_blanks h).any.text⟩

end Scan

/-! ## The tokens of a chain -/

namespace Link

/-- What a chain starts with. -/
def first : Link → List Token
  | operator | bracket => [.name "x"]
  | elseIf => [.word .ifWord, .name "x", .mark .openBrace, .mark .closeBrace]

/-- What makes a chain one link longer. -/
def another : Link → List Token
  | operator => [.mark .plus, .name "x"]
  | bracket => [.mark .openBracket, .name "x", .mark .closeBracket]
  | elseIf =>
    [.word .elseWord, .word .ifWord, .name "x", .mark .openBrace, .mark .closeBrace]

/-- The links behind the first part of a chain. -/
def others (link : Link) : Nat → List Token
  | 0 => []
  | k + 1 => link.another ++ others link k

theorem length_others (link : Link) (k : Nat) : k ≤ (link.others k).length := by
  induction k with
  | zero => exact Nat.le_refl 0
  | succ k ih =>
      have hone : 1 ≤ link.another.length := by cases link <;> simp [another]
      rw [others, List.length_append]
      omega

/-- A function with nothing but a chain between its braces. -/
def functionTokens (link : Link) (k : Nat) : List Token :=
  [.word .fnWord, .name "f", .mark .openParen, .name "x", .mark .closeParen, .mark .openBrace] ++
    (link.first ++ link.others k) ++ [.mark .closeBrace]

end Link

namespace Parse

open Reads

variable {counts : Link → Bool} {n k m levels : Nat} {body rest : List Token}

theorem isName_x : Scan.IsName "x" := ⟨.of_bytes rfl rfl rfl, rfl⟩

/-- The variable `x`, which stands nowhere. -/
def bareX : Expr := .var "x" .dummy

theorem named_bareX : bareX.Throughout Expr.Named := Expr.throughout_var.mpr isName_x

theorem x_reads {power : Nat} (hpower : power ≤ topPower) (hmore : Follows power rest) :
    Reads (expr (levels + 1) power) (.name "x" :: rest) (Back bareX rest) :=
  expr_readsBack (levels + 1) bareX false named_bareX (Nat.le_add_left 1 levels) power rest hpower
    hmore (hmore.mono hpower)

theorem follows_closeBrace (power : Nat) : Follows power (.mark .closeBrace :: rest) := by
  apply Follows.of_ends
  rintro t ⟨⟩
  rfl

/-- A loop that puts a node on top of the tree for each link reads the chain to its end. -/
theorem loop_high {link : Link} (loop : Nat → Expr → Parse Expr)
    (stop : ∀ {m e Q}, Q e (.mark .closeBrace :: rest) →
      Reads (loop m e) (.mark .closeBrace :: rest) Q)
    (step : ∀ {k m} {e : Expr} {Q}, (∀ e' : Expr, e.height counts + 1 ≤ e'.height counts →
        Reads (loop m e') (link.others k ++ .mark .closeBrace :: rest) Q) →
      Reads (loop (m + 1) e) (link.others (k + 1) ++ .mark .closeBrace :: rest) Q)
    {e : Expr} (hm : k ≤ m) :
    Reads (loop m e) (link.others k ++ .mark .closeBrace :: rest)
      fun e' ts => e.height counts + k ≤ e'.height counts ∧ ts = .mark .closeBrace :: rest := by
  induction k generalizing e m with
  | zero => exact stop ⟨Nat.le_refl _, rfl⟩
  | succ k ih =>
      obtain ⟨m, rfl⟩ := Nat.exists_eq_add_of_le' (Nat.le_trans (Nat.le_add_left 1 k) hm)
      refine step fun e' he => (ih (Nat.le_of_succ_le_succ hm)).mono fun _ ts h => ⟨?_, h.2⟩
      have := h.1
      omega

/-! ## Chains of operators -/

theorem follows_operators (k : Nat) :
    Follows BinaryOp.add.rightPower (Link.operator.others k ++ .mark .closeBrace :: rest) := by
  cases k with
  | zero => exact follows_closeBrace _
  | succ k =>
      exact .operator (show BinaryOp.add.power < BinaryOp.add.rightPower by decide) _

theorem operatorLoop_high (hcounts : counts .operator = true) {e : Expr} (hm : k ≤ m) :
    Reads (operatorLoop (expr (levels + 1)) 0 m e)
      (Link.operator.others k ++ .mark .closeBrace :: rest)
      fun e' ts => e.height counts + k ≤ e'.height counts ∧ ts = .mark .closeBrace :: rest := by
  refine loop_high (operatorLoop (expr (levels + 1)) 0)
    (fun h => operator_stop (follows_closeBrace 0) h) (fun {k _ _ _} h => ?_) hm
  refine operator_step (Nat.zero_le BinaryOp.add.power)
    (x_reads (rightPower_le_topPower .add) (follows_operators k)) fun r span _ => h _ ?_
  rw [Expr.height, hcounts]
  exact Nat.le_max_left _ _

/-! ## Chains of brackets -/

theorem postfixLoop_high (hcounts : counts .bracket = true) {e : Expr} (hm : k ≤ m) :
    Reads (postfixLoop (expr (levels + 1)) m e)
      (Link.bracket.others k ++ .mark .closeBrace :: rest)
      fun e' ts => e.height counts + k ≤ e'.height counts ∧ ts = .mark .closeBrace :: rest := by
  refine loop_high (postfixLoop (expr (levels + 1))) (fun h => postfix_stop rfl h) (fun h => ?_) hm
  rw [Link.others, List.append_assoc]
  refine postfix_index (i := bareX) (expr_readsBack (levels + 1)) named_bareX
    (Nat.le_add_left 1 levels) fun i span _ => h _ ?_
  rw [Expr.height, hcounts]
  exact Nat.le_max_left _ _

/-! ## Expressions that are chains -/

/-- Reading comes to the brackets behind `x`. -/
theorem operand_x {Q : Expr → List Token → Prop} (hmore : AfterName rest)
    (hnext : ∀ e m, rest.length ≤ m → Reads (postfixLoop (expr (levels + 1)) m e) rest Q) :
    Reads (operand (expr (levels + 1))) (.name "x" :: rest) Q := by
  have hlen : bareX.levels ≤ levels + 1 + 1 := Nat.le_add_left 1 (levels + 1)
  have hprimary : Reads (primary (expr (levels + 1))) (.name "x" :: rest) (Back bareX rest) :=
    primary_reads (expr_readsBack (levels + 1)) named_bareX hlen rfl hmore
  exact operand_of_primary hprimary rfl fun e m _ hm => hnext e m hm

theorem operators_high (hcounts : counts .operator = true) (k : Nat) :
    Reads (expr (levels + 2) 0)
      (Link.operator.first ++ Link.operator.others k ++ .mark .closeBrace :: rest)
      fun e ts => k ≤ e.height counts ∧ ts = .mark .closeBrace :: rest := by
  have hafter : AfterName (Link.operator.others k ++ .mark .closeBrace :: rest) :=
    (follows_operators k).afterName
  have hoperand : Reads (operand (expr (levels + 1)))
      (.name "x" :: (Link.operator.others k ++ .mark .closeBrace :: rest))
      fun _ ts => ts = Link.operator.others k ++ .mark .closeBrace :: rest := by
    refine operand_x hafter fun e m _ => postfix_stop ?_ rfl
    cases k <;> rfl
  refine .deeper (hoperand.bind ?_)
  rintro e _ rfl
  refine .remaining ((operatorLoop_high hcounts ?_).mono fun e ts h => ⟨?_, h.2⟩)
  · rw [List.length_append]
    exact Nat.le_add_right_of_le (Link.operator.length_others k)
  · exact Nat.le_trans (Nat.le_add_left k _) h.1

theorem brackets_high (hcounts : counts .bracket = true) (k : Nat) :
    Reads (expr (levels + 2) 0)
      (Link.bracket.first ++ Link.bracket.others k ++ .mark .closeBrace :: rest)
      fun e ts => k ≤ e.height counts ∧ ts = .mark .closeBrace :: rest := by
  have hafter : AfterName (Link.bracket.others k ++ .mark .closeBrace :: rest) := by
    cases k <;> exact ⟨rfl, rfl⟩
  have hoperand : Reads (operand (expr (levels + 1)))
      (.name "x" :: (Link.bracket.others k ++ .mark .closeBrace :: rest))
      fun e ts => k ≤ e.height counts ∧ ts = .mark .closeBrace :: rest := by
    refine operand_x hafter fun e m hm => (postfixLoop_high hcounts ?_).mono fun e ts h =>
      ⟨Nat.le_trans (Nat.le_add_left k _) h.1, h.2⟩
    rw [List.length_append] at hm
    have := Link.bracket.length_others k
    omega
  refine .deeper (hoperand.bind ?_)
  rintro e _ ⟨hhigh, rfl⟩
  exact .remaining (operator_stop (follows_closeBrace 0) ⟨hhigh, rfl⟩)

/-! ## Chains of conditionals -/

theorem block_empty : Reads (block (levels + 1)) (.mark .openBrace :: .mark .closeBrace :: rest)
    fun _ ts => ts = rest := by
  have hend : Reads (stmtLoop (expr levels 0) (block levels) (rest.length + 1))
      (.mark .closeBrace :: rest) fun r ts => r = ([], none) ∧ ts = .mark .closeBrace :: rest := by
    apply Reads.isAt
    exact .isAtEnd (.pure ⟨rfl, rfl⟩)
  refine .deeper (.here fun start => .expect (.remaining (hend.followed ?_)))
  exact .here fun stop => .expect (.pure rfl)

theorem branchStmt_high (hcounts : counts .elseIf = true) (hm : k ≤ m) :
    Reads (branchStmt (expr (levels + 1) 0) (block (levels + 1)) m)
      (Link.elseIf.first ++ Link.elseIf.others k ++ .mark .closeBrace :: rest)
      fun x ts => ((∃ c yes no s, x = .branch c yes no s) ∧ k ≤ x.height counts) ∧
        ts = .mark .closeBrace :: rest := by
  have hcondition : ∀ ts, Reads (expr (levels + 1) 0) (.name "x" :: .mark .openBrace :: ts)
      (Back bareX (.mark .openBrace :: ts)) := by
    refine fun ts => x_reads (Nat.zero_le _) (.of_ends ?_ 0)
    rintro t ⟨⟩
    rfl
  induction k generalizing m with
  | zero =>
      rw [branchStmt.eq_def]
      refine .here fun start => .expectWord ((hcondition _).bind ?_)
      rintro c _ ⟨-, rfl⟩
      refine block_empty.bind ?_
      rintro yes _ rfl
      exact .leaveWord rfl (.before fun stop => .pure ⟨⟨⟨_, _, _, _, rfl⟩, Nat.zero_le _⟩, rfl⟩)
  | succ k ih =>
      obtain ⟨m, rfl⟩ := Nat.exists_eq_add_of_le' (Nat.le_trans (Nat.le_add_left 1 k) hm)
      rw [branchStmt.eq_def]
      refine .here fun start => .expectWord ((hcondition _).bind ?_)
      rintro c _ ⟨-, rfl⟩
      refine block_empty.bind ?_
      rintro yes _ rfl
      refine .eatWord (.isAtWord ((ih (Nat.le_of_succ_le_succ hm)).bind ?_))
      rintro _ _ ⟨⟨⟨c', yes', no', s', rfl⟩, hinner⟩, rfl⟩
      refine .before fun stop => .pure ⟨⟨⟨_, _, _, _, rfl⟩, ?_⟩, rfl⟩
      rw [Stmt.height, Block.elseHeight, hcounts]
      exact Nat.le_trans (by simp; omega) (Nat.le_max_right _ _)

/-! ## A function around a chain -/

/-- At least `n` nodes are below each other in the statement or the value. -/
def High (counts : Link → Bool) (n : Nat) : Stmt ⊕ Expr → Prop :=
  Sum.elim (fun x => n ≤ x.height counts) fun e => n ≤ e.height counts

/-- Nothing is ahead that ends a block or is passed over between statements. -/
structure StartsStmt (ts : List Token) : Prop where
  nonempty : ts ≠ []
  brace : heads .closeBrace ts = false
  semicolon : heads .semicolon ts = false

theorem stmtLoop_high {e : Parse Expr} {b : Parse Block}
    (hstart : StartsStmt body) (hm : 2 ≤ m)
    (h : Reads (stmt e b) body fun r ts => High counts n r ∧ ts = .mark .closeBrace :: rest) :
    Reads (stmtLoop e b m) body fun r ts =>
      (∀ s, n ≤ (Block.mk r.1 r.2 s).height counts) ∧ ts = .mark .closeBrace :: rest := by
  obtain ⟨m, rfl⟩ := Nat.exists_eq_add_of_le' hm
  apply Reads.isAt
  rw [hstart.brace]
  apply Reads.isAtEnd
  rw [List.isEmpty_eq_false_iff.mpr hstart.nonempty]
  apply Reads.leave hstart.semicolon
  apply h.bind
  rintro (x | t) _ ⟨hhigh, rfl⟩
  · have hend : Reads (stmtLoop e b (m + 1)) (.mark .closeBrace :: rest) fun r ts =>
        r = ([], none) ∧ ts = .mark .closeBrace :: rest := by
      apply Reads.isAt
      exact .isAtEnd (.pure ⟨rfl, rfl⟩)
    apply hend.followed
    refine .pure ⟨fun s => ?_, rfl⟩
    rw [Block.height, Block.heights]
    exact Nat.le_succ_of_le (Nat.le_trans hhigh (Nat.le_trans (Nat.le_max_left _ _)
      (Nat.le_max_left _ _)))
  · refine .pure ⟨fun s => ?_, rfl⟩
    exact Nat.le_succ_of_le (Nat.le_trans hhigh (Nat.le_max_right _ _))

theorem block_high (hstart : StartsStmt body)
    (h : Reads (stmt (expr levels 0) (block levels)) (body ++ .mark .closeBrace :: rest)
      fun r ts => High counts n r ∧ ts = .mark .closeBrace :: rest) :
    Reads (block (levels + 1)) (.mark .openBrace :: body ++ .mark .closeBrace :: rest)
      fun b ts => n ≤ b.height counts ∧ ts = rest := by
  obtain ⟨t, body, rfl⟩ := List.exists_cons_of_ne_nil hstart.nonempty
  have hstart' : StartsStmt (t :: body ++ .mark .closeBrace :: rest) :=
    ⟨List.cons_ne_nil _ _, by cases t <;> exact hstart.brace, by cases t <;> exact hstart.semicolon⟩
  refine .deeper (.here fun start => .expect (.remaining ?_))
  have hm : 2 ≤ (t :: body ++ .mark .closeBrace :: rest).length := by
    simp only [List.length_append, List.length_cons]
    omega
  apply (stmtLoop_high hstart' hm h).bind
  rintro ⟨ss, tail⟩ _ ⟨hhigh, rfl⟩
  exact .here fun stop => .expect (.pure ⟨hhigh _, rfl⟩)

/-- Where its kind of link counts, a chain stands in a tree as high as the chain is long. -/
theorem stmt_high {link : Link} (hcounts : counts link = true) (k : Nat) :
    Reads (stmt (expr (levels + 2) 0) (block (levels + 2)))
      (link.first ++ link.others k ++ .mark .closeBrace :: rest)
      fun r ts => High counts k r ∧ ts = .mark .closeBrace :: rest := by
  -- a chain of expressions is the value of the block
  have value : Reads (expr (levels + 2) 0)
      (.name "x" :: (link.others k ++ .mark .closeBrace :: rest))
      (fun e ts => k ≤ e.height counts ∧ ts = .mark .closeBrace :: rest) →
      Reads (stmt (expr (levels + 2) 0) (block (levels + 2)))
        (.name "x" :: (link.others k ++ .mark .closeBrace :: rest))
        fun r ts => High counts k r ∧ ts = .mark .closeBrace :: rest := by
    intro hexpr
    refine .peek (hexpr.bind ?_)
    rintro e _ ⟨hhigh, rfl⟩
    exact .isAt (.pure ⟨hhigh, rfl⟩)
  cases link with
  | operator => exact value (operators_high hcounts k)
  | bracket => exact value (brackets_high hcounts k)
  | elseIf =>
      refine .peek (.remaining ((branchStmt_high hcounts ?_).bind ?_))
      · have := Link.elseIf.length_others k
        simp only [List.length_append]
        omega
      · rintro x _ ⟨⟨-, hhigh⟩, rfl⟩
        exact .pure ⟨hhigh, rfl⟩

theorem startsStmt_chain (link : Link) (k : Nat) : StartsStmt (link.first ++ link.others k) := by
  cases link <;> exact ⟨List.cons_ne_nil _ _, rfl, rfl⟩

theorem itemLoop_high {link : Link} (hcounts : counts link = true) (k m : Nat) :
    Reads (itemLoop (m + 1)) (link.functionTokens k) fun is _ =>
      ∃ i ∈ is, k ≤ i.height counts := by
  have hstmt : Reads (stmt (expr 255 0) (block 255))
      (link.first ++ link.others k ++ [.mark .closeBrace])
      fun r ts => High counts k r ∧ ts = [.mark .closeBrace] := stmt_high hcounts k
  have hbody : Reads (block (255 + 1)) (.mark .openBrace ::
      (link.first ++ link.others k) ++ [.mark .closeBrace])
      fun b ts => k ≤ b.height counts ∧ ts = [] := block_high (startsStmt_chain link k) hstmt
  have hparams : ∀ n, Reads (paramLoop (n + 1) []) (.name "x" :: .mark .closeParen ::
      .mark .openBrace :: (link.first ++ link.others k) ++ [.mark .closeBrace])
      fun _ ts => ts = .mark .closeParen :: .mark .openBrace ::
        (link.first ++ link.others k) ++ [.mark .closeBrace] := by
    intro n
    refine .isAt (.isAtEnd (.expectName fun p hp => ?_))
    exact .leave rfl (.pure rfl)
  have hfunction : ∀ start, Reads (item start []) (link.functionTokens k)
      fun i ts => (∃ d s, i = some (.function d s) ∧ k ≤ d.body.height counts) ∧ ts = [] := by
    intro start
    have hdefinition : Reads (definition []) (link.functionTokens k)
        fun d ts => k ≤ d.body.height counts ∧ ts = [] := by
      refine .expectWord (.expectName fun name _ => .expect (.remaining ((hparams _).bind ?_)))
      rintro params _ rfl
      refine .expect (hbody.bind ?_)
      rintro body _ ⟨hhigh, rfl⟩
      exact .pure ⟨hhigh, rfl⟩
    refine .peek (hdefinition.bind ?_)
    rintro d _ ⟨hhigh, rfl⟩
    exact .before fun stop => .pure ⟨⟨d, _, rfl, hhigh⟩, rfl⟩
  have hmarkers : Reads (markerLoop (link.functionTokens k).length) (link.functionTokens k)
      fun ms ts => ms = [] ∧ ts = link.functionTokens k := .isAt (.pure ⟨rfl, rfl⟩)
  refine .isAtEnd (.here fun start => .remaining (hmarkers.followed (.isAtWord
    ((hfunction _).bind ?_))))
  rintro _ _ ⟨⟨d, s, rfl, hhigh⟩, rfl⟩
  have hend : Reads (itemLoop m) [] fun _ _ => True := by
    cases m with
    | zero => exact .pure trivial
    | succ m => exact .isAtEnd (.pure trivial)
  exact .leave rfl (hend.bind fun is _ _ => .pure ⟨_, List.mem_cons_self, hhigh⟩)

end Parse

theorem Link.plain_functionTokens (link : Link) (k : Nat) :
    ∀ t ∈ link.functionTokens k, t.Plain := by
  have hf : Scan.IsName "f" := ⟨.of_bytes rfl rfl rfl, rfl⟩
  have hfirst : ∀ t ∈ link.first, t.Plain := by
    cases link <;> simp [first, Token.Plain, Parse.isName_x]
  have hanother : ∀ t ∈ link.another, t.Plain := by
    cases link <;> simp [another, Token.Plain, Parse.isName_x]
  have hothers : ∀ t ∈ link.others k, t.Plain := by
    induction k with
    | zero => simp [others]
    | succ k ih =>
        intro t ht
        rcases List.mem_append.mp ht with ht | ht
        · exact hanother t ht
        · exact ih t ht
  intro t ht
  simp only [functionTokens, List.mem_append] at ht
  rcases ht with (ht | ht | ht) | ht
  · revert t
    simp [Token.Plain, Parse.isName_x, hf]
  · exact hfirst t ht
  · exact hothers t ht
  · obtain rfl := List.mem_singleton.mp ht
    trivial

/-- Where some kind of link counts, there are programs of any height. -/
theorem Program.exists_high {counts : Link → Bool} {link : Link} (hcounts : counts link = true)
    (k : Nat) : ∃ source p, parse source = .ok p ∧ k ≤ p.height counts := by
  obtain ⟨source, hclear, htokens⟩ := Scan.exists_text (link.plain_functionTokens k)
  obtain ⟨m, hm⟩ : ∃ m, (Scan.text source).tokens.length = m + 1 := by
    refine Nat.exists_eq_succ_of_ne_zero ?_
    rw [← List.length_map (f := Lexeme.token), htokens]
    simp [Link.functionTokens]
  obtain ⟨⟨i, hi, hhigh⟩, -, hreports⟩ := Parse.itemLoop_high hcounts k m
    { rest := (Scan.text source).tokens, stop := (Scan.text source).stop } htokens rfl
  refine ⟨source, ⟨_⟩, ?_, Nat.le_trans hhigh (le_height (p := ⟨_⟩) hi)⟩
  rw [parse, ofScan, hclear]
  exact Parse.tokens_eq_ok.mpr ⟨by rw [hm]; exact hreports, by rw [hm]⟩

/-- The height of a program is bounded, whatever its text, exactly if none of the links of chains
counts. -/
theorem Program.height_bounded_iff (counts : Link → Bool) :
    (∃ bound, ∀ source p, parse source = .ok p → p.height counts ≤ bound) ↔
      ∀ link, counts link = false := by
  constructor
  · rintro ⟨bound, hbound⟩ link
    by_contra hcounts
    obtain ⟨source, p, hp, hhigh⟩ := exists_high (Bool.eq_true_of_not_eq_false hcounts) (bound + 1)
    exact absurd (hbound source p hp) (Nat.not_le.mpr hhigh)
  · exact fun hnone => ⟨_, fun source p hp => height_le_of_uncounted hnone hp⟩

/-- No bound holds for the height of every program that is accepted, all nodes counted. -/
theorem Program.height_unbounded : ¬ ∃ bound, ∀ source p, parse source = .ok p →
    p.height (fun _ => true) ≤ bound := by
  rintro ⟨bound, hbound⟩
  obtain ⟨source, p, hp, hhigh⟩ := @exists_high (fun _ => true) .operator rfl (bound + 1)
  exact absurd (hbound source p hp) (Nat.not_le.mpr hhigh)

end Graft
