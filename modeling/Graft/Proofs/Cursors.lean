import Graft.Tree.Parser

/-!
# Steps of reading on a part of a text

A step of reading only moves forward, and it looks one token ahead at most. So a step that reports
nothing and leaves at least one token does the same when the tokens further on are cut off. `Local`
says this of a step at a cursor, with one rule for each way of putting steps together.

A loop runs on a count of the tokens ahead, which is another one when tokens are cut off: both counts
are enough if every round takes a token. What ends with a step over a closing brace looks at nothing
behind the brace, so there nothing has to be left.
-/

namespace Graft

/-- A place in a text: it ends behind a byte. -/
def Span.Placed (s : Span) : Prop := 0 < s.stop

theorem Span.Placed.not_dummy {s : Span} (h : s.Placed) : s.isDummy = false := by
  unfold Placed at h
  simp [isDummy]
  omega

theorem Span.Placed.merge {a : Span} (h : a.Placed) (b : Span) : (a.merge b).Placed := by
  unfold Span.merge
  rw [h.not_dummy]
  unfold Placed at h ⊢
  split
  · simp at *
  · split
    · exact h
    · simp only
      omega

namespace Parse

/-! ## Cursors -/

namespace Cursor

/-- The cursor with the last `k` tokens ahead cut off, in a text that ends at `stop`. -/
def cut (c : Cursor) (k : Nat) (stop : Span) : Cursor :=
  { c with rest := c.rest.take (c.rest.length - k), stop }

/-- Whatever place the cursor tells is one. -/
structure Placed (c : Cursor) : Prop where
  rest : ∀ l ∈ c.rest, l.span.Placed
  stop : c.stop.Placed
  behind : ∀ s ∈ c.behind, s.Placed

/-- The cursor `d` is further on than `c`: some tokens were stepped over, the last of them is behind,
and nothing that was reported is lost. Levels are refused with a report only. -/
structure Onward (c d : Cursor) : Prop where
  passed : ∃ front, c.rest = front ++ d.rest ∧
    d.behind = (front.getLast?.map Lexeme.span).or c.behind
  stop : d.stop = c.stop
  reports : c.reports <:+ d.reports
  refused : d.reports = c.reports → d.refused = c.refused

/-- The last token from `c` to `d` is a closing brace. -/
def Closes (c d : Cursor) : Prop :=
  ∃ front l, c.rest = front ++ l :: d.rest ∧ l.token = .mark .closeBrace

variable {c d e : Cursor} {k : Nat} {stop : Span}

theorem Closes.lt (h : c.Closes d) : d.rest.length < c.rest.length := by
  obtain ⟨front, l, hrest, -⟩ := h
  rw [hrest, List.length_append, List.length_cons]
  omega

theorem Placed.here (h : c.Placed) : c.here.Placed := by
  unfold Cursor.here
  split
  · next l rest hrest => exact h.rest l (by simp [hrest])
  · exact h.stop

theorem Placed.before (h : c.Placed) : c.before.Placed := by
  unfold Cursor.before
  cases hb : c.behind with
  | none => exact h.here
  | some s => exact h.behind s hb

namespace Onward

theorem refl (c : Cursor) : c.Onward c := ⟨⟨[], by simp⟩, rfl, List.suffix_rfl, fun _ => rfl⟩

theorem le (h : c.Onward d) : d.rest.length ≤ c.rest.length := by
  obtain ⟨front, hfront, -⟩ := h.passed
  simp [hfront]

/-- If nothing was reported in all, nothing was on the way. -/
theorem clear (h : c.Onward d) (h' : d.Onward e) (hclear : e.reports = c.reports) :
    d.reports = c.reports ∧ e.reports = d.reports := by
  have hde : d.reports = e.reports := by
    refine h'.reports.eq_of_length_le ?_
    rw [hclear]
    exact h.reports.length_le
  exact ⟨hde.trans hclear, hde.symm⟩

theorem trans (h : c.Onward d) (h' : d.Onward e) : c.Onward e where
  passed := by
    obtain ⟨front, hrest, hbehind⟩ := h.passed
    obtain ⟨front', hrest', hbehind'⟩ := h'.passed
    refine ⟨front ++ front', by rw [hrest, hrest', List.append_assoc], ?_⟩
    rw [hbehind', hbehind, List.getLast?_append]
    cases front'.getLast? <;> simp
  stop := h'.stop.trans h.stop
  reports := h.reports.trans h'.reports
  refused hclear := by
    obtain ⟨h₁, h₂⟩ := h.clear h' hclear
    rw [h'.refused h₂, h.refused h₁]

theorem placed (h : c.Onward d) (hc : c.Placed) : d.Placed := by
  obtain ⟨front, hrest, hbehind⟩ := h.passed
  have hfront : ∀ l ∈ front ++ d.rest, l.span.Placed := hrest ▸ hc.rest
  refine ⟨fun l hl => hfront l (List.mem_append_right _ hl), h.stop ▸ hc.stop, fun s hs => ?_⟩
  rw [hbehind] at hs
  cases hlast : front.getLast? with
  | none =>
      rw [hlast] at hs
      exact hc.behind s hs
  | some l =>
      rw [hlast] at hs
      obtain rfl : l.span = s := by simpa using hs
      exact hfront l (List.mem_append_left _ (List.mem_of_getLast? hlast))

/-- The token that was stepped over last is behind. -/
theorem behind_of_passed {front : List Lexeme} {l : Lexeme} (h : c.Onward d)
    (hrest : c.rest = front ++ l :: d.rest) : d.behind = some l.span := by
  obtain ⟨front', hrest', hbehind⟩ := h.passed
  have hsame : front ++ [l] = front' := by
    refine List.append_cancel_right (?_ : _ ++ d.rest = _ ++ d.rest)
    rw [← hrest', hrest, List.append_assoc, List.singleton_append]
  rw [hbehind, ← hsame, List.getLast?_concat]
  rfl

theorem closes (h : c.Onward d) (h' : d.Closes e) : c.Closes e := by
  obtain ⟨front, hrest, -⟩ := h.passed
  obtain ⟨front', l, hrest', hl⟩ := h'
  exact ⟨front ++ front', l, by rw [hrest, hrest', List.append_assoc], hl⟩

theorem advance (c : Cursor) : c.Onward c.advance := by
  unfold Cursor.advance
  split
  · next l rest hrest =>
      exact ⟨⟨[l], by simp [hrest]⟩, rfl, List.suffix_rfl, fun _ => rfl⟩
  · exact refl c

theorem report (c : Cursor) (p : Problem) (span : Span) : c.Onward (c.report p span) :=
  ⟨⟨[], by simp [Cursor.report]⟩, rfl, List.suffix_cons _ _, fun h => by
    simp [Cursor.report] at h⟩

end Onward

theorem Placed.cut (h : c.Placed) (hstop : stop.Placed) : (c.cut k stop).Placed :=
  ⟨fun l hl => h.rest l (List.mem_of_mem_take hl), hstop, h.behind⟩

/-! What a step looks at is not cut off as long as a token is left. -/

theorem cut_head (h : k < c.rest.length) : (c.cut k stop).rest.head? = c.rest.head? := by
  unfold cut
  obtain ⟨n, hn⟩ : ∃ n, c.rest.length - k = n + 1 := ⟨c.rest.length - k - 1, by omega⟩
  rw [hn]
  cases c.rest <;> simp

theorem cut_peek (h : k < c.rest.length) : (c.cut k stop).peek = c.peek := by
  unfold peek
  rw [cut_head h]

theorem cut_isAt (h : k < c.rest.length) (s : Symbol) : (c.cut k stop).isAt s = c.isAt s := by
  unfold isAt
  rw [cut_peek h]

theorem cut_here (h : k < c.rest.length) : (c.cut k stop).here = c.here := by
  have hhead : (c.cut k stop).rest.head? = c.rest.head? := cut_head h
  unfold here
  cases hc : c.rest with
  | nil => simp [hc] at h
  | cons l rest =>
      rw [hc, List.head?_cons] at hhead
      obtain ⟨rest', hrest'⟩ := List.head?_eq_some_iff.mp hhead
      rw [hrest']

theorem cut_before {s : Span} (h : c.behind = some s) : (c.cut k stop).before = c.before := by
  unfold before
  rw [show (c.cut k stop).behind = c.behind from rfl, h]
  rfl

theorem cut_advance (h : k ≤ c.advance.rest.length) :
    (c.cut k stop).advance = c.advance.cut k stop := by
  unfold advance cut at *
  cases hc : c.rest with
  | nil => simp [hc]
  | cons l rest =>
      rw [hc] at h
      have hlength : (l :: rest).length - k = rest.length - k + 1 := by
        simp only [List.length_cons] at h ⊢
        omega
      rw [hlength]
      rfl

theorem cut_length (h : k ≤ c.rest.length) :
    (c.cut k stop).rest.length = c.rest.length - k := by
  unfold cut
  rw [List.length_take]
  omega

theorem advance_lt (h : c.rest ≠ []) : c.advance.rest.length < c.rest.length := by
  rw [advance_rest, List.length_tail]
  have := List.length_pos_iff.mpr h
  omega

theorem exists_of_isAt {s : Symbol} (h : c.isAt s = true) :
    ∃ l, c.rest = l :: c.advance.rest ∧ l.token = .mark s := by
  unfold isAt peek at h
  cases hc : c.rest with
  | nil => simp [hc] at h
  | cons l rest =>
      refine ⟨l, by rw [advance_rest, hc, List.tail_cons], ?_⟩
      rw [hc, List.head?_cons, Option.map_some] at h
      split at h
      · next t ht =>
          rw [Option.some.inj ht]
          simpa using h
      · simp at h

theorem ne_nil_of_isAt {s : Symbol} (h : c.isAt s = true) : c.rest ≠ [] := by
  obtain ⟨l, hl, -⟩ := exists_of_isAt h
  simp [hl]

theorem isAtWord_of_peek {w : Keyword} (h : c.peek = some (.word w)) : c.isAtWord w = true := by
  simp [isAtWord, h]

theorem ne_nil_of_isAtWord {w : Keyword} (h : c.isAtWord w = true) : c.rest ≠ [] := by
  intro hnil
  simp [isAtWord, peek, hnil] at h

end Cursor

/-! ## Steps that look no further -/

/-- What holds of a step `x` at a cursor `c`, and of the step `y` in its place where the last `k`
tokens ahead, but not all, are cut off. If `x` reports nothing and leaves `slack` tokens that are
not cut off, then `y` gives the same. -/
structure Local.Ends {α : Type} (k : Nat) (stop : Span) (slack : Nat) (c : Cursor) (x y : Parse α)
    (P : α → Cursor → Prop) : Prop where
  onward : c.Onward (x c).2
  value : P (x c).1 (x c).2
  cut : (x c).2.reports = c.reports → k + slack ≤ (x c).2.rest.length → k < c.rest.length →
    y (c.cut k stop) = ((x c).1, (x c).2.cut k stop)

def Local {α : Type} (k : Nat) (stop : Span) (slack : Nat) (c : Cursor) (x y : Parse α)
    (P : α → Cursor → Prop) : Prop := c.Placed → Local.Ends k stop slack c x y P

variable {α β σ : Type} {k : Nat} {stop : Span} {slack : Nat} {c : Cursor} {x y : Parse α}
  {P : α → Cursor → Prop} {Q : β → Cursor → Prop}

namespace Local

theorem pure {a : α} (h : P a c) : Local k stop slack c (pure a) (pure a) P :=
  fun _ => ⟨.refl c, h, fun _ _ _ => rfl⟩

theorem bind {f g : α → Parse β} (hx : Local k stop 1 c x y P)
    (hf : ∀ a d, c.Onward d → P a d → Local k stop 1 d (f a) (g a) Q) :
    Local k stop 1 c (x >>= f) (y >>= g) Q := by
  intro hc
  obtain ⟨hon, hvalue, hcut⟩ := hx hc
  obtain ⟨hon', hvalue', hcut'⟩ := hf _ _ hon hvalue (hon.placed hc)
  refine ⟨hon.trans hon', hvalue', fun hclear hlong hsome => ?_⟩
  obtain ⟨hclear₁, hclear₂⟩ := hon.clear hon' hclear
  have hlong' := Nat.le_trans hlong hon'.le
  show g (y (c.cut k stop)).1 (y (c.cut k stop)).2 = _
  rw [hcut hclear₁ hlong' hsome]
  exact hcut' hclear₂ hlong hlong'

/-- What ends with a step that ends with a closing brace and looks no further does so, too. -/
theorem bindClosing {f g : α → Parse β} (hx : Local k stop 1 c x y P)
    (hf : ∀ a d, c.Onward d → P a d → Local k stop 0 d (f a) (g a) fun b e =>
      Q b e ∧ (e.reports = d.reports → d.Closes e)) :
    Local k stop 0 c (x >>= f) (y >>= g) fun b e =>
      Q b e ∧ (e.reports = c.reports → c.Closes e) := by
  intro hc
  obtain ⟨hon, hvalue, hcut⟩ := hx hc
  obtain ⟨hon', ⟨hvalue', hcloses⟩, hcut'⟩ := hf _ _ hon hvalue (hon.placed hc)
  refine ⟨hon.trans hon', ⟨hvalue', fun hclear => ?_⟩, fun hclear hlong hsome => ?_⟩
  · exact hon.closes (hcloses (hon.clear hon' hclear).2)
  · obtain ⟨hclear₁, hclear₂⟩ := hon.clear hon' hclear
    have hlong' := Nat.lt_of_le_of_lt hlong (hcloses hclear₂).lt
    show g (y (c.cut k stop)).1 (y (c.cut k stop)).2 = _
    rw [hcut hclear₁ hlong' hsome]
    exact hcut' hclear₂ hlong hlong'

theorem bindPure {f : α → β} (hx : Local k stop slack c x y P)
    (hf : ∀ a d, c.Onward d → P a d → Q (f a) d) :
    Local k stop slack c (x >>= fun a => Pure.pure (f a)) (y >>= fun a => Pure.pure (f a)) Q := by
  intro hc
  obtain ⟨hon, hvalue, hcut⟩ := hx hc
  refine ⟨hon, hf _ _ hon hvalue, fun hclear hlong hsome => ?_⟩
  show (f (y (c.cut k stop)).1, (y (c.cut k stop)).2) = _
  rw [hcut hclear hlong hsome]
  rfl

theorem mono {P' : α → Cursor → Prop} (hx : Local k stop slack c x y P)
    (h : ∀ a d, c.Onward d → P a d → P' a d) : Local k stop slack c x y P' := by
  intro hc
  obtain ⟨hon, hvalue, hcut⟩ := hx hc
  exact ⟨hon, h _ _ hon hvalue, hcut⟩

/-- A step that looks no further than its last token looks no further than the next one. -/
theorem loosen (hx : Local k stop 0 c x y P) : Local k stop 1 c x y P := by
  intro hc
  obtain ⟨hon, hvalue, hcut⟩ := hx hc
  exact ⟨hon, hvalue, fun hclear hlong hsome => hcut hclear (Nat.le_of_succ_le hlong) hsome⟩

/-- Where too few tokens are ahead, nothing is asked of the step on the short text. -/
theorem short {y' : Parse α} (hx : Local k stop slack c x y P) (h : c.rest.length ≤ k) :
    Local k stop slack c x y' P := by
  intro hc
  obtain ⟨hon, hvalue, hcut⟩ := hx hc
  refine ⟨hon, hvalue, fun _ _ hsome => ?_⟩
  omega

theorem ite {p : Prop} [Decidable p] {x' y' : Parse α} (hx : p → Local k stop slack c x y P)
    (hx' : ¬ p → Local k stop slack c x' y' P) :
    Local k stop slack c (if p then x else x') (if p then y else y') P := by
  split
  · next h => exact hx h
  · next h => exact hx' h

/-! A step that only looks, and at no more than the token ahead, is put together with what follows
it. -/

section

variable {f g : β → Parse α}

theorem look {h : Cursor → β} (hcut : k < c.rest.length → h (c.cut k stop) = h c)
    (hf : Local k stop slack c (f (h c)) (g (h c)) P) :
    Local k stop slack c ((do return h (← get)) >>= f) ((do return h (← get)) >>= g) P := by
  intro hc
  obtain ⟨hon, hvalue, hcut'⟩ := hf hc
  refine ⟨hon, hvalue, fun hclear hlong hsome => ?_⟩
  show g (h (c.cut k stop)) (c.cut k stop) = _
  rw [hcut hsome]
  exact hcut' hclear hlong hsome

end

section

variable {f g : Option Token → Parse α}

theorem peek (hf : Local k stop slack c (f c.peek) (g c.peek) P) :
    Local k stop slack c (peek >>= f) (peek >>= g) P := look Cursor.cut_peek hf

end

section

variable {f g : Bool → Parse α}

theorem isAt {s : Symbol} (hf : Local k stop slack c (f (c.isAt s)) (g (c.isAt s)) P) :
    Local k stop slack c (isAt s >>= f) (isAt s >>= g) P := look (fun h => Cursor.cut_isAt h s) hf

theorem isAtWord {w : Keyword} (hf : Local k stop slack c (f (c.isAtWord w)) (g (c.isAtWord w)) P) :
    Local k stop slack c (isAtWord w >>= f) (isAtWord w >>= g) P :=
  look (fun h => by unfold Cursor.isAtWord; rw [Cursor.cut_peek h]) hf

theorem isAtEnd (hf : Local k stop slack c (f c.isAtEnd) (g c.isAtEnd) P) :
    Local k stop slack c (isAtEnd >>= f) (isAtEnd >>= g) P := by
  refine look (fun h => ?_) hf
  unfold Cursor.isAtEnd
  rw [Bool.eq_iff_iff, List.isEmpty_iff, List.isEmpty_iff, ← List.head?_eq_none_iff,
    Cursor.cut_head h, List.head?_eq_none_iff]

end

theorem found {f g : String → Parse α} (hf : Local k stop slack c (f c.found) (g c.found) P) :
    Local k stop slack c (found >>= f) (found >>= g) P :=
  look (fun h => by unfold Cursor.found; rw [Cursor.cut_peek h]) hf

section

variable {f g : Span → Parse α}

theorem here (hf : ∀ s, s.Placed → Local k stop slack c (f s) (g s) P) :
    Local k stop slack c (here >>= f) (here >>= g) P :=
  fun hc => look Cursor.cut_here (hf _ hc.here) hc

theorem before (hf : ∀ s, s.Placed → Local k stop slack c (f s) (g s) P) :
    Local k stop slack c (before >>= f) (before >>= g) P := by
  refine fun hc => look (fun h => ?_) (hf _ hc.before) hc
  unfold Cursor.before
  rw [Cursor.cut_here h]
  rfl

end

theorem advance : Local k stop 0 c advance advance fun _ d => d = c.advance :=
  fun _ => ⟨.advance c, rfl, fun _ hlong _ =>
    congrArg (((), ·) : Cursor → Unit × Cursor) (Cursor.cut_advance hlong)⟩

/-- What reports something may do anything on the short text. -/
theorem report {y : Parse Unit} (p : Problem) :
    Local k stop slack c (report p) y fun _ d => d.rest = c.rest :=
  fun _ => ⟨.report c p c.here, rfl, fun hclear => absurd hclear (List.cons_ne_self _ _)⟩

theorem reportAt {y : Parse Unit} (p : Problem) (span : Span) :
    Local k stop slack c (reportAt p span) y fun _ d => d.rest = c.rest :=
  fun _ => ⟨.report c p span, rfl, fun hclear => absurd hclear (List.cons_ne_self _ _)⟩

/-- A count of the tokens ahead is another one where some are cut off. -/
theorem remaining {f g : Nat → Parse α}
    (h : Local k stop slack c (f c.rest.length) (g (c.rest.length - k)) P) :
    Local k stop slack c (remaining >>= f) (remaining >>= g) P := by
  intro hc
  obtain ⟨hon, hvalue, hcut⟩ := h hc
  refine ⟨hon, hvalue, fun hclear hlong hsome => ?_⟩
  show g (c.cut k stop).rest.length (c.cut k stop) = _
  rw [Cursor.cut_length (Nat.le_of_lt hsome)]
  exact hcut hclear hlong hsome

/-- A loop that takes a token each time it runs, on two counts that are both enough. -/
theorem loop {f : Nat → σ → Parse α} {R : Cursor → α → Cursor → Prop} (I : σ → Cursor → Prop)
    (zero : ∀ s c, I s c → c.rest = [] → Local k stop 1 c (f 0 s) (f 0 s) (R c))
    (succ : ∀ n m s c, I s c →
      (∀ s' d, I s' d → d.rest.length < c.rest.length → Local k stop 1 d (f n s') (f m s') (R d)) →
      Local k stop 1 c (f (n + 1) s) (f (m + 1) s) (R c))
    (n m : Nat) (s : σ) (c : Cursor) (hs : I s c) (hn : c.rest.length ≤ n)
    (hm : c.rest.length ≤ k + m) : Local k stop 1 c (f n s) (f m s) (R c) := by
  induction n generalizing m s c with
  | zero =>
      have hnil : c.rest = [] := List.eq_nil_of_length_eq_zero (Nat.le_zero.mp hn)
      exact (zero s c hs hnil).short (by simp [hnil])
  | succ n ih =>
      have step : ∀ m, c.rest.length ≤ k + (m + 1) →
          Local k stop 1 c (f (n + 1) s) (f (m + 1) s) (R c) := by
        intro m hm
        refine succ n m s c hs fun s' d hs' hlt => ih m s' d hs' ?_ ?_
        · omega
        · omega
      cases m with
      | zero => exact (step 0 (by omega)).short hm
      | succ m => exact step m hm

/-- The same loop, run on the counts of the tokens ahead. -/
theorem counted {f : Nat → σ → Parse α} {R : Cursor → α → Cursor → Prop} (I : σ → Cursor → Prop)
    (zero : ∀ s c, I s c → c.rest = [] → Local k stop 1 c (f 0 s) (f 0 s) (R c))
    (succ : ∀ n m s c, I s c →
      (∀ s' d, I s' d → d.rest.length < c.rest.length → Local k stop 1 d (f n s') (f m s') (R d)) →
      Local k stop 1 c (f (n + 1) s) (f (m + 1) s) (R c))
    (s : σ) (hs : I s c) :
    Local k stop 1 c (f c.rest.length s) (f (c.rest.length - k) s) (R c) :=
  loop I zero succ _ _ s c hs (Nat.le_refl _) (by omega)

/-! ## Marks and names -/

end Local

theorem eat_apply (s : Symbol) (c : Cursor) :
    eat s c = if c.isAt s then (true, c.advance) else (false, c) := by
  show (if c.isAt s = true then (advance >>= fun _ => pure true : Parse Bool) else pure false) c = _
  split <;> rfl

theorem expect_apply (s : Symbol) (c : Cursor) :
    expect s c = if c.isAt s then ((), c.advance) else
      report (.expected ("'" ++ s.text ++ "'") c.found) c := by
  unfold expect
  show (if (eat s c).1 = true then (pure () : Parse Unit) else
    found >>= fun t => report (.expected ("'" ++ s.text ++ "'") t)) (eat s c).2 = _
  rw [eat_apply]
  split <;> rfl

namespace Local

theorem eat (s : Symbol) : Local k stop 1 c (eat s) (eat s) fun b d =>
    (b = true → d.rest.length < c.rest.length) ∧ (b = false → d = c) := by
  refine isAt (ite (fun h => ?_) fun h => pure ⟨by simp, fun _ => rfl⟩)
  refine advance.loosen.bind fun _ d _ hd => pure ⟨fun _ => ?_, by simp⟩
  rw [hd]
  exact Cursor.advance_lt (Cursor.ne_nil_of_isAt h)

theorem eatWord (w : Keyword) : Local k stop 1 c (eatWord w) (eatWord w) fun b d =>
    b = c.isAtWord w ∧ (b = true → d.rest.length < c.rest.length) := by
  refine isAtWord (ite (fun h => ?_) fun h => pure ⟨by simpa using h, by simp⟩)
  refine advance.loosen.bind fun _ d _ hd => pure ⟨h.symm, fun _ => ?_⟩
  rw [hd]
  exact Cursor.advance_lt (Cursor.ne_nil_of_isAtWord h)

/-- The mark that is expected is taken without a look at what follows. -/
theorem expect (s : Symbol) : Local k stop 0 c (expect s) (expect s) fun _ d =>
    d.reports = c.reports → ∃ l, c.rest = l :: d.rest ∧ l.token = .mark s := by
  intro hc
  by_cases hs : c.isAt s = true
  · have hrun : Parse.expect s c = ((), c.advance) := by rw [expect_apply, if_pos hs]
    constructor
    · rw [hrun]
      exact .advance c
    · rw [hrun]
      exact fun _ => Cursor.exists_of_isAt hs
    · intro _ hlong hsome
      rw [hrun] at hlong ⊢
      have hlong : k ≤ c.advance.rest.length := hlong
      rw [expect_apply, Cursor.cut_isAt hsome, if_pos hs, Cursor.cut_advance hlong]
  · have hrun : Parse.expect s c =
        Parse.report (.expected ("'" ++ s.text ++ "'") c.found) c := by
      rw [expect_apply, if_neg hs]
    have hreports : (Parse.expect s c).2.reports ≠ c.reports := by
      rw [hrun]
      exact List.cons_ne_self _ _
    exact ⟨by rw [hrun]; exact .report c _ _, fun h => absurd h hreports,
      fun h => absurd h hreports⟩

theorem expectWord (w : Keyword) : Local k stop 1 c (expectWord w) (expectWord w) fun _ d =>
    c.isAtWord w = true → d.rest.length < c.rest.length := by
  refine (eatWord w).bind fun b d _ hb => ite (fun h => pure fun _ => hb.2 h) fun h => ?_
  refine found ((report _).mono fun _ _ _ _ hw => ?_)
  rw [hb.1, hw] at h
  exact absurd rfl h

theorem name? : Local k stop 1 c name? name? fun n d =>
    (n.isSome → d.rest.length < c.rest.length) ∧
      (n = none → ∀ text, c.peek ≠ some (.name text)) := by
  refine peek ?_
  split
  · next text ht =>
      refine here fun s _ => advance.loosen.bind fun _ d _ hd => pure ⟨fun _ => ?_, by simp⟩
      rw [hd]
      refine Cursor.advance_lt fun hnil => ?_
      simp [Cursor.peek, hnil] at ht
  · next hne => exact pure ⟨by simp, fun _ text ht => hne text ht⟩

theorem expectName : Local k stop 1 c expectName expectName fun _ d =>
    ∀ text, c.peek = some (.name text) → d.rest.length < c.rest.length := by
  refine name?.bind fun n d _ hn => ?_
  cases n with
  | some n => exact pure fun _ _ => hn.1 rfl
  | none =>
      exact found ((report _).bind fun _ _ _ _ => here fun _ _ =>
        pure fun text ht => absurd ht (hn.2 rfl text))

theorem list (close : Symbol) {element : Parse α} {R : α → Prop}
    (helement : ∀ c, Local k stop 1 c element element fun a _ => R a) :
    Local k stop 1 c (list close element) (list close element) fun xs _ => ∀ a ∈ xs, R a := by
  refine remaining (counted (f := fun n (_ : Unit) => listLoop close element n)
    (R := fun _ xs _ => ∀ a ∈ xs, R a) (fun _ _ => True)
    (fun _ _ _ _ => pure (by simp)) (fun n m s c _ ih => ?_) () trivial)
  refine isAt (isAtEnd (ite (fun _ => pure (by simp)) fun _ => ?_))
  refine (helement c).bind fun a d hd ha => (eat .comma).bind fun b e _ hb => ite (fun h => ?_)
    fun _ => pure (by simpa using ha)
  -- the comma is the token that this round takes
  have hlt : e.rest.length < c.rest.length := Nat.lt_of_lt_of_le (hb.1 h) hd.le
  exact (ih () e trivial hlt).bind fun xs _ _ hxs => pure (by simpa using ⟨ha, hxs⟩)

/-- Refusing gives up all of the text, and reports it. -/
theorem refuse {stub : Span → α} {y : Parse α}
    (h : ∀ s d, s.Placed → d.rest = [] → d.reports ≠ c.reports → P (stub s) d) :
    Local k stop slack c (refuse stub) y P := by
  intro hc
  refine ⟨⟨⟨c.rest, ?_, ?_⟩, rfl, List.suffix_cons _ _, ?_⟩,
    h _ _ hc.here rfl (List.cons_ne_self _ _), ?_⟩
  · exact (List.append_nil _).symm
  · rfl
  · exact fun hclear => absurd hclear (List.cons_ne_self _ _)
  · exact fun hclear => absurd hclear (List.cons_ne_self _ _)

theorem deeper {levels : Nat} {stub : Span → α} {body : Parse α}
    (hstub : ∀ s d, s.Placed → d.rest = [] → d.reports ≠ c.reports → P (stub s) d)
    (hbody : Local k stop slack c body body P) :
    Local k stop slack c (deeper levels stub body) (deeper levels stub body) P := by
  have hrun : ∀ d, Parse.deeper levels stub body d =
      if levels ≤ d.refused then Parse.refuse stub d else body d := by
    intro d
    show (if levels ≤ d.refused then Parse.refuse stub else body) d = _
    split <;> rfl
  intro hc
  by_cases h : levels ≤ c.refused
  · have hrefuse : Local k stop slack c (Parse.refuse stub) (Parse.deeper levels stub body) P :=
      refuse hstub
    obtain ⟨hon, hvalue, hcut⟩ := hrefuse hc
    constructor <;> rw [hrun, if_pos h] <;> assumption
  · obtain ⟨hon, hvalue, hcut⟩ := hbody hc
    constructor
    · rwa [hrun, if_neg h]
    · rwa [hrun, if_neg h]
    · rw [hrun, hrun, if_neg h, if_neg (show ¬ levels ≤ (c.cut k stop).refused from h)]
      exact hcut

end Local

end Parse

end Graft
