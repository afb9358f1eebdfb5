import Graft.Proofs.Cursors
import Graft.Proofs.Indexed

/-!
# Both ways of reading keep pace

The reader with a position and the cursor over the tokens ahead do the same, step by step, and the
reader with a position never crashes.
-/

namespace Graft.Parse

variable {α β σ : Type}

/-! ## States -/

/-- What reading one item leaves as it is. -/
structure Frame where
  lexemes : List Lexeme
  stop : Span
  /-- How many items were read. -/
  done : Nat := 0

/-- The reader and the cursor stand at the same place of the text, `active` levels deep, with at
most `most` tokens ahead. -/
structure Level (frame : Frame) (active most : Nat) (m : Machine) (c : Cursor) : Prop where
  tokens : m.tokens = slots frame.lexemes frame.stop
  position : m.position ≤ frame.lexemes.length
  rest : c.rest = frame.lexemes.drop m.position
  stop : c.stop = frame.stop
  behind : c.behind = (frame.lexemes.take m.position).getLast?.map Lexeme.span
  diagnostics : m.diagnostics = c.reports.reverse
  depth : m.depth = c.refused + active
  /-- Before anything is reported no level is refused, and every item was left at level zero. -/
  clear : c.reports = [] → c.refused = 0 ∧ m.depths = List.replicate frame.done 0
  ahead : c.rest.length ≤ most

variable {frame : Frame} {active most : Nat} {m : Machine} {c : Cursor}

theorem length_slots (lexemes : List Lexeme) (stop : Span) :
    (slots lexemes stop).length = lexemes.length + 1 := by simp [slots]

theorem Indexed.bind_apply {x : Indexed α} {f : α → Indexed β} {a : α} {m' : Machine}
    (h : x m = .ok (a, m')) : (x >>= f) m = f a m' := by
  show (x m >>= fun p => f p.1 p.2) = _
  rw [h]
  rfl

namespace Level

theorem loosen (h : Level frame active most m c) {more : Nat} (hle : most ≤ more) :
    Level frame active more m c := { h with ahead := Nat.le_trans h.ahead hle }

theorem tighten (h : Level frame active most m c) :
    Level frame active c.rest.length m c := { h with ahead := Nat.le_refl _ }

theorem left (h : Level frame active most m c) : m.left = c.rest.length + 1 := by
  have hposition := h.position
  rw [Machine.left, h.tokens, length_slots, h.rest, List.length_drop]
  omega

theorem pos (h : Level frame active most m c) (hne : c.rest ≠ []) : 0 < most :=
  Nat.lt_of_lt_of_le (List.length_pos_iff.mpr hne) h.ahead

/-- What is ahead is in the list. -/
theorem slot (h : Level frame active most m c) :
    Indexed.slot m = .ok (⟨c.peek, c.here⟩, m) := by
  have hslot : m.tokens[m.position]? = some ⟨c.peek, c.here⟩ := by
    have hrest := h.rest
    rw [h.tokens, slots]
    by_cases hp : m.position < frame.lexemes.length
    · rw [List.drop_eq_getElem_cons hp] at hrest
      rw [List.getElem?_append_left (by simpa using hp), List.getElem?_map,
        List.getElem?_eq_getElem hp, Cursor.peek, Cursor.here, hrest]
      rfl
    · have hend : m.position = frame.lexemes.length := Nat.le_antisymm h.position (Nat.not_lt.mp hp)
      rw [hend, List.drop_length] at hrest
      rw [List.getElem?_append_right (by simp [hend]), Cursor.peek, Cursor.here, hrest]
      simp [hend, h.stop]
  show Indexed.slot.run m = _
  simp only [Indexed.slot, StateT.run_bind, StateT.run_get, pure_bind, hslot]
  rfl

theorem peek (h : Level frame active most m c) : Indexed.peek m = .ok (c.peek, m) :=
  Indexed.bind_apply h.slot

theorem here (h : Level frame active most m c) : Indexed.here m = .ok (c.here, m) :=
  Indexed.bind_apply h.slot

/-- What is behind is in the list. -/
theorem before (h : Level frame active most m c) :
    Indexed.before m = .ok (c.before, m) := by
  show Indexed.before.run m = _
  have hposition := h.position
  have hbehind := h.behind
  simp only [Indexed.before, StateT.run_bind, StateT.run_get, pure_bind]
  by_cases hzero : m.position = 0
  · rw [hzero, List.take_zero] at hbehind
    rw [if_pos hzero, Cursor.before, hbehind]
    exact h.here
  · have hlt : m.position - 1 < frame.lexemes.length := by omega
    have htake : (frame.lexemes.take m.position).getLast? =
        some frame.lexemes[m.position - 1] := by
      rw [List.getLast?_take, if_neg hzero, List.getElem?_eq_getElem hlt]
      rfl
    have hslot : m.tokens[m.position - 1]? =
        some ⟨some frame.lexemes[m.position - 1].token, frame.lexemes[m.position - 1].span⟩ := by
      rw [h.tokens, slots, List.getElem?_append_left (by simpa using hlt), List.getElem?_map,
        List.getElem?_eq_getElem hlt]
      rfl
    rw [htake] at hbehind
    rw [if_neg hzero, hslot, Cursor.before, hbehind]
    rfl

theorem found (h : Level frame active most m c) : Indexed.found m = .ok (c.found, m) := by
  rw [Indexed.found, Indexed.bind_apply h.peek, Cursor.found]
  cases c.peek <;> rfl

theorem isAt (h : Level frame active most m c) (s : Symbol) :
    Indexed.isAt s m = .ok (c.isAt s, m) := by
  rw [Indexed.isAt, Indexed.bind_apply h.peek, Cursor.isAt]
  rcases c.peek with _ | _ | _ | _ | _ <;> rfl

theorem isAtWord (h : Level frame active most m c) (k : Keyword) :
    Indexed.isAtWord k m = .ok (c.isAtWord k, m) := by
  rw [Indexed.isAtWord, Indexed.bind_apply h.peek, Cursor.isAtWord]
  rcases c.peek with _ | _ | _ | _ | _ <;> rfl

theorem isAtEnd (h : Level frame active most m c) :
    Indexed.isAtEnd m = .ok (c.isAtEnd, m) := by
  rw [Indexed.isAtEnd, Indexed.bind_apply h.peek, Cursor.peek, Cursor.isAtEnd]
  cases c.rest <;> rfl

/-- Both step over one token. -/
theorem advance (h : Level frame active most m c) :
    ∃ m', Indexed.advance m = .ok ((), m') ∧ Level frame active (most - 1) m' c.advance := by
  have hlength : m.tokens.length = frame.lexemes.length + 1 := by rw [h.tokens, length_slots]
  have hrest := h.rest
  have hahead := h.ahead
  refine ⟨_, Indexed.bind_apply h.slot, ?_⟩
  dsimp only
  by_cases hp : m.position < frame.lexemes.length
  · rw [List.drop_eq_getElem_cons hp] at hrest
    rw [hrest, List.length_cons] at hahead
    rw [if_pos (by omega), Cursor.advance, hrest]
    constructor
    case tokens => exact h.tokens
    case position => exact hp
    case rest => rfl
    case stop => exact h.stop
    case behind => simp [List.getLast?_take, List.getElem?_eq_getElem hp]
    case diagnostics => exact h.diagnostics
    case depth => exact h.depth
    case clear => exact h.clear
    case ahead => exact Nat.le_sub_one_of_lt hahead
  · have hend : c.rest = [] := by rw [hrest, List.drop_eq_nil_of_le (Nat.not_lt.mp hp)]
    rw [if_neg (by omega), Cursor.advance, hend]
    exact { h with ahead := by simp [hend] }

theorem reportAt (h : Level frame active most m c) (p : Problem) (span : Span) :
    Level frame active most (m.log (p.report span)) (c.report p span) :=
  { h with
    diagnostics := by simp [h.diagnostics, Machine.log, Cursor.report]
    clear := by simp [Cursor.report] }

end Level

/-! ## Steps -/

/-- The reader does from `m` what the cursor does from `c`, and then `post` holds. -/
def Mirrors (m : Machine) (c : Cursor) (x : Indexed α) (y : Parse α)
    (post : α → Machine → Cursor → Prop) : Prop :=
  ∃ m', x m = .ok ((y c).1, m') ∧ post (y c).1 m' (y c).2

namespace Mirrors

variable {x : Indexed α} {y : Parse α} {f : α → Indexed β} {g : α → Parse β}
  {mid : α → Machine → Cursor → Prop} {post : β → Machine → Cursor → Prop}

theorem pure {b : β} (h : post b m c) : Mirrors m c (pure b) (pure b) post := ⟨m, rfl, h⟩

theorem bind (h : Mirrors m c x y mid)
    (hf : ∀ a m c, mid a m c → Mirrors m c (f a) (g a) post) :
    Mirrors m c (x >>= f) (y >>= g) post := by
  obtain ⟨m', hx, hmid⟩ := h
  obtain ⟨m'', hrun, hpost⟩ := hf _ _ _ hmid
  exact ⟨m'', (Indexed.bind_apply hx).trans hrun, hpost⟩

/-- A step that only looks. -/
theorem look {v : α} (hx : x m = .ok (v, m)) (hy : y c = (v, c))
    (h : Mirrors m c (f v) (g v) post) : Mirrors m c (x >>= f) (y >>= g) post := by
  obtain ⟨m', hrun, hpost⟩ := h
  refine ⟨m', (Indexed.bind_apply hx).trans ?_, ?_⟩
  · rw [hrun]
    show _ = Except.ok ((g (y c).1 (y c).2).1, m')
    rw [hy]
  · show post (g (y c).1 (y c).2).1 m' (g (y c).1 (y c).2).2
    rw [hy]
    exact hpost

theorem mono (h : Mirrors m c x y mid) {mid' : α → Machine → Cursor → Prop}
    (himp : ∀ a m c, mid a m c → mid' a m c) : Mirrors m c x y mid' := by
  obtain ⟨m', hx, hmid⟩ := h
  exact ⟨m', hx, himp _ _ _ hmid⟩

theorem ite {p : Prop} [Decidable p] {x x' : Indexed α} {y y' : Parse α}
    (h : p → Mirrors m c x y mid) (h' : ¬p → Mirrors m c x' y' mid) :
    Mirrors m c (if p then x else x') (if p then y else y') mid := by
  split
  · next hp => exact h hp
  · next hp => exact h' hp

variable (h : Level frame active most m c)

include h

theorem advance : Mirrors m c Indexed.advance Parse.advance fun _ =>
    Level frame active (most - 1) := h.advance

theorem reportAt (p : Problem) (span : Span) :
    Mirrors m c (Indexed.reportAt p span) (Parse.reportAt p span) fun _ =>
      Level frame active most := ⟨_, rfl, h.reportAt p span⟩

theorem report (p : Problem) : Mirrors m c (Indexed.report p) (Parse.report p) fun _ =>
    Level frame active most :=
  ⟨_, Indexed.bind_apply h.here, h.reportAt p c.here⟩

theorem eat (s : Symbol) : Mirrors m c (Indexed.eat s) (Parse.eat s) fun b m' c' =>
    b = c.isAt s ∧ if b = true then 0 < most ∧ Level frame active (most - 1) m' c'
      else m' = m ∧ c' = c := by
  refine look (h.isAt s) rfl (ite (fun hs => ?_) fun hs => pure ?_)
  · have hpos := h.pos (Cursor.ne_nil_of_isAt hs)
    exact (advance h).bind fun _ m c h' => pure ⟨hs.symm, hpos, h'⟩
  · exact ⟨by simpa using hs, rfl, rfl⟩

theorem eatWord (k : Keyword) : Mirrors m c (Indexed.eatWord k) (Parse.eatWord k) fun b m' c' =>
    b = c.isAtWord k ∧ if b = true then 0 < most ∧ Level frame active (most - 1) m' c'
      else m' = m ∧ c' = c := by
  refine look (h.isAtWord k) rfl (ite (fun hk => ?_) fun hk => pure ?_)
  · have hpos := h.pos (Cursor.ne_nil_of_isAtWord hk)
    exact (advance h).bind fun _ m c h' => pure ⟨hk.symm, hpos, h'⟩
  · exact ⟨by simpa using hk, rfl, rfl⟩

/-- A mark that is looked for: it is stepped over, or both go on where they are. -/
theorem eatThen {s : Symbol} {A B : Indexed β} {A' B' : Parse β}
    (hthen : ∀ m c, Level frame active (most - 1) m c → 0 < most → Mirrors m c A A' post)
    (helse : Mirrors m c B B' post) :
    Mirrors m c (Indexed.eat s >>= fun b => if b = true then A else B)
      (Parse.eat s >>= fun b => if b = true then A' else B') post := by
  refine (eat h s).bind fun b m' c' ⟨_, hb⟩ => ite (fun htrue => ?_) fun hfalse => ?_
  · rw [if_pos htrue] at hb
    exact hthen m' c' hb.2 hb.1
  · rw [if_neg hfalse] at hb
    obtain ⟨rfl, rfl⟩ := hb
    exact helse

theorem expect (s : Symbol) : Mirrors m c (Indexed.expect s) (Parse.expect s) fun _ =>
    Level frame active most := by
  refine (eat h s).bind fun b m' c' ⟨_, hb⟩ => ?_
  cases b with
  | true => exact pure (hb.2.loosen (Nat.sub_le _ _))
  | false =>
      obtain ⟨rfl, rfl⟩ := hb
      exact look h.found rfl (report h _)

theorem expectWord (k : Keyword) : Mirrors m c (Indexed.expectWord k) (Parse.expectWord k) fun _ =>
    Level frame active (if c.isAtWord k = true then most - 1 else most) := by
  refine (eatWord h k).bind fun b m' c' ⟨hk, hb⟩ => ?_
  rw [← hk]
  cases b with
  | true => exact pure hb.2
  | false =>
      obtain ⟨rfl, rfl⟩ := hb
      exact look h.found rfl (report h _)

/-- A word that was seen is stepped over. -/
theorem keyword {k : Keyword} (hk : c.isAtWord k = true) :
    Mirrors m c (Indexed.expectWord k) (Parse.expectWord k) fun _ =>
      Level frame active (most - 1) := by
  have hmirrors := expectWord h k
  rwa [if_pos hk] at hmirrors

theorem name? : Mirrors m c Indexed.name? Parse.name? fun n m' c' =>
    (n.isSome = true ↔ ∃ text, c.peek = some (.name text)) ∧
      if n.isSome = true then Level frame active (most - 1) m' c' else m' = m ∧ c' = c := by
  refine look h.peek rfl ?_
  rcases hpeek : c.peek with _ | _ | _ | _ | text
  case some.name =>
    exact look h.here rfl ((advance h).bind fun _ m c h' => pure ⟨by simp, h'⟩)
  all_goals exact pure ⟨by simp, rfl, rfl⟩

theorem expectName : Mirrors m c Indexed.expectName Parse.expectName fun _ m' c' =>
    Level frame active most m' c' ∧
      ((∃ text, c.peek = some (.name text)) → Level frame active (most - 1) m' c') := by
  refine (name? h).bind fun n m' c' ⟨hn, hlevel⟩ => ?_
  cases n with
  | some n => exact pure ⟨hlevel.loosen (Nat.sub_le _ _), fun _ => hlevel⟩
  | none =>
      obtain ⟨rfl, rfl⟩ := hlevel
      refine look h.found rfl ((report h _).bind fun _ m c h' => look h'.here rfl (pure ⟨h', ?_⟩))
      intro htext
      exact absurd (hn.mpr htext) (by simp)

end Mirrors

/-! ## Loops -/

/-- How the body of a loop that stands at `m` goes on. -/
def Indexed.goOn (body : (σ → Indexed β) → σ → Indexed β) (m : Machine) (s : σ) : Indexed β :=
  fun m' => if m'.left < m.left then again body s m' else throw .stalled

theorem Indexed.again_apply (body : (σ → Indexed β) → σ → Indexed β) (s : σ) (m : Machine) :
    again body s m = body (goOn body m) s m := by
  rw [again]
  rfl

namespace Mirrors

variable {body : (σ → Indexed β) → σ → Indexed β} {post : β → Machine → Cursor → Prop}

theorem step {s : σ} {y : Parse β} (h : Mirrors m c (body (Indexed.goOn body m) s) y post) :
    Mirrors m c (Indexed.again body s) y post := by
  obtain ⟨m', hrun, hpost⟩ := h
  exact ⟨m', (Indexed.again_apply body s m).trans hrun, hpost⟩

/-- A loop may go on once it has stepped over a token. -/
theorem goOn {s : σ} {y : Parse β} {frame' : Frame} {m' : Machine} {c' : Cursor} {n : Nat}
    (h : Level frame active most m c) (h' : Level frame' active n m' c')
    (hlt : n < c.rest.length) (hnext : Mirrors m' c' (Indexed.again body s) y post) :
    Mirrors m' c' (Indexed.goOn body m s) y post := by
  have hahead := h'.ahead
  have hleft : m'.left < m.left := by
    rw [h.left, h'.left]
    omega
  obtain ⟨m'', hrun, hpost⟩ := hnext
  exact ⟨m'', (if_pos hleft).trans hrun, hpost⟩

/-- Both loops do the same if their bodies do: the body steps over a token before it goes on. -/
theorem again (loop : Nat → σ → Parse β)
    (hend : ∀ s (c : Cursor), loop 0 s { c with rest := [] } = loop 1 s { c with rest := [] })
    (hbody : ∀ fuel s n m c next, Level frame active n m c →
      (∀ s n' m c, Level frame active n' m c → n' < n →
        Mirrors m c (next s) (loop fuel s) fun _ => Level frame active n') →
      Mirrors m c (body next s) (loop (fuel + 1) s) fun _ => Level frame active n)
    (h : Level frame active most m c) {fuel : Nat} (hfuel : c.rest.length ≤ fuel) (s : σ) :
    Mirrors m c (Indexed.again body s) (loop fuel s) fun _ => Level frame active most := by
  induction fuel generalizing s m c most with
  | zero =>
      have hnil : c.rest = [] := List.length_eq_zero_iff.mp (Nat.le_zero.mp hfuel)
      -- at the end of the text the body does not go on
      have hlast := hbody 0 s _ m c (Indexed.goOn body m) h.tighten fun s n m c h hlt => by
        simp [hnil] at hlt
      apply step
      have hloop : loop 0 s c = loop 1 s c := by
        have h := hend s c
        rwa [← hnil] at h
      rw [Mirrors, hloop]
      exact hlast.mono fun _ _ _ h' => h'.loosen h.ahead
  | succ fuel ih =>
      apply step
      -- going on from behind a token, with less fuel
      refine (hbody fuel s _ m c _ h.tighten fun s n m' c' h' hlt => ?_).mono fun _ _ _ h' =>
        h'.loosen h.ahead
      have hahead := h'.ahead
      exact goOn h h' hlt (ih h' (by omega) s)

end Mirrors

/-- From the same place both do the same, and step over `k` tokens at least, if there are as
many. -/
def Paces (frame : Frame) (active k : Nat) (x : Indexed α) (y : Parse α) : Prop :=
  ∀ ⦃n m c⦄, Level frame active n m c →
    Mirrors m c x y fun _ => Level frame active (n - k)

theorem Paces.loosen {x : Indexed α} {y : Parse α} {k : Nat}
    (h : Paces frame active k x y) : Paces frame active 0 x y := fun _ _ _ hlevel =>
  (h hlevel).mono fun _ _ _ h' => h'.loosen (Nat.sub_le _ _)

namespace Mirrors

/-- A count of the tokens ahead. -/
theorem count {x : Indexed α} {g : Nat → Parse α} {post : α → Machine → Cursor → Prop}
    (h : Mirrors m c x (g c.rest.length) post) : Mirrors m c x (remaining >>= g) post := h

/-- What is noted changes nothing that the cursor knows. -/
theorem note {f : Unit → Indexed α} {y : Parse α} {post : α → Machine → Cursor → Prop}
    (h : Mirrors { m with depths := m.depths ++ [m.depth] } c (f ()) y post) :
    Mirrors m c (Indexed.note >>= f) y post := h

theorem list (close : Symbol) {x : Indexed α} {y : Parse α}
    (hxy : Paces frame active 0 x y) (h : Level frame active most m c) :
    Mirrors m c (Indexed.list close x) (Parse.list close y) fun _ => Level frame active most := by
  refine again (fun fuel _ => listLoop close y fuel) (fun _ _ => rfl) ?_ h (Nat.le_refl _) ()
  intro fuel _ n m c next h hnext
  refine look (h.isAt close) rfl (look h.isAtEnd rfl (ite (fun _ => pure h) fun _ => ?_))
  refine (hxy h).bind fun a m c h => ?_
  refine eatThen h (fun m c h' hpos => ?_) (pure h)
  exact (hnext () _ m c h' (by omega)).bind fun as m c h' => pure (h'.loosen (Nat.sub_le _ _))

end Mirrors

/-! ## Levels -/

namespace Level

/-- Giving up the rest of the text comes to its end. -/
theorem skip (h : Level frame active most m c) :
    ∃ m', Indexed.skip m = .ok ((), m') ∧ Level frame active 0 m' c.skip := by
  unfold Indexed.skip
  induction hn : c.rest.length generalizing m c most with
  | zero =>
      have hnil : c.rest = [] := List.length_eq_zero_iff.mp hn
      have hend : c.isAtEnd = true := by simp [Cursor.isAtEnd, hnil]
      have hskip : c.skip = c := by
        cases c
        cases hnil
        rfl
      refine ⟨m, ?_, ?_⟩
      · rw [Indexed.again, Indexed.bind_apply h.isAtEnd, if_pos hend]
        rfl
      · rw [hskip, ← hn]
        exact h.tighten
  | succ n ih =>
      have hne : c.rest ≠ [] := by
        intro hnil
        simp [hnil] at hn
      have hend : ¬c.isAtEnd = true := by simpa [Cursor.isAtEnd] using hne
      obtain ⟨m', hrun, h'⟩ := h.advance
      have hlength : c.advance.rest.length = n := by
        rw [Cursor.advance_rest, List.length_tail, hn]
        rfl
      have hleft : m'.left < m.left := by
        rw [h.left, h'.left]
        omega
      have hskip : c.advance.skip = c.skip := by
        obtain ⟨l, rest, hrest⟩ := List.exists_cons_of_ne_nil hne
        simp only [Cursor.advance, Cursor.skip, hrest, List.getLast?_cons]
        cases rest.getLast? <;> rfl
      obtain ⟨m'', hrun', h''⟩ := ih h' hlength
      rw [hskip] at h''
      refine ⟨m'', ?_, h''⟩
      rw [Indexed.again, Indexed.bind_apply h.isAtEnd, if_neg hend, Indexed.bind_apply hrun]
      exact (if_pos hleft).trans hrun'

theorem enter (h : Level frame active most m c) :
    Level frame (active + 1) most m.deepen c :=
  { h with depth := by simp [h.depth, Machine.deepen, Nat.add_assoc] }

theorem leave (h : Level frame (active + 1) most m c) :
    ∃ m', Indexed.leave m = .ok ((), m') ∧ Level frame active most m' c := by
  have hdepth : m.depth = (c.refused + active) + 1 := by rw [h.depth, Nat.add_assoc]
  have hrun : Indexed.leave m = .ok ((), { m with depth := c.refused + active }) := by
    show Indexed.leave.run m = _
    simp only [Indexed.leave, StateT.run_bind, StateT.run_get, pure_bind, hdepth]
    rfl
  exact ⟨_, hrun, { h with depth := rfl }⟩

end Level

theorem Indexed.enter_apply (m : Machine) :
    Indexed.enter m = (if maxLevels < m.depth + 1 then (do
        report .tooDeep
        return false)
      else return true : Indexed Bool) m.deepen := rfl

namespace Mirrors

variable {x : Indexed α} {y : Parse α} {stub : Span → α} {most' : Nat}

/-- Where no level is left both give up the rest of the text. -/
theorem refuse (hdeep : maxLevels < c.refused + active + 1)
    (h : Level frame active most m c) :
    Mirrors m c (Indexed.nested stub x) (Parse.refuse stub) fun _ => Level frame active most' := by
  have hentered := h.enter
  have hreported := hentered.reportAt .tooDeep c.here
  obtain ⟨m', hskip, h'⟩ := hreported.skip
  have henter : Indexed.enter m = .ok (false, m.deepen.log (Problem.tooDeep.report c.here)) := by
    rw [Indexed.enter_apply, if_pos (by rw [h.depth]; exact hdeep),
      Indexed.bind_apply (Indexed.bind_apply hentered.here)]
    rfl
  refine ⟨m', ?_, ?_⟩
  · rw [Indexed.nested, Indexed.bind_apply henter, if_neg Bool.false_ne_true,
      Indexed.bind_apply hreported.here, Indexed.bind_apply hskip]
    rfl
  · have hdepth : m'.depth = c.refused + (active + 1) := h'.depth
    exact { h' with
      rest := h'.rest
      depth := by
        show m'.depth = c.refused + 1 + active
        omega
      clear := fun hnil => absurd hnil (List.cons_ne_nil _ _)
      ahead := Nat.zero_le _ }

/-- Both read one level deeper, or neither does. -/
theorem nested {levels : Nat} (hlevels : levels + active = maxLevels)
    (hxy : ∀ {m c}, Level frame (active + 1) most m c →
      Mirrors m c x y fun _ => Level frame (active + 1) most')
    (h : Level frame active most m c) :
    Mirrors m c (Indexed.nested stub x) (deeper levels stub y) fun _ =>
      Level frame active most' := by
  have hdeeper : deeper levels stub y c =
      (if levels ≤ c.refused then Parse.refuse stub else y : Parse α) c := rfl
  unfold Mirrors
  rw [hdeeper]
  by_cases hlevel : levels ≤ c.refused
  · rw [if_pos hlevel]
    exact refuse (by omega) h
  · rw [if_neg hlevel]
    have henter : Indexed.enter m = .ok (true, m.deepen) := by
      have hdepth := h.depth
      rw [Indexed.enter_apply, if_neg (by omega)]
      rfl
    obtain ⟨m', hrun, h'⟩ := hxy h.enter
    obtain ⟨m'', hleave, h''⟩ := h'.leave
    refine ⟨m'', ?_, h''⟩
    rw [Indexed.nested, Indexed.bind_apply henter, if_pos rfl, Indexed.bind_apply hrun,
      Indexed.bind_apply hleave]
    rfl

end Mirrors

/-! ## Expressions -/

theorem names_mirrors (h : Level frame active most m c) :
    Mirrors m c Indexed.names (pathLoop c.rest.length) fun _ => Level frame active most := by
  refine .again (fun fuel _ => pathLoop fuel) (fun _ _ => rfl) ?_ h (Nat.le_refl _) ()
  intro fuel _ n m c next h hnext
  refine .eatThen h (fun m c h hpos => ?_) (.pure h)
  refine (Mirrors.name? h).bind fun name m' c' ⟨_, hname⟩ => ?_
  cases name with
  | some name =>
      have h' := hname.loosen (Nat.sub_le _ _)
      exact (hnext () _ m' c' h' (by omega)).bind fun names m c h =>
        .pure (h.loosen (Nat.sub_le _ _))
  | none =>
      obtain ⟨rfl, rfl⟩ := hname
      exact (Mirrors.report h _).bind fun _ m c h => .pure (h.loosen (Nat.sub_le _ _))

/-- A path ends where its first name does, or behind it. -/
theorem path_mirrors (h : Mirrors m c Indexed.expectName expectName fun _ =>
    Level frame active most) :
    Mirrors m c Indexed.path path fun _ => Level frame active most :=
  h.bind fun _ _ _ h => .count ((names_mirrors h).bind fun _ _ _ h => .pure h)

theorem path_paces : Paces frame active 0 Indexed.path path := fun _ _ _ h =>
  path_mirrors ((Mirrors.expectName h).mono fun _ _ _ h' => h'.1)

section

variable {sub : Nat → Indexed Expr} {sub' : Nat → Parse Expr}
  (hsub : ∀ power, Paces frame active 1 (sub power) (sub' power))

include hsub

theorem parenthesized_paces (start : Span) : Paces frame active 0
    (Indexed.parenthesized sub start) (parenthesized sub' start) := by
  intro n m c h
  have hfirst := (hsub 0).loosen
  refine (hfirst h).bind fun first m c h => .eatThen h (fun m c h _ => ?_) ?_
  · refine (Mirrors.list _ hfirst h).bind fun more m c h => ?_
    refine (Mirrors.expect h _).bind fun _ m c h => ?_
    exact .look h.before rfl (.pure (h.loosen (Nat.sub_le _ _)))
  · exact (Mirrors.expect h _).bind fun _ m c h => .pure h

/-- A name with what follows it ends where its path does, or behind it. -/
theorem named_mirrors (start : Span)
    (h : Mirrors m c Indexed.path path fun _ => Level frame active most) :
    Mirrors m c (Indexed.named sub start) (named sub' start) fun _ => Level frame active most := by
  refine h.bind fun p m c h => .look h.before rfl (.eatThen h (fun m c h _ => ?_) ?_)
  · refine (Mirrors.list _ (hsub 0).loosen h).bind fun more m c h => ?_
    refine (Mirrors.expect h _).bind fun _ m c h => ?_
    exact .look h.before rfl (.pure (h.loosen (Nat.sub_le _ _)))
  · exact .ite (fun _ => .pure h) fun _ => .pure h

theorem primary_paces : Paces frame active 1 (Indexed.primary sub) (primary sub') := by
  intro n m c h
  have hatom : ∀ e : Expr, Mirrors m c (do Indexed.advance; return e) (do advance; return e)
      fun _ => Level frame active (n - 1) := fun e =>
    (Mirrors.advance h).bind fun _ m c h => .pure h
  have hother : Mirrors m c
      (do
        Indexed.report (.notAnExpression (← Indexed.found))
        Indexed.advance
        return Expr.num 0 c.here)
      (do
        report (.notAnExpression (← found))
        advance
        return Expr.num 0 c.here) fun _ => Level frame active (n - 1) := by
    refine .look h.found rfl ((Mirrors.report h _).bind fun _ m c h => ?_)
    exact (Mirrors.advance h).bind fun _ m c h => .pure h
  refine .look h.here rfl (.look h.peek rfl ?_)
  cases hpeek : c.peek with
  | none => exact hother
  | some t =>
      cases t with
      | number x => exact hatom _
      | name text =>
          have hname := (Mirrors.expectName h).mono fun _ m c h' => h'.2 ⟨text, hpeek⟩
          exact named_mirrors hsub _ (path_mirrors hname)
      | word k => cases k with
        | trueWord | falseWord => exact hatom _
        | _ => exact hother
      | mark s => cases s with
        | openParen =>
            exact (Mirrors.advance h).bind fun _ m c h => parenthesized_paces hsub _ h
        | openBracket =>
            refine (Mirrors.advance h).bind fun _ m c h => ?_
            refine (Mirrors.list _ (hsub 0).loosen h).bind fun es m c h => ?_
            exact (Mirrors.expect h _).bind fun _ m c h => .look h.before rfl (.pure h)
        | _ => exact hother

theorem postfixes_mirrors (h : Level frame active most m c) (e : Expr) :
    Mirrors m c (Indexed.postfixes sub e) (postfixLoop sub' c.rest.length e) fun _ =>
      Level frame active most := by
  refine .again (postfixLoop sub') (fun _ _ => rfl) ?_ h (Nat.le_refl _) e
  intro fuel e n m c next h hnext
  refine .eatThen h (fun m c h hpos => ?_) (.pure h)
  refine ((hsub 0).loosen h).bind fun first m c h => .eatThen h (fun m c h _ => ?_) ?_
  · refine ((hsub 0).loosen h).bind fun last m c h => ?_
    refine (Mirrors.expect h _).bind fun _ m c h => .look h.before rfl ?_
    exact (hnext _ _ m c h (by omega)).mono fun _ _ _ h => h.loosen (by omega)
  · refine (Mirrors.expect h _).bind fun _ m c h => .look h.before rfl ?_
    exact (hnext _ _ m c h (by omega)).mono fun _ _ _ h => h.loosen (by omega)

theorem operand_paces : Paces frame active 1 (Indexed.operand sub) (operand sub') := by
  intro n m c h
  refine .look h.here rfl (.look h.peek rfl ?_)
  cases c.peek.bind unaryOf? with
  | some op =>
      refine (Mirrors.advance h).bind fun _ m c h => ?_
      exact ((hsub _).loosen h).bind fun e m c h => .pure h
  | none =>
      refine (primary_paces hsub h).bind fun e m c h => ?_
      exact .count (postfixes_mirrors hsub h e)

theorem operators_mirrors (power : Nat) (h : Level frame active most m c) (left : Expr) :
    Mirrors m c (Indexed.operators sub power left) (operatorLoop sub' power c.rest.length left)
      fun _ => Level frame active most := by
  refine .again (operatorLoop sub' power) (fun _ _ => rfl) ?_ h (Nat.le_refl _) left
  intro fuel left n m c next h hnext
  refine .look h.peek rfl ?_
  cases hop : c.peek.bind binaryOf? with
  | none => exact .pure h
  | some op =>
      have hpos : 0 < n := by
        apply h.pos
        intro hnil
        simp [Cursor.peek, hnil] at hop
      refine .ite (fun _ => .pure h) fun _ => ?_
      refine (Mirrors.advance h).bind fun _ m c h => ?_
      refine ((hsub _).loosen h).bind fun right m c h => ?_
      exact (hnext _ _ m c h (by omega)).mono fun _ _ _ h => h.loosen (by omega)

end

/-- Expressions are read alike at every level, the refused ones too. -/
theorem expr_paces {levels : Nat} (hlevels : levels + active = maxLevels) (power : Nat) :
    Paces frame active 1 (Indexed.expr (levels + 1) power) (expr levels power) := by
  induction levels generalizing active power with
  | zero => exact fun n m c h => .refuse (by omega) h
  | succ levels ih =>
      intro n m c h
      refine .nested hlevels (fun h => ?_) h
      have hsub : ∀ power, Paces frame (active + 1) 1 (Indexed.expr (levels + 1) power)
          (expr levels power) := fun power => ih (by omega) power
      refine (operand_paces hsub h).bind fun left m c h => ?_
      exact .count (operators_mirrors hsub power h left)

end Graft.Parse
