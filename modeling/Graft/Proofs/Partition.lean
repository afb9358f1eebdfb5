import Graft.Proofs.Cutting
import Mathlib.Data.List.Pairwise

/-!
# How a text is cut up

The scan cuts a text into pieces that lie one behind the other and leave nothing out. A byte that is
in no token is white space, part of a comment, or reported once.
-/

namespace Graft

/-- The byte at `p` lies in the span. -/
def Span.Covers (s : Span) (p : Nat) : Prop := s.start ≤ p ∧ p < s.stop

instance (s : Span) (p : Nat) : Decidable (s.Covers p) := inferInstanceAs (Decidable (_ ∧ _))

namespace Scan

/-! ## Cuts -/

/-- A piece and its place. -/
structure Cut where
  piece : Piece
  span : Span

/-- The pieces of `bytes`, which start at `position`. -/
def cuts (position : Nat) (bytes : List UInt8) : List Cut :=
  match bytes with
  | [] => []
  | b :: rest =>
    let next := position + 1 + (piece b rest).2
    ⟨(piece b rest).1, ⟨position, next⟩⟩ :: cuts next (rest.drop (piece b rest).2)
termination_by bytes.length
decreasing_by simp only [List.length_drop, List.length_cons]; omega

/-- The token that a cut holds. -/
def Cut.lexeme? (c : Cut) : Option Lexeme :=
  match c.piece with
  | .token t => some ⟨t, c.span⟩
  | _ => none

/-- The report on a cut that is no token. -/
def Cut.report? (c : Cut) : Option Diagnostic :=
  match c.piece with
  | .fault p => some (p.report c.span)
  | _ => none

/-- The scan sorts the pieces into tokens and reports. -/
theorem scanFrom_cuts (stop position : Nat) (bytes : List UInt8) :
    scanFrom stop position bytes =
      ⟨(cuts position bytes).filterMap Cut.lexeme?, ⟨stop, stop⟩,
        (cuts position bytes).filterMap Cut.report?⟩ := by
  induction position, bytes using scanFrom.induct with
  | case1 position => simp [scanFrom, cuts]
  | case2 position b rest p more hpiece next ih =>
      rw [scanFrom, cuts, hpiece]
      dsimp only
      rw [ih]
      cases p <;> rfl

/-- A cut as it stands in a text: it starts with `b`, and `rest` follows up to the end of the
text. -/
structure Cut.Stands (text : List UInt8) (c : Cut) (b : UInt8) (rest : List UInt8) (more : Nat) :
    Prop where
  bytes : text.drop c.span.start = b :: rest
  stop : c.span.stop = c.span.start + 1 + more
  fits : more ≤ rest.length
  shape : Shape b rest c.piece more

variable {text : List UInt8} {c c' : Cut} {b : UInt8} {rest : List UInt8} {more position p : Nat}

theorem Cut.Stands.at_start (h : c.Stands text b rest more) : text[c.span.start]? = some b := by
  rw [← List.head?_drop, h.bytes, List.head?_cons]

theorem Cut.Stands.after_start (h : c.Stands text b rest more) (i : Nat) :
    text[c.span.start + 1 + i]? = rest[i]? := by
  rw [Nat.add_assoc, ← List.getElem?_drop, h.bytes, Nat.add_comm, List.getElem?_cons_succ]

/-- The bytes of a cut are its first and those after it. -/
theorem Cut.Stands.byte (h : c.Stands text b rest more) (hp : c.span.Covers p) :
    p = c.span.start ∨ ∃ i, p = c.span.start + 1 + i ∧ i < more ∧ text[p]? = rest[i]? := by
  obtain ⟨hstart, hstop⟩ := hp
  rw [h.stop] at hstop
  by_cases hfirst : p = c.span.start
  · exact .inl hfirst
  · obtain ⟨i, rfl⟩ : ∃ i, p = c.span.start + 1 + i := ⟨p - (c.span.start + 1), by omega⟩
    exact .inr ⟨i, rfl, by omega, h.after_start i⟩

theorem Cut.Stands.stop_le (h : c.Stands text b rest more) : c.span.stop ≤ text.length := by
  have hlength := congrArg List.length h.bytes
  rw [List.length_drop, List.length_cons] at hlength
  have hfits := h.fits
  have hstop := h.stop
  omega

theorem le_of_mem_cuts {bytes : List UInt8} (hc : c ∈ cuts position bytes) :
    position ≤ c.span.start := by
  induction position, bytes using cuts.induct with
  | case1 position => simp [cuts] at hc
  | case2 position b rest next ih =>
      rw [cuts, List.mem_cons] at hc
      rcases hc with rfl | hc
      · exact Nat.le_refl _
      · have := ih hc
        omega

theorem stands_of_mem {bytes : List UInt8} (hbytes : text.drop position = bytes)
    (hc : c ∈ cuts position bytes) : ∃ b rest more, c.Stands text b rest more := by
  induction position, bytes using cuts.induct with
  | case1 position => simp [cuts] at hc
  | case2 position b rest next ih =>
      rw [cuts, List.mem_cons] at hc
      rcases hc with rfl | hc
      · exact ⟨b, rest, _, hbytes, rfl, piece_le b rest, Shape.piece b rest⟩
      · apply ih _ hc
        rw [← List.drop_drop, ← List.drop_drop, hbytes]
        rfl

theorem cuts_ordered (position : Nat) (bytes : List UInt8) :
    (cuts position bytes).Pairwise fun c c' => c.span.stop ≤ c'.span.start := by
  induction position, bytes using cuts.induct with
  | case1 position => simp [cuts]
  | case2 position b rest next ih =>
      rw [cuts]
      exact List.pairwise_cons.mpr ⟨fun c hc => le_of_mem_cuts hc, ih⟩

/-- Every byte is in a piece. -/
theorem exists_cut {bytes : List UInt8} (hstart : position ≤ p)
    (hstop : p < position + bytes.length) : ∃ c ∈ cuts position bytes, c.span.Covers p := by
  induction position, bytes using cuts.induct with
  | case1 position => simp at hstop; omega
  | case2 position b rest next ih =>
      rw [cuts]
      by_cases hp : p < next
      · exact ⟨_, List.mem_cons_self, hstart, hp⟩
      · rw [List.length_cons] at hstop
        have hlength : p < next + (rest.drop (piece b rest).2).length := by
          rw [List.length_drop]
          omega
        obtain ⟨c, hc, hcovers⟩ := ih (by omega) hlength
        exact ⟨c, List.mem_cons_of_mem _ hc, hcovers⟩

/-- No byte is in two pieces. -/
theorem cut_unique {bytes : List UInt8} (hc : c ∈ cuts position bytes)
    (hc' : c' ∈ cuts position bytes) (hp : c.span.Covers p) (hp' : c'.span.Covers p) : c = c' := by
  by_contra hne
  have hordered : (cuts position bytes).Pairwise fun c c' =>
      c.span.stop ≤ c'.span.start ∨ c'.span.stop ≤ c.span.start :=
    (cuts_ordered position bytes).imp Or.inl
  have : Std.Symm fun c c' : Cut => c.span.stop ≤ c'.span.start ∨ c'.span.stop ≤ c.span.start :=
    ⟨fun _ _ => Or.symm⟩
  have hapart := hordered.forall hc hc' hne
  obtain ⟨hstart, hstop⟩ := hp
  obtain ⟨hstart', hstop'⟩ := hp'
  omega

/-! ## Comments -/

/-- The byte at `p` is part of a comment of the text, of which the bytes before `start` do not
count: there are two slashes, and no line ends between them and `p`. -/
def InComment (text : List UInt8) (start p : Nat) : Prop :=
  ∃ i, start ≤ i ∧ i ≤ p ∧ text[i]? = some 47 ∧ text[i + 1]? = some 47 ∧
    ∀ j, i ≤ j → j ≤ p → text[j]? ≠ some 10

instance (text : List UInt8) (start p : Nat) : Decidable (InComment text start p) :=
  decidable_of_iff (∃ i < p + 1, start ≤ i ∧ text[i]? = some 47 ∧ text[i + 1]? = some 47 ∧
      ∀ j < p + 1, i ≤ j → text[j]? ≠ some 10) (by
    simp only [Nat.lt_succ_iff, InComment]
    grind)

/-- Two slashes, of which a piece has the first, start or continue a comment. -/
theorem Cut.Stands.comment (h : c.Stands text b rest more) {i : Nat} (hi : c.span.Covers i)
    (hslash : text[i]? = some 47) (hslash' : text[i + 1]? = some 47) :
    b = 47 ∧ c.piece = .blank ∧ more = (rest.takeWhile (· != 10)).length := by
  have hplace : (b = 47 ∧ rest.head? = some 47) ∨ ∃ k, k < more ∧ rest[k]? = some 47 := by
    rcases h.byte hi with rfl | ⟨k, rfl, hk, hbyte⟩
    · left
      have hnext := h.after_start 0
      rw [h.at_start] at hslash
      rw [Nat.add_zero, hslash'] at hnext
      exact ⟨Option.some.inj hslash, by rw [List.head?_eq_getElem?, ← hnext]⟩
    · exact .inr ⟨k, hk, by rw [← hbyte, hslash]⟩
  obtain ⟨-, -, -, hshape⟩ := h
  generalize c.piece = q at hshape ⊢
  cases hshape with
  | comment hb hrest => exact ⟨hb, rfl, rfl⟩
  | blank hblank =>
      rcases hplace with ⟨rfl, -⟩ | ⟨k, hk, -⟩
      · cases hblank
      · cases hk
  | token hblank hdouble htoken =>
      rcases hplace with ⟨hb, hrest⟩ | ⟨k, hk, hbyte⟩
      · exact (hdouble hb hrest).elim
      · have hmem : (47 : UInt8) ∈ rest.take more := by
          apply List.mem_of_getElem? (i := k)
          rwa [List.getElem?_take_of_lt hk]
        exact ((htoken.others 47 hmem).2 rfl).elim
  | stray hblank hne =>
      rcases hplace with ⟨hb, -⟩ | ⟨k, hk, -⟩
      · exact (hne hb).elim
      · cases hk
  | lone hlone =>
      rcases hplace with ⟨rfl, -⟩ | ⟨k, hk, -⟩
      · simp at hlone
      · cases hk

theorem takeWhile_stop {p : UInt8 → Bool} {u : List UInt8} {x : UInt8}
    (h : u[(u.takeWhile p).length]? = some x) : p x = false := by
  induction u with
  | nil => simp at h
  | cons y u ih =>
      by_cases hy : p y = true
      · simp only [List.takeWhile_cons, hy, if_true, List.length_cons,
          List.getElem?_cons_succ] at h
        exact ih h
      · simp only [List.takeWhile_cons, hy, Bool.false_eq_true, if_false, List.length_nil,
          List.getElem?_cons_zero, Option.some.injEq] at h
        rw [← h]
        simpa using hy

/-- The pieces that are comments are those with a byte in a comment. -/
theorem inComment_iff (hc : c ∈ cuts position (text.drop position)) (hp : c.span.Covers p) :
    InComment text position p ↔ c.piece = .blank ∧ text[c.span.start]? = some 47 := by
  obtain ⟨b, rest, more, hstands⟩ := stands_of_mem rfl hc
  constructor
  · rintro ⟨i, hstart, hip, hslash, hslash', hline⟩
    have hlength : i < text.length := (List.getElem?_eq_some_iff.mp hslash).1
    have hin : i < position + (text.drop position).length := by
      rw [List.length_drop]
      omega
    obtain ⟨c', hc', hi⟩ := exists_cut hstart hin
    obtain ⟨b', rest', more', hstands'⟩ := stands_of_mem rfl hc'
    obtain ⟨rfl, hblank, hmore⟩ := hstands'.comment hi hslash hslash'
    -- the comment goes on to `p`, for it would end only at the end of a line
    have hreach : p < c'.span.stop := by
      by_contra hstop
      have hbyte := hstands'.after_start more'
      rw [← hstands'.stop] at hbyte
      have hlt : c'.span.stop < text.length := by
        have := hp.2
        have := hstands.stop_le
        omega
      rw [List.getElem?_eq_getElem hlt] at hbyte
      rw [hmore] at hbyte
      have hend := takeWhile_stop hbyte.symm
      have hnot := hline c'.span.stop hi.2.le (by omega)
      rw [List.getElem?_eq_getElem hlt] at hnot
      simp at hend
      exact hnot (congrArg some hend)
    obtain rfl := cut_unique hc' hc ⟨hi.1.trans hip, hreach⟩ hp
    exact ⟨hblank, hstands'.at_start⟩
  · rintro ⟨hpiece, hslash⟩
    obtain rfl : b = 47 := by
      rw [hstands.at_start] at hslash
      exact Option.some.inj hslash
    have hcomment : rest.head? = some 47 ∧ more = (rest.takeWhile (· != 10)).length := by
      have hshape := hstands.shape
      rw [hpiece] at hshape
      cases hshape with
      | blank hblank => cases hblank
      | comment _ hrest => exact ⟨hrest, rfl⟩
    refine ⟨c.span.start, le_of_mem_cuts hc, hp.1, hslash, ?_, ?_⟩
    · have hnext := hstands.after_start 0
      rwa [Nat.add_zero, ← List.head?_eq_getElem?, hcomment.1] at hnext
    · intro j hij hjp
      rcases hstands.byte ⟨hij, hjp.trans_lt hp.2⟩ with rfl | ⟨k, rfl, hk, hbyte⟩
      · rw [hslash]
        decide
      · intro hend
        rw [hbyte] at hend
        have hmem : (10 : UInt8) ∈ rest.takeWhile (· != 10) := by
          apply List.mem_of_getElem? (i := k)
          rw [← take_takeWhile, ← hcomment.2, List.getElem?_take_of_lt hk, hend]
        have hnot := List.mem_takeWhile_imp hmem
        simp at hnot

/-! ## Tokens and reports -/

@[simp] theorem Cut.lexeme?_eq_some {l : Lexeme} :
    c.lexeme? = some l ↔ c = ⟨.token l.token, l.span⟩ := by
  obtain ⟨q, span⟩ := c
  obtain ⟨t, place⟩ := l
  cases q <;> simp [Cut.lexeme?]

theorem Cut.report?_eq_some {d : Diagnostic} :
    c.report? = some d ↔ ∃ q, c = ⟨.fault q, d.span⟩ ∧ d = q.report d.span := by
  obtain ⟨q, span⟩ := c
  cases q with
  | fault q =>
      simp only [Cut.report?, Option.some.injEq, Cut.mk.injEq, Piece.fault.injEq]
      constructor
      · rintro rfl
        exact ⟨q, ⟨rfl, rfl⟩, rfl⟩
      · rintro ⟨_, ⟨rfl, rfl⟩, hd⟩
        exact hd.symm
  | _ => simp [Cut.report?]

theorem mem_tokens {bytes : List UInt8} {l : Lexeme} {stop : Nat} :
    l ∈ (scanFrom stop position bytes).tokens ↔ ⟨.token l.token, l.span⟩ ∈ cuts position bytes := by
  simp [scanFrom_cuts]

theorem mem_diagnostics {bytes : List UInt8} {d : Diagnostic} {stop : Nat} :
    d ∈ (scanFrom stop position bytes).diagnostics ↔
      ∃ q, ⟨.fault q, d.span⟩ ∈ cuts position bytes ∧ d = q.report d.span := by
  simp only [scanFrom_cuts, List.mem_filterMap, Cut.report?_eq_some]
  constructor
  · rintro ⟨c, hc, q, rfl, hd⟩
    exact ⟨q, hc, hd⟩
  · rintro ⟨q, hc, hd⟩
    exact ⟨_, hc, q, rfl, hd⟩

/-- The bytes of a token, scanned alone, are that token. -/
theorem TokenBytes.scan {t : Token} (h : TokenBytes b rest t more) (stop position : Nat) :
    scanFrom stop position (b :: rest.take more) =
      ⟨[⟨t, ⟨position, position + 1 + more⟩⟩], ⟨stop, stop⟩, []⟩ := by
  have hrest : (rest.take more).drop more = [] := by simp
  rw [scanFrom, h.alone]
  dsimp only
  rw [hrest, scanFrom]
  rfl

theorem tokens_ordered (stop position : Nat) (bytes : List UInt8) :
    (scanFrom stop position bytes).tokens.Pairwise fun l m => l.span.stop ≤ m.span.start := by
  rw [scanFrom_cuts]
  apply (cuts_ordered position bytes).filterMap
  rintro c c' h l hl m hm
  rw [Cut.lexeme?_eq_some.mp hl, Cut.lexeme?_eq_some.mp hm] at h
  exact h

theorem reports_ordered (stop position : Nat) (bytes : List UInt8) :
    (scanFrom stop position bytes).diagnostics.Pairwise fun d d' =>
      d.span.stop ≤ d'.span.start := by
  rw [scanFrom_cuts]
  apply (cuts_ordered position bytes).filterMap
  intro c c' h d hd d' hd'
  obtain ⟨q, rfl, -⟩ := Cut.report?_eq_some.mp hd
  obtain ⟨q', rfl, -⟩ := Cut.report?_eq_some.mp hd'
  exact h

/-- A token as it stands in a text. -/
theorem token_stands {l : Lexeme} {stop : Nat}
    (hl : l ∈ (scanFrom stop position (text.drop position)).tokens) : ∃ b rest more,
      Cut.Stands text ⟨.token l.token, l.span⟩ b rest more ∧ TokenBytes b rest l.token more := by
  obtain ⟨b, rest, more, hstands⟩ := stands_of_mem rfl (mem_tokens.mp hl)
  refine ⟨b, rest, more, hstands, ?_⟩
  cases hstands.shape with
  | token _ _ h => exact h

/-- The bytes of a cut, cut out of a longer text. -/
theorem Cut.Stands.part {bytes : List UInt8} {stop : Nat}
    (h : c.Stands (bytes.take stop) b rest more) :
    (bytes.take c.span.stop).drop c.span.start = b :: rest.take more := by
  have hle : c.span.stop ≤ stop := h.stop_le.trans (List.length_take_le _ _)
  have htake : bytes.take c.span.stop = (bytes.take stop).take c.span.stop := by
    rw [List.take_take, Nat.min_eq_left hle]
  have hlength : c.span.stop - c.span.start = more + 1 := by
    rw [h.stop]
    omega
  rw [htake, List.drop_take, h.bytes, hlength, List.take_succ_cons]

/-- Of reports behind one another one alone covers a place. -/
theorem countP_covers {ds : List Diagnostic}
    (h : ds.Pairwise fun d d' => d.span.stop ≤ d'.span.start) {d : Diagnostic} (hd : d ∈ ds)
    (hp : d.span.Covers p) : ds.countP (·.span.Covers p) = 1 := by
  induction ds with
  | nil => cases hd
  | cons d' ds ih =>
      obtain ⟨hfirst, hrest⟩ := List.pairwise_cons.mp h
      rcases List.mem_cons.mp hd with rfl | hd
      · have hnone : ds.countP (·.span.Covers p) = 0 := by
          rw [List.countP_eq_zero]
          intro d' hd'
          have := hfirst d' hd'
          rw [decide_eq_true_eq]
          rintro ⟨hstart, -⟩
          obtain ⟨-, hstop⟩ := hp
          omega
        simp [hnone, hp]
      · have hnot : ¬d'.span.Covers p := by
          have := hfirst d hd
          obtain ⟨hstart, -⟩ := hp
          rintro ⟨-, hstop⟩
          omega
        simp [hnot, ih hrest hd]

/-- A byte in no token is white space, part of a comment, or reported once. -/
theorem byte_accounted {stop : Nat} (hstart : position ≤ p) (hbyte : text[p]? = some b)
    (hnone : ∀ l ∈ (scanFrom stop position (text.drop position)).tokens, ¬l.span.Covers p) :
    isBlank b = true ∨ InComment text position p ∨
      (scanFrom stop position (text.drop position)).diagnostics.countP (·.span.Covers p) = 1 := by
  have hlength : p < text.length := (List.getElem?_eq_some_iff.mp hbyte).1
  have hin : p < position + (text.drop position).length := by
    rw [List.length_drop]
    omega
  obtain ⟨c, hc, hp⟩ := exists_cut hstart hin
  obtain ⟨x, rest, more, hstands⟩ := stands_of_mem rfl hc
  have htoken : ∀ t, c.piece = .token t →
      ⟨t, c.span⟩ ∈ (scanFrom stop position (text.drop position)).tokens := by
    intro t ht
    rw [mem_tokens, ← ht]
    exact hc
  have hreport : ∀ q, c.piece = .fault q → (scanFrom stop position
      (text.drop position)).diagnostics.countP (·.span.Covers p) = 1 := by
    intro q hq
    have hmem : q.report c.span ∈ (scanFrom stop position (text.drop position)).diagnostics := by
      refine mem_diagnostics.mpr ⟨q, ?_, rfl⟩
      rwa [← hq]
    exact countP_covers (reports_ordered _ _ _) hmem hp
  have hblank : more = 0 → isBlank x = true → isBlank b = true := by
    intro hmore hblank
    rcases hstands.byte hp with rfl | ⟨i, -, hi, -⟩
    · rw [hstands.at_start] at hbyte
      rwa [← Option.some.inj hbyte]
    · omega
  have hshape := hstands.shape
  generalize hpiece : c.piece = piece at hshape
  cases hshape with
  | blank h => exact .inl (hblank rfl h)
  | comment hb hrest =>
      right; left
      exact (inComment_iff hc hp).mpr ⟨hpiece, by rw [hstands.at_start, hb]⟩
  | token _ _ _ => exact (hnone _ (htoken _ hpiece) hp).elim
  | stray _ _ => exact .inr (.inr (hreport _ hpiece))
  | lone _ => exact .inr (.inr (hreport _ hpiece))

/-- The part of a text from `start` to `stop` is cut up without a gap or an overlap. -/
structure Partition (source : String) (start stop : Nat) (r : Result) : Prop where
  ended : r.stop = ⟨stop, stop⟩
  inside : ∀ l ∈ r.tokens,
    start ≤ l.span.start ∧ l.span.start < l.span.stop ∧ l.span.stop ≤ stop
  ordered : r.tokens.Pairwise fun l m => l.span.stop ≤ m.span.start
  /-- A byte in no token is white space, part of a comment, or reported once. -/
  accounted : ∀ p b, start ≤ p → p < stop → (bytesOf source)[p]? = some b →
    (∀ l ∈ r.tokens, ¬l.span.Covers p) →
    isBlank b = true ∨ InComment ((bytesOf source).take stop) start p ∨
      r.diagnostics.countP (·.span.Covers p) = 1
  /-- Scanning the part of the text that a token fills gives back that token. -/
  again : ∀ l ∈ r.tokens, range source l.span.start l.span.stop =
    ⟨[l], ⟨l.span.stop, l.span.stop⟩, []⟩
  /-- So does scanning a text of the same bytes. -/
  alone : ∀ l ∈ r.tokens, ∀ s : String,
    bytesOf s = ((bytesOf source).take l.span.stop).drop l.span.start →
    Scan.text s = ⟨[⟨l.token, ⟨0, s.utf8ByteSize⟩⟩], ⟨s.utf8ByteSize, s.utf8ByteSize⟩, []⟩
  /-- The text of a number is that of its value. -/
  read : ∀ l ∈ r.tokens, ∀ x, l.token = .number x → Decimal.read?
    ((((bytesOf source).take l.span.stop).drop l.span.start).map Char.ofUInt8) = some x
  /-- Nothing that looked like a number turned out to be none. -/
  wellFormed : ∀ d ∈ r.diagnostics, ∃ q : Problem, d = q.report d.span ∧
    ∀ numeral, q ≠ .malformedNumber numeral

theorem length_bytesOf (s : String) : (bytesOf s).length = s.utf8ByteSize := by
  simp [bytesOf]

theorem range_eq {source : String} {start stop : Nat} (h : start ≤ stop)
    (hstop : stop ≤ source.utf8ByteSize) :
    range source start stop = scanFrom stop start (((bytesOf source).take stop).drop start) := by
  rw [← length_bytesOf] at hstop
  rw [range, ← bytesOf, Nat.min_eq_left hstop, Nat.min_eq_left (h.trans hstop)]

/-- A token of a text is not empty, and it ends within the text. -/
theorem token_inside {source : String} {l : Lexeme} (hl : l ∈ (Scan.text source).tokens) :
    l.span.start < l.span.stop ∧ l.span.stop ≤ source.utf8ByteSize := by
  rw [Scan.text, range_eq (Nat.zero_le _) (Nat.le_refl _)] at hl
  obtain ⟨b, rest, more, hstands, -⟩ := token_stands hl
  have hle := hstands.stop_le
  have hstop := hstands.stop
  rw [List.length_take, length_bytesOf] at hle
  dsimp only at hle hstop
  omega

/-- Every part of every text is cut up so. -/
theorem range_partition {source : String} {start stop : Nat} (h : start ≤ stop)
    (hstop : stop ≤ source.utf8ByteSize) :
    Partition source start stop (range source start stop) := by
  obtain ⟨text, htext⟩ : ∃ text, text = (bytesOf source).take stop := ⟨_, rfl⟩
  have hlength : text.length = stop := by
    rw [htext, List.length_take, length_bytesOf, Nat.min_eq_left hstop]
  rw [range_eq h hstop, ← htext]
  -- what every case needs of a token: its bytes, and where they stand in the source
  have htoken : ∀ l ∈ (scanFrom stop start (text.drop start)).tokens, ∃ b rest more,
      Cut.Stands text ⟨.token l.token, l.span⟩ b rest more ∧ TokenBytes b rest l.token more ∧
        ((bytesOf source).take l.span.stop).drop l.span.start = b :: rest.take more := by
    intro l hl
    obtain ⟨b, rest, more, hstands, hbytes⟩ := token_stands hl
    rw [htext] at hstands
    exact ⟨b, rest, more, htext ▸ hstands, hbytes, hstands.part⟩
  constructor
  case ended => rw [scanFrom_cuts]
  case ordered => exact tokens_ordered _ _ _
  case inside =>
    intro l hl
    obtain ⟨b, rest, more, hstands, -⟩ := htoken l hl
    have hle : l.span.stop ≤ text.length := hstands.stop_le
    have hmore : l.span.stop = l.span.start + 1 + more := hstands.stop
    refine ⟨le_of_mem_cuts (mem_tokens.mp hl), ?_, ?_⟩ <;> omega
  case accounted =>
    intro p b hstart hp hbyte
    rw [← htext]
    apply byte_accounted hstart
    rwa [htext, List.getElem?_take_of_lt hp]
  case again =>
    intro l hl
    obtain ⟨b, rest, more, hstands, hbytes, hpart⟩ := htoken l hl
    have hle : l.span.stop ≤ text.length := hstands.stop_le
    have hmore : l.span.stop = l.span.start + 1 + more := hstands.stop
    rw [range_eq (by omega) (by omega), hpart, hbytes.scan, ← hmore]
  case alone =>
    intro l hl s hs
    obtain ⟨b, rest, more, hstands, hbytes, hpart⟩ := htoken l hl
    have hsize : s.utf8ByteSize = 0 + 1 + more := by
      have hfits := hstands.fits
      rw [← length_bytesOf, hs, hpart, List.length_cons, List.length_take]
      omega
    rw [Scan.text, range_eq (Nat.zero_le _) (Nat.le_refl _), List.drop_zero,
      List.take_of_length_le (length_bytesOf s).le, hs, hpart, hbytes.scan, ← hsize]
  case read =>
    intro l hl x hx
    obtain ⟨b, rest, more, hstands, hbytes, hpart⟩ := htoken l hl
    rw [hpart]
    exact hbytes.number x hx
  case wellFormed =>
    intro d hd
    obtain ⟨q, hc, hq⟩ := mem_diagnostics.mp hd
    refine ⟨q, hq, ?_⟩
    obtain ⟨b, rest, more, hstands⟩ := stands_of_mem rfl hc
    cases hstands.shape <;> rintro _ ⟨⟩

theorem range_partition_stray :
    1 ≤ 14 ∧ 14 ≤ ("x & 1.e5 // é!").utf8ByteSize ∧
      Partition "x & 1.e5 // é!" 1 14 (range "x & 1.e5 // é!" 1 14) :=
  ⟨by decide, by decide, range_partition (by decide) (by decide)⟩

end Scan

end Graft
