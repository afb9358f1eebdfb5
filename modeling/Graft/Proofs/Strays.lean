import Graft.Proofs.Partition
import Mathlib.Data.List.Sort

/-!
# Characters that belong to no token

The scan goes through a text byte by byte, while its reader sees characters. A token has only bytes
below 128, which are characters of their own, so that tokens end where characters end. A character
of more than one byte that is in no comment is reported as often as it has bytes, each time as the
character of the byte's number: a report names a stray character and its place exactly where the
character has one byte.
-/

namespace Graft.Scan

/-! ## Characters and their bytes -/

/-- A character of a text and the place of its bytes. -/
structure Spot where
  char : Char
  span : Span

/-- The characters `cs`, of which the first starts at `position`. -/
def spotsFrom (position : Nat) : List Char → List Spot
  | [] => []
  | c :: cs =>
    ⟨c, ⟨position, position + c.utf8Size⟩⟩ :: spotsFrom (position + c.utf8Size) cs

/-- The characters of a text. -/
def spots (source : String) : List Spot := spotsFrom 0 source.toList

/-- A character that is one byte. -/
def Spot.IsAscii (s : Spot) : Prop := s.char.toNat < 128

instance (s : Spot) : Decidable s.IsAscii := inferInstanceAs (Decidable (_ < _))

theorem bytesOf_singleton (c : Char) : bytesOf (String.singleton c) = String.utf8EncodeChar c := by
  simp [bytesOf, List.utf8Encode_singleton]

theorem mem_spotsFrom {position : Nat} {cs : List Char} {s : Spot} (h : s ∈ spotsFrom position cs) :
    ∃ front back, cs = front ++ s.char :: back ∧
      s.span.start = position + (String.ofList front).utf8ByteSize ∧
      s.span.stop = s.span.start + s.char.utf8Size := by
  induction cs generalizing position with
  | nil => cases h
  | cons c cs ih =>
      rcases List.mem_cons.mp h with rfl | h
      · exact ⟨[], cs, rfl, by simp, rfl⟩
      · obtain ⟨front, back, hcs, hstart, hstop⟩ := ih h
        refine ⟨c :: front, back, by rw [hcs, List.cons_append], ?_, hstop⟩
        rw [hstart, String.ofList_cons, String.utf8ByteSize_append, String.utf8ByteSize_singleton]
        omega

theorem spotsFrom_ordered (position : Nat) (cs : List Char) :
    (spotsFrom position cs).Pairwise fun s s' => s.span.stop ≤ s'.span.start := by
  induction cs generalizing position with
  | nil => exact .nil
  | cons c cs ih =>
      refine List.pairwise_cons.mpr ⟨?_, ih _⟩
      intro s hs
      obtain ⟨front, back, -, hstart, -⟩ := mem_spotsFrom hs
      show position + c.utf8Size ≤ s.span.start
      omega

theorem exists_spotFrom {position p : Nat} {cs : List Char} (hstart : position ≤ p)
    (hstop : p < position + (String.ofList cs).utf8ByteSize) :
    ∃ s ∈ spotsFrom position cs, s.span.Covers p := by
  induction cs generalizing position with
  | nil => simp at hstop; omega
  | cons c cs ih =>
      rw [String.ofList_cons, String.utf8ByteSize_append, String.utf8ByteSize_singleton] at hstop
      by_cases hp : p < position + c.utf8Size
      · exact ⟨_, List.mem_cons_self, hstart, hp⟩
      · have hnext : position + c.utf8Size ≤ p := by omega
        obtain ⟨s, hs, hcovers⟩ := ih hnext (by omega)
        exact ⟨s, List.mem_cons_of_mem _ hs, hcovers⟩

/-- A byte is in a character. -/
theorem exists_spot {source : String} {p : Nat} (h : p < (bytesOf source).length) :
    ∃ s ∈ spots source, s.span.Covers p := by
  rw [length_bytesOf] at h
  exact exists_spotFrom (Nat.zero_le p) (by simpa using h)

/-- A character as it stands in a text. -/
structure Spot.Stands (source : String) (s : Spot) : Prop where
  stop : s.span.stop = s.span.start + s.char.utf8Size
  bytes : ∀ i < s.char.utf8Size,
    (bytesOf source)[s.span.start + i]? = (String.utf8EncodeChar s.char)[i]?
  start_valid : (⟨s.span.start⟩ : String.Pos.Raw).IsValid source
  stop_valid : (⟨s.span.stop⟩ : String.Pos.Raw).IsValid source

theorem spot_stands {source : String} {s : Spot} (h : s ∈ spots source) : s.Stands source := by
  obtain ⟨front, back, hcs, hstart, hstop⟩ := mem_spotsFrom h
  have hsource : source =
      String.ofList front ++ (String.singleton s.char ++ String.ofList back) := by
    rw [← String.ofList_cons, ← String.ofList_append, ← hcs, String.ofList_toList]
  rw [Nat.zero_add] at hstart
  constructor
  case stop => exact hstop
  case bytes =>
    intro i hi
    rw [hsource, bytesOf_append, bytesOf_append, bytesOf_singleton, hstart, ← length_bytesOf,
      List.getElem?_append_right (by omega), Nat.add_sub_cancel_left,
      List.getElem?_append_left (by rwa [String.length_utf8EncodeChar])]
  case start_valid =>
    rw [String.Pos.Raw.isValid_iff_exists_append]
    refine ⟨_, _, hsource, ?_⟩
    rw [hstart]
    rfl
  case stop_valid =>
    rw [String.Pos.Raw.isValid_iff_exists_append]
    refine ⟨String.ofList front ++ String.singleton s.char, String.ofList back, ?_, ?_⟩
    · rw [String.append_assoc]
      exact hsource
    · apply String.Pos.Raw.ext
      show s.span.stop = (String.ofList front ++ String.singleton s.char).utf8ByteSize
      rw [hstop, hstart, String.utf8ByteSize_append, String.utf8ByteSize_singleton]

theorem utf8Size_of_ascii {c : Char} (h : c.toNat < 128) : c.utf8Size = 1 := by
  rw [Char.utf8Size_eq_one_iff, UInt32.le_iff_toNat_le]
  show c.toNat ≤ 127
  omega

theorem encode_of_ascii {c : Char} (h : c.toNat < 128) :
    String.utf8EncodeChar c = [UInt8.ofNat c.toNat] := by
  rw [String.utf8EncodeChar_eq_singleton (utf8Size_of_ascii h)]
  rfl

theorem toNat_asciiByte {c : Char} (h : c.toNat < 128) : (UInt8.ofNat c.toNat).toNat = c.toNat := by
  apply UInt8.toNat_ofNat_of_lt'
  exact h.trans (by decide)

/-- The bytes of a longer character are 128 and above. -/
theorem le_of_mem_encode {c : Char} (h : 128 ≤ c.toNat) {b : UInt8}
    (hb : b ∈ String.utf8EncodeChar c) : 128 ≤ b := by
  have hc : c.toNat = c.val.toNat := rfl
  have hvalid : c.val.toNat < 1114112 := by
    have := c.valid
    rcases this with h | ⟨-, h⟩ <;> omega
  rw [UInt8.le_iff_toNat_le]
  show 128 ≤ b.toNat
  unfold String.utf8EncodeChar at hb
  dsimp only at hb
  split at hb
  · omega
  · split at hb
    · simp at hb
      rcases hb with rfl | rfl <;> simp <;> omega
    · split at hb
      · simp at hb
        rcases hb with rfl | rfl | rfl <;> simp <;> omega
      · simp at hb
        rcases hb with rfl | rfl | rfl | rfl <;> simp <;> omega

variable {source : String} {s : Spot} {p : Nat} {b : UInt8} {c : Cut}

theorem Spot.Stands.byte (h : s.Stands source) (hp : s.span.Covers p) :
    ∃ b ∈ String.utf8EncodeChar s.char, (bytesOf source)[p]? = some b := by
  obtain ⟨hstart, hstop⟩ := hp
  rw [h.stop] at hstop
  obtain ⟨i, rfl⟩ : ∃ i, p = s.span.start + i := ⟨p - s.span.start, by omega⟩
  have hi : i < s.char.utf8Size := by omega
  have hlength : i < (String.utf8EncodeChar s.char).length := by
    rwa [String.length_utf8EncodeChar]
  exact ⟨_, List.getElem_mem hlength, by rw [h.bytes i hi, List.getElem?_eq_getElem hlength]⟩

/-- A byte below 128 is a character of the same number. -/
theorem Spot.Stands.ascii (h : s.Stands source) (hp : s.span.Covers p)
    (hbyte : (bytesOf source)[p]? = some b) (hb : b < 128) :
    s.IsAscii ∧ s.span = ⟨p, p + 1⟩ ∧ b.toNat = s.char.toNat := by
  obtain ⟨x, hx, hxp⟩ := h.byte hp
  obtain rfl : b = x := Option.some.inj (hbyte.symm.trans hxp)
  have hascii : s.char.toNat < 128 := by
    by_contra hwide
    have := le_of_mem_encode (Nat.le_of_not_lt hwide) hx
    rw [UInt8.le_iff_toNat_le] at this
    rw [UInt8.lt_iff_toNat_lt] at hb
    omega
  have hstop := h.stop
  rw [utf8Size_of_ascii hascii] at hstop
  rw [encode_of_ascii hascii, List.mem_singleton] at hx
  refine ⟨hascii, ?_, ?_⟩
  · obtain ⟨hstart, hlt⟩ := hp
    have hfirst : s.span.start = p := by omega
    rw [← hfirst, ← hstop]
  · rw [hx, toNat_asciiByte hascii]

theorem Spot.Stands.lt_iff (h : s.Stands source) (hp : s.span.Covers p)
    (hbyte : (bytesOf source)[p]? = some b) : b < 128 ↔ s.IsAscii := by
  constructor
  · exact fun hb => (h.ascii hp hbyte hb).1
  · intro hascii
    obtain ⟨x, hx, hxp⟩ := h.byte hp
    obtain rfl : b = x := Option.some.inj (hbyte.symm.trans hxp)
    rw [encode_of_ascii hascii, List.mem_singleton] at hx
    rw [hx, UInt8.lt_iff_toNat_lt, toNat_asciiByte hascii]
    exact hascii

/-! ## Stray characters -/

/-- The characters that the scan passes over. -/
def isBlankChar (c : Char) : Bool :=
  c == ' ' || c == '\t' || c == '\n' || c == '\x0c' || c == '\r'

/-- A character that is not white space, in no comment and in no token. -/
structure Stray (source : String) (s : Spot) : Prop where
  visible : isBlankChar s.char = false
  outside : ¬InComment (bytesOf source) 0 s.span.start
  alone : ∀ l ∈ (text source).tokens, ¬l.span.Covers s.span.start

instance (source : String) (s : Spot) : Decidable (Stray source s) :=
  decidable_of_iff (isBlankChar s.char = false ∧ ¬InComment (bytesOf source) 0 s.span.start ∧
      ∀ l ∈ (text source).tokens, ¬l.span.Covers s.span.start)
    ⟨fun ⟨h, h', h''⟩ => ⟨h, h', h''⟩, fun ⟨h, h', h''⟩ => ⟨h, h', h''⟩⟩

/-- The stray characters of a text. -/
def strays (source : String) : List Spot := (spots source).filter (Stray source ·)

/-- The number of a character in at least four upper-case hexadecimal digits. -/
def codePoint (c : Char) : String :=
  let digits := (Nat.toDigits 16 c.toNat).map Char.toUpper
  String.ofList (List.replicate (4 - digits.length) '0' ++ digits)

/-- The report that names a stray character. -/
def Spot.report (s : Spot) : Diagnostic where
  kind := .malformed
  message :=
    "unexpected character '" ++ String.singleton s.char ++ "' (U+" ++ codePoint s.char ++ ")"
  span := s.span
  help := some "this character is not part of the fastats syntax"

/-- The reports on the single bytes of a character. -/
def Spot.byteReports (s : Spot) : List Diagnostic :=
  (String.utf8EncodeChar s.char).mapIdx fun i b =>
    (Problem.strayByte b).report ⟨s.span.start + i, s.span.start + i + 1⟩

theorem isBlank_eq {c : Char} (h : b.toNat = c.toNat) : isBlank b = isBlankChar c := by
  have hbyte : ∀ n : UInt8, ∀ m : Char, n.toNat = m.toNat → (b == n) = (c == m) := by
    intro n m hn
    rw [Bool.eq_iff_iff, beq_iff_eq, beq_iff_eq, ← UInt8.toNat_inj, ← Char.toNat_inj, h, hn]
  rw [isBlank, isBlankChar, hbyte 32 ' ' rfl, hbyte 9 '\t' rfl, hbyte 10 '\n' rfl,
    hbyte 12 '\x0c' rfl, hbyte 13 '\r' rfl]

theorem ofUInt8_ofNat {c : Char} (h : c.toNat < 128) : Char.ofUInt8 (UInt8.ofNat c.toNat) = c := by
  apply Char.toNat_inj.mp
  have hnat : (Char.ofUInt8 (UInt8.ofNat c.toNat)).toNat = (UInt8.ofNat c.toNat).toNat :=
    UInt8.toNat_toUInt32 _
  rw [hnat, toNat_asciiByte h]

theorem hexText_ofNat {c : Char} (h : c.toNat < 128) :
    hexText (UInt8.ofNat c.toNat) = codePoint c := by
  unfold hexText codePoint
  simp only [toNat_asciiByte h]

theorem Spot.byteReports_of_ascii (hs : s.Stands source) (h : s.IsAscii) :
    s.byteReports = [s.report] := by
  have hspan : s.span = ⟨s.span.start, s.span.start + 1⟩ := by
    have hstop := hs.stop
    rw [utf8Size_of_ascii h] at hstop
    rw [← hstop]
  have hcode := hexText_ofNat h
  have hchar := ofUInt8_ofNat h
  rw [byteReports, encode_of_ascii h]
  generalize UInt8.ofNat s.char.toNat = b at hcode hchar ⊢
  have hmessage : (Problem.strayByte b).message = s.report.message := by
    show "unexpected character '" ++ String.singleton (Char.ofUInt8 b) ++ "' (U+" ++ hexText b ++
      ")" = s.report.message
    rw [hchar, hcode, report]
  show [(Problem.strayByte b).report ⟨s.span.start, s.span.start + 1⟩] = [s.report]
  rw [← hspan, Problem.report, hmessage]
  rfl

theorem Spot.mem_byteReports {d : Diagnostic} (hs : s.Stands source) :
    d ∈ s.byteReports ↔ ∃ p b, s.span.Covers p ∧ (bytesOf source)[p]? = some b ∧
      d = (Problem.strayByte b).report ⟨p, p + 1⟩ := by
  simp only [byteReports, List.mem_mapIdx]
  constructor
  · rintro ⟨i, hi, rfl⟩
    rw [String.length_utf8EncodeChar] at hi
    have hstop := hs.stop
    refine ⟨s.span.start + i, _, ⟨by omega, by omega⟩, ?_, rfl⟩
    rw [hs.bytes i hi, List.getElem?_eq_getElem]
  · rintro ⟨p, b, ⟨hstart, hlt⟩, hbyte, rfl⟩
    obtain ⟨i, rfl⟩ : ∃ i, p = s.span.start + i := ⟨p - s.span.start, by omega⟩
    rw [hs.stop] at hlt
    have hi : i < s.char.utf8Size := by omega
    rw [hs.bytes i hi] at hbyte
    obtain ⟨hlength, hget⟩ := List.getElem?_eq_some_iff.mp hbyte
    exact ⟨i, hlength, by rw [hget]⟩

/-- The bytes of a character from which on a comment runs are those before it. -/
theorem inComment_spot (hs : s.Stands source) (hp : s.span.Covers p) :
    InComment (bytesOf source) 0 p ↔ InComment (bytesOf source) 0 s.span.start := by
  -- behind the first byte of a character there is no slash and no line end
  have hinner : ∀ j, s.span.start < j → j ≤ p →
      ∀ b, (bytesOf source)[j]? = some b → b ≠ 47 ∧ b ≠ 10 := by
    intro j hj hjp b hbyte
    have hcovers : s.span.Covers j := ⟨hj.le, hjp.trans_lt hp.2⟩
    by_cases hb : b < 128
    · obtain ⟨-, hspan, -⟩ := hs.ascii hcovers hbyte hb
      rw [hspan] at hj
      exact (Nat.lt_irrefl _ hj).elim
    · constructor <;> rintro rfl <;> exact hb (by decide)
  constructor
  · rintro ⟨i, hzero, hip, hslash, hslash', hline⟩
    have hi : i ≤ s.span.start := by
      by_contra hi
      exact (hinner i (by omega) hip 47 hslash).1 rfl
    exact ⟨i, hzero, hi, hslash, hslash', fun j hij hj => hline j hij (hj.trans hp.1)⟩
  · rintro ⟨i, hzero, hi, hslash, hslash', hline⟩
    refine ⟨i, hzero, hi.trans hp.1, hslash, hslash', ?_⟩
    intro j hij hjp hend
    by_cases hj : j ≤ s.span.start
    · exact hline j hij hj hend
    · exact (hinner j (by omega) hjp 10 hend).2 rfl

theorem lt_of_isBlank (h : isBlank b = true) : b < 128 := by
  simp only [isBlank, Bool.or_eq_true, beq_iff_eq] at h
  rcases h with (((rfl | rfl) | rfl) | rfl) | rfl <;> decide

theorem lt_of_isBlankChar {c : Char} (h : isBlankChar c = true) : c.toNat < 128 := by
  simp only [isBlankChar, Bool.or_eq_true, beq_iff_eq] at h
  rcases h with (((rfl | rfl) | rfl) | rfl) | rfl <;> decide

/-- The bytes of a token are below 128. -/
theorem TokenBytes.lt {t : Token} {text rest : List UInt8} {x : UInt8} {more : Nat}
    (h : TokenBytes b rest t more) (hc : c.Stands text b rest more) (hp : c.span.Covers p)
    (hbyte : text[p]? = some x) : x < 128 := by
  rcases hc.byte hp with rfl | ⟨i, -, hi, hrest⟩
  · rw [hc.at_start] at hbyte
    rw [← Option.some.inj hbyte]
    exact h.first
  · refine (h.others x (List.mem_of_getElem? (i := i) ?_)).1
    rw [List.getElem?_take_of_lt hi, ← hrest, hbyte]

/-- A character with a byte in a token is one byte. -/
theorem Spot.Stands.of_token {l : Lexeme} (hs : s.Stands source) (hl : l ∈ (text source).tokens)
    (hp : l.span.Covers p) (hsp : s.span.Covers p) : s.IsAscii ∧ s.span = ⟨p, p + 1⟩ := by
  rw [text_eq] at hl
  obtain ⟨b, rest, more, hstands, hbytes⟩ : ∃ b rest more,
      Cut.Stands (bytesOf source) ⟨.token l.token, l.span⟩ b rest more ∧
        TokenBytes b rest l.token more := token_stands hl
  obtain ⟨x, -, hbyte⟩ := hs.byte hsp
  obtain ⟨hascii, hspan, -⟩ := hs.ascii hsp hbyte (hbytes.lt hstands hp hbyte)
  exact ⟨hascii, hspan⟩

/-- The bytes of a stray character, and no others, are faults. -/
theorem fault_iff_stray (hs : s.Stands source) (hc : c ∈ cuts 0 ((bytesOf source).drop 0))
    (hcp : c.span.Covers p) (hsp : s.span.Covers p) :
    (∃ q, c.piece = .fault q) ↔ Stray source s := by
  obtain ⟨b, rest, more, hstands⟩ := stands_of_mem rfl hc
  obtain ⟨x, -, hbyte⟩ := hs.byte hsp
  have hcomment := (inComment_spot hs hsp).symm.trans (inComment_iff hc hcp)
  have hfirst : more = 0 → x = b := by
    intro hmore
    rcases hstands.byte hcp with rfl | ⟨i, -, hi, -⟩
    · rw [hstands.at_start] at hbyte
      exact (Option.some.inj hbyte).symm
    · omega
  constructor
  · rintro ⟨q, hq⟩
    -- only one character that is not blank is a fault
    have hmore : more = 0 ∧ isBlank b = false := by
      have hshape := hstands.shape
      rw [hq] at hshape
      cases hshape with
      | stray hblank _ => exact ⟨rfl, hblank⟩
      | lone h => rcases h with rfl | rfl <;> exact ⟨rfl, rfl⟩
    constructor
    · by_contra hblank
      rw [Bool.not_eq_false] at hblank
      have hx : x < 128 := (hs.lt_iff hsp hbyte).mpr (lt_of_isBlankChar hblank)
      rw [← isBlank_eq (hs.ascii hsp hbyte hx).2.2, hfirst hmore.1, hmore.2] at hblank
      cases hblank
    · rw [hcomment, hq]
      rintro ⟨⟨⟩, -⟩
    · intro l hl hcovers
      have hstart : s.span.Covers s.span.start := ⟨Nat.le_refl _, hsp.1.trans_lt hsp.2⟩
      have hp : s.span.start = p := by
        have hstop := congrArg Span.stop (hs.of_token hl hcovers hstart).2
        dsimp only at hstop
        obtain ⟨hle, hlt⟩ := hsp
        omega
      rw [text_eq, mem_tokens] at hl
      obtain rfl := cut_unique hl hc (hp ▸ hcovers) hcp
      cases hq
  · rintro ⟨hvisible, houtside, halone⟩
    -- what is visible and stands alone is neither blank nor in a comment or a token
    have hshape := hstands.shape
    generalize hpiece : c.piece = piece at hshape
    cases hshape with
    | blank hblank =>
        rw [← hfirst rfl] at hblank
        have hchar := (hs.ascii hsp hbyte (lt_of_isBlank hblank)).2.2
        rw [isBlank_eq hchar, hvisible] at hblank
        cases hblank
    | comment hb hrest =>
        exact (houtside (hcomment.mpr ⟨hpiece, by rw [hstands.at_start, hb]⟩)).elim
    | @token t _ _ _ htoken =>
        have hl : ⟨t, c.span⟩ ∈ (text source).tokens := by
          rw [text_eq, mem_tokens, ← hpiece]
          exact hc
        have hspan := (hs.of_token hl hcp hsp).2
        have hnot := halone _ hl
        rw [hspan] at hnot
        exact (hnot hcp).elim
    | stray _ _ => exact ⟨_, rfl⟩
    | lone _ => exact ⟨_, rfl⟩

theorem mem_strays : s ∈ strays source ↔ s ∈ spots source ∧ Stray source s := by
  simp [strays]

/-- A fault is one byte. -/
theorem Cut.Stands.fault {text rest : List UInt8} {more : Nat} {q : Problem}
    (h : c.Stands text b rest more) (hq : c.piece = .fault q) :
    c.span.stop = c.span.start + 1 ∧ (q = .strayByte b ∨ q = .loneMark b ∧ (b = 38 ∨ b = 124)) := by
  have hshape := h.shape
  have hstop := h.stop
  rw [hq] at hshape
  cases hshape with
  | stray _ _ => exact ⟨hstop, .inl rfl⟩
  | lone hb => exact ⟨hstop, .inr ⟨rfl, hb⟩⟩

/-- A fault in a text without a stray `&` or `|` reports its byte. -/
theorem Cut.Stands.strayByte {rest : List UInt8} {more : Nat} {q : Problem}
    (hmarks : ∀ s ∈ strays source, s.char ≠ '&' ∧ s.char ≠ '|')
    (h : c.Stands (bytesOf source) b rest more) (hq : c.piece = .fault q) (hs : s ∈ strays source)
    (hp : s.span.Covers c.span.start) : q = .strayByte b := by
  rcases (h.fault hq).2 with hq | ⟨-, hb⟩
  · exact hq
  · have hlt : b < 128 := by rcases hb with rfl | rfl <;> decide
    have hchar := ((spot_stands (mem_strays.mp hs).1).ascii hp h.at_start hlt).2.2
    obtain ⟨hand, hor⟩ := hmarks s hs
    rcases hb with rfl | rfl
    · exact (hand (Char.toNat_inj.mp hchar.symm)).elim
    · exact (hor (Char.toNat_inj.mp hchar.symm)).elim

theorem fault_stands {q : Problem} {span : Span}
    (hc : ⟨.fault q, span⟩ ∈ cuts 0 (bytesOf source)) :
    ∃ b rest more, Cut.Stands (bytesOf source) ⟨.fault q, span⟩ b rest more :=
  stands_of_mem rfl hc

theorem mem_diagnostics_iff {d : Diagnostic}
    (hmarks : ∀ s ∈ strays source, s.char ≠ '&' ∧ s.char ≠ '|') :
    d ∈ (text source).diagnostics ↔ ∃ s ∈ strays source, d ∈ s.byteReports := by
  rw [text_eq, mem_diagnostics]
  constructor
  · rintro ⟨q, hc, hd⟩
    obtain ⟨b, rest, more, hstands⟩ := fault_stands hc
    have hstop : d.span.stop = d.span.start + 1 := (hstands.fault rfl).1
    have hbyte : (bytesOf source)[d.span.start]? = some b := hstands.at_start
    obtain ⟨s, hs, hp⟩ := exists_spot (List.getElem?_eq_some_iff.mp hbyte).1
    have hspot := spot_stands hs
    have hcovers : d.span.Covers d.span.start := ⟨Nat.le_refl _, by omega⟩
    have hstray : s ∈ strays source :=
      mem_strays.mpr ⟨hs, (fault_iff_stray hspot hc hcovers hp).mp ⟨q, rfl⟩⟩
    obtain rfl := hstands.strayByte hmarks rfl hstray hp
    refine ⟨s, hstray, (Spot.mem_byteReports hspot).mpr ⟨d.span.start, b, hp, hbyte, ?_⟩⟩
    rw [← hstop]
    exact hd
  · rintro ⟨s, hs, hd⟩
    obtain ⟨hmem, hstray⟩ := mem_strays.mp hs
    have hspot := spot_stands hmem
    obtain ⟨p, b, hp, hbyte, rfl⟩ := (Spot.mem_byteReports hspot).mp hd
    have hin : p < 0 + ((bytesOf source).drop 0).length := by
      have := (List.getElem?_eq_some_iff.mp hbyte).1
      rwa [Nat.zero_add]
    obtain ⟨c, hc, hcovers⟩ := exists_cut (Nat.zero_le p) hin
    obtain ⟨q, hq⟩ := (fault_iff_stray hspot hc hcovers hp).mpr hstray
    obtain ⟨x, rest, more, hstands⟩ := stands_of_mem rfl hc
    have hstop := (hstands.fault hq).1
    have hstart : c.span.start = p := by
      obtain ⟨hle, hlt⟩ := hcovers
      omega
    have hx : b = x := by
      rw [← hstart, hstands.at_start] at hbyte
      exact (Option.some.inj hbyte).symm
    refine ⟨q, ?_, ?_⟩
    · have hspan : c.span = ⟨p, p + 1⟩ := by rw [← hstart, ← hstop]
      show Cut.mk (.fault q) ⟨p, p + 1⟩ ∈ _
      rw [← hspan, ← hq]
      exact hc
    · rw [hstands.strayByte hmarks hq hs (hstart ▸ hp), ← hx]
      rfl

theorem diagnostics_increasing (source : String) :
    (text source).diagnostics.Pairwise fun d d' => d.span.start < d'.span.start := by
  rw [text_eq]
  apply (reports_ordered _ _ _).imp_of_mem
  intro d d' hd hd' hle
  obtain ⟨q, hc, -⟩ := mem_diagnostics.mp hd
  obtain ⟨b, rest, more, hstands⟩ := fault_stands hc
  have hstop : d.span.stop = d.span.start + 1 := (hstands.fault rfl).1
  omega

theorem byteReports_increasing (source : String) :
    ((strays source).flatMap Spot.byteReports).Pairwise fun d d' =>
      d.span.start < d'.span.start := by
  rw [List.pairwise_flatMap]
  constructor
  · intro s hs
    rw [List.pairwise_iff_getElem]
    intro i j hi hj hij
    simpa [Spot.byteReports, Problem.report] using hij
  · have hordered : (strays source).Pairwise fun s s' => s.span.stop ≤ s'.span.start :=
      (spotsFrom_ordered 0 source.toList).filter _
    apply hordered.imp_of_mem
    intro s s' hs hs' hle d hd d' hd'
    obtain ⟨p, b, ⟨-, hp⟩, -, rfl⟩ :=
      (Spot.mem_byteReports (spot_stands (mem_strays.mp hs).1)).mp hd
    obtain ⟨p', b', ⟨hp', -⟩, -, rfl⟩ :=
      (Spot.mem_byteReports (spot_stands (mem_strays.mp hs').1)).mp hd'
    show p < p'
    omega

/-- Without a stray `&` or `|` the reports are those on the bytes of the stray characters. -/
theorem diagnostics_eq (hmarks : ∀ s ∈ strays source, s.char ≠ '&' ∧ s.char ≠ '|') :
    (text source).diagnostics = (strays source).flatMap Spot.byteReports := by
  have : Std.Irrefl fun d d' : Diagnostic => d.span.start < d'.span.start :=
    ⟨fun d => Nat.lt_irrefl _⟩
  have : Std.Antisymm fun d d' : Diagnostic => d.span.start < d'.span.start :=
    ⟨fun d d' h h' => (Nat.lt_asymm h h').elim⟩
  apply (diagnostics_increasing source).eq_of_mem_iff (byteReports_increasing source)
  intro d
  rw [mem_diagnostics_iff hmarks, List.mem_flatMap]

/-- A token starts and ends where characters do. -/
theorem token_bounded {l : Lexeme} (hl : l ∈ (text source).tokens) :
    (⟨l.span.start⟩ : String.Pos.Raw).IsValid source ∧
      (⟨l.span.stop⟩ : String.Pos.Raw).IsValid source := by
  obtain ⟨hlt, hle⟩ := token_inside hl
  have hspot : ∀ p, l.span.Covers p → ∃ s : Spot, s.Stands source ∧ s.span = ⟨p, p + 1⟩ := by
    intro p hp
    have hin : p < (bytesOf source).length := by
      rw [length_bytesOf]
      exact hp.2.trans_le hle
    obtain ⟨s, hs, hsp⟩ := exists_spot hin
    exact ⟨s, spot_stands hs, ((spot_stands hs).of_token hl hp hsp).2⟩
  constructor
  · obtain ⟨s, hs, hspan⟩ := hspot l.span.start ⟨Nat.le_refl _, hlt⟩
    have hvalid := hs.start_valid
    rwa [hspan] at hvalid
  · obtain ⟨s, hs, hspan⟩ := hspot (l.span.stop - 1) ⟨by omega, by omega⟩
    have hvalid := hs.stop_valid
    rw [hspan] at hvalid
    have hstop : l.span.stop - 1 + 1 = l.span.stop := by omega
    rwa [hstop] at hvalid

/-- The reports of a text name its stray characters. -/
structure NamesStrays (source : String) : Prop where
  /-- There is one report on each stray character, and no other. -/
  reports : (text source).diagnostics = (strays source).map Spot.report
  /-- Tokens and reports start and end where characters do. -/
  bounded : ∀ span ∈ (text source).tokens.map Lexeme.span ++
      (text source).diagnostics.map Diagnostic.span,
    (⟨span.start⟩ : String.Pos.Raw).IsValid source ∧ (⟨span.stop⟩ : String.Pos.Raw).IsValid source

/-- Every byte of a stray character is reported, so that the reports name the stray characters
exactly where these are of one byte each. -/
theorem text_names_strays_iff (hmarks : ∀ s ∈ strays source, s.char ≠ '&' ∧ s.char ≠ '|') :
    (text source).diagnostics = (strays source).flatMap Spot.byteReports ∧
      (NamesStrays source ↔ ∀ s ∈ strays source, s.IsAscii) := by
  have hreports := diagnostics_eq hmarks
  refine ⟨hreports, ?_, ?_⟩
  · intro h s hs
    have hspot := spot_stands (mem_strays.mp hs).1
    have hmem : s.report ∈ (text source).diagnostics := by
      rw [h.reports]
      exact List.mem_map_of_mem hs
    -- the report would span all bytes of the character, and each report spans one
    obtain ⟨s', hs', hd⟩ := (mem_diagnostics_iff hmarks).mp hmem
    obtain ⟨p, b, -, -, heq⟩ :=
      (Spot.mem_byteReports (spot_stands (mem_strays.mp hs').1)).mp hd
    have hspan : s.span = ⟨p, p + 1⟩ := congrArg Diagnostic.span heq
    have hsize : s.char.utf8Size = 1 := by
      have hstop := hspot.stop
      rw [hspan] at hstop
      dsimp only at hstop
      omega
    rw [Char.utf8Size_eq_one_iff, UInt32.le_iff_toNat_le] at hsize
    exact Nat.lt_succ_of_le hsize
  · intro hascii
    have hnamed : (text source).diagnostics = (strays source).map Spot.report := by
      rw [hreports, List.map_eq_flatMap]
      apply List.flatMap_congr
      intro s hs
      exact Spot.byteReports_of_ascii (spot_stands (mem_strays.mp hs).1) (hascii s hs)
    refine ⟨hnamed, ?_⟩
    intro span hspan
    rw [hnamed, List.mem_append, List.mem_map, List.map_map, List.mem_map] at hspan
    rcases hspan with ⟨l, hl, rfl⟩ | ⟨s, hs, rfl⟩
    · exact token_bounded hl
    · have hspot := spot_stands (mem_strays.mp hs).1
      exact ⟨hspot.start_valid, hspot.stop_valid⟩

theorem text_names_strays_comment :
    (∀ s ∈ strays "x # 1 // é", s.char ≠ '&' ∧ s.char ≠ '|') ∧ NamesStrays "x # 1 // é" := by
  have hmarks : ∀ s ∈ strays "x # 1 // é", s.char ≠ '&' ∧ s.char ≠ '|' := by decide +kernel
  exact ⟨hmarks, (text_names_strays_iff hmarks).2.mpr (by decide +kernel)⟩

theorem text_not_names_strays :
    (∀ s ∈ strays "é", s.char ≠ '&' ∧ s.char ≠ '|') ∧ ¬NamesStrays "é" := by
  have hreports : (text "é").diagnostics.length = 2 := by decide +kernel
  have hstrays : (strays "é").length = 1 := by decide +kernel
  refine ⟨by decide +kernel, ?_⟩
  intro h
  have hlength := congrArg List.length h.reports
  rw [List.length_map, hreports, hstrays] at hlength
  cases hlength

end Graft.Scan
