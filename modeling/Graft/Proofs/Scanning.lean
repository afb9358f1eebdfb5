import Graft.Token.Scan
import Mathlib.Data.List.TakeWhile

/-!
# Scanning a part of a text

A piece is cut off by its own bytes and a few that follow. A closing brace is part of no name, no
number and no longer mark, so that what is scanned before one does not depend on what stands after
it: the bytes from the start of a token up to a closing brace have the tokens that stand there in the
whole text, at the same places.
-/

namespace Graft.Scan

/-! ## How far a piece looks

In all of this `125` is the byte of the closing brace. -/

theorem takeWhile_upTo {p : UInt8 → Bool} (hp : p 125 = false) (u t : List UInt8) :
    (u ++ 125 :: t).takeWhile p = u.takeWhile p := by
  induction u with
  | nil => simp [hp]
  | cons c u ih => simp only [List.cons_append, List.takeWhile_cons, ih]

@[simp] theorem digits_upTo (u t : List UInt8) :
    (u ++ 125 :: t).takeWhile isDigit = u.takeWhile isDigit := takeWhile_upTo (by decide) u t

@[simp] theorem nameParts_upTo (u t : List UInt8) :
    (u ++ 125 :: t).takeWhile isNamePart = u.takeWhile isNamePart := takeWhile_upTo (by decide) u t

theorem fractionLength_upTo (v t : List UInt8) :
    fractionLength (v ++ 125 :: t) = fractionLength v := by
  match v with
  | [] => cases t <;> simp [fractionLength]
  | [c] =>
    by_cases hc : c = 46
    · subst hc
      have h : isDigit 125 = false := by decide
      simp [fractionLength, h]
    · simp [fractionLength, hc]
  | c :: d :: v =>
    by_cases hc : c = 46
    · subst hc
      simp [fractionLength]
    · simp [fractionLength, hc]

theorem exponentLength_upTo (v t : List UInt8) :
    exponentLength (v ++ 125 :: t) = exponentLength v := by
  have hdigit : isDigit 125 = false := by decide
  match v with
  | [] => cases t <;> simp [exponentLength]
  | [c] => simp [exponentLength, hdigit]
  | [c, s] => simp [exponentLength, hdigit]
  | c :: s :: d :: v =>
    have hdigits := digits_upTo (d :: v) t
    rw [List.cons_append] at hdigits
    simp [exponentLength, hdigits]

theorem fractionLength_le (v : List UInt8) : fractionLength v ≤ v.length := by
  unfold fractionLength
  split
  · next d rest =>
      have := (List.takeWhile_prefix isDigit (l := rest)).length_le
      split <;> simp only [List.length_cons] <;> omega
  · omega

theorem exponentLength_le (v : List UInt8) : exponentLength v ≤ v.length := by
  unfold exponentLength
  split
  · next e s rest =>
      have hrest := (List.takeWhile_prefix isDigit (l := rest)).length_le
      split
      · split
        · simp only [List.length_cons]; omega
        · split
          · split
            · next d more =>
                have hmore := (List.takeWhile_prefix isDigit (l := more)).length_le
                split <;> simp only [List.length_cons] <;> omega
            · omega
          · omega
      · omega
  · omega

theorem numberLength_upTo (u t : List UInt8) : numberLength (u ++ 125 :: t) = numberLength u := by
  unfold numberLength
  have hwhole := (List.takeWhile_prefix isDigit (l := u)).length_le
  have hfraction := fractionLength_le (u.drop (u.takeWhile isDigit).length)
  rw [List.length_drop] at hfraction
  simp only [digits_upTo]
  rw [List.drop_append_of_le_length hwhole, fractionLength_upTo,
    List.drop_append_of_le_length (by omega), exponentLength_upTo]

theorem numberLength_le (u : List UInt8) : numberLength u ≤ u.length := by
  unfold numberLength
  have hwhole := (List.takeWhile_prefix isDigit (l := u)).length_le
  have hfraction := fractionLength_le (u.drop (u.takeWhile isDigit).length)
  have hexponent := exponentLength_le (u.drop ((u.takeWhile isDigit).length +
    fractionLength (u.drop (u.takeWhile isDigit).length)))
  rw [List.length_drop] at hfraction hexponent
  dsimp only
  omega

theorem markPiece_congr {b : UInt8} {rest rest' : List UInt8} (h : rest.head? = rest'.head?) :
    markPiece b rest = markPiece b rest' := by
  unfold markPiece
  rw [h]

theorem markPiece_le (b : UInt8) (rest : List UInt8) : (markPiece b rest).2 ≤ rest.length := by
  -- the only way to take a byte is to have seen it
  have hsome : ∀ {c : UInt8}, rest.head? = some c → 1 ≤ rest.length := by
    intro c hc
    cases rest with
    | nil => simp at hc
    | cons _ _ => simp
  unfold markPiece
  split
  · split
    · next h => exact hsome h
    · simp
  · split
    · split
      · next h => exact hsome h
      · simp
    · split <;> simp

/-- A piece does not reach past the end. -/
theorem piece_le (b : UInt8) (rest : List UInt8) : (piece b rest).2 ≤ rest.length := by
  unfold piece
  split
  · simp
  · split
    · exact (List.takeWhile_prefix _).length_le
    · split
      · exact (List.takeWhile_prefix _).length_le
      · split
        · exact numberLength_le rest
        · exact markPiece_le b rest

/-- A piece that ends before a closing brace is the same whatever stands after the brace. -/
theorem piece_upTo {b : UInt8} {u t : List UInt8} (h : (piece b (u ++ 125 :: t)).2 ≤ u.length) :
    piece b (u ++ [125]) = piece b (u ++ 125 :: t) := by
  have hhead : (u ++ [125]).head? = (u ++ 125 :: t).head? := by cases u <;> simp
  unfold piece at h ⊢
  rw [hhead]
  by_cases hblank : isBlank b = true
  · simp [hblank]
  by_cases hcomment : (b == 47 && (u ++ 125 :: t).head? == some 47) = true
  · -- a comment runs over a closing brace, but this one ends before it
    simp only [hblank, hcomment, if_true, if_false, Bool.false_eq_true] at h ⊢
    have hstops : ((u.takeWhile (· != 10)).length = u.length) = False := by
      rw [eq_iff_iff, iff_false]
      intro hall
      rw [List.takeWhile_append, if_pos hall, List.takeWhile_cons, if_pos (by decide),
        List.length_append, List.length_cons] at h
      omega
    rw [List.takeWhile_append, List.takeWhile_append]
    simp only [hstops, if_false]
  by_cases hname : isNameStart b = true
  · simp only [hblank, hcomment, hname, if_true, if_false, Bool.false_eq_true, nameParts_upTo]
  by_cases hdigit : isDigit b = true
  · simp only [hblank, hcomment, hname, hdigit, if_true, if_false, Bool.false_eq_true,
      numberLength_upTo, List.take_append_of_le_length (numberLength_le u)]
  · simp only [hblank, hcomment, hname, hdigit, if_false, Bool.false_eq_true]
    exact markPiece_congr hhead

theorem single?_closeBrace {b : UInt8} (h : single? b = some .closeBrace) : b = 125 := by
  unfold single? at h
  split at h <;> simp_all

theorem double?_ne_closeBrace {b next : UInt8} {longer shorter : Symbol}
    (h : double? b = some (next, longer, shorter)) :
    longer ≠ .closeBrace ∧ shorter ≠ .closeBrace := by
  unfold double? at h
  split at h <;> simp at h <;> grind

/-- Only the byte of the closing brace is read as one, and it is all of it. -/
theorem piece_closeBrace {b : UInt8} {rest : List UInt8} {more : Nat}
    (h : piece b rest = (.token (.mark .closeBrace), more)) : b = 125 ∧ more = 0 := by
  unfold piece at h
  split at h
  · simp at h
  · split at h
    · simp at h
    · split at h
      · simp only [wordOf, Prod.mk.injEq, Piece.token.injEq] at h
        split at h <;> simp at h
      · split at h
        · simp only [numberOf, Prod.mk.injEq] at h
          split at h <;> simp at h
        · unfold markPiece at h
          split at h
          · split at h
            · simp only [Prod.mk.injEq, Piece.token.injEq, Token.mark.injEq] at h
              split at h <;> simp at h
            · simp at h
          · split at h
            · next hdouble =>
                have hne := double?_ne_closeBrace hdouble
                split at h <;> simp at h
                · exact absurd h.1 hne.1
                · exact absurd h.1 hne.2
            · split at h
              · next hsingle =>
                  simp only [Prod.mk.injEq, Piece.token.injEq, Token.mark.injEq] at h
                  rw [h.1] at hsingle
                  exact ⟨single?_closeBrace hsingle, h.2.symm⟩
              · simp at h

/-! ## Where tokens stand -/

theorem scanFrom_cons (stop position : Nat) (b : UInt8) (rest : List UInt8) :
    scanFrom stop position (b :: rest) =
      (scanFrom stop (position + 1 + (piece b rest).2) (rest.drop (piece b rest).2)).cons
        (piece b rest).1 ⟨position, position + 1 + (piece b rest).2⟩ := by
  rw [scanFrom]

/-- The token of a text or none, and no report, put before a scanned text. -/
theorem Result.cons_clear {r : Result} {p : Piece} {span : Span}
    (h : (r.cons p span).diagnostics = []) :
    (p = .blank ∧ r.cons p span = r ∨
      ∃ t, p = .token t ∧ r.cons p span = { r with tokens := ⟨t, span⟩ :: r.tokens }) ∧
      r.diagnostics = [] := by
  cases p with
  | blank => exact ⟨.inl ⟨rfl, rfl⟩, h⟩
  | token t => exact ⟨.inr ⟨t, rfl, rfl⟩, h⟩
  | fault problem => simp [Result.cons] at h

theorem scanFrom_stop (stop position : Nat) (bytes : List UInt8) :
    (scanFrom stop position bytes).stop = ⟨stop, stop⟩ := by
  induction position, bytes using scanFrom.induct with
  | case1 position => simp [scanFrom]
  | case2 position b rest p more hp next ih =>
      rw [scanFrom, hp]
      cases p <;> exact ih

/-- No token is empty or stands before the start. -/
theorem scanFrom_after (stop position : Nat) (bytes : List UInt8) :
    ∀ l ∈ (scanFrom stop position bytes).tokens,
      position ≤ l.span.start ∧ l.span.start < l.span.stop := by
  induction position, bytes using scanFrom.induct with
  | case1 position => simp [scanFrom]
  | case2 position b rest p more hp next ih =>
      rw [scanFrom, hp]
      intro l hl
      cases p with
      | blank =>
          have := ih l hl
          omega
      | fault problem =>
          have := ih l hl
          omega
      | token t =>
          rcases List.mem_cons.mp hl with rfl | hl
          · simp only
            omega
          · have := ih l hl
            omega

/-- The tokens stand one after the other. -/
theorem scanFrom_ordered (stop position : Nat) (bytes : List UInt8) :
    (scanFrom stop position bytes).tokens.Pairwise fun l m => l.span.stop ≤ m.span.start := by
  induction position, bytes using scanFrom.induct with
  | case1 position => simp [scanFrom]
  | case2 position b rest p more hp next ih =>
      rw [scanFrom, hp]
      cases p with
      | blank => exact ih
      | fault problem => exact ih
      | token t => exact List.pairwise_cons.mpr ⟨fun m hm => (scanFrom_after _ _ _ m hm).1, ih⟩

/-! ## Parts -/

/-- Scanning can start at a token. -/
theorem scanFrom_since {stop position : Nat} {bytes : List UInt8} {front back : List Lexeme}
    {l : Lexeme} (h : (scanFrom stop position bytes).tokens = front ++ l :: back)
    (hclear : (scanFrom stop position bytes).diagnostics = []) :
    (scanFrom stop l.span.start (bytes.drop (l.span.start - position))).tokens = l :: back ∧
      (scanFrom stop l.span.start (bytes.drop (l.span.start - position))).diagnostics = [] := by
  revert front
  induction position, bytes using scanFrom.induct with
  | case1 position => simp [scanFrom]
  | case2 position b rest p more hp next ih =>
      intro front h
      have hstart : position ≤ l.span.start := by
        refine (scanFrom_after stop position (b :: rest) l ?_).1
        rw [h]
        simp
      -- past the first piece the token is one of what is scanned after it
      have past : ∀ front', (scanFrom stop next (rest.drop more)).tokens = front' ++ l :: back →
          (scanFrom stop next (rest.drop more)).diagnostics = [] →
          (scanFrom stop l.span.start ((b :: rest).drop (l.span.start - position))).tokens =
              l :: back ∧
            (scanFrom stop l.span.start
              ((b :: rest).drop (l.span.start - position))).diagnostics = [] := by
        intro front' htokens hdiag
        have hnext : next ≤ l.span.start := by
          refine (scanFrom_after stop next (rest.drop more) l ?_).1
          rw [htokens]
          simp
        have hdrop : (b :: rest).drop (l.span.start - position) =
            (rest.drop more).drop (l.span.start - next) := by
          obtain ⟨k, hk⟩ : ∃ k, l.span.start - position = k + 1 := ⟨l.span.start - position - 1, by
            omega⟩
          rw [hk, List.drop_succ_cons, List.drop_drop]
          congr 1
          omega
        rw [hdrop]
        exact ih hdiag htokens
      have hcons : scanFrom stop position (b :: rest) =
          (scanFrom stop next (rest.drop more)).cons p ⟨position, next⟩ := by
        rw [scanFrom, hp]
      have hclear' := hclear
      rw [hcons] at h hclear'
      obtain ⟨⟨rfl, hsame⟩ | ⟨t, rfl, hsame⟩, hdiag⟩ := Result.cons_clear hclear'
      · rw [hsame] at h
        exact past front h hdiag
      · rw [hsame] at h
        cases front with
        | nil =>
            -- the first piece is the token itself
            obtain ⟨rfl, hback⟩ := List.cons.inj h
            simp only [Nat.sub_self, List.drop_zero]
            rw [hcons, hsame]
            exact ⟨congrArg _ hback, hdiag⟩
        | cons m front =>
            obtain ⟨rfl, htokens⟩ := List.cons.inj h
            exact past front htokens hdiag

/-- Scanning can stop after a closing brace. -/
theorem scanFrom_upTo {stop position : Nat} {bytes : List UInt8} {front back : List Lexeme}
    {l : Lexeme} (h : (scanFrom stop position bytes).tokens = front ++ l :: back)
    (hclear : (scanFrom stop position bytes).diagnostics = [])
    (hl : l.token = .mark .closeBrace) :
    ∃ u t, bytes = u ++ 125 :: t ∧
      l.span = ⟨position + u.length, position + u.length + 1⟩ ∧
      ∀ stop', scanFrom stop' position (u ++ [125]) = ⟨front ++ [l], ⟨stop', stop'⟩, []⟩ := by
  revert front
  induction position, bytes using scanFrom.induct with
  | case1 position => simp [scanFrom]
  | case2 position b rest p more hp next ih =>
      intro front h
      have hle : more ≤ rest.length := by
        have := piece_le b rest
        rwa [hp] at this
      -- what the rest gives, with the first piece put before it again
      have past : ∀ front', (scanFrom stop next (rest.drop more)).tokens = front' ++ l :: back →
          (scanFrom stop next (rest.drop more)).diagnostics = [] →
          ∃ u t, b :: rest = u ++ 125 :: t ∧
            l.span = ⟨position + u.length, position + u.length + 1⟩ ∧
            ∀ stop', scanFrom stop' position (u ++ [125]) =
              Result.cons ⟨front' ++ [l], ⟨stop', stop'⟩, []⟩ p ⟨position, next⟩ := by
        intro front' htokens hdiag
        obtain ⟨u, t, hbytes, hspan, hscan⟩ := ih hdiag htokens
        have hrest : rest = (rest.take more ++ u) ++ 125 :: t := by
          rw [List.append_assoc, ← hbytes, List.take_append_drop]
        have hlength : (rest.take more ++ u).length = more + u.length := by
          rw [List.length_append, List.length_take, Nat.min_eq_left hle]
        refine ⟨b :: (rest.take more ++ u), t, by rw [List.cons_append, ← hrest], ?_,
          fun stop' => ?_⟩
        · rw [hspan, List.length_cons, hlength]
          have hnext : next = position + 1 + more := rfl
          rw [hnext]
          congr 1 <;> omega
        · have hpiece : piece b ((rest.take more ++ u) ++ [125]) = (p, more) := by
            have hshort : (piece b ((rest.take more ++ u) ++ 125 :: t)).2 ≤
                (rest.take more ++ u).length := by
              rw [← hrest, hp, hlength]
              exact Nat.le_add_right more u.length
            rw [piece_upTo hshort, ← hrest, hp]
          have hdrop : ((rest.take more ++ u) ++ [125]).drop more = u ++ [125] := by
            rw [List.append_assoc, List.drop_append_of_le_length (by simp [hle]),
              List.drop_eq_nil_of_le (List.length_take_le _ _), List.nil_append]
          rw [List.cons_append, scanFrom_cons, hpiece]
          dsimp only
          rw [hdrop]
          exact congrArg (fun r : Result => r.cons p ⟨position, next⟩) (hscan stop')
      have hcons : scanFrom stop position (b :: rest) =
          (scanFrom stop next (rest.drop more)).cons p ⟨position, next⟩ := by
        rw [scanFrom, hp]
      rw [hcons] at h hclear
      obtain ⟨⟨rfl, hsame⟩ | ⟨t, rfl, hsame⟩, hdiag⟩ := Result.cons_clear hclear
      · rw [hsame] at h
        exact past front h hdiag
      · rw [hsame] at h
        cases front with
        | nil =>
            obtain ⟨rfl, hback⟩ := List.cons.inj h
            obtain rfl : t = .mark .closeBrace := hl
            obtain ⟨rfl, rfl⟩ := piece_closeBrace hp
            refine ⟨[], rest, rfl, rfl, fun stop' => ?_⟩
            have hone : piece 125 [] = (.token (.mark .closeBrace), 0) := by
              simp [piece, isBlank, isNameStart, isDigit, markPiece, double?, single?]
            rw [List.nil_append, scanFrom_cons, hone, List.drop_nil, scanFrom]
            rfl
        | cons m front =>
            obtain ⟨rfl, htokens⟩ := List.cons.inj h
            exact past front htokens hdiag

theorem text_eq (source : String) :
    text source = scanFrom source.toUTF8.data.toList.length 0 source.toUTF8.data.toList := by
  have hsize : source.utf8ByteSize = source.toUTF8.data.toList.length := by
    rw [Array.length_toList]
    rfl
  unfold text range
  simp only [hsize, Nat.min_self, Nat.zero_min, List.take_length, List.drop_zero]

/-- The bytes from the start of a token up to a closing brace have the tokens that stand there in
the whole text. -/
theorem range_part {source : String} {front part back : List Lexeme} {first last : Lexeme}
    (h : (text source).tokens = front ++ part ++ back) (hclear : (text source).diagnostics = [])
    (hfirst : part.head? = some first) (hlast : part.getLast? = some last)
    (hbrace : last.token = .mark .closeBrace) :
    range source first.span.start last.span.stop =
      ⟨part, ⟨last.span.stop, last.span.stop⟩, []⟩ := by
  rw [text_eq] at h hclear
  generalize hbytes : source.toUTF8.data.toList = bytes at h hclear
  obtain ⟨tail, rfl⟩ := List.head?_eq_some_iff.mp hfirst
  obtain ⟨init, hinit⟩ := List.getLast?_eq_some_iff.mp hlast
  rw [List.append_assoc, List.cons_append] at h
  have hsince := scanFrom_since h hclear
  rw [← List.cons_append, hinit, List.append_assoc, Nat.sub_zero] at hsince
  obtain ⟨u, t, hdrop, hspan, hscan⟩ := scanFrom_upTo hsince.1 hsince.2 hbrace
  have hlength : bytes.length - first.span.start = u.length + (t.length + 1) := by
    rw [← List.length_drop, hdrop, List.length_append, List.length_cons]
  unfold range
  rw [hbytes, hspan, hinit]
  dsimp only
  rw [Nat.min_eq_left (by omega), Nat.min_eq_left (by omega), List.drop_take, hdrop]
  have hpart : (u ++ 125 :: t).take (first.span.start + u.length + 1 - first.span.start) =
      u ++ [125] := by
    have hcount : first.span.start + u.length + 1 - first.span.start = u.length + 1 := by omega
    rw [hcount, List.take_append, List.take_of_length_le (by omega)]
    simp
  rw [hpart]
  exact hscan _

end Graft.Scan
