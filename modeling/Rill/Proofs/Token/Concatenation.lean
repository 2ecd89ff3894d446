import Rill.Proofs.Token.Lexeme
import Rill.Proofs.Token.Placement

/-!
# Sources one behind the other

A semicolon that is read as a token stands between what comes before it and what comes behind:
nothing behind it has an influence on the tokens before, and the tokens behind are those of a source
of its own, further on.

* `Token.moved`: a token at another offset.
* `Cursor.all`, `Cursor.all_eq`: the tokens from a position on, without a bound.
* `Cursor.all_add`: reading the same bytes further on.
* `Cursor.skipGap_stop`, `Cursor.scanAt_stop`: up to a semicolon, one call of the scanner does not
  depend on what stands behind it, unless the semicolon belongs to a comment or to a string.
* `tokens_append`: the tokens of two sources one behind the other.
-/

namespace Rill

/-- A token at another offset. -/
def Token.moved (f : Nat → Nat) (t : Token) : Token := { t with pos := f t.pos }

namespace Cursor

/-! ## Reading further on -/

/-- A gap is skipped in the same way from a later offset. -/
theorem skipGap_add (k : Nat) (gap : Gap) (pos : Nat) (s : Bytes) :
    skipGap gap (pos + k) s = ⟨(skipGap gap pos s).pos + k, (skipGap gap pos s).rest⟩ := by
  induction s generalizing gap pos with
  | nil => cases gap <;> rfl
  | cons b s ih =>
    have hskip (gap : Gap) : skipGap gap (pos + k + 1) s =
        ⟨(skipGap gap (pos + 1) s).pos + k, (skipGap gap (pos + 1) s).rest⟩ := by
      rw [← ih, Nat.add_right_comm]
    cases gap <;> rw [skipGap, skipGap] <;> (repeat' split) <;> simp [hskip]

/-- A token is scanned in the same way from a later offset. -/
theorem scanAt_add (k pos : Nat) (b : UInt8) (s : Bytes) : scanAt (pos + k) b s =
    ((scanAt pos b s).1.moved (· + k), ⟨(scanAt pos b s).2.pos + k, (scanAt pos b s).2.rest⟩) := by
  rw [scanAt, scanAt]
  (repeat' split) <;> simp [Token.moved, Nat.add_right_comm]

/-- Scanning from a later offset gives the same token with this offset. -/
theorem scan_add (k : Nat) (c : Cursor) : scan ⟨c.pos + k, c.rest⟩ =
    (c.scan.1.moved (· + k), ⟨c.scan.2.pos + k, c.scan.2.rest⟩) := by
  rw [scan, scan, skipGap_add]
  generalize skipGap .blank c.pos c.rest = d
  obtain ⟨pos, rest⟩ := d
  cases rest with
  | nil => rfl
  | cons b s =>
    dsimp only
    split
    · rfl
    · exact scanAt_add k pos b s

/-- The tokens from a later offset are the same ones with later offsets. -/
theorem tokens_add (k n : Nat) (c : Cursor) :
    tokens n ⟨c.pos + k, c.rest⟩ = (c.tokens n).map (Token.moved (· + k)) := by
  induction n generalizing c with
  | zero => rfl
  | succ n ih =>
    rw [tokens, tokens, scan_add]
    dsimp only [Token.moved]
    split
    · rfl
    · rw [List.map_cons, ← ih]
      rfl

/-! ## All tokens from a position on -/

/-- The tokens do not depend on the bound, once it is large enough. -/
theorem tokens_congr {n n' : Nat} {c : Cursor} (hn : c.rest.length < n) (hn' : c.rest.length < n') :
    c.tokens n = c.tokens n' := by
  induction n generalizing n' c with
  | zero => exact absurd hn (Nat.not_lt_zero _)
  | succ n ih =>
    cases n' with
    | zero => exact absurd hn' (Nat.not_lt_zero _)
    | succ n' =>
      rw [tokens, tokens]
      dsimp only
      split
      next => rfl
      next hkind =>
        have hless := (c.scan_spec.resolve_left hkind).2.2
        rw [ih (by omega) (show c.scan.2.rest.length < n' by omega)]

/-- The tokens from a position on. -/
def all (c : Cursor) : List Token := c.tokens (c.rest.length + 1)

/-- All tokens are the next one and, unless that is the end token, all behind it. -/
theorem all_eq (c : Cursor) :
    c.all = if c.scan.1.kind = .eof then [c.scan.1] else c.scan.1 :: c.scan.2.all := by
  rw [all, tokens]
  dsimp only
  split
  next => rfl
  next hkind =>
    have hless := (c.scan_spec.resolve_left hkind).2.2
    rw [all, tokens_congr hless (Nat.lt_succ_self _)]

/-- All tokens from a later offset are the same ones with later offsets. -/
theorem all_add (k : Nat) (c : Cursor) :
    all ⟨c.pos + k, c.rest⟩ = c.all.map (Token.moved (· + k)) :=
  tokens_add k _ c

/-! ## Up to a semicolon -/

/-- A run of bytes ends at a byte that cannot belong to it, whatever stands behind. -/
theorem span_stop {p : UInt8 → Bool} {c : UInt8} (hp : p c = false) (w t : Bytes) :
    (w ++ c :: t).takeWhile p = w.takeWhile p ∧
      (w ++ c :: t).dropWhile p = w.dropWhile p ++ c :: t := by
  induction w with
  | nil => simp [hp]
  | cons b w ih =>
    cases hb : p b with
    | true => simp [hb, ih]
    | false => simp [hb]

/-- Without a point and a byte that makes it one of a number, a number is whole. -/
theorem number_whole {s : Bytes} (h : ∀ n s', s.dropWhile Bytes.isDigit = 0x2E :: n :: s' →
    ¬(Bytes.isDigit n || n == 0x66 || n == 0x64)) :
    number s = (.int, s.takeWhile Bytes.isDigit, s.dropWhile Bytes.isDigit) := by
  rw [number]
  dsimp only
  split
  next n s' hafter => rw [if_neg (h n s' hafter), hafter]
  next => rfl

/-- A number ends in front of a semicolon, in the same way whatever follows that. -/
theorem number_stop (w : Bytes) :
    ∃ kind literal rest, ∀ t, number (w ++ 0x3B :: t) = (kind, literal, rest ++ 0x3B :: t) := by
  have hspan (w t : Bytes) := span_stop (p := Bytes.isDigit) (c := 0x3B) (by decide) w t
  -- Where `w` has a point and a byte that goes with it, both stand before the semicolon.
  by_cases hpoint : ∃ n v, w.dropWhile Bytes.isDigit = 0x2E :: n :: v ∧
    (Bytes.isDigit n || n == 0x66 || n == 0x64)
  · obtain ⟨n, v, hafter, hn⟩ := hpoint
    have hpoint (t : Bytes) :
      (w ++ 0x3B :: t).dropWhile Bytes.isDigit = 0x2E :: n :: (v ++ 0x3B :: t) := by
      rw [(hspan w t).2, hafter]
      rfl
    have hnumber (t : Bytes) : number (w ++ 0x3B :: t) =
        pointEnding (w.takeWhile Bytes.isDigit ++ 0x2E :: (n :: v).takeWhile Bytes.isDigit)
          ((n :: v).dropWhile Bytes.isDigit ++ 0x3B :: t) := by
      rw [number_of_point (hpoint t) hn, (hspan w t).1, ← List.cons_append, (hspan (n :: v) t).1,
        (hspan (n :: v) t).2]
    simp only [hnumber]
    cases (n :: v).dropWhile Bytes.isDigit with
    | nil => exact ⟨_, _, [], fun t => rfl⟩
    | cons e r =>
      simp only [pointEnding, List.cons_append]
      split
      · exact ⟨_, _, r, fun t => rfl⟩
      · split
        · exact ⟨_, _, r, fun t => rfl⟩
        · exact ⟨_, _, e :: r, fun t => rfl⟩
  · refine ⟨.int, w.takeWhile Bytes.isDigit, w.dropWhile Bytes.isDigit, fun t => ?_⟩
    rw [number_whole, (hspan w t).1, (hspan w t).2]
    intro n s' hafter hn
    rw [(hspan w t).2] at hafter
    -- The byte behind the point is one of `w`, or it is the semicolon, which makes no number.
    rcases hdrop : w.dropWhile Bytes.isDigit with _ | ⟨a, _ | ⟨n', v⟩⟩
    · simp [hdrop] at hafter
    · obtain ⟨-, rfl, -⟩ : a = 0x2E ∧ 0x3B = n ∧ t = s' := by simpa [hdrop] using hafter
      exact absurd hn (by decide)
    · obtain ⟨rfl, rfl, -⟩ : a = 0x2E ∧ n' = n ∧ v ++ 0x3B :: t = s' := by
        simpa [hdrop] using hafter
      exact hpoint ⟨n', v, hdrop, hn⟩

/-- Between tokens: the scanner stops before the semicolon, whatever stands behind, or a comment
holds the semicolon. -/
theorem skipGap_stop (gap : Gap) (pos : Nat) (w : Bytes) :
    (∃ pos' rest, ∀ t, skipGap gap pos (w ++ 0x3B :: t) = ⟨pos', rest ++ 0x3B :: t⟩) ∨
      (skipGap gap pos (w ++ [0x3B])).rest = [] := by
  induction w generalizing gap pos with
  | nil =>
    cases gap with
    | blank => exact .inl ⟨pos, [], fun t => rfl⟩
    | _ => exact .inr rfl -- A comment that is still open takes the semicolon, too.
  | cons b w ih =>
    by_cases hb : b = 0
    · subst hb
      exact .inl ⟨pos, 0 :: w, fun t => by cases gap <;> rfl⟩
    · simp only [List.cons_append, skipGap_cons hb]
      cases gap.after b with
      | none => exact .inl ⟨pos, b :: w, fun t => rfl⟩
      | some next => exact ih next (pos + 1)

/-- A semicolon is never the second mark of a pair. -/
theorem second_ne_semicolon {b second : UInt8} {alone together : TokenKind}
    (h : pair? b = some (alone, second, together)) : ¬0x3B = second := by
  have hall : ∀ entry ∈ pairs, ¬0x3B = entry.2.2.1 := by decide
  exact hall _ (mem_pairs h)

/-- A token ends before the semicolon, whatever stands behind, or it is a string that holds the
semicolon. -/
theorem scanAt_stop (pos : Nat) (b : UInt8) (w : Bytes) :
    (∃ tok pos' rest, ∀ t, scanAt pos b (w ++ 0x3B :: t) = (tok, ⟨pos', rest ++ 0x3B :: t⟩)) ∨
      (scanAt pos b (w ++ [0x3B])).1.kind = .string ∧ (scanAt pos b (w ++ [0x3B])).2.rest = [] := by
  simp only [scanAt]
  split
  next =>
    have hcut := List.takeWhile_append_dropWhile (p := isQuotedByte) (l := w)
    have hquoted := List.all_eq_true.mp (List.all_takeWhile (p := isQuotedByte) (l := w))
    cases hend : w.dropWhile isQuotedByte with
    | nil =>
      -- The string is still open at the semicolon.
      have hdrop : (w ++ [0x3B]).dropWhile isQuotedByte = [] := by
        rw [List.dropWhile_append, hend]
        decide
      rw [hdrop]
      exact .inr ⟨rfl, rfl⟩
    | cons q r =>
      have hq : isQuotedByte q = false := by
        simpa [hend] using List.head?_dropWhile_not isQuotedByte w
      rw [hend] at hcut
      have hspan (t : Bytes) := span_append (s := q :: (r ++ 0x3B :: t)) hquoted (by simpa using hq)
      have hsource (t : Bytes) :
        w ++ 0x3B :: t = w.takeWhile isQuotedByte ++ q :: (r ++ 0x3B :: t) := by
        rw [← List.cons_append, ← List.append_assoc, hcut]
      simp only [hsource, hspan]
      exact .inl ⟨_, _, r, fun t => rfl⟩
  split
  next =>
    have hspan := span_stop (p := isWordByte) (c := 0x3B) (by decide) w
    simp only [hspan]
    exact .inl ⟨_, _, _, fun t => rfl⟩
  split
  next =>
    obtain ⟨kind, literal, rest, hnumber⟩ := number_stop (b :: w)
    simp only [List.cons_append] at hnumber
    simp only [hnumber]
    exact .inl ⟨_, _, _, fun t => rfl⟩
  split
  next alone second together hpair =>
    cases w with
    | nil =>
      simp only [List.nil_append, if_neg (second_ne_semicolon hpair)]
      exact .inl ⟨_, _, [], fun t => rfl⟩
    | cons c w =>
      simp only [List.cons_append]
      split
      · exact .inl ⟨_, _, w, fun t => rfl⟩
      · exact .inl ⟨_, _, c :: w, fun t => rfl⟩
  next => exact .inl ⟨_, _, w, fun t => rfl⟩
  next =>
    have hdecode (t : Bytes) : Glyph.decode b (w ++ 0x3B :: t) = Glyph.decode b w :=
      Glyph.decode_append (by simp) b w
    have hdrop (t : Bytes) :
      (w ++ 0x3B :: t).drop (Glyph.decode b w).2 = w.drop (Glyph.decode b w).2 ++ 0x3B :: t :=
      List.drop_append_of_le_length (Glyph.decode_le b w)
    simp only [hdecode, hdrop]
    exact .inl ⟨_, _, _, fun t => rfl⟩

/-! ## Two sources -/

/-- Skipping a gap takes as many bytes off the rest as it adds to the offset. -/
theorem skipGap_length (pos : Nat) (s : Bytes) : pos ≤ (skipGap .blank pos s).pos ∧
    (skipGap .blank pos s).pos + (skipGap .blank pos s).rest.length = pos + s.length := by
  obtain ⟨skipped, rest, rfl, hskip, -⟩ := skipGap_cut .blank pos [] s (by simp)
  rw [hskip, List.length_append, Nat.add_assoc]
  exact ⟨Nat.le_add_right _ _, rfl⟩

/-- Scanning a token takes as many bytes off the rest as it adds to the offset. -/
theorem scanAt_length (pos : Nat) (b : UInt8) (s : Bytes) :
    (scanAt pos b s).2.pos + (scanAt pos b s).2.rest.length = pos + (b :: s).length := by
  obtain ⟨piece, rest, hcut, -, hnext, -⟩ := scanAt_cut pos b s
  rw [hnext, hcut, List.length_append, Nat.add_assoc]

/-- At the end the end token is the only one. -/
theorem all_of_eof {c : Cursor} (h : c.scan.1.kind = .eof) : c.all = [c.scan.1] := by
  rw [all_eq, if_pos h]

/-- In front of the end all tokens are the next one and those behind it. -/
theorem all_of_ne_eof {c : Cursor} (h : c.scan.1.kind ≠ .eof) :
    c.all = c.scan.1 :: c.scan.2.all := by
  rw [all_eq, if_neg h]

/-- The end of a text has the end token at its offset. -/
theorem all_nil {c : Cursor} (h : c.rest = []) : c.all = [⟨.eof, [], c.pos⟩] := by
  obtain ⟨pos, rest⟩ := c
  obtain rfl : rest = [] := h
  rfl

/-- One call before a semicolon: it reads the semicolon, or a token before it, whatever stands
behind. Otherwise the semicolon is no token, since the source ends before it or it belongs to a
comment or to a string. -/
theorem scan_stop (pos : Nat) (w : Bytes) :
    (∀ t, scan ⟨pos, w ++ 0x3B :: t⟩ =
      (⟨.semicolon, [0x3B], pos + w.length⟩, ⟨pos + w.length + 1, t⟩)) ∨
    (∃ tok pos' rest, tok.kind ≠ .eof ∧ tok.pos < pos + w.length ∧
      pos' + rest.length = pos + w.length ∧
      rest.length < w.length ∧ ∀ t, scan ⟨pos, w ++ 0x3B :: t⟩ = (tok, ⟨pos', rest ++ 0x3B :: t⟩)) ∨
    ∀ t ∈ all ⟨pos, w ++ [0x3B]⟩, t.kind ≠ .semicolon := by
  rcases skipGap_stop .blank pos w with ⟨pos', rest, hskip⟩ | hend
  · obtain ⟨hle, hlength⟩ := skipGap_length pos (w ++ [0x3B])
    rw [hskip] at hle hlength
    simp only [List.length_append, List.length_singleton] at hle hlength
    cases rest with
    | nil =>
      obtain rfl : pos' = pos + w.length := by simpa [← Nat.add_assoc] using hlength
      refine .inl fun t => ?_
      rw [scan, hskip]
      rfl
    | cons b r =>
      rw [List.length_cons] at hlength
      by_cases hb : b = 0
      · -- A byte of value zero is the end of the source.
        have hscan : scan ⟨pos, w ++ [0x3B]⟩ = (⟨.eof, [], pos'⟩, ⟨pos', b :: (r ++ [0x3B])⟩) := by
          rw [scan, hskip]
          exact if_pos hb
        refine .inr (.inr ?_)
        rw [all_of_eof (by rw [hscan]), hscan]
        simp
      · have hscan (t : Bytes) : scan ⟨pos, w ++ 0x3B :: t⟩ = scanAt pos' b (r ++ 0x3B :: t) := by
          rw [scan, hskip]
          exact if_neg hb
        have hkind := (spelled_scanAt pos' b (r ++ [0x3B])).1
        rcases scanAt_stop pos' b r with ⟨tok, pos'', rest, htok⟩ | ⟨hstring, hend⟩
        · have hlength' := scanAt_length pos' b (r ++ [0x3B])
          obtain ⟨piece, -, -, hpos, -, -⟩ := scanAt_cut pos' b (r ++ [0x3B])
          have hless := length_rest_scanAt pos' b (r ++ [0x3B])
          rw [htok] at hkind hlength' hpos hless
          simp only [List.length_append, List.length_cons, List.length_nil] at hlength' hless
          dsimp only at hpos
          refine .inr (.inl ⟨tok, pos'', rest, hkind, by omega, by omega, by omega, fun t => ?_⟩)
          rw [hscan, htok]
        · refine .inr (.inr ?_)
          rw [all_of_ne_eof (by rw [hscan]; exact hkind), hscan, all_nil hend]
          simp [hstring]
  -- A comment holds the semicolon, so nothing is left to read.
  · have hscan : scan ⟨pos, w ++ [0x3B]⟩ = (⟨.eof, [], (skipGap .blank pos (w ++ [0x3B])).pos⟩,
        ⟨(skipGap .blank pos (w ++ [0x3B])).pos, []⟩) := by
      rw [scan]
      generalize skipGap .blank pos (w ++ [0x3B]) = c at hend
      obtain ⟨pos', rest⟩ := c
      obtain rfl : rest = [] := hend
      rfl
    refine .inr (.inr ?_)
    rw [all_of_eof (by rw [hscan]), hscan]
    simp

/-- The tokens up to a semicolon that is one of them do not depend on what stands behind it. -/
theorem all_append {pos : Nat} {w : Bytes}
    (h : ⟨.semicolon, [0x3B], pos + w.length⟩ ∈ all ⟨pos, w ++ [0x3B]⟩) :
    ∃ body, ∀ t, all ⟨pos, w ++ 0x3B :: t⟩ =
      body ++ ⟨.semicolon, [0x3B], pos + w.length⟩ :: all ⟨pos + w.length + 1, t⟩ := by
  -- On the bytes before the semicolon: each token but the semicolon takes some of them.
  induction hn : w.length using Nat.strongRecOn generalizing pos w with
  | ind n ih =>
    subst hn
    rcases scan_stop pos w with hscan | ⟨tok, pos', rest, hkind, hpos, hlength, hless,
      hscan⟩ | hnone
    · refine ⟨[], fun t => ?_⟩
      rw [all_of_ne_eof (by rw [hscan]; simp), hscan, List.nil_append]
    · have hall (t : Bytes) : all ⟨pos, w ++ 0x3B :: t⟩ = tok :: all ⟨pos', rest ++ 0x3B :: t⟩ := by
        rw [all_of_ne_eof (by rw [hscan]; exact hkind), hscan]
      rw [hall, List.mem_cons, ← hlength] at h
      -- The token stands before the semicolon, so the semicolon is one of the others.
      have hrest := h.resolve_left fun heq => by
        rw [← heq] at hpos
        dsimp only at hpos
        omega
      obtain ⟨body, hbody⟩ := ih rest.length hless hrest rfl
      refine ⟨tok :: body, fun t => ?_⟩
      rw [hall, hbody, hlength, List.cons_append]
    · exact absurd rfl (hnone _ h)

end Cursor

/-- The last byte of a source is a semicolon, and it is read as a token. -/
def EndsWithSemicolon (s : Bytes) : Prop :=
  ∃ w, s = w ++ [0x3B] ∧ ⟨.semicolon, [0x3B], w.length⟩ ∈ tokens s

/-- Behind such a source, another one is read as if it stood alone, and further on. -/
theorem tokens_append {s : Bytes} (h : EndsWithSemicolon s) : ∃ body semi, semi.kind = .semicolon ∧
    ∀ t, tokens (s ++ t) = body ++ semi :: (tokens t).map (Token.moved (· + s.length)) := by
  obtain ⟨w, rfl, hmem⟩ := h
  rw [← Nat.zero_add w.length] at hmem
  obtain ⟨body, hbody⟩ := Cursor.all_append hmem
  refine ⟨body, ⟨.semicolon, [0x3B], 0 + w.length⟩, rfl, fun t => ?_⟩
  have hmore : Cursor.all ⟨0 + (w ++ [0x3B]).length, t⟩ =
    (tokens t).map (Token.moved (· + (w ++ [0x3B]).length)) :=
    Cursor.all_add _ ⟨0, t⟩
  have htail : 0 + w.length + 1 = 0 + (w ++ [0x3B]).length := by
    rw [List.length_append, List.length_singleton, Nat.add_assoc]
  rw [List.append_assoc, List.singleton_append, ← hmore, ← htail]
  exact hbody t

end Rill
