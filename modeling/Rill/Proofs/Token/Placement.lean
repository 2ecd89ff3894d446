import Rill.Proofs.Text.Place
import Rill.Proofs.Token.Tiling

/-!
# Where tokens stand

Every token stands at a cut of its source: no glyph has bytes before it and in it. This holds for
any bytes, those of value zero included, which end a source or a string.

* `Cursor.skipGap_cut`, `Cursor.scanAt_cut`, `Cursor.scan_cut`: one call of the scanner moves from
  cut to cut.
* `tokens_cutAt`: the tokens of a source stand at cuts.
* `tokens_ascending`: the tokens of a source are in the order of their offsets.
-/

namespace Rill

/-- A text is cut behind ASCII bytes. -/
theorem Cut.of_ascii {piece : Bytes} (h : ∀ b ∈ piece, b < 0x80) (rest : Bytes) : Cut piece rest :=
  Cut.of_last (fun b hb => h b (List.mem_of_getLast? hb)) rest

/-! ## Bytes below `0x80` -/

theorem lt_of_isDigit {b : UInt8} (h : Bytes.isDigit b) : b < 0x80 := by
  simp only [Bytes.isDigit, Bool.and_eq_true, decide_eq_true_eq, UInt8.le_iff_toNat_le,
    UInt8.lt_iff_toNat_lt, UInt8.reduceToNat] at h ⊢
  omega

theorem lt_of_isWordByte {b : UInt8} (h : Cursor.isWordByte b) : b < 0x80 := by
  simp only [Cursor.isWordByte, Bytes.isLetter, Bool.or_eq_true, Bool.and_eq_true,
    decide_eq_true_eq, beq_iff_eq,
    UInt8.le_iff_toNat_le, UInt8.lt_iff_toNat_lt, UInt8.reduceToNat] at h ⊢
  rcases h with h | rfl
  · omega
  · decide

/-- Numbers are spelled in ASCII. -/
theorem NumberSpelling.lt {kind : TokenKind} {literal : Bytes} (h : NumberSpelling kind literal) :
    ∀ b ∈ literal, b < 0x80 := by
  have hdigits {s : Bytes} (hs : ∀ b ∈ s, Bytes.isDigit b) : ∀ b ∈ s, b < 0x80 := fun b hb =>
    lt_of_isDigit (hs b hb)
  have hpoint {s t : Bytes} (hs : ∀ b ∈ s, b < 0x80) (ht : ∀ b ∈ t, b < 0x80) :
    ∀ b ∈ s ++ 0x2E :: t, b < 0x80 :=
    List.forall_mem_append.mpr ⟨hs, List.forall_mem_cons.mpr ⟨by decide, ht⟩⟩
  cases h with
  | int _ hwhole => exact hdigits hwhole
  | point _ hwhole _ hfraction => exact hpoint (hdigits hwhole) (hdigits hfraction)
  | float _ hwhole hfraction =>
    refine List.forall_mem_append.mpr ⟨hpoint (hdigits hwhole) (hdigits hfraction), ?_⟩
    exact List.forall_mem_singleton.mpr (by decide)
  | double _ hwhole hfraction =>
    refine List.forall_mem_append.mpr ⟨hpoint (hdigits hwhole) (hdigits hfraction), ?_⟩
    exact List.forall_mem_singleton.mpr (by decide)

/-- The second mark of a pair is ASCII. -/
theorem second_lt {b second : UInt8} {alone together : TokenKind}
    (h : Cursor.pair? b = some (alone, second, together)) : second < 0x80 := by
  have hall : ∀ entry ∈ Cursor.pairs, entry.2.2.1 < 0x80 := by decide
  exact hall _ (Cursor.mem_pairs h)

theorem lt_of_mark? {b : UInt8} {kind : TokenKind} (h : Cursor.mark? b = some kind) : b < 0x80 := by
  have hall : ∀ entry ∈ Cursor.marks, entry.1 < 0x80 := by decide
  exact hall _ (Cursor.mem_marks h)

namespace Cursor

/-! ## Gaps -/

/-- A comment ends with a byte below `0x80`. -/
theorem Gap.lt_of_after_blank {gap : Gap} {b : UInt8} (h : gap.after b = some .blank) :
    b < 0x80 := by
  have hcases : isBlank b ∨ b = 0x23 ∨ b = 0x0A := by
    cases gap <;> rw [Gap.after] at h <;> (repeat' split at h) <;> simp_all
  simp only [isBlank, Bool.or_eq_true, beq_iff_eq] at hcases
  rcases hcases with (((rfl | rfl) | rfl) | rfl) | rfl | rfl <;> decide

/-- What is skipped ends at a cut. Between comments this rests on the byte before. -/
theorem skipGap_cut (gap : Gap) (pos : Nat) (front s : Bytes)
    (hfront : gap = .blank → ∀ b ∈ front.getLast?, b < 0x80) :
    ∃ skipped rest, s = skipped ++ rest ∧ skipGap gap pos s = ⟨pos + skipped.length, rest⟩ ∧
      Cut (front ++ skipped) rest := by
  induction s generalizing gap pos front with
  | nil => exact ⟨[], [], rfl, by cases gap <;> rfl, Cut.of_head (by simp) _⟩
  | cons b s ih =>
    by_cases hb : b = 0
    · subst hb
      exact ⟨[], 0 :: s, rfl, by cases gap <;> rfl, Cut.of_head (by simp) _⟩
    · rw [skipGap_cons hb]
      cases hnext : gap.after b with
      | some next =>
        obtain ⟨skipped, rest, rfl, hskip, hcut⟩ :=
          ih next (pos + 1) (front ++ [b]) fun hblank c hc => by
          obtain rfl : b = c := by simpa using hc
          exact Gap.lt_of_after_blank (hblank ▸ hnext)
        refine ⟨b :: skipped, rest, rfl, ?_, by rwa [List.append_assoc] at hcut⟩
        rw [Option.elim_some, hskip, List.length_cons, Nat.add_assoc, Nat.add_comm 1]
      | none =>
        obtain rfl := Gap.eq_blank_of_after_eq_none hnext
        -- The byte `b` may lie inside a character, so the cut has to come from the byte before it.
        refine ⟨[], b :: s, rfl, rfl, ?_⟩
        rw [List.append_nil]
        exact Cut.of_last (hfront rfl) _

/-! ## Tokens -/

/-- A token ends at a cut. -/
theorem scanAt_cut (pos : Nat) (b : UInt8) (s : Bytes) :
    ∃ piece rest, b :: s = piece ++ rest ∧ (scanAt pos b s).1.pos = pos ∧
      (scanAt pos b s).2 = ⟨pos + piece.length, rest⟩ ∧ Cut piece rest := by
  rw [scanAt]
  split
  next hquote =>
    have hcut := List.takeWhile_append_dropWhile (p := isQuotedByte) (l := s)
    split
    next q s' hend =>
      -- A string ends with a quote or a zero byte.
      have hq : q < 0x80 := by
        have hnot : isQuotedByte q = false := by
          simpa [hend] using List.head?_dropWhile_not isQuotedByte s
        rw [isQuotedByte, Bool.and_eq_false_iff, bne_eq_false_iff_eq, bne_eq_false_iff_eq] at hnot
        rcases hnot with rfl | rfl <;> decide
      rw [hend] at hcut
      exact ⟨b :: s.takeWhile isQuotedByte ++ [q], s', by simp [hcut], rfl, by simp [Nat.add_assoc],
        Cut.concat hq _ s'⟩
    next hend =>
      rw [hend, List.append_nil] at hcut
      exact ⟨b :: s.takeWhile isQuotedByte, [], by simp [hcut], rfl, by simp [Nat.add_assoc],
        Cut.of_head (by simp) _⟩
  split
  next hword =>
    have hbytes : ∀ c ∈ b :: s.takeWhile isWordByte, isWordByte c :=
      List.forall_mem_cons.mpr ⟨hword, List.all_eq_true.mp List.all_takeWhile⟩
    refine ⟨b :: s.takeWhile isWordByte, s.dropWhile isWordByte, ?_, rfl, rfl,
      Cut.of_ascii (fun c hc => lt_of_isWordByte (hbytes c hc)) _⟩
    rw [List.cons_append, List.takeWhile_append_dropWhile]
  split
  next hdigit =>
    obtain ⟨kind, literal, rest, hnumber, hspelling, hcut⟩ := number_spec s hdigit
    simp only [hnumber]
    exact ⟨literal, rest, hcut.symm, trivial, rfl, Cut.of_ascii hspelling.lt rest⟩
  split
  next alone second together hpair =>
    have hb := (pair?_spec hpair).1
    split
    next c s' =>
      split
      next hc =>
        subst hc
        exact ⟨[b, c], s', rfl, rfl, rfl, Cut.concat (second_lt hpair) [b] s'⟩
      next => exact ⟨[b], c :: s', rfl, rfl, rfl, Cut.byte hb _⟩
    next => exact ⟨[b], [], rfl, rfl, rfl, Cut.byte hb _⟩
  next hmark => exact ⟨[b], s, rfl, rfl, rfl, Cut.byte (lt_of_mark? hmark) s⟩
  next =>
    have hcut := List.take_append_drop (Glyph.decode b s).2 s
    have hlength := List.length_take_of_le (Glyph.decode_le b s)
    refine ⟨b :: (s.take (Glyph.decode b s).2 ++ []), s.drop (Glyph.decode b s).2, by simp, rfl, ?_,
      .glyph ?_ .start⟩
    · simp [hlength, Nat.add_assoc, Nat.add_comm]
    · rw [List.nil_append, hcut, hlength]

/-- One call: the token stands at a cut, and unless it is the end, so does what is left behind
it. -/
theorem scan_cut (c : Cursor) :
    ∃ gap rest, c.rest = gap ++ rest ∧ c.scan.1.pos = c.pos + gap.length ∧
    Cut gap rest ∧ (c.scan.1.kind ≠ .eof → ∃ piece more, rest = piece ++ more ∧ Cut piece more ∧
      c.scan.2 = ⟨c.scan.1.pos + piece.length, more⟩) := by
  obtain ⟨gap, rest, hrest, hskip, hcut⟩ := skipGap_cut .blank c.pos [] c.rest (by simp)
  refine ⟨gap, rest, hrest, ?_⟩
  rw [scan, hskip]
  cases rest with
  | nil => exact ⟨rfl, hcut, fun h => absurd rfl h⟩
  | cons b s =>
    dsimp only
    split
    next => exact ⟨rfl, hcut, fun h => absurd rfl h⟩
    next =>
      obtain ⟨piece, more, hpiece, hpos, hnext, hcut'⟩ := scanAt_cut (c.pos + gap.length) b s
      rw [hpos]
      exact ⟨rfl, hcut, fun _ => ⟨piece, more, hpiece, hcut', hnext⟩⟩

/-- All calls from a position on. -/
theorem tokens_cut {n : Nat} {c : Cursor} : ∀ t ∈ c.tokens n,
    ∃ before rest, c.rest = before ++ rest ∧ t.pos = c.pos + before.length ∧ Cut before rest := by
  induction n generalizing c with
  | zero => simp [tokens]
  | succ n ih =>
    obtain ⟨gap, rest, hrest, hpos, hcut, hmore⟩ := c.scan_cut
    rw [tokens]
    dsimp only
    split
    next => exact List.forall_mem_singleton.mpr ⟨gap, rest, hrest, hpos, hcut⟩
    next hkind =>
      obtain ⟨piece, more, rfl, hpiece, hnext⟩ := hmore hkind
      refine List.forall_mem_cons.mpr ⟨⟨gap, _, hrest, hpos, hcut⟩, fun t ht => ?_⟩
      obtain ⟨before, rest, hbefore, hplace, hcut'⟩ := ih t ht
      rw [hnext] at hbefore hplace
      dsimp only at hbefore hplace
      subst hbefore
      refine ⟨gap ++ (piece ++ before), rest, by rw [hrest]; simp, ?_, ?_⟩
      · rw [hplace, hpos, List.length_append, List.length_append]
        omega
      · -- The gap, the token and what is before the later token are cut one behind the other.
        rw [← List.append_assoc piece] at hcut
        exact hcut.trans (hpiece.trans hcut')

/-- Tokens are scanned with offsets that never go back. -/
theorem tokens_ascending {n : Nat} {c : Cursor} : (c.tokens n).Pairwise (·.pos ≤ ·.pos) := by
  induction n generalizing c with
  | zero => exact .nil
  | succ n ih =>
    obtain ⟨gap, rest, -, -, -, hmore⟩ := c.scan_cut
    rw [tokens]
    dsimp only
    split
    next => exact List.pairwise_singleton _ _
    next hkind =>
      obtain ⟨piece, more, -, -, hnext⟩ := hmore hkind
      refine .cons (fun t ht => ?_) ih
      obtain ⟨before, -, -, hplace, -⟩ := tokens_cut t ht
      rw [hplace, hnext]
      dsimp only
      omega

end Cursor

/-- The tokens of a source stand at cuts. -/
theorem tokens_cutAt {src : Bytes} {t : Token} (ht : t ∈ tokens src) : CutAt src t.pos := by
  obtain ⟨before, rest, hsrc, hpos, hcut⟩ := Cursor.tokens_cut t ht
  exact ⟨before, rest, hsrc, by rw [hpos, Nat.zero_add], hcut⟩

/-- The tokens of a source are in the order of their offsets. -/
theorem tokens_ascending (src : Bytes) : (tokens src).Pairwise (·.pos ≤ ·.pos) :=
  Cursor.tokens_ascending

end Rill
