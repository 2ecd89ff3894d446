import Rill.Text.Glyph

/-!
# Glyphs and their bytes

Reading a glyph and writing it again gives the bytes that it was read from.

* `Glyph.encodeRune_two`, `Glyph.encodeRune_three`, `Glyph.encodeRune_four`: the encoding of a code
  point, from the payloads of its bytes.
* `Glyph.bytes_decode`: the bytes of the glyph at the front of a string are the front of the string.
* `Glyph.decode_spec`, `Glyph.decode_append`: how much of a string has an influence on its first
  glyph.
-/

namespace Rill.Glyph

variable {a b c d : UInt8}

@[simp]
theorem toUInt8_toNat (a : UInt8) : a.toNat.toUInt8 = a := UInt8.ofNat_toNat

theorem isTail_iff : isTail b = true ↔ 0x80 ≤ b.toNat ∧ b.toNat ≤ 0xBF := by
  simp [isTail, UInt8.le_iff_toNat_le]

/-- A tail byte is a mark and six bits. -/
theorem toNat_eq_of_isTail (hb : isTail b = true) : b.toNat = 0x80 + tail b ∧ tail b < 0x40 := by
  have hb := isTail_iff.mp hb
  have htail : tail b = b.toNat - 0x80 := rfl
  omega

/-- The ranges of the second byte leave out what has a shorter encoding or none. -/
theorem secondOk_spec (h : secondOk a b = true) : isTail b = true ∧
    (a.toNat = 0xE0 → 0xA0 ≤ b.toNat) ∧ (a.toNat = 0xED → b.toNat ≤ 0x9F) ∧
    (a.toNat = 0xF0 → 0x90 ≤ b.toNat) ∧ (a.toNat = 0xF4 → b.toNat ≤ 0x8F) := by
  rw [isTail_iff]
  simp only [secondOk, isTail, UInt8.le_iff_toNat_le, ← UInt8.toNat_inj] at h
  (repeat' split at h) <;> simp_all <;> omega

/-- A glyph of two bytes is encoded as these bytes. -/
theorem encodeRune_two (ha : 0xC2 ≤ a.toNat ∧ a.toNat ≤ 0xDF) (hb : isTail b = true) :
    encodeRune ((a.toNat - 0xC0) * 0x40 + tail b) = [a, b] := by
  have hb := toNat_eq_of_isTail hb
  generalize hn : (a.toNat - 0xC0) * 0x40 + tail b = n
  have hfirst : 0xC0 + n / 0x40 = a.toNat := by omega
  have hsecond : 0x80 + n % 0x40 = b.toNat := by omega
  rw [encodeRune, if_neg (by omega), if_pos (by omega), hfirst, hsecond, toUInt8_toNat,
    toUInt8_toNat]

/-- A glyph of three bytes is encoded as these bytes. -/
theorem encodeRune_three (ha : 0xE0 ≤ a.toNat ∧ a.toNat ≤ 0xEF) (hb : secondOk a b = true)
    (hc : isTail c = true) :
    encodeRune ((a.toNat - 0xE0) * 0x1000 + tail b * 0x40 + tail c) = [a, b, c] := by
  have hc := toNat_eq_of_isTail hc
  obtain ⟨hb, hlong, hsurrogate, -⟩ := secondOk_spec hb
  have hb := toNat_eq_of_isTail hb
  generalize hn : (a.toNat - 0xE0) * 0x1000 + tail b * 0x40 + tail c = n
  have hfirst : 0xE0 + n / 0x1000 = a.toNat := by omega
  have hsecond : 0x80 + n / 0x40 % 0x40 = b.toNat := by omega
  have hthird : 0x80 + n % 0x40 = c.toNat := by omega
  rw [encodeRune, if_neg (by omega), if_neg (by omega), if_neg (by omega), if_pos (by omega),
    hfirst, hsecond, hthird, toUInt8_toNat, toUInt8_toNat, toUInt8_toNat]

/-- A glyph of four bytes is encoded as these bytes. -/
theorem encodeRune_four (ha : 0xF0 ≤ a.toNat ∧ a.toNat ≤ 0xF4) (hb : secondOk a b = true)
    (hc : isTail c = true) (hd : isTail d = true) :
    encodeRune ((a.toNat - 0xF0) * 0x40000 + tail b * 0x1000 + tail c * 0x40 + tail d) =
      [a, b, c, d] := by
  have hc := toNat_eq_of_isTail hc
  have hd := toNat_eq_of_isTail hd
  obtain ⟨hb, -, -, hlong, hlarge⟩ := secondOk_spec hb
  have hb := toNat_eq_of_isTail hb
  generalize hn : (a.toNat - 0xF0) * 0x40000 + tail b * 0x1000 + tail c * 0x40 + tail d = n
  have hfirst : 0xF0 + n / 0x40000 = a.toNat := by omega
  have hsecond : 0x80 + n / 0x1000 % 0x40 = b.toNat := by omega
  have hthird : 0x80 + n / 0x40 % 0x40 = c.toNat := by omega
  have hfourth : 0x80 + n % 0x40 = d.toNat := by omega
  rw [encodeRune, if_neg (by omega), if_neg (by omega), if_neg (by omega), if_neg (by omega),
    if_pos (by omega), hfirst, hsecond, hthird, hfourth, toUInt8_toNat, toUInt8_toNat,
      toUInt8_toNat, toUInt8_toNat]

/-- The bytes of a glyph are those that it was read from. -/
theorem bytes_decode (a : UInt8) (s : Bytes) :
    (decode a s).1.bytes = a :: s.take (decode a s).2 := by
  unfold decode
  split
  next ha =>
    have ha : a.toNat < 0x80 := by simpa [UInt8.lt_iff_toNat_lt] using ha
    rw [bytes, encodeRune, if_pos ha, toUInt8_toNat, List.take_zero]
  -- A first byte announces how many bytes follow; where they do not, it stands alone.
  split
  next ha =>
    split
    next b s =>
      split
      next hb => exact encodeRune_two (by simpa [UInt8.le_iff_toNat_le] using ha) hb
      next => rfl
    next => rfl
  split
  next ha =>
    split
    next b c s =>
      split
      next htail =>
        obtain ⟨hb, hc⟩ := Bool.and_eq_true_iff.mp htail
        exact encodeRune_three (by simpa [UInt8.le_iff_toNat_le] using ha) hb hc
      next => rfl
    next => rfl
  split
  next ha =>
    split
    next b c d s =>
      split
      next htail =>
        obtain ⟨hbc, hd⟩ := Bool.and_eq_true_iff.mp htail
        obtain ⟨hb, hc⟩ := Bool.and_eq_true_iff.mp hbc
        exact encodeRune_four (by simpa [UInt8.le_iff_toNat_le] using ha) hb hc hd
      next => rfl
    next => rfl
  rfl

/-- A glyph takes no more bytes than there are. -/
theorem decode_le (a : UInt8) (s : Bytes) : (decode a s).2 ≤ s.length := by
  unfold decode
  (repeat' split) <;> simp

/-- A glyph is a single byte that is no character, or a character, which is read from its own bytes
whatever follows them. -/
theorem decode_spec (a : UInt8) (s : Bytes) : decode a s = (stray a, 0) ∨
    ∃ code tails rest, s = tails ++ rest ∧ (∀ b ∈ tails, isTail b = true) ∧
      ∀ t, decode a (tails ++ t) = (rune code, tails.length) := by
  -- A first byte announces how many bytes follow, and the glyph depends on these alone.
  unfold decode
  split
  next => exact .inr ⟨_, [], s, rfl, by simp, fun t => rfl⟩
  split
  next =>
    split
    next b s =>
      split
      next hb => exact .inr ⟨_, [b], s, rfl, by simpa using hb, fun t => if_pos hb⟩
      next => exact .inl rfl
    next => exact .inl rfl
  split
  next =>
    split
    next b c s =>
      split
      next htail =>
        obtain ⟨hb, hc⟩ := Bool.and_eq_true_iff.mp htail
        exact .inr ⟨_, [b, c], s, rfl, by simp [(secondOk_spec hb).1, hc], fun t => if_pos htail⟩
      next => exact .inl rfl
    next => exact .inl rfl
  split
  next =>
    split
    next b c d s =>
      split
      next htail =>
        obtain ⟨hbc, hd⟩ := Bool.and_eq_true_iff.mp htail
        obtain ⟨hb, hc⟩ := Bool.and_eq_true_iff.mp hbc
        exact .inr ⟨_, [b, c, d], s, rfl, by simp [(secondOk_spec hb).1, hc, hd],
          fun t => if_pos htail⟩
      next => exact .inl rfl
    next => exact .inl rfl
  exact .inl rfl

/-- What follows the bytes that a glyph takes has no influence on it. -/
theorem decode_of_le {s t : Bytes} (h : (decode a (s ++ t)).2 ≤ s.length) :
    decode a (s ++ t) = decode a s := by
  rcases decode_spec a (s ++ t) with hstray | ⟨code, tails, rest, hcut, -, hrune⟩
  · rcases decode_spec a s with hstray' | ⟨code, tails, rest, rfl, -, hrune⟩
    · rw [hstray, hstray']
    · rw [List.append_assoc, hrune] at hstray
      cases hstray
  · rw [hcut, hrune] at h
    obtain ⟨more, rfl⟩ : tails <+: s := List.prefix_of_prefix_length_le ⟨rest, hcut.symm⟩ ⟨t, rfl⟩ h
    rw [List.append_assoc, hrune, hrune]

/-- A byte below `0x80` is never taken into a glyph that starts before it. -/
theorem decode_append {t : Bytes} (ht : ∀ b ∈ t.head?, b < 0x80) (a : UInt8) (s : Bytes) :
    decode a (s ++ t) = decode a s := by
  apply decode_of_le
  rcases decode_spec a (s ++ t) with hstray | ⟨code, tails, rest, hcut, htails, hrune⟩
  · rw [hstray]
    exact Nat.zero_le _
  · rw [hcut, hrune]
    rcases List.append_eq_append_iff.mp hcut with ⟨more, rfl, hmore⟩ | ⟨more, rfl, -⟩
    -- The character would have to go on with the byte below `0x80`, which is none of its tails.
    · cases more with
      | nil => simp
      | cons b more =>
        have hb := isTail_iff.mp (htails b (by simp))
        have hlt := UInt8.lt_iff_toNat_lt.mp (ht b (by simp [hmore]))
        simp only [UInt8.reduceToNat] at hlt
        omega
    · simp

end Rill.Glyph
