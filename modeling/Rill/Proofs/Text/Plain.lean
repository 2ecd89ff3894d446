import Rill.Proofs.Text.Glyph
import Rill.Text.Quoted

/-!
# Plain texts

Decimal numbers and texts of printable ASCII characters are written so that they can be read back.

* `Bytes.toNat_ofNat`: the value of a number in decimal is the number.
* `quote_of_isPlain`: a text of plain bytes stands between the quotes as it is.
-/

namespace Rill

namespace Bytes

theorem toNat_ascii {c : Char} (h : c.toNat < 0x100) : (ascii c).toNat = c.toNat := by
  rw [ascii, UInt8.toNat_ofNat', Nat.mod_eq_of_lt h]

theorem toNat_le_of_isDigit {c : Char} (h : c.isDigit = true) :
    0x30 ≤ c.toNat ∧ c.toNat ≤ 0x39 := by
  simpa [Char.isDigit, UInt32.le_iff_toNat_le] using h

/-- Digits of characters and of bytes have the same value. -/
theorem foldl_ascii (cs : List Char) (h : ∀ c ∈ cs, c.isDigit = true) (init : Nat) :
    (cs.map ascii).foldl (fun n b => 10 * n + (b.toNat - 0x30)) init =
      Nat.ofDigitChars 10 cs init := by
  induction cs generalizing init with
  | nil => rfl
  | cons c cs ih =>
    obtain ⟨hc, hcs⟩ := List.forall_mem_cons.mp h
    have hle := toNat_le_of_isDigit hc
    rw [List.map_cons, List.foldl_cons, ih hcs, Nat.ofDigitChars_cons, toNat_ascii (by omega)]
    rfl

/-- The digits of a number are read back as the number. -/
theorem toNat_ofNat (n : Nat) : toNat (ofNat n) = n := by
  rw [toNat, ofNat, foldl_ascii _ fun c hc => Nat.isDigit_of_mem_toDigits (by decide)
    (by decide) hc]
  exact Nat.ofDigitChars_toDigits (by decide) (by decide)

theorem ofNat_ne_nil (n : Nat) : ofNat n ≠ [] := by simp [ofNat, Nat.toDigits_ne_nil]

/-- A number is written with digits only. -/
theorem isDigit_of_mem_ofNat {n : Nat} {b : UInt8} (hb : b ∈ ofNat n) : isDigit b = true := by
  obtain ⟨c, hc, rfl⟩ := List.mem_map.mp hb
  have hle := toNat_le_of_isDigit (Nat.isDigit_of_mem_toDigits (by decide) (by decide) hc)
  have hvalue := toNat_ascii (c := c) (by omega)
  simp only [isDigit, Bool.and_eq_true, decide_eq_true_eq, UInt8.le_iff_toNat_le, hvalue]
  exact hle

/-- A printable ASCII character that is neither a quote nor a backslash. -/
def isPlain (b : UInt8) : Bool := 0x20 ≤ b && b ≤ 0x7E && b != 0x22 && b != 0x5C

/-- Plain bytes are the printable ones of ASCII but quotes and backslashes. -/
theorem isPlain_iff {b : UInt8} :
    isPlain b = true ↔ 0x20 ≤ b.toNat ∧ b.toNat ≤ 0x7E ∧ b.toNat ≠ 0x22 ∧ b.toNat ≠ 0x5C := by
  simp [isPlain, UInt8.le_iff_toNat_le, ← UInt8.toNat_inj, and_assoc]

end Bytes

/-- Plain bytes are quoted as themselves. -/
theorem flatMap_quoted {s : Bytes} (h : ∀ b ∈ s, Bytes.isPlain b = true) :
    (glyphs s).flatMap Glyph.quoted = s := by
  induction s with
  | nil => rfl
  | cons b s ih =>
    obtain ⟨hb, hs⟩ := List.forall_mem_cons.mp h
    obtain ⟨hlow, hhigh, hquote, hslash⟩ := Bytes.isPlain_iff.mp hb
    have hdecode : Glyph.decode b s = (.rune b.toNat, 0) :=
      if_pos (UInt8.lt_iff_toNat_lt.mpr (Nat.lt_of_le_of_lt hhigh (by decide)))
    have hquoted : (Glyph.rune b.toNat).quoted = [b] := by
      rw [Glyph.quoted, if_neg hquote, if_neg hslash, if_pos ⟨hlow, by omega⟩, encodeRune,
        if_pos (by omega), Glyph.toUInt8_toNat]
    have hcons : glyphs (b :: s) = .rune b.toNat :: glyphs s := by
      rw [glyphs, glyphsFrom, hdecode]
      rfl
    rw [hcons, List.flatMap_cons, hquoted, ih hs]
    rfl

/-- A text of plain bytes is quoted by quotes around it. -/
theorem quote_of_isPlain {s : Bytes} (h : ∀ b ∈ s, Bytes.isPlain b = true) :
    quote s = 0x22 :: s ++ [0x22] := by
  rw [quote, flatMap_quoted h]
  rfl

end Rill
