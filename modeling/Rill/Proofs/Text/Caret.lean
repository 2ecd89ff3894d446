import Mathlib.Data.List.Basic
import Mathlib.Data.List.Induction
import Mathlib.Data.List.TakeWhile
import Rill.Proofs.Text.Place
import Rill.Proofs.Text.Plain

/-!
# Carets

What is shown of the place of an offset, told by bytes. The place itself is found by counting
newlines and glyphs, the lines are found by cutting the source at newlines, and the caret is put
under a line that has lost its carriage returns; all three speak of the same byte.

* `Bytes.lastLine`, `Bytes.firstLine`: the part of a line that stands before an offset, and the part
  behind it.
* `Cut.take_glyphs_dropRight`: as many glyphs as stand before an offset, of a line without its
  carriage returns.
* `CutAt.locates`: the place of an offset, and its excerpt, whose caret stands under the glyph at
  the offset.
-/

namespace Rill

/-! ## The line of an offset -/

namespace Bytes

/-- The bytes behind the last newline. -/
def lastLine (s : Bytes) : Bytes := (s.reverse.takeWhile (· != 0x0A)).reverse

/-- The bytes before the first newline. -/
def firstLine (s : Bytes) : Bytes := s.takeWhile (· != 0x0A)

/-- The last line goes on with a byte, or starts anew behind a line feed. -/
theorem lastLine_concat (s : Bytes) (b : UInt8) :
    lastLine (s ++ [b]) = if b = 0x0A then [] else lastLine s ++ [b] := by
  rw [lastLine, List.reverse_concat, List.takeWhile_cons]
  by_cases hb : b = 0x0A
  · simp [hb]
  · simp [hb, lastLine]

/-- The last piece between newlines is the last line, and before it there is a piece for every
newline. -/
theorem exists_splitOn_eq_lastLine (s : Bytes) :
    ∃ front, splitOn 0x0A s = front ++ [lastLine s] ∧ front.length = s.count 0x0A := by
  induction s using List.reverseRecOn with
  | nil => exact ⟨[], rfl, rfl⟩
  | append_singleton s b ih =>
    obtain ⟨front, hs, hlength⟩ := ih
    by_cases hb : b = 0x0A
    · subst hb
      refine ⟨front ++ [lastLine s], ?_, by simp [hlength]⟩
      rw [splitOn_append hs (splitOn_cons_self 0x0A []), lastLine_concat, if_pos rfl,
        List.append_nil]
      simp [splitOn]
    · refine ⟨front, ?_, by simp [hlength, hb]⟩
      rw [splitOn_append hs (splitOn_cons_of_ne hb rfl), lastLine_concat, if_neg hb]

/-- The first piece between line feeds is the first line. -/
theorem exists_splitOn_eq_firstLine (s : Bytes) : ∃ more, splitOn 0x0A s = firstLine s :: more := by
  induction s with
  | nil => exact ⟨[], rfl⟩
  | cons b s ih =>
    obtain ⟨more, hs⟩ := ih
    by_cases hb : b = 0x0A
    · subst hb
      exact ⟨splitOn 0x0A s, splitOn_cons_self 0x0A s⟩
    · refine ⟨more, ?_⟩
      rw [splitOn_cons_of_ne hb hs, firstLine, firstLine,
        List.takeWhile_cons_of_pos (by simpa using hb)]

/-- What is dropped at the end is nothing but that byte. -/
theorem exists_append_replicate (b : UInt8) (s : Bytes) :
    ∃ n, s = dropRight b s ++ List.replicate n b := by
  have hdropped : ∀ x ∈ s.reverse.takeWhile (· == b), x = b := fun x hx => by
    simpa using List.mem_takeWhile_imp hx
  have hsplit := congrArg List.reverse (List.takeWhile_append_dropWhile (p := (· == b))
    (l := s.reverse))
  rw [List.reverse_append, List.reverse_reverse, List.eq_replicate_of_mem hdropped,
    List.reverse_replicate] at hsplit
  exact ⟨_, hsplit.symm⟩

end Bytes

/-! ## Blanks -/

/-- A string of bytes below `0x80` has a glyph for every byte. -/
theorem glyphs_of_lt {s : Bytes} (h : ∀ b ∈ s, b < 0x80) :
    glyphs s = s.map fun b => .rune b.toNat := by
  induction s with
  | nil => rfl
  | cons b s ih =>
    obtain ⟨hb, hs⟩ := List.forall_mem_cons.mp h
    have hdecode : Glyph.decode b s = (.rune b.toNat, 0) := if_pos hb
    rw [glyphs_cons, hdecode, List.drop_zero, ih hs, List.map_cons]

/-- What stands under a glyph in the line of a caret: a tab under a tab, else a space. -/
def Glyph.blank (g : Glyph) : Glyph := if g = .rune 0x09 then .rune 0x09 else .rune 0x20

namespace Place

theorem blankOf_lt (g : Glyph) : blankOf g < 0x80 := by
  unfold blankOf
  split <;> decide

theorem rune_blankOf (g : Glyph) : Glyph.rune (blankOf g).toNat = g.blank := by
  unfold blankOf Glyph.blank
  split <;> rfl

/-- The blanks of glyphs are decoded as blanks. -/
theorem glyphs_map_blankOf (gs : List Glyph) : glyphs (gs.map blankOf) = gs.map Glyph.blank := by
  rw [glyphs_of_lt (List.forall_mem_map.mpr fun g _ => blankOf_lt g), List.map_map]
  exact List.map_congr_left fun g _ => rune_blankOf g

/-- The margin consists of characters of one byte, and none of them is a tab. -/
theorem of_mem_margin {n : Nat} {b : UInt8} (hb : b ∈ margin "  >  " n) : b < 0x80 ∧ b ≠ 0x09 := by
  have htexts : (text "  >  " ++ text " | ").all (fun b => b < 0x80 && b != 0x09) = true := by
    decide +kernel
  have htext : ∀ b ∈ text "  >  " ++ text " | ", b < 0x80 ∧ b ≠ 0x09 := by
    simpa using List.all_eq_true.mp htexts
  simp only [margin, Bytes.padLeft, List.mem_append] at hb
  rcases hb with (hb | hb | hb) | hb
  · exact htext b (List.mem_append_left _ hb)
  · rw [List.eq_of_mem_replicate hb]
    decide
  · have hdigit := Bytes.isDigit_of_mem_ofNat hb
    simp only [Bytes.isDigit, Bool.and_eq_true, decide_eq_true_eq, UInt8.le_iff_toNat_le] at hdigit
    rw [UInt8.lt_iff_toNat_lt, ne_eq, ← UInt8.toNat_inj]
    simp only [UInt8.reduceToNat] at hdigit ⊢
    omega
  · exact htext b (List.mem_append_right _ hb)

/-- A margin is followed by the glyphs of what it is put in front of. -/
theorem glyphs_margin_append (n : Nat) (s : Bytes) :
    glyphs (margin "  >  " n ++ s) = glyphs (margin "  >  " n) ++ glyphs s :=
  (Cut.of_last (fun _ hb => (of_mem_margin (List.mem_of_getLast? hb)).1) s).glyphs_append

/-- Below the margin there are spaces. -/
theorem map_blank_margin (n : Nat) :
    (glyphs (margin "  >  " n)).map Glyph.blank =
      glyphs ((margin "  >  " n).map fun _ => 0x20) := by
  have hspaces : ∀ b ∈ (margin "  >  " n).map fun _ => (0x20 : UInt8), b < 0x80 :=
    List.forall_mem_map.mpr fun _ _ => by decide
  rw [glyphs_of_lt fun b hb => (of_mem_margin hb).1, glyphs_of_lt hspaces,
    List.map_map, List.map_map]
  refine List.map_congr_left fun b hb => if_neg fun htab => (of_mem_margin hb).2 ?_
  rw [← UInt8.toNat_inj]
  exact Glyph.rune.inj htab

end Place

/-! ## A line and its caret -/

/-- Of a line that lost the bytes at its end, as many glyphs as stand before a cut of the line are
those before the cut, or all of them if the cut was at or behind its end. -/
theorem Cut.take_glyphs_dropRight {before rest : Bytes} {b : UInt8} (h : Cut before rest)
    (hb : b < 0x80) :
    (glyphs (Bytes.dropRight b (before ++ rest))).take (glyphs before).length =
        glyphs ((Bytes.dropRight b (before ++ rest)).take before.length) ∧
      Cut ((Bytes.dropRight b (before ++ rest)).take before.length)
        ((Bytes.dropRight b (before ++ rest)).drop before.length) := by
  obtain ⟨n, hline⟩ := Bytes.exists_append_replicate b (before ++ rest)
  generalize Bytes.dropRight b (before ++ rest) = kept at hline ⊢
  rcases List.append_eq_append_iff.mp hline with ⟨more, rfl, hrest⟩ | ⟨lost, rfl, hlost⟩
  · -- The cut is in what is kept.
    rw [hrest] at h
    rw [h.of_append.glyphs_append, List.take_left, List.take_left, List.drop_left]
    exact ⟨rfl, h.of_append⟩
  · -- The cut is in what is lost.
    have hcut : Cut kept lost := by
      refine Cut.of_head (fun x hx => ?_) kept
      have hmem : x ∈ List.replicate n b :=
        hlost ▸ List.mem_append_left _ (List.mem_of_mem_head? hx)
      rwa [List.eq_of_mem_replicate hmem]
    rw [hcut.glyphs_append, List.take_of_length_le (by simp), List.take_of_length_le (by simp),
      List.drop_eq_nil_of_le (by simp)]
    exact ⟨rfl, Cut.of_head (by simp) kept⟩

/-! ## Excerpts -/

/-- A line of a source as it is shown, without the carriage returns at its end. -/
def shownLine (src : Bytes) (n : Nat) : Bytes :=
  Bytes.dropRight 0x0D ((Bytes.splitOn 0x0A src).getD (n - 1) [])

/-- The line with a caret below it as it is shown. -/
def markedLine (src : Bytes) (n : Nat) : Bytes := Place.margin "  >  " n ++ shownLine src n

/-- The lines that are shown above a line: two of them, if there are so many. -/
def linesAbove (src : Bytes) (n : Nat) : Bytes :=
  (List.range' (max 1 (n - 2)) (n - max 1 (n - 2))).flatMap fun i =>
    Place.margin "     " i ++ shownLine src i ++ text "\n"

/-- The number of the line around an offset: one more than there are newlines before it. -/
def lineNumber (src : Bytes) (offset : Nat) : Nat := 1 + (src.take offset).count 0x0A

/-- Where the byte at an offset stands in the marked line of the offset. -/
def markedOffset (src : Bytes) (offset : Nat) : Nat :=
  (Place.margin "  >  " (lineNumber src offset)).length + (Bytes.lastLine (src.take offset)).length

namespace Place

/-- An excerpt is the lines above, the line itself and the pointer under it. -/
theorem excerpt_eq {src : Bytes} {n : Nat} (column : Int) (hn : 1 ≤ n)
    (hlines : n ≤ (Bytes.splitOn 0x0A src).length) :
    excerpt src ⟨n, column⟩ = linesAbove src n ++ pointedLine n column (shownLine src n) := by
  -- The shown lines are at most two above and the line itself, which comes last.
  have hrange : List.range' (max 1 (n - 2)) (n + 1 - max 1 (n - 2)) =
      List.range' (max 1 (n - 2)) (n - max 1 (n - 2)) ++ [n] := by
    have hcount : n + 1 - max 1 (n - 2) = n - max 1 (n - 2) + 1 := by omega
    rw [hcount, List.range'_1_concat]
    congr 2
    omega
  have hinside : ¬ ((n : Int) < 1 ∨ (n : Int) > (Bytes.splitOn 0x0A src).length) := by omega
  rw [excerpt, if_neg hinside]
  dsimp only
  rw [Int.toNat_natCast, hrange, List.flatMap_map, List.flatMap_append,
    List.flatMap_singleton, if_pos rfl]
  congr 1
  refine List.flatMap_congr fun i hi => if_neg ?_
  have hlt := (List.mem_range'_1.mp hi).2
  omega

/-- A caret stands behind as many blanks as there are glyphs before the cut of the line above it. -/
theorem exists_pointedLine_eq {before rest : Bytes} (h : Cut before rest) (n : Nat) :
    ∃ caret, pointedLine n ((glyphs before).length + 1) (Bytes.dropRight 0x0D (before ++ rest)) =
        margin "  >  " n ++ Bytes.dropRight 0x0D (before ++ rest) ++ text "\n" ++ caret ++
          text "^ unexpected here" ∧
      glyphs caret = (glyphs (margin "  >  " n ++
        (Bytes.dropRight 0x0D (before ++ rest)).take before.length)).map Glyph.blank := by
  obtain ⟨htake, -⟩ := h.take_glyphs_dropRight (b := 0x0D) (by decide)
  generalize Bytes.dropRight 0x0D (before ++ rest) = line at htake ⊢
  -- The caret goes no further than the end of the line that is shown.
  have hcolumn : (if ((glyphs before).length : Int) + 1 - 1 < (glyphs line).length then
      (((glyphs before).length : Int) + 1 - 1).toNat else (glyphs line).length) =
        min (glyphs before).length (glyphs line).length := by
    split <;> omega
  refine ⟨(margin "  >  " n).map (fun _ => 0x20) ++ ((glyphs line).take (glyphs before).length).map
    blankOf, ?_, ?_⟩
  · rw [pointedLine, hcolumn, ← List.take_take, List.take_length]
    simp only [List.append_assoc]
  · have hblanks : ∀ b ∈ ((margin "  >  " n).map fun _ => (0x20 : UInt8)).getLast?, b < 0x80 := by
      intro b hb
      obtain ⟨_, -, rfl⟩ := List.mem_map.mp (List.mem_of_getLast? hb)
      decide
    rw [(Cut.of_last hblanks _).glyphs_append, glyphs_map_blankOf, htake, ← map_blank_margin,
      ← List.map_append, glyphs_margin_append]

/-- What the place of an offset and its excerpt have to do with the bytes around the offset. -/
structure Locates (src : Bytes) (offset : Nat) (place : Place) : Prop where
  /-- The line is counted by the newlines before the offset. -/
  line : place.line = lineNumber src offset
  /-- The column is counted by the glyphs between the last of them and the offset. -/
  column : place.column = 1 + (glyphs (Bytes.lastLine (src.take offset))).length
  /-- Later offsets have later places. -/
  lt : ∀ later, CutAt src later → offset < later → place < ofOffset src later
  /-- The line of that number is the one around the offset. -/
  around : (Bytes.splitOn 0x0A src)[lineNumber src offset - 1]? =
    some (Bytes.lastLine (src.take offset) ++ Bytes.firstLine (src.drop offset))
  /-- No glyph of the marked line has bytes both before and behind the byte at the offset. -/
  aligned : Cut ((markedLine src (lineNumber src offset)).take (markedOffset src offset))
    ((markedLine src (lineNumber src offset)).drop (markedOffset src offset))
  /-- The excerpt shows this line, up to two above it, and below it a caret behind blanks: one for
  each glyph of the marked line that stands before the byte at the offset, or for each one if the
  line is shown without it. -/
  shown : ∃ caret, place.excerpt src = linesAbove src (lineNumber src offset) ++
      (markedLine src (lineNumber src offset) ++ text "\n" ++ caret ++ text "^ unexpected here") ∧
    glyphs caret =
      (glyphs ((markedLine src (lineNumber src offset)).take (markedOffset src offset))).map
        Glyph.blank

end Place

/-- The place of an offset and its excerpt are right about the offset. -/
theorem CutAt.locates {src : Bytes} {offset : Nat} (h : CutAt src offset) :
    (Place.ofOffset src offset).Locates src offset := by
  have hlater := fun later (hcut : CutAt src later) => h.place_lt hcut
  obtain ⟨before, rest, rfl, rfl, hcut⟩ := h
  -- The line of the offset is made of the last line before it and the first line behind it.
  obtain ⟨front, hbefore, hfront⟩ := Bytes.exists_splitOn_eq_lastLine before
  obtain ⟨more, hrest⟩ := Bytes.exists_splitOn_eq_firstLine rest
  have hlines := Bytes.splitOn_append hbefore hrest
  have hcutLine := hcut.last_line hbefore hrest
  have hplace := hcut.ofOffset_eq hbefore
  have hnumber : lineNumber (before ++ rest) before.length = front.length + 1 := by
    rw [lineNumber, List.take_left, hfront, Nat.add_comm]
  have hline : (Bytes.splitOn 0x0A (before ++ rest))[front.length]? =
      some (before.lastLine ++ rest.firstLine) := by
    rw [hlines, List.getElem?_append_right (Nat.le_refl _), Nat.sub_self, List.getElem?_cons_zero]
  have hshown : shownLine (before ++ rest) (front.length + 1) =
      Bytes.dropRight 0x0D (before.lastLine ++ rest.firstLine) := by
    rw [shownLine, Nat.add_sub_cancel, List.getD_eq_getElem?_getD, hline, Option.getD_some]
  -- The marked line up to the offset is the margin and what is shown before the offset. A carriage
  -- return at the end of the line is not shown.
  have htake : (markedLine (before ++ rest) (front.length + 1)).take
    (markedOffset (before ++ rest) before.length) =
      Place.margin "  >  " (front.length + 1) ++
        (Bytes.dropRight 0x0D (before.lastLine ++ rest.firstLine)).take before.lastLine.length := by
    rw [markedLine, hshown, markedOffset, hnumber, List.take_left, List.take_length_add_append]
  have hdrop : (markedLine (before ++ rest) (front.length + 1)).drop
    (markedOffset (before ++ rest) before.length) =
      (Bytes.dropRight 0x0D (before.lastLine ++ rest.firstLine)).drop before.lastLine.length := by
    rw [markedLine, hshown, markedOffset, hnumber, List.take_left, List.drop_length_add_append]
  refine ⟨?_, ?_, hlater, ?_, ?_, ?_⟩
  · rw [hplace, hnumber]
    rfl
  · rw [hplace, List.take_left]
    exact Int.add_comm _ _
  · rw [hnumber, Nat.add_sub_cancel, hline, List.take_left, List.drop_left]
  · rw [hnumber, htake, hdrop]
    -- The margin is ASCII, so the cut in the line is one in the marked line.
    have hmargin := Cut.of_last
      (fun _ hb => (Place.of_mem_margin (n := front.length + 1) (List.mem_of_getLast? hb)).1)
    exact (hmargin _).trans (hcutLine.take_glyphs_dropRight (by decide)).2
  · rw [hnumber, htake, hplace, ← Int.natCast_succ, Place.excerpt_eq _ (by omega)
      (by simp [hlines]), hshown]
    obtain ⟨caret, hpointed, hcaret⟩ := Place.exists_pointedLine_eq hcutLine (front.length + 1)
    exact ⟨caret, by rw [hpointed, markedLine, hshown], hcaret⟩

/-- A tab, a character of two bytes and a byte that is no character on a line that ends with a
carriage return. -/
def mixedLine : Bytes := [0x61, 0x0A, 0x09, 0xC3, 0xA9, 0xFF, 0x78, 0x0D, 0x0A]

/-- The newline of that line is behind what is shown of the line, and so is its caret. -/
theorem CutAt.locates_mixedLine :
    CutAt mixedLine 8 ∧ (Place.ofOffset mixedLine 8).Locates mixedLine 8 ∧
    Place.ofOffset mixedLine 8 = ⟨2, 6⟩ ∧
    (Place.ofOffset mixedLine 8).excerpt mixedLine =
      text "       1 | a\n  >    2 | \té" ++ [0xFF] ++
      text "x\n           \t   ^ unexpected here" := by
  have hcut : CutAt mixedLine 8 := ⟨mixedLine.take 8, [0x0A], rfl, rfl, Cut.of_head (by simp) _⟩
  exact ⟨hcut, hcut.locates, by decide +kernel, by decide +kernel⟩

end Rill
