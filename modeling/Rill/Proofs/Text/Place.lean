import Rill.Text.Place
import Rill.Proofs.Text.Glyph

/-!
# Where offsets are

The place of an offset between two glyphs, from the bytes before it: its line is the number of lines
that these bytes have, and its column is one more than the number of glyphs in the last of them.

* `Cut`: a source in two parts, with no glyph on both sides.
* `Cut.of_head`, `Cut.of_last`: next to a byte below `0x80` there is always a cut.
* `Bytes.splitOn_append`: the lines of a source in two parts.
* `Cut.ofOffset_eq`: the place of a cut.
* `CutAt.place_within`: the place of a cut is on a line of the source, and at most one column behind
  its end.
* `CutAt.place_lt`, `CutAt.place_le`: a later cut is at a later place.
* `Place.Within.excerpt_ne_nil`: there is always something to show around such a place.
-/

namespace Rill

/-! ## Cuts between glyphs -/

/-- Skipping bytes of a glyph is decoding the text without them. -/
theorem glyphsFrom_eq (skip : Nat) (s : Bytes) : glyphsFrom skip s = glyphs (s.drop skip) := by
  induction skip generalizing s with
  | zero => rfl
  | succ skip ih =>
    cases s with
    | nil => rfl
    | cons b s => rw [glyphsFrom, ih, List.drop_succ_cons]

/-- The glyphs of a text are its first one and those of the rest. -/
theorem glyphs_cons (a : UInt8) (s : Bytes) :
    glyphs (a :: s) = (Glyph.decode a s).1 :: glyphs (s.drop (Glyph.decode a s).2) := by
  rw [glyphs, glyphsFrom]
  dsimp only
  rw [glyphsFrom_eq]

/-- A text with bytes has glyphs. -/
theorem glyphs_ne_nil {s : Bytes} (h : s ≠ []) : glyphs s ≠ [] := by
  cases s with
  | nil => exact absurd rfl h
  | cons a s =>
    rw [glyphs_cons]
    exact List.cons_ne_nil _ _

/-- Read from the start, no glyph of `before ++ rest` has bytes in both parts. -/
inductive Cut : (before rest : Bytes) → Prop where
  | start {rest : Bytes} : Cut [] rest
  | glyph {a : UInt8} {tails before rest : Bytes}
      (hglyph : (Glyph.decode a (tails ++ (before ++ rest))).2 = tails.length)
        (hcut : Cut before rest) :
      Cut (a :: (tails ++ before)) rest

namespace Cut

variable {before mid rest : Bytes}

/-- A text is cut in front of an ASCII byte. -/
theorem of_head (h : ∀ b ∈ rest.head?, b < 0x80) (before : Bytes) : Cut before rest := by
  -- On the length, since a glyph may have more than one byte.
  induction hn : before.length using Nat.strongRecOn generalizing before with
  | ind n ih =>
    cases before with
    | nil => exact .start
    | cons a s =>
      have htaken := Glyph.decode_le a s
      have hcut := List.take_append_drop (Glyph.decode a s).2 s
      have hlength := List.length_take_of_le htaken
      have hmore : (s.drop (Glyph.decode a s).2).length < n := by
        rw [List.length_drop, ← hn, List.length_cons]
        omega
      rw [← hcut]
      refine .glyph ?_ (ih _ hmore _ rfl)
      rw [← List.append_assoc, hcut, Glyph.decode_append h, hlength]

/-- A cut in the rest behind a cut is a cut. -/
theorem trans (h : Cut before (mid ++ rest)) (hmid : Cut mid rest) : Cut (before ++ mid) rest := by
  generalize htail : mid ++ rest = tail at h
  induction h with
  | start => exact hmid
  | @glyph a tails before _ hglyph _ ih =>
    subst htail
    rw [List.cons_append, List.append_assoc]
    refine .glyph ?_ (ih rfl)
    rwa [List.append_assoc before]

/-- A text is cut behind an ASCII byte. -/
theorem byte {b : UInt8} (hb : b < 0x80) (rest : Bytes) : Cut [b] rest := by
  have hdecode : Glyph.decode b rest = (.rune b.toNat, 0) := if_pos hb
  show Cut (b :: ([] ++ [])) rest
  exact .glyph (by simp [hdecode]) .start

/-- A text is cut behind its last byte if that is ASCII. -/
theorem concat {b : UInt8} (hb : b < 0x80) (front rest : Bytes) : Cut (front ++ [b]) rest :=
  trans (of_head (by simpa using hb) front) (byte hb rest)

/-- A text is cut behind an ASCII byte, or at its start. -/
theorem of_last (h : ∀ b ∈ before.getLast?, b < 0x80) (rest : Bytes) : Cut before rest := by
  rcases List.eq_nil_or_concat before with rfl | ⟨front, b, hbefore⟩
  · exact .start
  · rw [List.concat_eq_append] at hbefore
    subst hbefore
    exact concat (h b (by simp)) front rest

/-- What is behind a cut has no influence on the glyphs before it. -/
theorem decode_eq {a : UInt8} {tails : Bytes}
    (hglyph : (Glyph.decode a (tails ++ (before ++ rest))).2 = tails.length) :
    Glyph.decode a (tails ++ (before ++ rest)) = Glyph.decode a (tails ++ before) := by
  rw [← List.append_assoc] at hglyph ⊢
  exact Glyph.decode_of_le (by rw [hglyph]; simp)

/-- A cut does not depend on bytes that come later. -/
theorem of_append (h : Cut before (mid ++ rest)) : Cut before mid := by
  generalize htail : mid ++ rest = tail at h
  induction h with
  | start => exact .start
  | @glyph a tails before _ hglyph _ ih =>
    subst htail
    rw [← List.append_assoc before] at hglyph
    rw [decode_eq hglyph] at hglyph
    exact .glyph hglyph (ih rfl)

/-- A glyph whose bytes all stand in front of a cut is decoded from these bytes. -/
theorem glyphs_cons_append {a : UInt8} {tails : Bytes}
    (hglyph : (Glyph.decode a (tails ++ (before ++ rest))).2 = tails.length) :
    glyphs (a :: (tails ++ before)) = (Glyph.decode a (tails ++ (before ++ rest))).1 ::
      glyphs before := by
  rw [glyphs_cons, ← decode_eq hglyph, hglyph, List.drop_left]

/-- The glyphs of a text are those in front of a cut and those behind it. -/
theorem glyphs_append (h : Cut before rest) :
    glyphs (before ++ rest) = glyphs before ++ glyphs rest := by
  induction h with
  | start => rfl
  | @glyph a tails before rest hglyph _ ih =>
    rw [glyphs_cons_append hglyph, List.cons_append, List.append_assoc, glyphs_cons, hglyph,
      List.drop_left, ih, List.cons_append]

end Cut

/-! ## Lines -/

namespace Bytes

variable {sep b : UInt8} {s t first last : Bytes} {front more : List Bytes}

/-- A separator ends an empty piece. -/
theorem splitOn_cons_self (sep : UInt8) (s : Bytes) :
    splitOn sep (sep :: s) = [] :: splitOn sep s := if_pos rfl

/-- A byte that is no separator belongs to the first piece. -/
theorem splitOn_cons_of_ne (hb : b ≠ sep) (hs : splitOn sep s = first :: more) :
    splitOn sep (b :: s) = (b :: first) :: more := by
  rw [splitOn, if_neg hb, hs]

/-- A text has at least one piece, its first one. -/
theorem exists_splitOn_eq_cons (sep : UInt8) (s : Bytes) :
    ∃ first more, splitOn sep s = first :: more := by
  cases s with
  | nil => exact ⟨_, _, rfl⟩
  | cons b s =>
    rw [splitOn]
    (repeat' split) <;> exact ⟨_, _, rfl⟩

/-- A text has at least one piece, its last one. -/
theorem exists_splitOn_eq_concat (sep : UInt8) (s : Bytes) :
    ∃ front last, splitOn sep s = front ++ [last] := by
  obtain ⟨first, more, h⟩ := exists_splitOn_eq_cons sep s
  obtain hnil | ⟨front, last, hlast⟩ := List.eq_nil_or_concat (splitOn sep s)
  · rw [hnil] at h
    cases h
  · exact ⟨front, last, by rw [hlast, List.concat_eq_append]⟩

/-- A single piece is the first one and the last one. -/
theorem eq_of_singleton_eq_concat {p last : Bytes} {front : List Bytes}
    (h : [p] = front ++ [last]) :
    front = [] ∧ p = last := by
  cases front with
  | nil => exact ⟨rfl, (List.cons.inj h).1⟩
  | cons q front => simp at h

/-- The last piece of the first part and the first piece of the second are one piece of the
whole. -/
theorem splitOn_append (hs : splitOn sep s = front ++ [last]) (ht : splitOn sep t = first :: more) :
    splitOn sep (s ++ t) = front ++ (last ++ first) :: more := by
  induction s generalizing front last with
  | nil =>
    obtain ⟨rfl, rfl⟩ := eq_of_singleton_eq_concat hs
    exact ht
  | cons b s ih =>
    obtain ⟨front', last', hs'⟩ := exists_splitOn_eq_concat sep s
    have ih := ih hs'
    -- A separator closes a piece of its own. Any other byte joins the first piece, which is the
    -- last one as well if `s` has no separator.
    by_cases hb : b = sep
    · subst hb
      rw [splitOn_cons_self, hs', ← List.cons_append] at hs
      obtain ⟨rfl, hlast⟩ := List.append_inj' hs rfl
      cases hlast
      rw [List.cons_append, splitOn_cons_self, ih, List.cons_append]
    · cases front' with
      | nil =>
        rw [splitOn_cons_of_ne hb hs'] at hs
        obtain ⟨rfl, rfl⟩ := eq_of_singleton_eq_concat hs
        exact splitOn_cons_of_ne hb ih
      | cons p front' =>
        rw [List.cons_append] at hs'
        rw [splitOn_cons_of_ne hb hs', ← List.cons_append] at hs
        obtain ⟨rfl, hlast⟩ := List.append_inj' hs rfl
        cases hlast
        exact splitOn_cons_of_ne hb ih

/-- A text without separators is its only piece. -/
theorem splitOn_of_not_mem (h : sep ∉ s) : splitOn sep s = [s] := by
  induction s with
  | nil => rfl
  | cons b s ih =>
    obtain ⟨hb, hs⟩ : b ≠ sep ∧ sep ∉ s := by simpa [eq_comm] using h
    exact splitOn_cons_of_ne hb (ih hs)

/-- A string with one piece is this piece. -/
theorem eq_of_splitOn_eq_singleton (h : splitOn sep s = [last]) : s = last := by
  by_cases hmem : sep ∈ s
  · obtain ⟨p, q, rfl⟩ := List.append_of_mem hmem
    obtain ⟨front, last', hp⟩ := exists_splitOn_eq_concat sep p
    obtain ⟨first, more, hq⟩ := exists_splitOn_eq_cons sep q
    rw [splitOn_append hp (by rw [splitOn_cons_self, hq])] at h
    have hlength := congrArg List.length h
    simp only [List.length_append, List.length_cons, List.length_nil] at hlength
    omega
  · rw [splitOn_of_not_mem hmem] at h
    exact List.singleton_inj.mp h

/-- The first piece is a prefix of the text. -/
theorem prefix_of_splitOn (h : splitOn sep s = first :: more) : first <+: s := by
  induction s generalizing first with
  | nil =>
    cases h
    exact List.nil_prefix
  | cons b s ih =>
    by_cases hb : b = sep
    · subst hb
      rw [splitOn_cons_self] at h
      cases h
      exact List.nil_prefix
    · obtain ⟨p, ps, hs⟩ := exists_splitOn_eq_cons sep s
      rw [splitOn_cons_of_ne hb hs] at h
      cases h
      exact List.cons_prefix_cons.mpr ⟨rfl, ih hs⟩

end Bytes

/-! ## The place of a cut -/

namespace Place

/-- The bytes that a glyph has behind its first one are passed over. -/
theorem walk_skip (target : Int) (tails : Bytes) (pos : Nat) (here : Place) (s : Bytes) :
    walk target tails.length pos here (tails ++ s) = walk target 0 (pos + tails.length) here s := by
  induction tails generalizing pos with
  | nil => rfl
  | cons b tails ih =>
    rw [List.length_cons, List.cons_append, walk, ih, Nat.add_assoc, Nat.add_comm 1]

/-- A walk that has arrived stays where it is. -/
theorem walk_self (pos : Nat) (here : Place) (s : Bytes) : walk pos 0 pos here s = here := by
  cases s with
  | nil => rfl
  | cons b s => rw [walk, if_pos rfl]

end Place

namespace Cut

variable {before mid rest first last : Bytes} {front more : List Bytes}

/-- The bytes behind the first one of a glyph hold no newline. -/
theorem newline_not_mem {a : UInt8} {tails s : Bytes}
    (h : (Glyph.decode a (tails ++ s)).2 = tails.length) :
    0x0A ∉ tails := by
  intro hmem
  rcases Glyph.decode_spec a (tails ++ s) with hstray | ⟨code, tails', rest, hcut, htails, hrune⟩
  · rw [hstray] at h
    rw [List.eq_nil_of_length_eq_zero h.symm] at hmem
    cases hmem
  · rw [hcut, hrune] at h
    obtain ⟨rfl, -⟩ := List.append_inj hcut h.symm
    exact absurd (htails _ hmem) (by decide)

/-- The lines of a string with one glyph more at the front: a newline starts a line, another glyph
stands at the front of the first line, which may be the last one too. -/
theorem splitOn_glyph {a : UInt8} {tails : Bytes}
    (hglyph : (Glyph.decode a (tails ++ (before ++ rest))).2 = tails.length)
    (h : Bytes.splitOn 0x0A before = front ++ [last]) :
    a = 0x0A ∧ Bytes.splitOn 0x0A (a :: (tails ++ before)) = ([] :: front) ++ [last] ∨
      a ≠ 0x0A ∧ front = [] ∧ before = last ∧
        Bytes.splitOn 0x0A (a :: (tails ++ before)) = [] ++ [a :: (tails ++ before)] ∨
      a ≠ 0x0A ∧ ∃ p ps, front = p :: ps ∧
        Bytes.splitOn 0x0A (a :: (tails ++ before)) = ((a :: (tails ++ p)) :: ps) ++ [last] := by
  by_cases ha : a = 0x0A
  · subst ha
    -- A line feed is a glyph of one byte.
    obtain rfl : tails = [] := List.eq_nil_of_length_eq_zero hglyph.symm
    exact .inl ⟨rfl, by rw [List.nil_append, Bytes.splitOn_cons_self, h, List.cons_append]⟩
  · -- No other glyph has a line feed among its bytes, so all of them belong to one line.
    have hline : Bytes.splitOn 0x0A (a :: tails) = [] ++ [a :: tails] :=
      Bytes.splitOn_of_not_mem (by simpa [eq_comm, ha] using newline_not_mem hglyph)
    cases front with
    | nil =>
      have hbefore := Bytes.eq_of_splitOn_eq_singleton h
      refine .inr (.inl ⟨ha, rfl, hbefore, ?_⟩)
      rw [← List.cons_append, Bytes.splitOn_append hline h, ← hbefore, List.nil_append]
    | cons p ps =>
      refine .inr (.inr ⟨ha, p, ps, rfl, ?_⟩)
      rw [← List.cons_append, Bytes.splitOn_append hline h]
      rfl

/-- Walking up to a cut counts the lines, and the glyphs of the last one. -/
theorem walk_eq (h : Cut before rest)
    (hlines : Bytes.splitOn 0x0A before = front ++ [last]) (pos : Nat) (here : Place) :
    Place.walk ((pos + before.length : Nat) : Int) 0 pos here (before ++ rest) =
      ⟨here.line + front.length,
        (if front = [] then here.column else 1) + (glyphs last).length⟩ := by
  induction h generalizing pos here front last with
  | start =>
    obtain ⟨rfl, rfl⟩ := Bytes.eq_of_singleton_eq_concat hlines
    rw [List.length_nil, Nat.add_zero, Place.walk_self]
    simp [glyphs, glyphsFrom]
  | @glyph a tails before rest hglyph hcut ih =>
    obtain ⟨front', last', hlines'⟩ := Bytes.exists_splitOn_eq_concat 0x0A before
    have htarget : pos + (a :: (tails ++ before)).length = pos + 1 + tails.length +
      before.length := by
      simp only [List.length_cons, List.length_append]
      omega
    have hpast : (pos : Int) ≠ ((pos + 1 + tails.length + before.length : Nat) : Int) := by omega
    rw [htarget, List.cons_append, List.append_assoc, Place.walk, if_neg hpast, hglyph]
    dsimp only
    rw [Place.walk_skip, ih hlines']
    -- The first glyph is a newline, or stands on the only line, or on a line before the last one.
    -- In each case `hsplit` gives the lines with it, which are those of the statement.
    rcases splitOn_glyph hglyph hlines' with ⟨ha, hsplit⟩ | ⟨ha, rfl, rfl, hsplit⟩ | ⟨ha, p,
      ps, rfl, hsplit⟩
    · obtain ⟨rfl, hlast⟩ := List.append_inj' (hlines.symm.trans hsplit) rfl
      cases hlast
      simp only [if_pos ha, List.length_cons, ite_self, reduceCtorEq, if_false]
      congr 1
      omega
    · obtain ⟨rfl, hlast⟩ := List.append_inj' (hlines.symm.trans hsplit) rfl
      cases hlast
      simp only [if_neg ha, glyphs_cons_append hglyph, List.length_cons, List.length_nil, if_true]
      congr 1
      omega
    · obtain ⟨rfl, hlast⟩ := List.append_inj' (hlines.symm.trans hsplit) rfl
      cases hlast
      simp only [if_neg ha, List.length_cons, reduceCtorEq, if_false]

/-- The last line before a cut and what comes behind it on the same line are cut too. -/
theorem last_line (h : Cut before rest) (hbefore : Bytes.splitOn 0x0A before = front ++ [last])
    (hrest : Bytes.splitOn 0x0A rest = first :: more) : Cut last first := by
  induction h generalizing front last with
  | start =>
    obtain ⟨-, rfl⟩ := Bytes.eq_of_singleton_eq_concat hbefore
    exact .start
  | @glyph a tails before rest hglyph hcut ih =>
    obtain ⟨front', last', hlines⟩ := Bytes.exists_splitOn_eq_concat 0x0A before
    rcases splitOn_glyph hglyph hlines with ⟨-, hsplit⟩ | ⟨-, -, -, hsplit⟩ | ⟨-, p, ps,
      -, hsplit⟩ <;>
      obtain ⟨-, hlast⟩ := List.append_inj' (hbefore.symm.trans hsplit) rfl <;> cases hlast
    · exact ih hlines hrest
    · -- All that is before the cut is one line, and only the rest is shortened.
      obtain ⟨more, rfl⟩ := Bytes.prefix_of_splitOn hrest
      exact of_append (.glyph hglyph hcut)
    · exact ih hlines hrest

/-- The place of a cut, from the lines before it. -/
theorem ofOffset_eq (h : Cut before rest) (hlines : Bytes.splitOn 0x0A before = front ++ [last]) :
    Place.ofOffset (before ++ rest) before.length =
      ⟨front.length + 1, (glyphs last).length + 1⟩ := by
  have hwalk := h.walk_eq hlines 0 ⟨1, 1⟩
  rw [Nat.zero_add, ite_self] at hwalk
  rw [Place.ofOffset, hwalk, Int.add_comm 1, Int.add_comm 1]

end Cut

/-- A place of a source: a line that there is, and a column of that line or the one behind its
end. -/
structure Place.Within (src : Bytes) (place : Place) : Prop where
  one_le_line : 1 ≤ place.line
  line_le : place.line ≤ (Bytes.splitOn 0x0A src).length
  one_le_column : 1 ≤ place.column
  column_le : place.column ≤
    (glyphs ((Bytes.splitOn 0x0A src).getD (place.line - 1).toNat [])).length + 1

/-- Places are in the order of their lines, and on one line in that of their columns. -/
instance : LE Place :=
  ⟨fun p q => p.line < q.line ∨ p.line = q.line ∧ p.column ≤ q.column⟩

instance : LT Place :=
  ⟨fun p q => p.line < q.line ∨ p.line = q.line ∧ p.column < q.column⟩

namespace Cut

variable {before mid rest : Bytes}

/-- The place of a cut is inside the text: its line is a line of the text, and its column a column
of that line or the one behind it. -/
theorem place_within (h : Cut before rest) :
    (Place.ofOffset (before ++ rest) before.length).Within (before ++ rest) := by
  obtain ⟨front, last, hbefore⟩ := Bytes.exists_splitOn_eq_concat 0x0A before
  obtain ⟨first, more, hrest⟩ := Bytes.exists_splitOn_eq_cons 0x0A rest
  have hlines := Bytes.splitOn_append hbefore hrest
  have hline : (Bytes.splitOn 0x0A (before ++ rest)).getD front.length [] = last ++ first := by
    simp [hlines]
  -- The glyphs before the cut are glyphs of the whole line.
  have hglyphs := (h.last_line hbefore hrest).glyphs_append
  rw [h.ofOffset_eq hbefore]
  refine ⟨by dsimp only; omega, ?_, by dsimp only; omega, ?_⟩
  · rw [hlines]
    simp only [List.length_append, List.length_cons]
    omega
  · have hindex : ((front.length : Int) + 1 - 1).toNat = front.length := by omega
    simp only [hindex, hline, hglyphs, List.length_append]
    omega

/-- A later cut is at a later place. -/
theorem place_lt (h : Cut before (mid ++ rest)) (hmid : Cut (before ++ mid) rest) (hne : mid ≠ []) :
    Place.ofOffset (before ++ mid ++ rest) before.length <
      Place.ofOffset (before ++ mid ++ rest) (before ++ mid).length := by
  obtain ⟨front, last, hbefore⟩ := Bytes.exists_splitOn_eq_concat 0x0A before
  obtain ⟨first, more, hafter⟩ := Bytes.exists_splitOn_eq_cons 0x0A mid
  have hlines := Bytes.splitOn_append hbefore hafter
  have hglyphs := (h.of_append.last_line hbefore hafter).glyphs_append
  have hplace := h.ofOffset_eq hbefore
  rw [← List.append_assoc] at hplace
  rw [hplace]
  -- Both cuts are on one line, or there is a newline between them.
  rcases List.eq_nil_or_concat more with rfl | ⟨more, last', rfl⟩
  · obtain rfl := Bytes.eq_of_splitOn_eq_singleton hafter
    have hpos := List.length_pos_iff.mpr (glyphs_ne_nil hne)
    rw [hmid.ofOffset_eq hlines]
    refine .inr ⟨rfl, ?_⟩
    rw [hglyphs, List.length_append]
    dsimp only
    omega
  · rw [List.concat_eq_append, ← List.cons_append, ← List.append_assoc] at hlines
    rw [hmid.ofOffset_eq hlines]
    refine .inl ?_
    simp only [List.length_append, List.length_cons]
    omega

end Cut

/-- No glyph of a source has bytes on both sides of an offset. -/
def CutAt (src : Bytes) (offset : Nat) : Prop :=
  ∃ before rest, src = before ++ rest ∧ before.length = offset ∧ Cut before rest

/-- The place of an offset between glyphs is inside the text. -/
theorem CutAt.place_within {src : Bytes} {offset : Nat} (h : CutAt src offset) :
    (Place.ofOffset src offset).Within src := by
  obtain ⟨before, rest, rfl, rfl, hcut⟩ := h
  exact hcut.place_within

/-- Places are in the order of their offsets. -/
theorem CutAt.place_lt {src : Bytes} {offset later : Nat} (h : CutAt src offset)
    (hlater : CutAt src later) (hlt : offset < later) :
    Place.ofOffset src offset < Place.ofOffset src later := by
  obtain ⟨before, rest, rfl, rfl, hcut⟩ := h
  obtain ⟨before', rest', hsrc, rfl, hcut'⟩ := hlater
  obtain ⟨mid, rfl⟩ : before <+: before' :=
    List.prefix_of_prefix_length_le ⟨rest, rfl⟩ ⟨rest', hsrc.symm⟩ (Nat.le_of_lt hlt)
  rw [List.append_assoc, List.append_cancel_left_eq] at hsrc
  subst hsrc
  rw [← List.append_assoc]
  refine hcut.place_lt hcut' fun hnil => ?_
  rw [hnil, List.append_nil] at hlt
  exact Nat.lt_irrefl _ hlt

/-- An offset that is not behind another one has no later place. -/
theorem CutAt.place_le {src : Bytes} {offset later : Nat} (h : CutAt src offset)
    (hlater : CutAt src later) (hle : offset ≤ later) :
    Place.ofOffset src offset ≤ Place.ofOffset src later := by
  rcases Nat.lt_or_eq_of_le hle with hlt | rfl
  · exact (h.place_lt hlater hlt).imp_right fun hline => ⟨hline.1, Int.le_of_lt hline.2⟩
  · exact .inr ⟨rfl, Int.le_refl _⟩

/-- Around a place of a source there is always something to show. -/
theorem Place.Within.excerpt_ne_nil {src : Bytes} {place : Place} (h : place.Within src) :
    place.excerpt src ≠ [] := by
  have hline := h.one_le_line
  have hlines := h.line_le
  intro hnil
  rw [excerpt, if_neg (by omega)] at hnil
  -- The line of the place itself is among the lines that are shown.
  have hshown := List.flatMap_eq_nil_iff.mp hnil (place.line.toNat, _)
    (List.mem_map_of_mem (List.mem_range'_1.mpr ⟨by omega, by omega⟩))
  have hcaret : text "^ unexpected here" ≠ [] := by decide +kernel
  dsimp only at hshown
  rw [if_pos rfl, pointedLine] at hshown
  exact hcaret (List.append_eq_nil_iff.mp hshown).2

end Rill
