import Rill.Token.Scanner

/-!
# What tokens are read

Every token but the end token takes bytes of the source, so the tokens of a source end with its only
end token. Each token is spelled as its kind demands.

* `NumberSpelling`, `Token.Spelled`: the spellings of the kinds that are not fixed texts.
* `Cursor.scan_spec`: one token, and that reading moves on.
* `tokens_eq_append`: the tokens of a source.
-/

namespace Rill

/-- The spellings of numbers: digits, and for a number with a point more digits, an ending or
both. -/
inductive NumberSpelling : TokenKind → Bytes → Prop
  | int {whole : Bytes} : whole ≠ [] → (∀ b ∈ whole, Bytes.isDigit b) → NumberSpelling .int whole
  | point {whole fraction : Bytes} : whole ≠ [] → (∀ b ∈ whole, Bytes.isDigit b) → fraction ≠ [] →
      (∀ b ∈ fraction, Bytes.isDigit b) → NumberSpelling .double (whole ++ 0x2E :: fraction)
  | float {whole fraction : Bytes} : whole ≠ [] → (∀ b ∈ whole, Bytes.isDigit b) →
      (∀ b ∈ fraction, Bytes.isDigit b) →
        NumberSpelling .float (whole ++ 0x2E :: fraction ++ [0x66])
  | double {whole fraction : Bytes} : whole ≠ [] → (∀ b ∈ whole, Bytes.isDigit b) →
      (∀ b ∈ fraction, Bytes.isDigit b) →
        NumberSpelling .double (whole ++ 0x2E :: fraction ++ [0x64])

/-- A token is spelled as its kind demands. -/
def Token.Spelled (t : Token) : Prop :=
  match t.kind with
  | .ident =>
    t.literal ≠ [] ∧ (∀ b ∈ t.literal, Cursor.isWordByte b) ∧ TokenKind.ofWord t.literal = .ident
  | .int => NumberSpelling .int t.literal
  | .float => NumberSpelling .float t.literal
  | .double => NumberSpelling .double t.literal
  | .string => ∀ b ∈ t.literal, Cursor.isQuotedByte b
  | _ => True

theorem NumberSpelling.ne_nil {kind : TokenKind} {literal : Bytes}
    (h : NumberSpelling kind literal) :
    literal ≠ [] := by
  cases h <;> simp_all

/-- A token spelled as a number of its kind is spelled, and is no end token. -/
theorem NumberSpelling.spelled {kind : TokenKind} {literal : Bytes}
    (h : NumberSpelling kind literal) (pos : Nat) :
    kind ≠ .eof ∧ Token.Spelled ⟨kind, literal, pos⟩ := by
  have hspelling := h
  cases h <;> exact ⟨by decide, hspelling⟩

/-- The kinds of which every token has the same text, and those without a meaning. -/
def TokenKind.isFixed : TokenKind → Bool
  | .eof | .ident | .int | .float | .double | .string => false
  | _ => true

/-- A fixed token is spelled whatever its text is, and is no end token. -/
theorem TokenKind.spelled_of_isFixed {kind : TokenKind} (h : kind.isFixed)
    (literal : Bytes) (pos : Nat) :
    kind ≠ .eof ∧ Token.Spelled ⟨kind, literal, pos⟩ := by
  cases kind <;> simp_all [isFixed, Token.Spelled]

/-- A word is a name or a keyword. -/
theorem TokenKind.ofWord_cases (word : Bytes) : ofWord word = .ident ∨ (ofWord word).isFixed := by
  rw [ofWord]
  cases hlookup : keywords.lookup word with
  | none => exact .inl rfl
  | some kind =>
    obtain ⟨before, after, hkeywords, -⟩ := List.lookup_eq_some_iff.mp hlookup
    have hmem : (word, kind) ∈ keywords := by simp [hkeywords]
    have hall : ∀ entry ∈ keywords, entry.2.isFixed := by decide +kernel
    exact .inr (hall _ hmem)

namespace Cursor

/-- Skipping a gap leaves an end of the text. -/
theorem rest_skipGap_suffix (gap : Gap) (pos : Nat) (s : Bytes) :
    (skipGap gap pos s).rest <:+ s := by
  induction s generalizing gap pos with
  | nil => cases gap <;> simp [skipGap]
  | cons b s ih =>
    have hskip (gap : Gap) : (skipGap gap (pos + 1) s).rest <:+ b :: s :=
      (ih gap (pos + 1)).trans (List.suffix_cons b s)
    cases gap <;> rw [skipGap] <;> (repeat' split) <;> simp [hskip]

private theorem isDigit_of_mem_takeWhile {s : Bytes} :
    ∀ b ∈ s.takeWhile Bytes.isDigit, Bytes.isDigit b :=
  List.all_eq_true.mp List.all_takeWhile

/-- The number at the front of a string that starts with a digit. -/
theorem number_spec {b : UInt8} (s : Bytes) (hb : Bytes.isDigit b) :
    ∃ kind literal rest, number (b :: s) = (kind, literal, rest) ∧ NumberSpelling kind literal ∧
      literal ++ rest = b :: s := by
  have hcut := List.takeWhile_append_dropWhile (p := Bytes.isDigit) (l := b :: s)
  have hwhole : (b :: s).takeWhile Bytes.isDigit ≠ [] := by simp [hb]
  have hdigits := isDigit_of_mem_takeWhile (s := b :: s)
  rw [number]
  generalize (b :: s).takeWhile Bytes.isDigit = whole at *
  generalize (b :: s).dropWhile Bytes.isDigit = after at *
  dsimp only
  split
  next n s' =>
    split
    next hn =>
      have hcut' := List.takeWhile_append_dropWhile (p := Bytes.isDigit) (l := n :: s')
      have hfraction := isDigit_of_mem_takeWhile (s := n :: s')
      split
      next e s'' hend =>
        rw [hend] at hcut'
        have hjoin : whole ++ 0x2E :: (n :: s').takeWhile Bytes.isDigit ++ e :: s'' = b :: s := by
          rw [List.append_assoc, List.cons_append, hcut', hcut]
        split
        next he => exact ⟨_, _, _, rfl, he ▸ .float hwhole hdigits hfraction, by simpa using hjoin⟩
        next hf =>
          split
          next he =>
            exact ⟨_, _, _, rfl, he ▸ .double hwhole hdigits hfraction, by simpa using hjoin⟩
          next hd =>
            refine ⟨_, _, _, rfl, .point hwhole hdigits (fun hnil => ?_) hfraction, hjoin⟩
            -- Without a digit behind the point, the byte there is an ending.
            rw [hnil, List.nil_append, List.cons.injEq] at hcut'
            have hnot : Bytes.isDigit e = false := by
              simpa [hend] using List.head?_dropWhile_not Bytes.isDigit (n :: s')
            simp [← hcut'.1, hf, hd, hnot] at hn
      next hend =>
        rw [hend, List.append_nil] at hcut'
        refine ⟨_, _, _, rfl, .point hwhole hdigits (by simp [hcut']) hfraction, ?_⟩
        rw [hcut', List.append_nil, hcut]
    next => exact ⟨_, _, _, rfl, .int hwhole hdigits, hcut⟩
  next => exact ⟨_, _, _, rfl, .int hwhole hdigits, hcut⟩

/-! ### Tables of marks -/

/-- The entry of a table for a byte. -/
def choose {α : Type} (table : List (UInt8 × α)) (b : UInt8) : Option α :=
  table.foldr (fun entry rest => if b = entry.1 then some entry.2 else rest) none

theorem mem_of_choose {α : Type} {table : List (UInt8 × α)} {b : UInt8} {a : α}
    (h : choose table b = some a) : (b, a) ∈ table := by
  induction table with
  | nil => cases h
  | cons entry table ih =>
    rw [choose, List.foldr_cons] at h
    split at h
    next hb =>
      cases h
      exact hb ▸ List.mem_cons_self
    next => exact List.mem_cons_of_mem _ (ih h)

/-- The bytes that can stand alone or with a second one, as `pair?` has them. -/
def pairs : List (UInt8 × TokenKind × UInt8 × TokenKind) :=
  [(0x3D, .assign, 0x3D, .eq), (0x2B, .plus, 0x3D, .plusEq), (0x2D, .minus, 0x3D, .minusEq),
    (0x2A, .asterisk, 0x3D, .asteriskEq), (0x2F, .slash, 0x3D, .slashEq),
      (0x21, .bang, 0x3D, .notEq),
    (0x3C, .lt, 0x3D, .ltEq), (0x3E, .gt, 0x3D, .gtEq), (0x26, .illegal, 0x26, .and),
      (0x7C, .illegal, 0x7C, .or)]

/-- The marks of one byte, as `mark?` has them. -/
def marks : List (UInt8 × TokenKind) :=
  [(0x3B, .semicolon), (0x3A, .colon), (0x2C, .comma), (0x2E, .period), (0x28, .lparen),
    (0x29, .rparen), (0x7B, .lbrace), (0x7D, .rbrace), (0x5B, .lbracket), (0x5D, .rbracket)]

theorem mem_pairs {b : UInt8} {entry : TokenKind × UInt8 × TokenKind} (h : pair? b = some entry) :
    (b, entry) ∈ pairs := mem_of_choose h

theorem mem_marks {b : UInt8} {kind : TokenKind} (h : mark? b = some kind) : (b, kind) ∈ marks :=
  mem_of_choose h

/-- Marks that come alone or in pairs are fixed tokens. -/
theorem isFixed_of_pair? {b second : UInt8} {alone together : TokenKind}
    (h : pair? b = some (alone, second, together)) : alone.isFixed ∧ together.isFixed := by
  have hall : ∀ entry ∈ pairs, entry.2.1.isFixed ∧ entry.2.2.2.isFixed := by decide
  exact hall _ (mem_pairs h)

/-- Marks are fixed tokens. -/
theorem isFixed_of_mark? {b : UInt8} {kind : TokenKind} (h : mark? b = some kind) :
    kind.isFixed := by
  have hall : ∀ entry ∈ marks, entry.2.isFixed := by decide
  exact hall _ (mem_marks h)

/-- A token that is not the end. -/
theorem spelled_scanAt (pos : Nat) (b : UInt8) (s : Bytes) :
    (scanAt pos b s).1.kind ≠ .eof ∧ (scanAt pos b s).1.Spelled := by
  rw [scanAt]
  split
  next =>
    -- A string holds bytes that may stand between quotes, whether or not it is closed.
    have hquoted := List.all_eq_true.mp (List.all_takeWhile (p := isQuotedByte) (l := s))
    split <;> exact ⟨by simp, hquoted⟩
  next =>
    split
    next hb =>
      have hword : ∀ c ∈ b :: s.takeWhile isWordByte, isWordByte c :=
        List.forall_mem_cons.mpr ⟨hb, List.all_eq_true.mp List.all_takeWhile⟩
      -- A word is an identifier unless it is a keyword.
      rcases TokenKind.ofWord_cases (b :: s.takeWhile isWordByte) with h | h
      · simp only [h]
        exact ⟨by simp, by simp, hword, h⟩
      · exact TokenKind.spelled_of_isFixed h _ pos
    next =>
      split
      next hb =>
        obtain ⟨kind, literal, rest, hnumber, hspelling, -⟩ := number_spec s hb
        simp only [hnumber]
        exact hspelling.spelled pos
      next =>
        split
        next hpair =>
          obtain ⟨halone, htogether⟩ := isFixed_of_pair? hpair
          split
          · split
            · exact TokenKind.spelled_of_isFixed htogether _ pos
            · exact TokenKind.spelled_of_isFixed halone _ pos
          · exact TokenKind.spelled_of_isFixed halone _ pos
        next hmark => exact TokenKind.spelled_of_isFixed (isFixed_of_mark? hmark) _ pos
        next => exact TokenKind.spelled_of_isFixed rfl _ pos

/-- Reading moves on over the first byte. -/
theorem length_rest_scanAt (pos : Nat) (b : UInt8) (s : Bytes) :
    (scanAt pos b s).2.rest.length ≤ s.length := by
  rw [scanAt]
  split
  next =>
    have hlength := (List.dropWhile_suffix (l := s) isQuotedByte).length_le
    split
    next hdrop =>
      -- The closing quote goes as well.
      rw [hdrop, List.length_cons] at hlength
      exact Nat.le_of_succ_le hlength
    next => exact Nat.zero_le _
  next =>
    split
    next => exact (List.dropWhile_suffix isWordByte).length_le
    next =>
      split
      next hb =>
        obtain ⟨kind, literal, rest, hnumber, hspelling, hcut⟩ := number_spec s hb
        have hlength := congrArg List.length hcut
        -- A number has at least the digit that it was told by.
        have hpos := List.length_pos_iff.mpr hspelling.ne_nil
        rw [List.length_append, List.length_cons] at hlength
        simp only [hnumber]
        omega
      next =>
        split
        next =>
          split
          · split <;> simp
          · simp
        next => exact Nat.le_refl _
        next => simp

/-- One token: the end, or a token that takes at least one byte. -/
theorem scan_spec (c : Cursor) : c.scan.1.kind = .eof ∨
    c.scan.1.kind ≠ .eof ∧ c.scan.1.Spelled ∧ c.scan.2.rest.length < c.rest.length := by
  have hsuffix := (rest_skipGap_suffix .blank c.pos c.rest).length_le
  rw [scan]
  split
  next => exact .inl rfl
  next pos b s hskip =>
    split
    next => exact .inl rfl
    next =>
      -- What the gap leaves over starts with the byte that the token takes.
      rw [hskip, List.length_cons] at hsuffix
      have hlength := length_rest_scanAt pos b s
      obtain ⟨hkind, hspelled⟩ := spelled_scanAt pos b s
      exact .inr ⟨hkind, hspelled, by omega⟩

/-- The tokens from a position on end with the only end token. -/
theorem tokens_eq_append {n : Nat} {c : Cursor} (hn : c.rest.length < n) :
    ∃ body last, c.tokens n = body ++ [last] ∧ last.kind = .eof ∧
      ∀ t ∈ body, t.kind ≠ .eof ∧ t.Spelled := by
  induction n generalizing c with
  | zero => exact absurd hn (Nat.not_lt_zero _)
  | succ n ih =>
    rw [tokens]
    rcases c.scan_spec with heof | ⟨hkind, hspelled, hlength⟩
    · exact ⟨[], c.scan.1, by simp [heof], heof, by simp⟩
    · obtain ⟨body, last, htokens, hlast, hbody⟩ := ih (c := c.scan.2) (by omega)
      refine ⟨c.scan.1 :: body, last, by simp [hkind, htokens], hlast, ?_⟩
      exact List.forall_mem_cons.mpr ⟨⟨hkind, hspelled⟩, hbody⟩

end Cursor

/-- The tokens of a source end with the only end token. -/
theorem tokens_eq_append (src : Bytes) :
    ∃ body last, tokens src = body ++ [last] ∧ last.kind = .eof ∧ ∀ t ∈ body,
      t.kind ≠ .eof ∧ t.Spelled :=
  Cursor.tokens_eq_append (Nat.lt_succ_self _)

end Rill
