import Rill.Proofs.Token.Lexeme
import Rill.Proofs.Token.Tiling

/-!
# Spelling tokens out

The kind and the text of a token depend on its own spelling only: the tokens of any source, spelled
out with single spaces between them, are read as the same tokens.

* `Token.spelling`, `respell`: a token as source text, and the tokens of a source so.
* `Token.Rereads`: before a space or the end, the spelling of a token is read as this token.
* `Cursor.rereads_scanAt`: every token that is read has this property, one case for each kind of
  token.
* `readings_join_spelling`: tokens with this property are read back from their spellings.
* `map_reading_tokens_respell`: the tokens of a source are read back from theirs.
-/

namespace Rill

/-- A token as source text: a string stands between quotes. -/
def Token.spelling (t : Token) : Bytes :=
  if t.kind = .string then 0x22 :: t.literal ++ [0x22] else t.literal

/-- The tokens of a source before its end, spelled out with single spaces between them. -/
def respell (src : Bytes) : Bytes :=
  Bytes.join [0x20] (((tokens src).takeWhile (·.kind ≠ .eof)).map Token.spelling)

/-- Wherever a space or the end of the source follows, the spelling of the token is read as the
token. -/
def Token.Rereads (t : Token) : Prop :=
  ∀ rest : Bytes, (∀ b ∈ rest.head?, b = 0x20) →
    ∃ pos, Cursor.scan ⟨0, t.spelling ++ rest⟩ = (⟨t.kind, t.literal, 0⟩, ⟨pos, rest⟩)

theorem Token.spelling_of_ne {kind : TokenKind} (h : kind ≠ .string) (literal : Bytes) (pos : Nat) :
    Token.spelling ⟨kind, literal, pos⟩ = literal := if_neg h

/-- A blank, or the end, stops a token in front of it. -/
theorem stops_of_space {s : Bytes} (hs : ∀ b ∈ s.head?, b = 0x20) : Stops s := by
  intro b hb
  rw [hs b hb]
  decide

/-! ## Tokens of two bytes and glyphs without a meaning -/

/-- A mark and the second one of its pair are scanned together. -/
theorem scan_together {b second : UInt8} {alone together : TokenKind} (s : Bytes)
    (hstart : startsToken b) (hother : b ≠ 0x22 ∧ ¬Cursor.isWordByte b ∧ ¬Bytes.isDigit b)
    (hpair : Cursor.pair? b = some (alone, second, together)) :
    Cursor.scan ⟨0, b :: second :: s⟩ = (⟨together, [b, second], 0⟩, ⟨2, s⟩) := by
  obtain ⟨hquote, hword, hdigit⟩ := hother
  rw [scan_of_startsToken _ hstart, Cursor.scanAt, if_neg hquote, if_neg hword,
    if_neg hdigit, hpair]
  dsimp only
  rw [if_pos rfl]

/-- A glyph that starts no token is scanned as an illegal one. -/
theorem scan_illegal {b : UInt8} {tails s : Bytes} {g : Glyph} (hstart : startsToken b)
    (hother : b ≠ 0x22 ∧ ¬Cursor.isWordByte b ∧ ¬Bytes.isDigit b ∧ Cursor.pair? b = none)
    (hmark : Cursor.mark? b = none) (hglyph : Glyph.decode b (tails ++ s) = (g, tails.length)) :
    Cursor.scan ⟨0, b :: (tails ++ s)⟩ =
      (⟨.illegal, encodeRune g.code, 0⟩, ⟨0 + 1 + tails.length, s⟩) := by
  obtain ⟨hquote, hword, hdigit, hpair⟩ := hother
  rw [scan_of_startsToken _ hstart, Cursor.scanAt, if_neg hquote, if_neg hword,
    if_neg hdigit, hpair, hmark, hglyph]
  dsimp only
  rw [List.drop_left]

namespace Cursor

/-- A blank is never the second mark of a pair. -/
theorem second_ne_space {b second : UInt8} {alone together : TokenKind}
    (h : pair? b = some (alone, second, together)) : second ≠ 0x20 := by
  have hall : ∀ entry ∈ pairs, entry.2.2.1 ≠ 0x20 := by decide
  exact hall _ (mem_pairs h)

/-- The token for a glyph without a meaning. A byte that is no character is shown as `U+FFFD`, whose
bytes are such a glyph too. -/
theorem rereads_illegal {b : UInt8} {s : Bytes} (hstart : startsToken b)
    (hother : b ≠ 0x22 ∧ ¬isWordByte b ∧ ¬Bytes.isDigit b ∧ pair? b = none)
    (hmark : mark? b = none) (pos : Nat) :
    Token.Rereads ⟨.illegal, encodeRune (Glyph.decode b s).1.code, pos⟩ := by
  intro rest hrest
  rw [Token.spelling_of_ne (by simp)]
  rcases Glyph.decode_spec b s with hstray | ⟨code, tails, s', rfl, -, hrune⟩
  · have hliteral : encodeRune 0xFFFD = [0xEF, 0xBF, 0xBD] := by decide
    have hglyph : Glyph.decode 0xEF ([0xBF, 0xBD] ++ rest) = (.rune 0xFFFD, 2) := rfl
    have hscan := scan_illegal (by decide) (by decide) (by decide) hglyph
    rw [hstray]
    dsimp only [Glyph.code] at hscan ⊢
    rw [hliteral] at hscan ⊢
    exact ⟨_, hscan⟩
  · -- The bytes of a character are those that it was read from.
    have hbytes := Glyph.bytes_decode b (tails ++ s')
    rw [hrune, List.take_left] at hbytes
    rw [hrune]
    change ∃ pos, scan ⟨0, (Glyph.rune code).bytes ++ rest⟩ = _
    rw [hbytes, List.cons_append]
    exact ⟨_, scan_illegal hstart hother hmark (hrune rest)⟩

/-- Every token that is read is read again from its spelling. -/
theorem rereads_scanAt (pos : Nat) {b : UInt8} (s : Bytes) (hstart : startsToken b) :
    (scanAt pos b s).1.Rereads := by
  rw [scanAt]
  split
  next =>
    have hquoted := List.all_eq_true.mp (List.all_takeWhile (p := isQuotedByte) (l := s))
    have hstring : Token.Rereads ⟨.string, s.takeWhile isQuotedByte, pos⟩ := by
      intro rest hrest
      rw [Token.spelling, if_pos rfl, List.append_assoc]
      exact ⟨_, scan_string rest hquoted⟩
    -- A string without its closing quote is spelled with one, too.
    split <;> exact hstring
  next hquote =>
  split
  next hword =>
    have hbytes : ∀ c ∈ b :: s.takeWhile isWordByte, isWordByte c :=
      List.forall_mem_cons.mpr ⟨hword, List.all_eq_true.mp List.all_takeWhile⟩
    intro rest hrest
    rw [Token.spelling_of_ne (ofWord_ne _).1]
    exact ⟨_, scan_word (by simp) hbytes fun c hc => ((stops_of_space hrest).spec c hc).1⟩
  next hword =>
  split
  next hdigit =>
    obtain ⟨kind, literal, rest, hnumber, hspelling, -⟩ := number_spec s hdigit
    simp only [hnumber]
    intro rest hrest
    rw [Token.spelling_of_ne (by cases hspelling <;> simp)]
    exact ⟨_, scan_number hspelling (stops_of_space hrest)⟩
  next hdigit =>
  split
  next alone second together hpair =>
    obtain ⟨-, halone, htogether, -⟩ := pair?_spec hpair
    -- A space is no second half of any pair.
    have hspelled : Token.Rereads ⟨alone, [b], pos⟩ := by
      intro rest hrest
      rw [Token.spelling_of_ne halone]
      refine ⟨_, scan_alone hstart ⟨hquote, hword, hdigit⟩ hpair fun c hc => ?_⟩
      rw [hrest c hc]
      exact (second_ne_space hpair).symm
    split
    next c s' =>
      split
      next hc =>
        intro rest hrest
        rw [Token.spelling_of_ne htogether, hc]
        exact ⟨_, scan_together rest hstart ⟨hquote, hword, hdigit⟩ hpair⟩
      next => exact hspelled
    next => exact hspelled
  next hpair hmark =>
    intro rest hrest
    rw [Token.spelling_of_ne (mark?_spec hmark).1]
    exact ⟨_, scan_mark rest hstart ⟨hquote, hword, hdigit, hpair⟩ hmark⟩
  next hpair hmark => exact rereads_illegal hstart ⟨hquote, hword, hdigit, hpair⟩ hmark pos

/-- Where the scanner stops between tokens, the source ends or a token starts. -/
theorem startsToken_of_skipGap {gap : Gap} {pos pos' : Nat} {b : UInt8} {s s' : Bytes}
    (h : skipGap gap pos s = ⟨pos', b :: s'⟩) (hb : b ≠ 0) : startsToken b := by
  induction s generalizing gap pos with
  | nil => cases gap <;> cases h
  | cons a s ih =>
    by_cases ha : a = 0
    · cases gap <;> simp [skipGap, ha, isBlank] at h <;> exact absurd h.2.1.symm hb
    · rw [skipGap_cons ha] at h
      cases hnext : gap.after a with
      | some next => exact ih (by rwa [hnext] at h)
      | none =>
        rw [hnext] at h
        cases h
        obtain rfl := Gap.eq_blank_of_after_eq_none hnext
        rw [Gap.after] at hnext
        split at hnext
        · cases hnext
        · split at hnext <;> simp_all [startsToken]

/-- Every token of a source is its end, or is read again from its spelling. -/
theorem rereads_of_mem {n : Nat} {c : Cursor} :
    ∀ t ∈ c.tokens n, t.kind = .eof ∧ t.literal = [] ∨ t.kind ≠ .eof ∧ t.Rereads := by
  induction n generalizing c with
  | zero => simp [tokens]
  | succ n ih =>
    -- A scan ends at the end of the text, at a zero byte or behind a token.
    have hfirst : c.scan.1.kind = .eof ∧ c.scan.1.literal = [] ∨ c.scan.1.kind ≠ .eof ∧
      c.scan.1.Rereads := by
      rw [scan]
      split
      next => exact .inl ⟨rfl, rfl⟩
      next pos b s hskip =>
        split
        next => exact .inl ⟨rfl, rfl⟩
        next hb =>
          exact .inr ⟨(spelled_scanAt pos b s).1,
            rereads_scanAt pos s (startsToken_of_skipGap hskip hb)⟩
    rw [tokens]
    dsimp only
    split
    next => exact List.forall_mem_singleton.mpr hfirst
    next => exact List.forall_mem_cons.mpr ⟨hfirst, ih⟩

end Cursor

/-- Tokens are read back from their spellings. -/
theorem readings_join_spelling {ts : List Token} (h : ∀ t ∈ ts, t.kind ≠ .eof ∧ t.Rereads) :
    readings (Bytes.join [0x20] (ts.map Token.spelling)) = ts.map Token.reading ++
      [(.eof, [])] := by
  induction ts with
  | nil => rfl
  | cons t ts ih =>
    obtain ⟨⟨hkind, hrereads⟩, hmore⟩ := List.forall_mem_cons.mp h
    have ih := ih hmore
    cases ts with
    | nil =>
      obtain ⟨pos, hscan⟩ := hrereads [] (by simp)
      rw [List.append_nil] at hscan
      rw [List.map_singleton, Bytes.join, readings_eq_cons hscan hkind]
      rfl
    | cons u ts =>
      -- The blank between two spellings ends the first one, whatever its kind is.
      obtain ⟨pos, hscan⟩ := hrereads (0x20 :: Bytes.join [0x20] ((u :: ts).map Token.spelling))
        (by simp)
      have hjoin : Bytes.join [0x20] ((t :: u :: ts).map Token.spelling) =
          t.spelling ++ 0x20 :: Bytes.join [0x20] ((u :: ts).map Token.spelling) := by
        simp [Bytes.join]
      rw [hjoin, readings_eq_cons hscan hkind, readings_space, ih]
      rfl

/-- The tokens of a source, spelled out with single spaces between them, are read as tokens of the
same kinds with the same texts. -/
theorem map_reading_tokens_respell (src : Bytes) :
    (tokens (respell src)).map Token.reading = (tokens src).map Token.reading := by
  obtain ⟨body, last, htokens, hlast, hbody⟩ := tokens_eq_append src
  have hmem (t : Token) (ht : t ∈ tokens src) := Cursor.rereads_of_mem t ht
  rw [htokens] at hmem
  obtain ⟨-, hliteral⟩ := (hmem last (by simp)).resolve_right fun h => h.1 hlast
  have hrereads : ∀ t ∈ body, t.kind ≠ .eof ∧ t.Rereads := fun t ht =>
    (hmem t (List.mem_append_left _ ht)).resolve_left fun h => (hbody t ht).1 h.1
  have hbefore : (tokens src).takeWhile (·.kind ≠ .eof) = body := by
    rw [htokens, List.takeWhile_append_of_pos fun t ht => decide_eq_true (hbody t ht).1]
    simp [hlast]
  have hread := readings_join_spelling hrereads
  rw [respell, hbefore, ← readings, hread, htokens, List.map_append, List.map_singleton,
    Token.reading, hlast, hliteral]

end Rill
