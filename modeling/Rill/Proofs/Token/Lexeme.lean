import Rill.Proofs.Token.Scanner

/-!
# What a source says

A reading is a token without its offset, and a lexeme is one without its text too where the kind
fixes that. The readings of a source depend only on its bytes, so they can be read off piece by
piece.

* `readings`, `lexemes`: the readings and the lexemes of a source, up to and with its end.
* `readings_eq_cons`, `lexemes_eq_cons`: what the first token leaves over is read like a source of
  its own.
* `scan_mark`, `scan_word`, `scan_number`, `scan_string`: how a token is read from its spelling, by
  its kind.
* `lexemes_mark`, `lexemes_word`, `lexemes_number`, `lexemes_string`: the first token, by its kind.
* `Stops`: what can follow a name or a number without becoming a part of it.
-/

namespace Rill

/-- The kind of a token, and its text unless the kind fixes it. -/
abbrev Lexeme := TokenKind × Bytes

/-- The kind and the text of a token. -/
def Token.reading (t : Token) : TokenKind × Bytes := (t.kind, t.literal)

/-- What a token says. -/
def Token.lexeme (t : Token) : Lexeme :=
  (t.kind, if t.kind.isFixed then [] else t.literal)

@[simp]
theorem Token.lexeme_fst (t : Token) : t.lexeme.1 = t.kind := rfl

/-- The readings of a source. -/
def readings (src : Bytes) : List (TokenKind × Bytes) := (tokens src).map Token.reading

/-- The lexemes of a source. -/
def lexemes (src : Bytes) : List Lexeme := (tokens src).map Token.lexeme

/-- The lexemes of a text are its readings without the spellings of fixed tokens. -/
theorem lexemes_eq_map (src : Bytes) :
    lexemes src = (readings src).map fun r => (r.1, if r.1.isFixed then [] else r.2) := by
  rw [lexemes, readings, List.map_map]
  rfl

namespace Cursor

/-- Offsets have no influence on what is skipped. -/
theorem rest_skipGap_congr (gap : Gap) (pos pos' : Nat) (s : Bytes) :
    (skipGap gap pos s).rest = (skipGap gap pos' s).rest := by
  induction s generalizing gap pos pos' with
  | nil => cases gap <;> simp [skipGap]
  | cons b s ih =>
    have hskip (gap : Gap) := ih gap (pos + 1) (pos' + 1)
    cases gap <;> rw [skipGap, skipGap] <;> (repeat' split) <;> simp [hskip]

/-- Offsets have no influence on the token that is read. -/
theorem scanAt_congr (pos pos' : Nat) (b : UInt8) (s : Bytes) :
    (scanAt pos b s).1.reading = (scanAt pos' b s).1.reading ∧
      (scanAt pos b s).2.rest = (scanAt pos' b s).2.rest := by
  rw [scanAt, scanAt]
  (repeat' split) <;> exact ⟨rfl, rfl⟩

/-- What is scanned depends on the rest of the text only, not on the offset. -/
theorem scan_congr {c c' : Cursor} (h : c.rest = c'.rest) :
    c.scan.1.reading = c'.scan.1.reading ∧ c.scan.2.rest = c'.scan.2.rest := by
  have hskip : (skipGap .blank c.pos c.rest).rest = (skipGap .blank c'.pos c'.rest).rest := by
    rw [h]
    exact rest_skipGap_congr _ _ _ _
  rw [scan, scan]
  -- From here on only the rests count, and they are the same.
  generalize skipGap .blank c.pos c.rest = d at *
  generalize skipGap .blank c'.pos c'.rest = d' at *
  obtain ⟨pos, rest⟩ := d
  obtain ⟨pos', rest'⟩ := d'
  obtain rfl : rest = rest' := hskip
  cases rest with
  | nil => exact ⟨rfl, rfl⟩
  | cons b s =>
    dsimp only
    split
    · exact ⟨rfl, rfl⟩
    · exact scanAt_congr pos pos' b s

/-- The readings of the tokens depend on the rest of the text only, once the bound is large
enough. -/
theorem map_reading_tokens_congr {n n' : Nat} {c c' : Cursor} (h : c.rest = c'.rest)
    (hn : c.rest.length < n) (hn' : c'.rest.length < n') :
    (c.tokens n).map Token.reading = (c'.tokens n').map Token.reading := by
  induction n generalizing n' c c' with
  | zero => exact absurd hn (Nat.not_lt_zero _)
  | succ n ih =>
    cases n' with
    | zero => exact absurd hn' (Nat.not_lt_zero _)
    | succ n' =>
      obtain ⟨hreading, hrest⟩ := scan_congr h
      have hkind : c.scan.1.kind = c'.scan.1.kind := congrArg Prod.fst hreading
      rw [tokens, tokens]
      dsimp only
      rw [hkind]
      split
      next => simp [hreading]
      next hne =>
        -- Every token but the end takes a byte, so both bounds are enough for what is left.
        have hless := (c.scan_spec.resolve_left (hkind ▸ hne)).2.2
        have hless' := (c'.scan_spec.resolve_left hne).2.2
        have hmore : (c.scan.2.tokens n).map Token.reading =
          (c'.scan.2.tokens n').map Token.reading :=
          ih hrest (by omega) (by omega)
        rw [List.map_cons, List.map_cons, hreading, hmore]

end Cursor

/-- The first token is followed by the tokens of what it leaves over. -/
theorem readings_eq_cons {src : Bytes} {t : Token} {c : Cursor} (h : Cursor.scan ⟨0, src⟩ = (t, c))
    (ht : t.kind ≠ .eof) : readings src = t.reading :: readings c.rest := by
  have hspec := Cursor.scan_spec ⟨0, src⟩
  rw [h] at hspec
  have hless : c.rest.length < src.length := (hspec.resolve_left ht).2.2
  have hmore : (c.tokens src.length).map Token.reading = readings c.rest :=
    Cursor.map_reading_tokens_congr rfl hless (Nat.lt_succ_self _)
  rw [readings, tokens, Cursor.tokens, h]
  dsimp only
  rw [if_neg ht, List.map_cons, hmore]

/-- The lexemes of a text are the one scanned first and those of the rest. -/
theorem lexemes_eq_cons {src : Bytes} {t : Token} {c : Cursor} (h : Cursor.scan ⟨0, src⟩ = (t, c))
    (ht : t.kind ≠ .eof) : lexemes src = t.lexeme :: lexemes c.rest := by
  rw [lexemes_eq_map, readings_eq_cons h ht, List.map_cons, ← lexemes_eq_map]
  rfl

/-! ## The first token, by its kind -/

/-- Blanks before a token say nothing. -/
theorem readings_space (s : Bytes) : readings (0x20 :: s) = readings s := by
  have hskip : Cursor.scan ⟨0, 0x20 :: s⟩ = Cursor.scan ⟨1, s⟩ := rfl
  have hstart : Cursor.tokens (s.length + 2) ⟨0, 0x20 :: s⟩ =
    Cursor.tokens (s.length + 2) ⟨1, s⟩ := by
    rw [Cursor.tokens, Cursor.tokens, hskip]
  have hmore : (Cursor.tokens (s.length + 2) ⟨1, s⟩).map Token.reading = readings s :=
    Cursor.map_reading_tokens_congr rfl (by dsimp only; omega) (by dsimp only; omega)
  exact (congrArg (List.map Token.reading) hstart).trans hmore

/-- A blank in front of a text is no lexeme. -/
theorem lexemes_space (s : Bytes) : lexemes (0x20 :: s) = lexemes s := by
  rw [lexemes_eq_map, readings_space, ← lexemes_eq_map]

/-- A byte that no gap starts with and that is not the end. -/
def startsToken (b : UInt8) : Bool := !Cursor.isBlank b && b != 0x23 && b != 0

/-- A byte that starts a token is not skipped. -/
theorem scan_of_startsToken {b : UInt8} (s : Bytes) (hb : startsToken b) :
    Cursor.scan ⟨0, b :: s⟩ = Cursor.scanAt 0 b s := by
  obtain ⟨⟨hblank, hcomment⟩, hend⟩ : (Cursor.isBlank b = false ∧ b ≠ 0x23) ∧ b ≠ 0 := by
    simpa [startsToken] using hb
  simp [Cursor.scan, Cursor.skipGap, hblank, hcomment, hend]

/-- A mark is scanned as its token, whatever follows. -/
theorem scan_mark {b : UInt8} {kind : TokenKind} (s : Bytes) (hstart : startsToken b)
    (hother : b ≠ 0x22 ∧ ¬Cursor.isWordByte b ∧ ¬Bytes.isDigit b ∧ Cursor.pair? b = none)
    (hmark : Cursor.mark? b = some kind) :
    Cursor.scan ⟨0, b :: s⟩ = (⟨kind, [b], 0⟩, ⟨1, s⟩) := by
  obtain ⟨hquote, hword, hdigit, hpair⟩ := hother
  rw [scan_of_startsToken s hstart, Cursor.scanAt, if_neg hquote, if_neg hword, if_neg hdigit]
  simp [hpair, hmark]

/-- The byte is a mark of its own. -/
theorem lexemes_mark {b : UInt8} {kind : TokenKind} (s : Bytes) (hstart : startsToken b)
    (hother : b ≠ 0x22 ∧ ¬Cursor.isWordByte b ∧ ¬Bytes.isDigit b ∧ Cursor.pair? b = none)
    (hmark : Cursor.mark? b = some kind) : lexemes (b :: s) = (kind, []) :: lexemes s := by
  have hfixed := Cursor.isFixed_of_mark? hmark
  have hkind := (TokenKind.spelled_of_isFixed hfixed [b] 0).1
  rw [lexemes_eq_cons (scan_mark s hstart hother hmark) hkind, Token.lexeme, if_pos hfixed]

/-- A mark that could be the first of a pair is scanned alone if the second one does not follow. -/
theorem scan_alone {b second : UInt8} {alone together : TokenKind} {s : Bytes}
    (hstart : startsToken b) (hother : b ≠ 0x22 ∧ ¬Cursor.isWordByte b ∧ ¬Bytes.isDigit b)
    (hpair : Cursor.pair? b = some (alone, second, together)) (hs : ∀ c ∈ s.head?, c ≠ second) :
    Cursor.scan ⟨0, b :: s⟩ = (⟨alone, [b], 0⟩, ⟨1, s⟩) := by
  obtain ⟨hquote, hword, hdigit⟩ := hother
  rw [scan_of_startsToken s hstart, Cursor.scanAt, if_neg hquote, if_neg hword,
    if_neg hdigit, hpair]
  cases s with
  | nil => rfl
  | cons c s => simp [hs c (by simp)]

/-- The byte could have a partner, but something else follows. -/
theorem lexemes_alone {b second : UInt8} {alone together : TokenKind} {s : Bytes}
    (hstart : startsToken b) (hother : b ≠ 0x22 ∧ ¬Cursor.isWordByte b ∧ ¬Bytes.isDigit b)
    (hpair : Cursor.pair? b = some (alone, second, together)) (hs : ∀ c ∈ s.head?, c ≠ second) :
    lexemes (b :: s) = (alone, []) :: lexemes s := by
  have hfixed := (Cursor.isFixed_of_pair? hpair).1
  have hkind := (TokenKind.spelled_of_isFixed hfixed [b] 0).1
  rw [lexemes_eq_cons (scan_alone hstart hother hpair hs) hkind, Token.lexeme, if_pos hfixed]

/-- A run of bytes ends where the first other byte follows. -/
theorem span_append {p : UInt8 → Bool} {w s : Bytes} (hw : ∀ b ∈ w, p b)
    (hs : ∀ b ∈ s.head?, p b = false) : (w ++ s).takeWhile p = w ∧ (w ++ s).dropWhile p = s := by
  rw [List.takeWhile_append_of_pos hw, List.dropWhile_append_of_pos hw]
  cases s with
  | nil => simp
  | cons b s => simp [hs b (by simp)]

/-- A byte of a class that has no white space, no `#` and no zero. -/
theorem startsToken_of_class {p : UInt8 → Bool}
    (hp : ([0x20, 0x09, 0x0D, 0x0A, 0x23, 0] : Bytes).all (! p ·)) {b : UInt8} (hb : p b) :
    startsToken b := by
  cases h : startsToken b with
  | true => rfl
  | false =>
    simp only [startsToken, Cursor.isBlank, Bool.and_eq_false_iff, Bool.not_eq_false',
      Bool.or_eq_true, beq_iff_eq, bne_eq_false_iff_eq] at h
    have hmem : b ∈ ([0x20, 0x09, 0x0D, 0x0A, 0x23, 0] : Bytes) := by
      rcases h with ((((rfl | rfl) | rfl) | rfl) | rfl) | rfl <;> decide
    simpa [hb] using List.all_eq_true.mp hp b hmem

/-- Letters start a token that is no string. -/
theorem startsToken_of_isWordByte {b : UInt8} (hb : Cursor.isWordByte b) :
    startsToken b ∧ b ≠ 0x22 := by
  refine ⟨startsToken_of_class (by decide) hb, ?_⟩
  rintro rfl
  cases hb

/-- Digits start a token that is neither a string nor a word. -/
theorem startsToken_of_isDigit {b : UInt8} (hb : Bytes.isDigit b) :
    startsToken b ∧ b ≠ 0x22 ∧ ¬Cursor.isWordByte b := by
  refine ⟨startsToken_of_class (by decide) hb, ?_, fun hword => ?_⟩
  · rintro rfl
    cases hb
  · simp only [Bytes.isDigit, Cursor.isWordByte, Bytes.isLetter, Bool.and_eq_true, Bool.or_eq_true,
      decide_eq_true_eq, beq_iff_eq, UInt8.le_iff_toNat_le, UInt8.reduceToNat] at hb hword
    rcases hword with h | rfl
    · omega
    · simp at hb

/-- A word that no letter or digit follows is scanned as a whole. -/
theorem scan_word {w s : Bytes} (hw : w ≠ []) (hbytes : ∀ b ∈ w, Cursor.isWordByte b)
    (hs : ∀ b ∈ s.head?, Cursor.isWordByte b = false) :
    Cursor.scan ⟨0, w ++ s⟩ = (⟨TokenKind.ofWord w, w, 0⟩, ⟨w.length, s⟩) := by
  obtain ⟨b, w, rfl⟩ := List.exists_cons_of_ne_nil hw
  obtain ⟨hb, hbytes⟩ := List.forall_mem_cons.mp hbytes
  obtain ⟨hstart, hquote⟩ := startsToken_of_isWordByte hb
  obtain ⟨htake, hdrop⟩ := span_append hbytes hs
  rw [List.cons_append, scan_of_startsToken _ hstart, Cursor.scanAt, if_neg hquote, if_pos hb]
  dsimp only
  rw [htake, hdrop, Nat.zero_add]

/-- A name or a keyword. -/
theorem lexemes_word {w s : Bytes} (hw : w ≠ []) (hbytes : ∀ b ∈ w, Cursor.isWordByte b)
    (hs : ∀ b ∈ s.head?, Cursor.isWordByte b = false) :
    lexemes (w ++ s) = (TokenKind.ofWord w, if (TokenKind.ofWord w).isFixed then [] else w) ::
      lexemes s := by
  have hkind : TokenKind.ofWord w ≠ .eof := by
    rcases TokenKind.ofWord_cases w with h | h
    · simp [h]
    · exact (TokenKind.spelled_of_isFixed h [] 0).1
  rw [lexemes_eq_cons (scan_word hw hbytes hs) hkind]
  rfl

/-- A quoted text is scanned up to the closing quote. -/
theorem scan_string {v : Bytes} (s : Bytes) (hv : ∀ b ∈ v, Cursor.isQuotedByte b) :
    Cursor.scan ⟨0, 0x22 :: v ++ 0x22 :: s⟩ = (⟨.string, v, 0⟩, ⟨v.length + 2, s⟩) := by
  obtain ⟨htake, hdrop⟩ := span_append (s := 0x22 :: s) hv (by simp [Cursor.isQuotedByte])
  rw [List.cons_append, scan_of_startsToken _ (by decide), Cursor.scanAt, if_pos rfl]
  dsimp only
  rw [htake, hdrop, Nat.zero_add]

/-- A text in quotes. -/
theorem lexemes_string {v : Bytes} (s : Bytes) (hv : ∀ b ∈ v, Cursor.isQuotedByte b) :
    lexemes (0x22 :: v ++ 0x22 :: s) = (.string, v) :: lexemes s := by
  rw [lexemes_eq_cons (scan_string s hv) (by simp)]
  rfl

/-! ## What can follow a name or a number -/

/-- The bytes that a canonical text has behind an expression. -/
def stopBytes : List UInt8 := [0x20, 0x28, 0x29, 0x2C, 0x3A, 0x3B, 0x5B, 0x5D, 0x7D]

/-- No byte at the front of `s` could continue a name or a number. -/
def Stops (s : Bytes) : Prop := ∀ b ∈ s.head?, b ∈ stopBytes

/-- A text that starts with a stop byte stops a token in front of it. -/
theorem Stops.append {w : Bytes} (hw : w.head?.any (stopBytes.contains ·)) (s : Bytes) :
    Stops (w ++ s) := by
  cases w with
  | nil => cases hw
  | cons b w =>
    rintro c ⟨⟩
    simpa using hw

/-- The end of a text stops a token. -/
theorem Stops.nil : Stops [] := fun _ h => by cases h

/-- A byte that stops has no place in a name or a number. -/
theorem Stops.spec {s : Bytes} (hs : Stops s) : ∀ b ∈ s.head?, Cursor.isWordByte b = false ∧
    Bytes.isDigit b = false ∧ b ≠ 0x2E ∧ b ≠ 0x66 ∧ b ≠ 0x64 := by
  have hall : stopBytes.all (fun b => ! Cursor.isWordByte b && ! Bytes.isDigit b && b != 0x2E &&
      b != 0x66 && b != 0x64) = true := by decide
  intro b hb
  simpa [and_assoc] using List.all_eq_true.mp hall b (hs b hb)

/-- What a number with the digits `body` and the point among them is, with its ending at the front
of `rest`. -/
def pointEnding (body rest : Bytes) : TokenKind × Bytes × Bytes :=
  match rest with
  | e :: s =>
    if e = 0x66 then (.float, body ++ [e], s)
    else if e = 0x64 then (.double, body ++ [e], s)
    else (.double, body, e :: s)
  | [] => (.double, body, [])

/-- A number goes on behind its point if a digit or a suffix stands there. -/
theorem number_of_point {s s' : Bytes} {n : UInt8}
    (hafter : s.dropWhile Bytes.isDigit = 0x2E :: n :: s')
    (hn : Bytes.isDigit n || n == 0x66 || n == 0x64) :
    Cursor.number s = pointEnding
      (s.takeWhile Bytes.isDigit ++ 0x2E :: (n :: s').takeWhile Bytes.isDigit)
      ((n :: s').dropWhile Bytes.isDigit) := by
  rw [Cursor.number, hafter]
  simp only [if_pos hn]
  rfl

/-- A number with a point is its digits, its point and the digits behind it, with an ending. -/
private theorem number_point {whole fraction rest : Bytes}
    (hwhole : ∀ b ∈ whole, Bytes.isDigit b) (hfraction : ∀ b ∈ fraction, Bytes.isDigit b)
    (hrest : ∀ b ∈ rest.head?, Bytes.isDigit b = false)
    (hfirst : ∃ n s, fraction ++ rest = n :: s ∧ (Bytes.isDigit n || n == 0x66 || n == 0x64)) :
    Cursor.number (whole ++ 0x2E :: (fraction ++ rest)) =
      pointEnding (whole ++ 0x2E :: fraction) rest := by
  obtain ⟨n, s, hcons, hn⟩ := hfirst
  obtain ⟨htake, hdrop⟩ := span_append (s := 0x2E :: (fraction ++ rest)) hwhole
    (by simp [Bytes.isDigit])
  obtain ⟨htake', hdrop'⟩ := span_append hfraction hrest
  rw [hcons] at hdrop
  rw [hcons, number_of_point hdrop hn, ← hcons, htake, htake', hdrop']

/-- The letter behind a fraction is part of the number, also where the fraction has no digits. -/
private theorem exists_cons_fraction {fraction : Bytes} {letter : UInt8} (s : Bytes)
    (hfraction : ∀ b ∈ fraction, Bytes.isDigit b) (hletter : letter = 0x66 ∨ letter = 0x64) :
    ∃ n t, fraction ++ letter :: s = n :: t ∧ (Bytes.isDigit n || n == 0x66 || n == 0x64) := by
  cases fraction with
  | nil => exact ⟨_, _, rfl, by rcases hletter with rfl | rfl <;> rfl⟩
  | cons n fraction => exact ⟨_, _, rfl, by simp [hfraction n (by simp)]⟩

/-- A number is read back as it is spelled. -/
theorem number_append {kind : TokenKind} {literal s : Bytes} (h : NumberSpelling kind literal)
    (hs : Stops s) : Cursor.number (literal ++ s) = (kind, literal, s) := by
  have hdigit : ∀ b ∈ s.head?, Bytes.isDigit b = false := fun b hb => (hs.spec b hb).2.1
  -- A byte that stops is neither a digit, a point nor a letter of a number, so no longer number is
  -- read.
  cases h with
  | int _ hwhole =>
    obtain ⟨htake, hdrop⟩ := span_append hwhole hdigit
    rw [Cursor.number, htake, hdrop]
    dsimp only
    split
    · exact absurd rfl (hs.spec 0x2E (by simp)).2.2.1
    · rfl
  | @point whole fraction _ hwhole hne hfraction =>
    obtain ⟨n, fraction', rfl⟩ := List.exists_cons_of_ne_nil hne
    rw [List.append_assoc, List.cons_append,
      number_point hwhole hfraction hdigit ⟨_, _, rfl, by simp [hfraction n (by simp)]⟩]
    cases s with
    | nil => rfl
    | cons e s =>
      obtain ⟨-, -, -, hf, hd⟩ := hs.spec e (by simp)
      simp [pointEnding, hf, hd]
  | @float whole fraction _ hwhole hfraction =>
    have hfirst := exists_cons_fraction s hfraction (.inl rfl)
    simpa [pointEnding] using number_point hwhole hfraction (by simp [Bytes.isDigit]) hfirst
  | @double whole fraction _ hwhole hfraction =>
    have hfirst := exists_cons_fraction s hfraction (.inr rfl)
    simpa [pointEnding] using number_point hwhole hfraction (by simp [Bytes.isDigit]) hfirst

/-- The first byte of a number is a digit. -/
theorem NumberSpelling.exists_cons {kind : TokenKind} {literal : Bytes}
    (h : NumberSpelling kind literal) :
    ∃ b s, literal = b :: s ∧ Bytes.isDigit b := by
  have hwhole : ∃ whole rest, literal = whole ++ rest ∧ whole ≠ [] ∧ ∀ b ∈ whole,
    Bytes.isDigit b := by
    cases h with
    | int hne hdigits => exact ⟨_, [], by simp, hne, hdigits⟩
    | point hne hdigits => exact ⟨_, _, rfl, hne, hdigits⟩
    | float hne hdigits => exact ⟨_, _, by rw [List.append_assoc], hne, hdigits⟩
    | double hne hdigits => exact ⟨_, _, by rw [List.append_assoc], hne, hdigits⟩
  obtain ⟨whole, rest, rfl, hne, hdigits⟩ := hwhole
  obtain ⟨b, whole, rfl⟩ := List.exists_cons_of_ne_nil hne
  exact ⟨b, whole ++ rest, rfl, hdigits b List.mem_cons_self⟩

/-- A number spelled as its kind asks is scanned as a whole, as a token of this kind. -/
theorem scan_number {kind : TokenKind} {literal s : Bytes} (h : NumberSpelling kind literal)
    (hs : Stops s) : Cursor.scan ⟨0, literal ++ s⟩ = (⟨kind, literal, 0⟩, ⟨literal.length, s⟩) := by
  have hnumber := number_append h hs
  obtain ⟨b, literal, rfl, hb⟩ := h.exists_cons
  obtain ⟨hstart, hquote, hword⟩ := startsToken_of_isDigit hb
  rw [List.cons_append, scan_of_startsToken _ hstart, Cursor.scanAt, if_neg hquote, if_neg hword,
    if_pos hb, ← List.cons_append, hnumber]
  dsimp only
  rw [Nat.zero_add]

/-- A number. -/
theorem lexemes_number {kind : TokenKind} {literal s : Bytes} (h : NumberSpelling kind literal)
    (hs : Stops s) : lexemes (literal ++ s) = (kind, literal) :: lexemes s := by
  obtain ⟨hkind, -⟩ := h.spelled 0
  have hfixed : kind.isFixed = false := by cases h <;> rfl
  rw [lexemes_eq_cons (scan_number h hs) hkind, Token.lexeme]
  simp [hfixed]

/-- A name. -/
theorem lexemes_name {name s : Bytes} (h : Token.Spelled ⟨.ident, name, 0⟩) (hs : Stops s) :
    lexemes (name ++ s) = (.ident, name) :: lexemes s := by
  obtain ⟨hne, hbytes, hword⟩ := h
  rw [lexemes_word hne hbytes fun b hb => (hs.spec b hb).1, hword]
  rfl

end Rill
