import Rill.Proofs.Text.Glyph
import Rill.Proofs.Token.Scanner

/-!
# Tokens tile their source

A source is cut into the pieces that its tokens were read from and what stands between them, and
nothing of it is left over or taken twice.

* `Filler`: white space and comments, said without the scanner.
* `Token.Covers`: the piece of a source that belongs to a token.
* `Tiles`: a source as fillers and pieces in turn, each token with the offset of its piece.
* `Cursor.skipGap_spec`, `Cursor.scanAt_spec`, `Cursor.scan_spec_of_ne_zero`: what one call of the
  scanner takes.
* `tokens_tile`: all calls, from the start of a source to its end and beyond.
-/

namespace Rill

/-! ## Pieces of a source -/

/-- White space and comments. A comment from `#` ends with its line and one from `##` with the next
`##`; as the `last` filler of a source it may stay open. -/
inductive Filler (last : Bool) : Bytes → Prop where
  | nil : Filler last []
  | blank {b : UInt8} {s : Bytes} (hb : Cursor.isBlank b = true) (h : Filler last s) :
      Filler last (b :: s)
  | line {body s : Bytes} (hbody : body.head? ≠ some 0x23) (hline : 0x0A ∉ body)
      (h : Filler last s) :
      Filler last (0x23 :: body ++ 0x0A :: s)
  | openLine {body : Bytes} (hlast : last = true) (hbody : body.head? ≠ some 0x23)
      (hline : 0x0A ∉ body) :
      Filler last (0x23 :: body)
  | block {body s : Bytes} (hbody : ¬ [0x23, 0x23] <:+: body ++ [0x23]) (h : Filler last s) :
      Filler last (0x23 :: 0x23 :: body ++ 0x23 :: 0x23 :: s)
  | openBlock {body : Bytes} (hlast : last = true) (hbody : ¬ [0x23, 0x23] <:+: body) :
      Filler last (0x23 :: 0x23 :: body)

/-- A piece of a source, before `rest`, is what a token was read from. A string may lack its second
quote at the end of the source, and a token without a meaning is a single glyph. -/
def Token.Covers (t : Token) (piece rest : Bytes) : Prop :=
  match t.kind with
  | .string => piece = 0x22 :: t.literal ++ [0x22] ∨ piece = 0x22 :: t.literal ∧ rest = []
  | .illegal => ∃ g, (glyphs (piece ++ rest)).head? = some g ∧ piece = g.bytes
  | _ => piece = t.literal

/-- From an offset on, a source consists of fillers and the pieces of tokens in turn. -/
inductive Tiles : (pos : Nat) → List Token → Bytes → Prop where
  | done {pos : Nat} {gap : Bytes} (hgap : Filler true gap) : Tiles pos [] gap
  | token {pos : Nat} {gap piece rest : Bytes} {t : Token} {ts : List Token}
      (hgap : Filler false gap) (hpos : t.pos = pos + gap.length) (hpiece : t.Covers piece rest)
      (hrest : Tiles (pos + gap.length + piece.length) ts rest) :
        Tiles pos (t :: ts) (gap ++ piece ++ rest)

/-- Neighbours in a list with one more element are the last two, or were neighbours before. -/
theorem pair_infix_concat {α : Type} {x y z : α} {l : List α} :
    [x, y] <:+: l ++ [z] ↔ y = z ∧ [x] <:+ l ∨ [x, y] <:+: l := by
  have hsuffix : [x, y] <:+ l ++ [z] ↔ y = z ∧ [x] <:+ l := by
    rw [List.suffix_concat_iff]
    constructor
    · rintro (hnil | ⟨t, ht, hsuffix⟩)
      · cases hnil
      · have ht : [x] ++ [y] = t ++ [z] := ht
        obtain ⟨rfl, htail⟩ := List.append_inj' ht rfl
        exact ⟨List.head_eq_of_cons_eq htail, hsuffix⟩
    · rintro ⟨rfl, h⟩
      exact .inr ⟨[x], rfl, h⟩
  rw [List.infix_concat_iff, hsuffix]

namespace Cursor

/-! ## Fillers -/

/-- What was read of a comment when the scanner has come to a state. -/
def Gap.Behind : Gap → Bytes → Prop
  | .blank, before => before = []
  | .opened, before => before = [0x23]
  | .line, before =>
    ∃ body, before = 0x23 :: body ∧ body ≠ [] ∧ body.head? ≠ some 0x23 ∧ 0x0A ∉ body
  | .block, before => ∃ body, before = 0x23 :: 0x23 :: body ∧ ¬ [0x23, 0x23] <:+: body ++ [0x23]
  | .closing, before =>
    ∃ body, before = 0x23 :: 0x23 :: body ++ [0x23] ∧ ¬ [0x23, 0x23] <:+: body ++ [0x23]

/-- At the end of the source every state is one in which a filler may end. -/
theorem Gap.Behind.filler_true {gap : Gap} {before : Bytes} (h : gap.Behind before) :
    Filler true before := by
  cases gap with
  | blank => exact h ▸ .nil
  | opened => exact h ▸ .openLine rfl (by simp) (by simp)
  | line =>
    obtain ⟨body, rfl, -, hhead, hline⟩ := h
    exact .openLine rfl hhead hline
  | block =>
    obtain ⟨body, rfl, hbody⟩ := h
    exact .openBlock rfl fun hpair => hbody (hpair.trans (List.prefix_append _ _).isInfix)
  | closing =>
    obtain ⟨body, rfl, hbody⟩ := h
    exact .openBlock rfl hbody

/-- A byte that is no `#` starts no pair of them. -/
theorem not_pair_infix_concat {b : UInt8} {body : Bytes} (hb : b ≠ 0x23)
    (hbody : ¬ [0x23, 0x23] <:+: body) :
    ¬ [0x23, 0x23] <:+: (body ++ [b]) ++ [0x23] := by
  rw [pair_infix_concat, pair_infix_concat]
  rintro (⟨-, hsuffix⟩ | ⟨heq, -⟩ | hpair)
  · have hlast : ([0x23] : Bytes).getLast? = (body ++ [b]).getLast? := by
      obtain ⟨front, hfront⟩ := hsuffix
      rw [← hfront, List.getLast?_concat, List.getLast?_singleton]
    rw [List.getLast?_concat, List.getLast?_singleton] at hlast
    exact hb (Option.some.inj hlast).symm
  · exact hb heq.symm
  · exact hbody hpair

/-- The state behind a byte, unless the byte belongs to a token. -/
def Gap.after (gap : Gap) (b : UInt8) : Option Gap :=
  match gap with
  | .blank => if isBlank b then some .blank else if b = 0x23 then some .opened else none
  | .opened => if b = 0x23 then some .block else if b = 0x0A then some .blank else some .line
  | .line => if b = 0x0A then some .blank else some .line
  | .block => if b = 0x23 then some .closing else some .block
  | .closing => if b = 0x23 then some .blank else some .block

/-- Only between comments a byte can be left to a token. -/
theorem Gap.eq_blank_of_after_eq_none {gap : Gap} {b : UInt8} (h : gap.after b = none) :
    gap = .blank := by
  cases gap with
  | blank => rfl
  | _ =>
    rw [Gap.after] at h
    (repeat' split at h) <;> cases h

/-- A gap goes on with a byte that belongs to it, and ends in front of any other. -/
theorem skipGap_cons {b : UInt8} (hb : b ≠ 0) (gap : Gap) (pos : Nat) (s : Bytes) :
    skipGap gap pos (b :: s) =
      (gap.after b).elim ⟨pos, b :: s⟩ fun next => skipGap next (pos + 1) s := by
  cases gap <;> rw [skipGap, Gap.after] <;> (repeat' split) <;> first | rfl | contradiction

/-- The step: a byte in front of what completes every comment in the next state completes the
comment at hand. -/
theorem Gap.Behind.filler_step {gap next : Gap} {b : UInt8} {before skipped : Bytes} {last : Bool}
    (hnext : gap.after b = some next) (h : gap.Behind before)
    (hfiller : ∀ before, next.Behind before → Filler last (before ++ skipped)) :
    Filler last (before ++ b :: skipped) := by
  -- A byte that leaves the comment open is taken to what was read of it.
  have hopen : next.Behind (before ++ [b]) → Filler last (before ++ b :: skipped) := by
    intro hbehind
    have hfiller := hfiller _ hbehind
    rwa [List.append_assoc] at hfiller
  cases gap with
  | blank =>
    obtain rfl : before = [] := h
    rw [Gap.after] at hnext
    split at hnext
    next hb =>
      cases hnext
      exact .blank hb (hfiller [] rfl)
    next =>
      split at hnext
      next hb =>
        cases hnext
        exact hopen (hb ▸ rfl)
      next => cases hnext
  | opened =>
    obtain rfl : before = [0x23] := h
    rw [Gap.after] at hnext
    split at hnext
    next hb =>
      cases hnext
      exact hopen ⟨[], hb ▸ rfl, by decide⟩
    next hb =>
      split at hnext
      next hline =>
        cases hnext
        subst hline
        exact @Filler.line last [] skipped (by simp) (by simp) (hfiller [] rfl)
      next hline =>
        cases hnext
        exact hopen ⟨[b], rfl, by simp, by simpa using hb, by simpa using Ne.symm hline⟩
  | line =>
    obtain ⟨body, rfl, hne, hhead, hline⟩ := h
    rw [Gap.after] at hnext
    split at hnext
    next hb =>
      cases hnext
      subst hb
      exact .line hhead hline (hfiller [] rfl)
    next hb =>
      cases hnext
      refine hopen ⟨body ++ [b], rfl, by simp, ?_, by simpa [hline] using Ne.symm hb⟩
      rwa [List.head?_append, Option.or_of_isSome (by simpa using hne)]
  | block =>
    obtain ⟨body, rfl, hbody⟩ := h
    rw [Gap.after] at hnext
    split at hnext
    next hb =>
      cases hnext
      exact hopen ⟨body, hb ▸ rfl, hbody⟩
    next hb =>
      cases hnext
      have hpair : ¬ [0x23, 0x23] <:+: body :=
        fun h => hbody (h.trans (List.prefix_append _ _).isInfix)
      exact hopen ⟨body ++ [b], rfl, not_pair_infix_concat hb hpair⟩
  | closing =>
    obtain ⟨body, rfl, hbody⟩ := h
    rw [Gap.after] at hnext
    split at hnext
    next hb =>
      cases hnext
      subst hb
      have hfiller := Filler.block hbody (hfiller [] rfl)
      rwa [List.nil_append, List.append_cons] at hfiller
    next hb =>
      cases hnext
      exact hopen ⟨body ++ [0x23] ++ [b], by simp, not_pair_infix_concat hb hbody⟩

/-- What is skipped is a filler, together with what was read of a comment before. -/
theorem skipGap_spec (gap : Gap) (pos : Nat) {s : Bytes} (hs : 0 ∉ s) :
    ∃ skipped rest, s = skipped ++ rest ∧ skipGap gap pos s = ⟨pos + skipped.length, rest⟩ ∧
      ∀ before, gap.Behind before → Filler rest.isEmpty (before ++ skipped) := by
  induction s generalizing gap pos with
  | nil =>
    refine ⟨[], [], rfl, by cases gap <;> rfl, fun before h => ?_⟩
    rw [List.append_nil]
    exact h.filler_true
  | cons b s ih =>
    obtain ⟨hb, hs⟩ : b ≠ 0 ∧ 0 ∉ s := by simpa [eq_comm] using hs
    rw [skipGap_cons hb]
    cases hnext : gap.after b with
    | some next =>
      obtain ⟨skipped, rest, rfl, hskip, hfiller⟩ := ih next (pos + 1) hs
      refine ⟨b :: skipped, rest, rfl, ?_, fun before hbefore => hbefore.filler_step hnext hfiller⟩
      rw [Option.elim_some, hskip, List.length_cons, Nat.add_assoc, Nat.add_comm 1]
    | none =>
      -- Only between comments can a gap end in front of a byte.
      obtain rfl := Gap.eq_blank_of_after_eq_none hnext
      refine ⟨[], b :: s, rfl, rfl, ?_⟩
      rintro _ rfl
      exact .nil

/-! ## Tokens -/

variable {b : UInt8} {s literal : Bytes} {kind : TokenKind}

/-- Most tokens cover their literal. -/
theorem covers_of_kind (hstring : kind ≠ .string) (hillegal : kind ≠ .illegal) (pos : Nat)
    (rest : Bytes) :
    Token.Covers ⟨kind, literal, pos⟩ literal rest := by
  unfold Token.Covers
  split
  · contradiction
  · contradiction
  · rfl

/-- A glyph that starts no token is an illegal token of its own. -/
theorem covers_illegal (pos : Nat) (literal : Bytes) (b : UInt8) (s : Bytes) :
    Token.Covers ⟨.illegal, literal, pos⟩ (b :: s.take (Glyph.decode b s).2)
      (s.drop (Glyph.decode b s).2) := by
  refine ⟨(Glyph.decode b s).1, ?_, (Glyph.bytes_decode b s).symm⟩
  rw [List.cons_append, List.take_append_drop]
  rfl

/-- Marks in pairs are ASCII, and neither strings nor illegal. -/
theorem pair?_spec {second : UInt8} {alone together : TokenKind}
    (h : pair? b = some (alone, second, together)) :
    b < 0x80 ∧ alone ≠ .string ∧ together ≠ .string ∧ together ≠ .illegal := by
  have hall : ∀ entry ∈ pairs, entry.1 < 0x80 ∧ entry.2.1 ≠ .string ∧ entry.2.2.2 ≠ .string ∧
      entry.2.2.2 ≠ .illegal := by decide
  exact hall _ (mem_pairs h)

/-- Marks are neither strings nor illegal. -/
theorem mark?_spec (h : mark? b = some kind) : kind ≠ .string ∧ kind ≠ .illegal := by
  have hall : ∀ entry ∈ marks, entry.2 ≠ .string ∧ entry.2 ≠ .illegal := by decide
  exact hall _ (mem_marks h)

/-- A byte below `0x80` is a glyph of its own. -/
theorem covers_byte (hb : b < 0x80) (hkind : kind ≠ .string) (pos : Nat) (rest : Bytes) :
    Token.Covers ⟨kind, [b], pos⟩ [b] rest := by
  by_cases hillegal : kind = .illegal
  · subst hillegal
    have hcovers := covers_illegal pos [b] b rest
    have hdecode : Glyph.decode b rest = (.rune b.toNat, 0) := if_pos hb
    rwa [hdecode, List.take_zero, List.drop_zero] at hcovers
  · exact covers_of_kind hkind hillegal pos rest

/-- Words are neither strings nor illegal. -/
theorem ofWord_ne (word : Bytes) :
    TokenKind.ofWord word ≠ .string ∧ TokenKind.ofWord word ≠ .illegal := by
  rw [TokenKind.ofWord]
  cases hlookup : TokenKind.keywords.lookup word with
  | none => exact ⟨by simp, by simp⟩
  | some kind =>
    obtain ⟨before, after, hkeywords, -⟩ := List.lookup_eq_some_iff.mp hlookup
    have hmem : (word, kind) ∈ TokenKind.keywords := by simp [hkeywords]
    have hall : ∀ entry ∈ TokenKind.keywords, entry.2 ≠ .string ∧ entry.2 ≠ .illegal := by
      decide +kernel
    exact hall _ hmem

/-- The token at a byte covers a piece that starts with the byte, and the scanner moves behind the
piece. -/
theorem scanAt_spec (pos : Nat) (b : UInt8) {s : Bytes} (hs : 0 ∉ s) :
    ∃ piece rest, b :: s = piece ++ rest ∧ piece ≠ [] ∧ (scanAt pos b s).1.pos = pos ∧
      (scanAt pos b s).2 = ⟨pos + piece.length, rest⟩ ∧ (scanAt pos b s).1.Covers piece rest := by
  rw [scanAt]
  split
  next hquote =>
    have hcut := List.takeWhile_append_dropWhile (p := isQuotedByte) (l := s)
    subst hquote
    split
    next q s' hend =>
      -- Without a zero byte only a quote ends a string.
      obtain rfl : q = 0x22 := by
        have hnot : isQuotedByte q = false := by
          simpa [hend] using List.head?_dropWhile_not isQuotedByte s
        have hq : q ≠ 0 := by
          rintro rfl
          exact hs (hcut ▸ hend ▸ List.mem_append_right _ List.mem_cons_self)
        simpa [isQuotedByte, hq] using hnot
      refine ⟨0x22 :: s.takeWhile isQuotedByte ++ [0x22], s', ?_, by simp, rfl, ?_, .inl rfl⟩
      · rw [hend] at hcut
        simp [hcut]
      · simp [Nat.add_assoc]
    next hend =>
      rw [hend, List.append_nil] at hcut
      refine ⟨0x22 :: s.takeWhile isQuotedByte, [], by simp [hcut], by simp, rfl, ?_,
        .inr ⟨rfl, rfl⟩⟩
      simp [Nat.add_assoc]
  split
  next hword =>
    obtain ⟨hstring, hillegal⟩ := ofWord_ne (b :: s.takeWhile isWordByte)
    refine ⟨b :: s.takeWhile isWordByte, s.dropWhile isWordByte, ?_, by simp, rfl, rfl,
      covers_of_kind hstring hillegal pos _⟩
    rw [List.cons_append, List.takeWhile_append_dropWhile]
  split
  next hdigit =>
    obtain ⟨kind, literal, rest, hnumber, hspelling, hcut⟩ := number_spec s hdigit
    simp only [hnumber]
    refine ⟨literal, rest, hcut.symm, hspelling.ne_nil, trivial, ?_, ?_⟩
    · rfl
    · cases hspelling <;> exact covers_of_kind (by simp) (by simp) pos _
  split
  next alone second together hpair =>
    obtain ⟨hb, halone, htogether, hillegal⟩ := pair?_spec hpair
    split
    next c s' =>
      split
      next hc =>
        exact ⟨[b, c], s', rfl, by simp, rfl, rfl, covers_of_kind htogether hillegal pos _⟩
      next => exact ⟨[b], c :: s', rfl, by simp, rfl, rfl, covers_byte hb halone pos _⟩
    next => exact ⟨[b], [], rfl, by simp, rfl, rfl, covers_byte hb halone pos _⟩
  next hmark =>
    obtain ⟨hstring, hillegal⟩ := mark?_spec hmark
    exact ⟨[b], s, rfl, by simp, rfl, rfl, covers_of_kind hstring hillegal pos _⟩
  next =>
    refine ⟨b :: s.take (Glyph.decode b s).2, s.drop (Glyph.decode b s).2, ?_, by simp, rfl, ?_,
      covers_illegal pos _ b s⟩
    · rw [List.cons_append, List.take_append_drop]
    · have htaken := Glyph.decode_le b s
      simp [Nat.min_eq_left htaken, Nat.add_assoc, Nat.add_comm]

/-! ## Calls of the scanner -/

/-- One call: the end behind a last filler, or a filler and the piece of a token. -/
theorem scan_spec_of_ne_zero (c : Cursor) (hs : 0 ∉ c.rest) :
    Filler true c.rest ∧
        c.scan = (⟨.eof, [], c.pos + c.rest.length⟩, ⟨c.pos + c.rest.length, []⟩) ∨
      ∃ gap piece rest, c.rest = gap ++ piece ++ rest ∧ Filler false gap ∧ piece ≠ [] ∧
        c.scan.1.kind ≠ .eof ∧ c.scan.1.pos = c.pos + gap.length ∧ c.scan.1.Covers piece rest ∧
        c.scan.2 = ⟨c.pos + gap.length + piece.length, rest⟩ := by
  obtain ⟨gap, rest, hcut, hskip, hfiller⟩ := skipGap_spec .blank c.pos hs
  have hfiller := hfiller [] rfl
  rw [List.nil_append] at hfiller
  rw [scan, hskip]
  cases rest with
  | nil =>
    rw [List.append_nil] at hcut
    exact .inl ⟨hcut ▸ hfiller, by rw [hcut]⟩
  | cons b s =>
    -- A filler that is not the last one ends at a byte of a token, and this byte is not zero.
    have hbs : 0 ∉ b :: s := fun hmem => hs (hcut ▸ List.mem_append_right gap hmem)
    have hb : b ≠ 0 := fun h => hbs (h ▸ List.mem_cons_self)
    obtain ⟨piece, rest, hpiece, hne, hpos, hnext, hcovers⟩ :=
      scanAt_spec (c.pos + gap.length) b fun hmem => hbs (List.mem_cons_of_mem b hmem)
    simp only [if_neg hb]
    refine .inr ⟨gap, piece, rest, ?_, hfiller, hne, (spelled_scanAt _ b s).1, hpos, hcovers, hnext⟩
    rw [hcut, hpiece, List.append_assoc]

/-- The token of the last of `n + 1` calls. -/
def read (c : Cursor) : (n : Nat) → Token
  | 0 => c.scan.1
  | n + 1 => c.scan.2.read n

/-- At the end of a source every call gives the end token. -/
theorem read_nil (pos n : Nat) : read ⟨pos, []⟩ n = ⟨.eof, [], pos⟩ := by
  induction n with
  | zero => rfl
  | succ n ih => exact ih

/-- All calls from a position on. -/
theorem tokens_spec {n : Nat} {c : Cursor} (hs : 0 ∉ c.rest) (hn : c.rest.length < n) :
    ∃ ts, c.tokens n = ts ++ [⟨.eof, [], c.pos + c.rest.length⟩] ∧ ts.length ≤ c.rest.length ∧
      (∀ t ∈ ts, t.kind ≠ .eof) ∧ (∀ k, c.read k = ts.getD k ⟨.eof, [], c.pos + c.rest.length⟩) ∧
      Tiles c.pos ts c.rest := by
  -- A call that gives no end token leaves fewer bytes, so the bound is enough for the calls after
  -- it.
  induction n generalizing c with
  | zero => exact absurd hn (Nat.not_lt_zero _)
  | succ n ih =>
    rw [tokens]
    rcases c.scan_spec_of_ne_zero hs with ⟨hfiller, hscan⟩ |
      ⟨gap, piece, rest, hcut, hfiller, hne, hkind, hpos, hcovers, hnext⟩
    · refine ⟨[], by simp [hscan], Nat.zero_le _, by simp, fun k => ?_, .done hfiller⟩
      cases k with
      | zero => rw [read, hscan]; rfl
      | succ k => rw [read, hscan, read_nil]; rfl
    · have hlength : c.rest.length = gap.length + piece.length + rest.length := by
        rw [hcut, List.length_append, List.length_append]
      have hpiece := List.length_pos_iff.mpr hne
      have hend : c.pos + gap.length + piece.length + rest.length = c.pos + c.rest.length := by
        omega
      obtain ⟨ts, htokens, hcount, hkinds, hread, htiles⟩ := ih (c := c.scan.2)
        (by rw [hnext]; exact fun hmem => hs (hcut ▸ List.mem_append_right _ hmem))
        (by simp only [hnext]; omega)
      simp only [hnext, hend] at htokens hcount hread htiles
      refine ⟨c.scan.1 :: ts, ?_, ?_, List.forall_mem_cons.mpr ⟨hkind, hkinds⟩, fun k => ?_, ?_⟩
      · simp [hkind, hnext, htokens]
      · rw [List.length_cons]
        omega
      · cases k with
        | zero => rfl
        | succ k => rw [read, hnext, hread]; rfl
      · rw [hcut]
        exact .token hfiller hpos hcovers htiles

end Cursor

/-- Calls of the scanner reach the end of a source after at most one call for each byte and one
more, and every later call gives the same end token. The tokens before it tile the source. -/
theorem tokens_tile (src : Bytes) (h : 0 ∉ src) :
    ∃ ts, tokens src = ts ++ [⟨.eof, [], src.length⟩] ∧ ts.length ≤ src.length ∧
      (∀ t ∈ ts, t.kind ≠ .eof) ∧ (∀ n, Cursor.read ⟨0, src⟩ n = ts.getD n ⟨.eof, [], src.length⟩) ∧
      Tiles 0 ts src := by
  have hspec := Cursor.tokens_spec (c := ⟨0, src⟩) h (Nat.lt_succ_self _)
  simp only [Nat.zero_add] at hspec
  exact hspec

/-- A glyph of two bytes, a byte that is no glyph, a block comment, a number with a lone point
behind it and a string that is not closed. -/
theorem tokens_tile_mixed :
    0 ∉ ([0xC3, 0xA9, 0xFF, 0x23, 0x23, 0x0A, 0x23, 0x23, 0x31, 0x2E, 0x22, 0x78] : Bytes) ∧
      ∃ ts, tokens [0xC3, 0xA9, 0xFF, 0x23, 0x23, 0x0A, 0x23, 0x23, 0x31, 0x2E, 0x22, 0x78] =
          ts ++ [⟨.eof, [], 12⟩] ∧ ts.length ≤ 12 ∧ (∀ t ∈ ts, t.kind ≠ .eof) ∧
        (∀ n, Cursor.read ⟨0, [0xC3, 0xA9, 0xFF, 0x23, 0x23, 0x0A, 0x23, 0x23, 0x31, 0x2E,
          0x22, 0x78]⟩ n =
          ts.getD n ⟨.eof, [], 12⟩) ∧
        Tiles 0 ts [0xC3, 0xA9, 0xFF, 0x23, 0x23, 0x0A, 0x23, 0x23, 0x31, 0x2E, 0x22, 0x78] :=
  ⟨by decide, tokens_tile _ (by decide)⟩

end Rill
