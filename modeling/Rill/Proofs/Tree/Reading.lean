import Rill.Tree.Parser

/-!
# Steps of reading

How the readers of trees move over tokens. A source ends with its only end token, so a reader that
stands at another token can always move on.

* `ParserState.Terminated`: the tokens from the current one on end with the only end token.
* `Moved s s'`: reading went from `s` to `s'`, over some tokens and past some faults.
* `Took s ts s'`: reading moved over exactly the tokens `ts`, the last of which is current now.
* `Shift s t s'`: reading moved on by the one token `t`.
* `Parse.Ensures m s Q`: if the reader `m` has a result in state `s`, then `Q` holds of it.
* `Parse.Reads m s P`: the reader `m` has a result in state `s`, it moves on, and if it meets no
  fault on the way, then `P` holds of the result, the state behind and the tokens that it took.

The rules for `Parse.Reads` follow the readers step by step: what remains to be shown of the rest of
a reader is a statement about the tokens that are still to come.
-/

namespace Rill

namespace ParserState

variable {s s' s'' : ParserState} {ts ts' : List Token}

/-- The tokens from the current one on. -/
def remaining (s : ParserState) : List Token := s.current :: s.ahead

/-- The tokens from the current one on end with the only end token. -/
def Terminated (s : ParserState) : Prop :=
  ∃ body last, s.remaining = body ++ [last] ∧ last.kind = .eof ∧ ∀ t ∈ body, t.kind ≠ .eof

/-- The state with one more fault. -/
def blame (s : ParserState) (offset : Nat) (fault : SyntaxFault) : ParserState :=
  { s with found := ⟨offset, fault⟩ :: s.found }

@[simp]
theorem remaining_blame (s : ParserState) (offset : Nat) (fault : SyntaxFault) :
    (s.blame offset fault).remaining = s.remaining := rfl

@[simp]
theorem ahead_blame (s : ParserState) (offset : Nat) (fault : SyntaxFault) :
    (s.blame offset fault).ahead = s.ahead := rfl

@[simp]
theorem length_found_blame (s : ParserState) (offset : Nat) (fault : SyntaxFault) :
    (s.blame offset fault).found.length = s.found.length + 1 := rfl

/-- Moving on finds no fault. -/
@[simp]
theorem found_advance (s : ParserState) : s.advance.found = s.found := by
  rw [advance]
  split <;> rfl

/-- What is left of a terminated state is terminated. -/
theorem Terminated.of_suffix (hs : s.Terminated) (h : s'.remaining <:+ s.remaining) :
    s'.Terminated := by
  obtain ⟨body, last, htokens, hlast, hbody⟩ := hs
  obtain ⟨before, hbefore⟩ := h
  rw [htokens] at hbefore
  -- The state keeps at least one token, so the end token is still there.
  rcases List.append_eq_append_iff.mp hbefore with ⟨mid, hmid, hrest⟩ | ⟨mid, hmid, hrest⟩
  · refine ⟨mid, last, hrest, hlast, fun t ht => hbody t ?_⟩
    rw [hmid]
    exact List.mem_append_right _ ht
  · cases mid with
    | nil => exact ⟨[], last, by simpa using hrest.symm, hlast, by simp⟩
    | cons t mid =>
      rw [List.cons_append, List.cons.injEq, List.nil_eq, List.append_eq_nil_iff] at hrest
      exact absurd hrest.2.2 (by simp [remaining])

/-- A state that is not at the end has a token ahead. -/
theorem Terminated.ahead_ne_nil (hs : s.Terminated) (h : s.current.kind ≠ .eof) : s.ahead ≠ [] := by
  intro hnil
  obtain ⟨body, last, htokens, hlast, -⟩ := hs
  rw [remaining, hnil] at htokens
  cases body with
  | nil =>
    rw [List.nil_append, List.cons.injEq] at htokens
    exact h (htokens.1 ▸ hlast)
  | cons t body => simp at htokens

/-- A state whose next token is not the end has a token ahead. -/
theorem Terminated.ahead_ne_nil_of_next (hs : s.Terminated) (h : s.next.kind ≠ .eof) :
    s.ahead ≠ [] := by
  intro hnil
  rw [next, hnil, List.headD_nil] at h
  exact hs.ahead_ne_nil h hnil

/-- The end token has nothing behind it. -/
theorem Terminated.ahead_eq_nil (hs : s.Terminated) (h : s.current.kind = .eof) : s.ahead = [] := by
  obtain ⟨body, last, htokens, -, hbody⟩ := hs
  cases body with
  | nil =>
    rw [remaining, List.nil_append, List.cons.injEq] at htokens
    exact htokens.2
  | cons t body =>
    rw [remaining, List.cons_append, List.cons.injEq] at htokens
    exact absurd (htokens.1 ▸ h) (hbody t List.mem_cons_self)

/-- A state whose next token is not the end does not stand at the end. -/
theorem Terminated.current_ne_eof (hs : s.Terminated) (h : s.next.kind ≠ .eof) :
    s.current.kind ≠ .eof := by
  intro heof
  rw [next, hs.ahead_eq_nil heof, List.headD_nil] at h
  exact h heof

/-- Moving on leaves a part of the tokens. -/
theorem remaining_advance_suffix (s : ParserState) : s.advance.remaining <:+ s.remaining := by
  rw [advance]
  split
  · exact List.suffix_refl _
  next t ts h =>
    rw [remaining, remaining, h]
    exact List.suffix_cons _ _

/-- The tokens ahead are the next one and those behind it. -/
theorem ahead_eq (h : s.ahead ≠ []) : s.ahead = s.next :: s.advance.ahead := by
  rw [next, advance]
  split
  · contradiction
  next t ts hahead => rw [hahead, List.headD_cons]

/-- After moving on the next token is the current one. -/
theorem current_advance (h : s.ahead ≠ []) : s.advance.current = s.next := by
  rw [next, advance]
  split
  · contradiction
  next t ts hahead => rw [hahead, List.headD_cons]

end ParserState

/-! ## Readers that keep no account -/

namespace Parse

variable {α : Type}

/-- The steps of reading are taken as they are. -/
theorem liftM_eq (x : Parse α) : (liftM x : Parse α) = x := rfl

/-- A call is not counted. -/
theorem call_bind (f : Unit → Parse α) : (Account.call >>= f) = f () := rfl

/-- The tokens ahead are not counted. -/
theorem tokensAhead_bind (f : Nat → Parse α) : (Account.tokensAhead >>= f) = f 0 := rfl

/-- A round is not counted. -/
theorem goOn_bind (before : Nat) (f : Unit → Parse α) : (Account.goOn before >>= f) = f () := rfl

end Parse

open ParserState

variable {s s' s'' : ParserState} {ts ts' : List Token}

/-! ## Movements -/

/-- Reading went over some tokens and past some faults. -/
structure Moved (s s' : ParserState) : Prop where
  /-- No token was put back. -/
  suffix : s'.remaining <:+ s.remaining
  /-- No fault was taken back. -/
  faults : s.found.length ≤ s'.found.length

namespace Moved

theorem refl (s : ParserState) : Moved s s := ⟨List.suffix_refl _, Nat.le_refl _⟩

/-- Movements can be made one after the other. -/
theorem trans (h : Moved s s') (h' : Moved s' s'') : Moved s s'' :=
  ⟨h'.suffix.trans h.suffix, Nat.le_trans h.faults h'.faults⟩

/-- Moving on by one token is a movement. -/
theorem advance (s : ParserState) : Moved s s.advance :=
  ⟨remaining_advance_suffix s, Nat.le_of_eq (by rw [found_advance])⟩

/-- Reporting a fault is a movement, though none over tokens. -/
theorem blame (s : ParserState) (offset : Nat) (fault : SyntaxFault) :
    Moved s (s.blame offset fault) :=
  ⟨List.suffix_refl _, by simp⟩

/-- A movement does not go beyond the end token. -/
theorem terminated (h : Moved s s') (hs : s.Terminated) : s'.Terminated := hs.of_suffix h.suffix

/-- A movement leaves no more tokens ahead than there were. -/
theorem length_le (h : Moved s s') : s'.ahead.length ≤ s.ahead.length := by
  have := h.suffix.length_le
  simp only [remaining, List.length_cons] at this
  omega

end Moved

/-- Reading took exactly the tokens `ts`. -/
structure Took (s : ParserState) (ts : List Token) (s' : ParserState) : Prop where
  /-- The tokens came next. -/
  ahead : s.ahead = ts ++ s'.ahead
  /-- The last of them is current now. -/
  current : s'.current = ts.getLastD s.current

namespace Took

theorem refl (s : ParserState) : Took s [] s := ⟨rfl, rfl⟩

/-- The tokens of two readers, one behind the other. -/
theorem trans (h : Took s ts s') (h' : Took s' ts' s'') : Took s (ts ++ ts') s'' := by
  refine ⟨by rw [h.ahead, h'.ahead, List.append_assoc], ?_⟩
  rw [h'.current, h.current]
  cases ts' with
  | nil => simp
  | cons t ts' => simp [List.getLastD_eq_getLast?, List.getLast?_append]

end Took

/-- Reading moved on by one token. -/
structure Shift (s : ParserState) (t : Token) (s' : ParserState) : Prop where
  /-- The token came next. -/
  ahead : s.ahead = t :: s'.ahead
  /-- It is current now. -/
  current : s'.current = t
  /-- There was no fault. -/
  found : s'.found = s.found
  /-- The end is still to come. -/
  terminated : s'.Terminated

namespace Shift

variable {t : Token}

/-- From a token that is not the last one, reading can move on by one token. -/
theorem advance (hs : s.Terminated) (h : s.ahead ≠ []) : Shift s s.next s.advance :=
  ⟨ahead_eq h, current_advance h, found_advance s, hs.of_suffix (remaining_advance_suffix s)⟩

theorem took (h : Shift s t s') : Took s [t] s' := ⟨h.ahead, h.current⟩

/-- The token that was moved to was the next one before. -/
theorem next_eq (h : Shift s t s') : s.next = s'.current := by
  rw [ParserState.next, h.ahead, h.current, List.headD_cons]

/-- Moving on by one token is a movement. -/
theorem moved (h : Shift s t s') : Moved s s' := by
  refine ⟨?_, Nat.le_of_eq (by rw [h.found])⟩
  rw [remaining, remaining, h.ahead, h.current]
  exact List.suffix_cons _ _

/-- Moving on by one token takes one of the tokens ahead. -/
theorem length_eq (h : Shift s t s') : s.ahead.length = s'.ahead.length + 1 := by
  rw [h.ahead, List.length_cons]

end Shift

/-! ## Single steps -/

namespace Parse

/-- What `expect` does, with the state written out. -/
private theorem expect_eq (wanted : TokenKind) (s : ParserState) :
    expect wanted s =
      if s.next.kind = wanted then some (true, s.advance)
      else some (false, s.blame s.next.pos (.expected wanted s.next.kind)) := by
  show (if s.next.kind = wanted then (do advance; return true) else
    (do report s.next.pos (.expected wanted s.next.kind); return false) : Parse Bool) s = _
  split <;> rfl

/-- A wanted token that comes next is moved to. -/
theorem expect_of_kind_eq {wanted : TokenKind} (h : s.next.kind = wanted) :
    expect wanted s = some (true, s.advance) := by
  rw [expect_eq, if_pos h]

/-- A wanted token that does not come next is a fault at the token that does. -/
theorem expect_of_kind_ne {wanted : TokenKind} (h : s.next.kind ≠ wanted) :
    expect wanted s = some (false, s.blame s.next.pos (.expected wanted s.next.kind)) := by
  rw [expect_eq, if_neg h]

/-- A semicolon is moved over if it comes next, and nothing else is. -/
theorem skipSemicolon_eq (s : ParserState) :
    skipSemicolon s = some ((), if s.next.kind = .semicolon then s.advance else s) := by
  show (if s.next.kind = .semicolon then advance else pure () : Parse Unit) s = _
  split <;> rfl

end Parse

/-! ## What holds behind a reader -/

namespace Parse

variable {α β : Type} {m : Parse α} {f : α → Parse β} {P : α → ParserState → Prop}
  {Q : β → ParserState → Prop}

/-- A reader in front of others gives a result where all of them do. -/
theorem exists_of_bind {r : β × ParserState} (hrun : (m >>= f) s = some r) :
    ∃ a s', m s = some (a, s') ∧ f a s' = some r := by
  have hrun : ((m s).bind fun first => f first.1 first.2) = some r := hrun
  obtain ⟨⟨a, s'⟩, hfirst, hrest⟩ := Option.bind_eq_some_iff.mp hrun
  exact ⟨a, s', hfirst, hrest⟩

/-- What holds of the result of a reader and the state behind it. -/
def Ensures (m : Parse α) (s : ParserState) (Q : α → ParserState → Prop) : Prop :=
  ∀ a s', m s = some (a, s') → Q a s'

namespace Ensures

/-- A result that is as it should be is ensured without a step. -/
theorem pure {b : β} (h : Q b s) : (pure b : Parse β).Ensures s Q := by
  rintro b' s' ⟨⟩
  exact h

theorem exhausted : (Parse.exhausted : Parse β).Ensures s Q := fun _ _ h => by cases h

/-- What the second step ensures may depend on what the first one ensured. -/
theorem bind (hm : m.Ensures s P) (hf : ∀ a s', P a s' → (f a).Ensures s' Q) :
    (m >>= f).Ensures s Q := by
  intro b s'' hrun
  obtain ⟨a, s', hfirst, hrest⟩ := exists_of_bind hrun
  exact hf a s' (hm a s' hfirst) b s'' hrest

/-- What is ensured of the function of a result. -/
theorem map {g : α → β} (h : m.Ensures s fun a s' => Q (g a) s') : (g <$> m).Ensures s Q := by
  intro b s' hrun
  simp only [Functor.map, StateT.map] at hrun
  cases hfirst : m s with
  | none =>
    rw [hfirst] at hrun
    cases hrun
  | some r =>
    rw [hfirst] at hrun
    cases hrun
    exact h _ _ hfirst

/-- A weaker statement is ensured where a stronger one is. -/
theorem imp {Q' : β → ParserState → Prop} {m : Parse β} (h : m.Ensures s Q)
    (himp : ∀ b s', Q b s' → Q' b s') : m.Ensures s Q' :=
  fun b s' hrun => himp b s' (h b s' hrun)

theorem current_bind {f : Token → Parse β} (h : (f s.current).Ensures s Q) :
    (current >>= f).Ensures s Q := h

theorem next_bind {f : Token → Parse β} (h : (f s.next).Ensures s Q) : (next >>= f).Ensures s Q := h

end Ensures

end Parse

/-! ## Readers with a result -/

namespace Parse

variable {α β : Type} {m : Parse α} {f : α → Parse β} {a : α}
  {P : α → ParserState → List Token → Prop} {Q : β → ParserState → List Token → Prop}

/-- The reader has a result, and if it meets no fault, then `P` holds of the result, the state
behind it and the tokens that it took. -/
def Reads (m : Parse α) (s : ParserState) (P : α → ParserState → List Token → Prop) : Prop :=
  ∃ a s', m s = some (a, s') ∧ Moved s s' ∧
    (s'.found.length = s.found.length → ∃ ts, Took s ts s' ∧ P a s' ts)

namespace Reads

/-- A reader reads as a weaker statement says where it reads as a stronger one says. -/
theorem imp {P' : α → ParserState → List Token → Prop} (h : m.Reads s P)
    (himp : ∀ a s' ts, P a s' ts → P' a s' ts) : m.Reads s P' := by
  obtain ⟨a, s', hrun, hmoved, hclean⟩ := h
  refine ⟨a, s', hrun, hmoved, fun h => ?_⟩
  obtain ⟨ts, htook, hP⟩ := hclean h
  exact ⟨ts, htook, himp a s' ts hP⟩

/-- A result without a step takes no token. -/
theorem pure (h : P a s []) : (pure a : Parse α).Reads s P :=
  ⟨a, s, rfl, Moved.refl s, fun _ => ⟨[], Took.refl s, h⟩⟩

/-- After a first reader the rest has to do for all tokens that the first one may have taken. -/
theorem bind_of_run (hs : s.Terminated) (hm : m.Reads s P)
    (hf : ∀ a s', m s = some (a, s') → s'.Terminated → s'.ahead.length ≤ s.ahead.length →
      (f a).Reads s' fun b s'' ts' => ∀ ts, P a s' ts → Q b s'' (ts ++ ts')) :
    (m >>= f).Reads s Q := by
  obtain ⟨a, s', hrun, hmoved, hclean⟩ := hm
  obtain ⟨b, s'', hrun', hmoved', hclean'⟩ := hf a s' hrun (hmoved.terminated hs) hmoved.length_le
  refine ⟨b, s'', ?_, hmoved.trans hmoved', fun h => ?_⟩
  · simp only [Bind.bind, StateT.bind, hrun]
    exact hrun'
  · -- Faults are never taken back, so neither part met one.
    have h1 := hmoved.faults
    have h2 := hmoved'.faults
    obtain ⟨ts, htook, hP⟩ := hclean (by omega)
    obtain ⟨ts', htook', hQ⟩ := hclean' (by omega)
    exact ⟨ts ++ ts', htook.trans htook', hQ ts hP⟩

/-- The tokens of two steps are those of the first one and those of the second one behind them.
Neither goes beyond the end token. -/
theorem bind (hs : s.Terminated) (hm : m.Reads s P)
    (hf : ∀ a s', s'.Terminated → s'.ahead.length ≤ s.ahead.length →
      (f a).Reads s' fun b s'' ts' => ∀ ts, P a s' ts → Q b s'' (ts ++ ts')) :
    (m >>= f).Reads s Q :=
  bind_of_run hs hm fun a s' _ => hf a s'

/-- What is read of the function of a result. -/
theorem map {g : α → β} (h : m.Reads s fun a s' ts => Q (g a) s' ts) : (g <$> m).Reads s Q := by
  obtain ⟨a, s', hrun, hmoved, hclean⟩ := h
  refine ⟨g a, s', ?_, hmoved, hclean⟩
  simp only [Functor.map, StateT.map, hrun]
  rfl

theorem current_bind {f : Token → Parse β} (h : (f s.current).Reads s Q) :
    (current >>= f).Reads s Q := h

theorem next_bind {f : Token → Parse β} (h : (f s.next).Reads s Q) : (next >>= f).Reads s Q := h

/-- A fault ends all claims about tokens. -/
theorem report_pure {offset : Nat} {fault : SyntaxFault} {b : β} :
    (report offset fault >>= fun _ => Pure.pure b).Reads s Q :=
  ⟨b, s.blame offset fault, rfl, Moved.blame s offset fault, fun h => by simp at h⟩

/-- A reader behind a movement by one token. -/
theorem of_shift {t : Token} (hshift : Shift s t s') {m : Parse β}
    (h : m.Reads s' fun b s'' ts => Q b s'' (t :: ts)) :
    ∃ b s'', m s' = some (b, s'') ∧ Moved s s'' ∧
      (s''.found.length = s.found.length → ∃ ts, Took s ts s'' ∧ Q b s'' ts) := by
  obtain ⟨b, s'', hrun, hmoved, hclean⟩ := h
  refine ⟨b, s'', hrun, hshift.moved.trans hmoved, fun h => ?_⟩
  obtain ⟨ts, htook, hQ⟩ := hclean (by rw [h, hshift.found])
  exact ⟨t :: ts, hshift.took.trans htook, hQ⟩

/-- Moving on takes the next token. Where it could not, because the source is at its end, there must
be nothing to show. -/
theorem advance_bind {f : Unit → Parse β} (hs : s.Terminated)
    (hend : s.current.kind = .eof → (f ()).Reads s Q)
    (h : ∀ t s', Shift s t s' → s.next = t → (f ()).Reads s' fun b s'' ts => Q b s'' (t :: ts)) :
    (advance >>= f).Reads s Q := by
  by_cases hahead : s.ahead = []
  · have hcurrent : s.current.kind = .eof := by
      by_cases heof : s.current.kind = .eof
      · exact heof
      · exact absurd hahead (hs.ahead_ne_nil heof)
    have hsame : s.advance = s := by
      rw [ParserState.advance, hahead]
    obtain ⟨b, s'', hrun, hrest⟩ := hend hcurrent
    refine ⟨b, s'', ?_, hrest⟩
    show f () s.advance = _
    rw [hsame, hrun]
  · exact of_shift (Shift.advance hs hahead) (h _ _ (Shift.advance hs hahead) rfl)

/-- Moving on from a token that is not the end. -/
theorem advance_bind_of_ne {f : Unit → Parse β} (hs : s.Terminated)
    (hcurrent : s.current.kind ≠ .eof)
    (h : ∀ t s', Shift s t s' → s.next = t → (f ()).Reads s' fun b s'' ts => Q b s'' (t :: ts)) :
    (advance >>= f).Reads s Q :=
  advance_bind hs (fun heof => absurd heof hcurrent) h

/-- Moving on to a token that is not the end. -/
theorem advance_bind_of_next {f : Unit → Parse β} (hs : s.Terminated) (hnext : s.next.kind ≠ .eof)
    (h : ∀ t s', Shift s t s' → s.next = t → (f ()).Reads s' fun b s'' ts => Q b s'' (t :: ts)) :
    (advance >>= f).Reads s Q :=
  advance_bind_of_ne hs (hs.current_ne_eof hnext) h

/-- A token without which reading gives up with the result `x`. -/
theorem demand {wanted : TokenKind} {x : β} {rest : Parse β} (hs : s.Terminated)
    (hwanted : wanted ≠ .eof)
    (h : ∀ t s', Shift s t s' → t.kind = wanted → rest.Reads s' fun b s'' ts => Q b s'' (t :: ts)) :
    (expect wanted >>= fun b => if (!b) = true then Pure.pure x else rest).Reads s Q := by
  by_cases hkind : s.next.kind = wanted
  · have hshift := Shift.advance hs (hs.ahead_ne_nil_of_next (hkind ▸ hwanted))
    obtain ⟨b, s'', hrun, hrest⟩ := of_shift hshift (h _ _ hshift hkind)
    refine ⟨b, s'', ?_, hrest⟩
    simp only [Bind.bind, StateT.bind, expect_of_kind_eq hkind]
    exact hrun
  · -- The fault is recorded, so there is no claim about tokens.
    refine ⟨x, _, ?_, Moved.blame s s.next.pos (.expected wanted s.next.kind),
      fun h => by simp at h⟩
    simp only [Bind.bind, StateT.bind, expect_of_kind_ne hkind]
    rfl

/-- A token that decides how reading ends. -/
theorem demand_last {wanted : TokenKind} {x y : β} (hs : s.Terminated) (hwanted : wanted ≠ .eof)
    (h : ∀ t s', Shift s t s' → t.kind = wanted → Q y s' [t]) :
    (expect wanted >>= fun b => if b = true then Pure.pure y else Pure.pure x).Reads s Q := by
  -- The branches are the other way round than where reading goes on.
  have hsame : (fun b : Bool => if b = true then Pure.pure y else Pure.pure x : Bool → Parse β) =
      fun b => if (!b) = true then Pure.pure x else Pure.pure y := by
    funext b
    cases b <;> rfl
  rw [hsame]
  exact demand hs hwanted fun t s' hs' ht => .pure (h t s' hs' ht)

/-- Where reading does not give up, the demanded token is taken. -/
theorem demand_lt {wanted : TokenKind} {x : β} {rest : Parse β} (hs : s.Terminated)
    (hwanted : wanted ≠ .eof)
    (h : ∀ t s', Shift s t s' → t.kind = wanted → rest.Reads s' fun b s'' ts => Q b s'' (t :: ts)) :
    (expect wanted >>= fun b => if (!b) = true then Pure.pure x else rest).Reads s Q ∧
      ∀ b s', (expect wanted >>= fun b => if (!b) = true then Pure.pure x else rest) s =
        some (b, s') →
        b = x ∨ s'.ahead.length < s.ahead.length := by
  refine ⟨demand hs hwanted h, fun b s' hrun => ?_⟩
  by_cases hkind : s.next.kind = wanted
  · have hshift := Shift.advance hs (hs.ahead_ne_nil_of_next (hkind ▸ hwanted))
    obtain ⟨b', s'', hrest, hmoved, -⟩ := h _ _ hshift hkind
    simp only [Bind.bind, StateT.bind, expect_of_kind_eq hkind] at hrun
    have hsame : some (b', s'') = some (b, s') := hrest.symm.trans hrun
    -- The run of the rest that is known to read is the one at hand.
    cases hsame
    have h1 := hmoved.length_le
    have h2 := hshift.length_eq
    exact .inr (by omega)
  · simp only [Bind.bind, StateT.bind, expect_of_kind_ne hkind] at hrun
    cases hrun
    exact .inl rfl

/-- At most one semicolon is taken. -/
theorem skipSemicolon_bind {f : Unit → Parse β} (hs : s.Terminated)
    (hnone : s.next.kind ≠ .semicolon → (f ()).Reads s Q)
    (hone : ∀ t s', Shift s t s' → t.kind = .semicolon →
      (f ()).Reads s' fun b s'' ts => Q b s'' (t :: ts)) :
    (skipSemicolon >>= f).Reads s Q := by
  by_cases hkind : s.next.kind = .semicolon
  · have hshift := Shift.advance hs (hs.ahead_ne_nil_of_next (by simp [hkind]))
    obtain ⟨b, s'', hrun, hrest⟩ := of_shift hshift (hone _ _ hshift hkind)
    refine ⟨b, s'', ?_, hrest⟩
    simp only [Bind.bind, StateT.bind, skipSemicolon_eq, if_pos hkind]
    exact hrun
  · obtain ⟨b, s'', hrun, hrest⟩ := hnone hkind
    refine ⟨b, s'', ?_, hrest⟩
    simp only [Bind.bind, StateT.bind, skipSemicolon_eq, if_neg hkind]
    exact hrun

end Reads

end Parse

end Rill
