import Rill.Proofs.Tree.Derivation

/-!
# Chains of operators

Expressions without parentheses: operands with infix operators between them. The reader decides at
each operator, from its strength alone, whether it belongs to the operand before it. The tree that
comes out can be said without the reader: its root is the loosest operator, the rightmost one if
there are several.

* `Operand`: prefix operators before a name, a text, a truth value or a whole number.
* `Link`: an infix operator and the operand behind it. `Chain` is an operand with links behind it.
* `divide`: the rightmost of the loosest operators of a chain, and the links before and behind it.
* `tree`: the tree whose root is that operator (`tree_append`). An operator takes the links that
  bind more tightly than it does as its right operand (`tree_cons`), and so does the reader
  (`operators_links`).
* `Chain.expression_eq_tree`: what is read over a chain is its tree.
-/

namespace Rill

/-! ## Chains -/

/-- The expression that a token is by itself. A whole number has to fit in 64 bits. -/
def Token.atom? (t : Token) : Option Expr :=
  match t.kind with
  | .ident => some (.ident ⟨t.pos, t.literal⟩)
  | .string => some (.string t.pos t.literal)
  | .true_ => some (.boolean t.pos true)
  | .false_ => some (.boolean t.pos false)
  | .int =>
    if Bytes.toNat t.literal < 0x8000000000000000 then
      some (.integer t.pos t.literal (Int64.ofNat (Bytes.toNat t.literal)))
    else none
  | _ => none

/-- A prefix operator where it stands. -/
structure Sign where
  token : Token
  op : PrefixOp
  kind_eq : token.kind = op.kind

/-- Prefix operators before a token that is an expression by itself. -/
structure Operand where
  signs : List Sign
  token : Token
  atom : Expr
  atom_eq : token.atom? = some atom

/-- An infix operator where it stands, and the operand behind it. -/
structure Link where
  token : Token
  op : InfixOp
  operand : Operand
  kind_eq : token.kind = op.kind
  ne_member : op ≠ .member

/-- Operands with infix operators between them. -/
structure Chain where
  first : Operand
  links : List Link

/-- Every prefix operator applies to all that follows it up to the atom. -/
def Operand.expr (o : Operand) : Expr :=
  o.signs.foldr (fun sign e => .prefixed sign.token.pos sign.op e) o.atom

/-- The tokens of an operand. -/
def Operand.tokens (o : Operand) : List Token := o.signs.map Sign.token ++ [o.token]

namespace Link

/-- The place of an operator in the order of strengths. -/
def rank (l : Link) : Nat := l.op.strength.rank

/-- The tokens of an operator and the operand behind it. -/
def tokens (l : Link) : List Token := l.token :: l.operand.tokens

/-- The expression that an operator makes of its operands. -/
def join (l : Link) (left right : Expr) : Expr := .infixed l.token.pos l.op left right

end Link

/-- The tokens of a chain. -/
def Chain.tokens (c : Chain) : List Token := c.first.tokens ++ c.links.flatMap Link.tokens

/-- The last token of links behind an operand that ends with `t`. -/
def lastToken (t : Token) : List Link → Token
  | [] => t
  | l :: ls => lastToken l.operand.token ls

/-- The last token of a chain. -/
def Chain.last (c : Chain) : Token := lastToken c.first.token c.links

/-! ## The tree of a chain -/

/-- One link, and those before and behind it. -/
structure Division where
  before : List Link
  root : Link
  after : List Link

/-- Divides links at the rightmost of the loosest operators. -/
def divide (l : Link) : List Link → Division
  | [] => ⟨[], l, []⟩
  | k :: ks =>
    let rest := divide k ks
    if l.rank < rest.root.rank then ⟨[], l, k :: ks⟩ else ⟨l :: rest.before, rest.root, rest.after⟩

/-- What makes a division one at the rightmost of the loosest operators. -/
structure Division.Divides (c : Division) (links : List Link) : Prop where
  links_eq : links = c.before ++ c.root :: c.after
  before_ge : ∀ l ∈ c.before, c.root.rank ≤ l.rank
  after_gt : ∀ l ∈ c.after, c.root.rank < l.rank

/-- A chain is divided at a link of its own: no link is weaker, and those behind it are stronger. -/
theorem divides_divide (l : Link) (ls : List Link) : (divide l ls).Divides (l :: ls) := by
  induction ls generalizing l with
  | nil => exact ⟨rfl, List.forall_mem_nil _, List.forall_mem_nil _⟩
  | cons k ks ih =>
    obtain ⟨hlinks, hbefore, hafter⟩ := ih k
    rw [divide]
    split
    next hlt =>
      -- The first operator is looser than the loosest of the others.
      refine ⟨rfl, List.forall_mem_nil _, fun j hj => ?_⟩
      rw [hlinks] at hj
      rcases List.mem_append.mp hj with hj | hj
      · exact Nat.lt_of_lt_of_le hlt (hbefore j hj)
      · rcases List.mem_cons.mp hj with rfl | hj
        · exact hlt
        · exact Nat.lt_trans hlt (hafter j hj)
    next hge =>
      exact ⟨congrArg (l :: ·) hlinks,
        List.forall_mem_cons.mpr ⟨Nat.not_lt.mp hge, hbefore⟩, hafter⟩

/-- There is one place to divide links at. -/
theorem Division.Divides.unique {c c' : Division} {links : List Link} (h : c.Divides links)
    (h' : c'.Divides links) :
    c = c' := by
  obtain ⟨before, root, after⟩ := c
  obtain ⟨before', root', after'⟩ := c'
  obtain ⟨hlinks, hbefore, hafter⟩ := h
  obtain ⟨hlinks', hbefore', hafter'⟩ := h'
  dsimp only at *
  -- If one root stood before the other, each would be looser than the other.
  rcases List.append_eq_append_iff.mp (hlinks.symm.trans hlinks') with ⟨mid, hpre,
    hsuf⟩ | ⟨mid, hpre, hsuf⟩
  · cases mid with
    | nil =>
      rw [List.append_nil] at hpre
      cases hsuf
      rw [hpre]
    | cons m mid =>
      obtain ⟨rfl, rfl⟩ := List.cons.inj hsuf
      have hle := hbefore' root (by simp [hpre])
      have hlt := hafter root' (by simp)
      omega
  · cases mid with
    | nil =>
      rw [List.append_nil] at hpre
      cases hsuf
      rw [hpre]
    | cons m mid =>
      obtain ⟨rfl, rfl⟩ := List.cons.inj hsuf
      have hle := hbefore root' (by simp [hpre])
      have hlt := hafter' root (by simp)
      omega

/-- Both parts of a divided chain are shorter than the chain. -/
theorem length_divide_lt (l : Link) (ls : List Link) :
    (divide l ls).before.length < (l :: ls).length ∧
      (divide l ls).after.length < (l :: ls).length := by
  have h := congrArg List.length (divides_divide l ls).links_eq
  rw [List.length_append, List.length_cons, List.length_cons] at h
  rw [List.length_cons]
  omega

/-- The tree of links behind an expression. Its root is the rightmost of the loosest operators. -/
def tree (left : Expr) : List Link → Expr
  | [] => left
  | l :: ls =>
    let c := divide l ls
    c.root.join (tree left c.before) (tree c.root.operand.expr c.after)
termination_by links => links.length
decreasing_by
  · exact (length_divide_lt l ls).1
  · exact (length_divide_lt l ls).2

/-- The tree of a chain. -/
def Chain.tree (c : Chain) : Expr := Rill.tree c.first.expr c.links

variable {left : Expr} {l m : Link} {before after inner outer : List Link}

theorem tree_nil (left : Expr) : tree left [] = left := by rw [tree]

/-- The tree of a chain joins the trees of its two parts at the last of the weakest links. -/
theorem tree_append (hbefore : ∀ l ∈ before, m.rank ≤ l.rank)
    (hafter : ∀ l ∈ after, m.rank < l.rank) :
    tree left (before ++ m :: after) = m.join (tree left before) (tree m.operand.expr after) := by
  obtain ⟨l, ls, hlinks⟩ := List.exists_cons_of_ne_nil (List.append_ne_nil_of_right_ne_nil before
    (List.cons_ne_nil m after))
  have hdivide : divide l ls = ⟨before, m, after⟩ :=
    (divides_divide l ls).unique ⟨hlinks.symm, hbefore, hafter⟩
  rw [hlinks, tree, hdivide]

/-- An operator takes the links that bind more tightly as its right operand. The next one takes what
that gives as its left operand. -/
theorem tree_cons (hinner : ∀ k ∈ inner, l.rank < k.rank)
    (houter : ∀ k ∈ outer.head?, k.rank ≤ l.rank) :
    tree left (l :: (inner ++ outer)) = tree (l.join left (tree l.operand.expr inner)) outer := by
  -- The root of all is the root of the links that are left over, so the induction is on those.
  induction hlength : outer.length using Nat.strongRecOn generalizing outer with
  | ind length ih =>
    cases outer with
    | nil =>
      rw [List.append_nil, tree_nil, ← List.nil_append (l :: inner),
        tree_append (List.forall_mem_nil _) hinner, tree_nil]
    | cons k ks =>
      obtain ⟨hlinks, hbefore, hafter⟩ := divides_divide k ks
      generalize divide k ks = c at hlinks hbefore hafter
      obtain ⟨before, m, after⟩ := c
      dsimp only at hlinks hbefore hafter
      have hk : k.rank ≤ l.rank := houter k rfl
      have hm : m.rank ≤ k.rank := by
        cases before with
        | nil =>
          obtain ⟨rfl, -⟩ := List.cons.inj hlinks
          exact Nat.le_refl _
        | cons j before =>
          obtain ⟨rfl, -⟩ := List.cons.inj hlinks
          exact hbefore k List.mem_cons_self
      have hhead : ∀ j ∈ before.head?, j.rank ≤ l.rank := by
        cases before with
        | nil =>
          intro j hj
          cases hj
        | cons j before =>
          obtain ⟨rfl, -⟩ := List.cons.inj hlinks
          exact houter
      have hprevious : ∀ j ∈ l :: (inner ++ before), m.rank ≤ j.rank := by
        intro j hj
        rcases List.mem_cons.mp hj with rfl | hj
        · omega
        · rcases List.mem_append.mp hj with hj | hj
          · have := hinner j hj
            omega
          · exact hbefore j hj
      have hshorter : before.length < length := by
        rw [← hlength, hlinks, List.length_append, List.length_cons]
        omega
      calc tree left (l :: (inner ++ k :: ks))
          = tree left (l :: (inner ++ before) ++ m :: after) := by
            rw [hlinks, List.cons_append, List.append_assoc]
        _ = m.join (tree left (l :: (inner ++ before))) (tree m.operand.expr after) :=
            tree_append hprevious hafter
        _ = m.join (tree (l.join left (tree l.operand.expr inner)) before)
          (tree m.operand.expr after) := by
            rw [ih _ hshorter hhead rfl]
        _ = tree (l.join left (tree l.operand.expr inner)) (k :: ks) := by
            rw [hlinks, tree_append hbefore hafter]

/-! ## Reading a chain -/

/-- The first token is no operator that binds more tightly than `p`. -/
def Strength.Stops (p : Strength) (ts : List Token) : Prop :=
  ∃ t tail, ts = t :: tail ∧ t.kind.strength.rank ≤ p.rank

/-- What stops a weak operator stops a stronger one. -/
theorem Strength.Stops.mono {p q : Strength} {ts : List Token} (h : p.Stops ts)
    (hpq : p.rank ≤ q.rank) :
    q.Stops ts := by
  obtain ⟨t, tail, rfl, ht⟩ := h
  exact ⟨t, tail, rfl, Nat.le_trans ht hpq⟩

/-- Infix operators bind less tightly than prefix operators. -/
theorem Link.rank_lt (l : Link) : l.rank < Strength.prefixed.rank := by
  have hne := l.ne_member
  rw [rank]
  generalize l.op = op at hne
  cases op with
  | member => exact absurd rfl hne
  | _ => decide

namespace Grammar

open Parse

variable {g : Grammar Parse} {n d : Nat} {p : Strength} {c t : Token} {ts rest : List Token}
  {found : List Diagnostic}

/-- Where the next token is too weak no operator is read. -/
theorem operators_of_stops (h : p.Stops ts) :
    g.operators d p (n + 1) left ⟨c, ts, found⟩ = some (left, ⟨c, ts, found⟩) := by
  obtain ⟨t, tail, rfl, ht⟩ := h
  have hif : ¬ p.rank < t.kind.strength.rank := Nat.not_lt.mpr ht
  show (if p.rank < t.kind.strength.rank then _ else _ : Parse Expr) _ = _
  rw [if_neg hif]
  rfl

/-- An operator that binds tightly enough is joined with the expression behind it. -/
theorem operators_of_link {right : Expr} {s : ParserState} (hp : p.rank < l.rank)
    (hright : g.expression l.op.strength ⟨t, ts, found⟩ = some (right, s)) :
    g.operators d p (n + 1) left ⟨c, l.token :: t :: ts, found⟩ =
      g.operators d p n (l.join left right) s := by
  have hif : p.rank < l.token.kind.strength.rank := by rwa [l.kind_eq, InfixOp.strength_kind]
  have hextend : g.extend d l.token left ⟨l.token, t :: ts, found⟩ =
    some (l.join left right, s) := by
    rw [extend, l.kind_eq, InfixOp.ofKind?_kind]
    show (g.expression l.op.strength >>= fun r => pure (l.join left r)) ⟨t, ts, found⟩ = _
    simp only [Bind.bind, StateT.bind, hright]
    rfl
  show (if p.rank < l.token.kind.strength.rank then _ else _ : Parse Expr) _ = _
  rw [if_pos hif]
  show (g.extend d l.token left >>= g.operators d p n) ⟨l.token, t :: ts, found⟩ = _
  simp only [Bind.bind, StateT.bind, hextend]
  rfl

/-- A token that is an expression by itself. -/
theorem operand_of_atom {atom : Expr} (h : t.atom? = some atom) (s : ParserState) :
    g.operand n t s = some (some atom, s) := by
  rw [Token.atom?] at h
  split at h
  case h_5 hkind =>
    split at h
    next hlt =>
      rw [operand, hkind, ← Option.some.inj h]
      simp only [integer, if_pos hlt]
      rfl
    next => cases h
  case h_6 => cases h
  all_goals
    next hkind =>
      rw [operand, hkind, ← Option.some.inj h]
      rfl

/-- A prefix operator and the expression behind it. -/
theorem operand_of_sign {e : Expr} {s : ParserState} (sign : Sign)
    (h : g.expression .prefixed ⟨t, ts, found⟩ = some (e, s)) :
    g.operand n sign.token ⟨sign.token, t :: ts, found⟩ =
      some (some (.prefixed sign.token.pos sign.op e), s) := by
  obtain ⟨token, op, hkind⟩ := sign
  dsimp only at hkind ⊢
  have hexpr : (g.expression .prefixed >>= fun e => pure (some (Expr.prefixed token.pos op e)))
    ⟨t, ts, found⟩ =
      some (some (.prefixed token.pos op e), s) := by
    simp only [Bind.bind, StateT.bind, h]
    rfl
  cases op with
  | not | negate =>
    rw [operand, hkind]
    exact hexpr

/-- An expression is its operand and the operators behind it. -/
theorem expression_of_operand {e : Expr} {s : ParserState}
    (h : (grammar n).operand n c ⟨c, ts, found⟩ = some (some e, s)) :
    (grammar (n + 1)).expression p ⟨c, ts, found⟩ = (grammar n).operators n p n e s := by
  show (grammar n).expressionStep n p ⟨c, ts, found⟩ = _
  have hcurrent : current ⟨c, ts, found⟩ = some (c, ⟨c, ts, found⟩) := rfl
  simp only [expressionStep, call_bind, liftM_eq]
  simp only [Bind.bind, StateT.bind, hcurrent, Option.bind_some, h]

/-- Prefix operators apply to the atom behind them, because what follows it does not bind tightly
enough. -/
theorem operand_of_signs {atom : Expr} (ht : t.atom? = some atom) (signs : List Sign)
    (hrest : Strength.prefixed.Stops rest) (hn : signs.length < n)
    (hts : signs.map Sign.token ++ t :: rest = c :: ts) :
    (grammar n).operand n c ⟨c, ts, found⟩ =
      some (some (signs.foldr (fun sign e => .prefixed sign.token.pos sign.op e) atom),
        ⟨t, rest, found⟩) := by
  induction signs generalizing n c ts with
  | nil =>
    cases hts
    exact operand_of_atom ht _
  | cons sign signs ih =>
    -- A sign takes one level of the grammar, and what stands behind the last one another.
    obtain ⟨n, rfl⟩ : ∃ k, n = k + 2 := ⟨n - 2, by rw [List.length_cons] at hn; omega⟩
    obtain ⟨rfl, rfl⟩ := List.cons.inj hts
    obtain ⟨c, ts, hts⟩ : ∃ c ts, signs.map Sign.token ++ t :: rest = c :: ts :=
      List.exists_cons_of_ne_nil (by simp)
    have hoperand := ih (n := n + 1) (by rw [List.length_cons] at hn; omega) hts
    rw [List.append_eq, hts]
    exact operand_of_sign sign ((expression_of_operand hoperand).trans (operators_of_stops hrest))

/-- An operand of a chain is read as an operand, with its tokens. -/
theorem operand_of_operand (o : Operand) (hrest : Strength.prefixed.Stops rest)
    (hn : o.tokens.length ≤ n) (hts : o.tokens ++ rest = c :: ts) :
    (grammar n).operand n c ⟨c, ts, found⟩ = some (some o.expr, ⟨o.token, rest, found⟩) := by
  rw [Operand.tokens, List.length_append, List.length_map, List.length_singleton] at hn
  rw [Operand.tokens, List.append_assoc] at hts
  exact operand_of_signs o.atom_eq o.signs hrest hn hts

/-- The links that bind more tightly than `l` and come next, and those behind them. -/
theorem exists_tighter (l : Link) (ls : List Link) : ∃ inner outer, ls = inner ++ outer ∧
    (∀ k ∈ inner, l.rank < k.rank) ∧ ∀ k ∈ outer.head?, k.rank ≤ l.rank := by
  induction ls with
  | nil => exact ⟨[], [], rfl, List.forall_mem_nil _, fun _ h => by cases h⟩
  | cons k ks ih =>
    by_cases hk : l.rank < k.rank
    · obtain ⟨inner, outer, rfl, hinner, houter⟩ := ih
      exact ⟨k :: inner, outer, rfl, List.forall_mem_cons.mpr ⟨hk, hinner⟩, houter⟩
    · refine ⟨[], k :: ks, rfl, List.forall_mem_nil _, fun j hj => ?_⟩
      cases hj
      exact Nat.not_lt.mp hk

/-- What stands behind the links that bind more tightly than `l`. -/
theorem stops_outer (hp : p.rank < l.rank) (hrest : p.Stops rest)
    (houter : ∀ k ∈ outer.head?, k.rank ≤ l.rank) :
    l.op.strength.Stops (outer.flatMap Link.tokens ++ rest) := by
  cases outer with
  | nil => exact hrest.mono (Nat.le_of_lt hp)
  | cons k ks =>
    refine ⟨k.token, _, rfl, ?_⟩
    rw [k.kind_eq, InfixOp.strength_kind]
    exact houter k rfl

/-- The last token of two chains in a row is that of the second one behind the first one. -/
theorem lastToken_append (t : Token) (inner outer : List Link) :
    lastToken t (inner ++ outer) = lastToken (lastToken t inner) outer := by
  induction inner generalizing t with
  | nil => rfl
  | cons l inner ih => exact ih _

/-- What expressions of nesting `n` are read as. -/
def ReadsChains (n : Nat) : Prop :=
  ∀ (p : Strength) (o : Operand) (links : List Link) (s : ParserState) (rest : List Token),
    s.remaining = o.tokens ++ links.flatMap Link.tokens ++ rest → (∀ l ∈ links, p.rank < l.rank) →
      p.Stops rest →
    p.rank ≤ Strength.prefixed.rank → (o.tokens ++ links.flatMap Link.tokens).length < n →
    (grammar n).expression p s = some (tree o.expr links, ⟨lastToken o.token links, rest, s.found⟩)

/-- The operators behind an expression, if those between them are read as they should. -/
theorem operators_links (hreads : ReadsChains n) {links : List Link}
    (hlinks : ∀ l ∈ links, p.rank < l.rank) (hrest : p.Stops rest)
    (hn : (links.flatMap Link.tokens).length ≤ n) (hd : links.length < d) :
    (grammar n).operators n p d left ⟨c, links.flatMap Link.tokens ++ rest, found⟩ =
      some (tree left links, ⟨lastToken c links, rest, found⟩) := by
  induction d generalizing links left c with
  | zero => cases hd
  | succ d ih =>
    cases links with
    | nil =>
      rw [tree_nil]
      exact operators_of_stops hrest
    | cons l ls =>
      obtain ⟨hl, hls⟩ := List.forall_mem_cons.mp hlinks
      -- The links that bind tighter than the first one belong to its right side.
      obtain ⟨inner, outer, rfl, hinner, houter⟩ := exists_tighter l ls
      rw [List.flatMap_cons, List.flatMap_append] at hn ⊢
      simp only [Link.tokens, List.length_append, List.length_cons] at hn hd
      obtain ⟨t, ts, hts⟩ : ∃ t ts, l.operand.tokens ++ inner.flatMap Link.tokens ++
          (outer.flatMap Link.tokens ++ rest) = t :: ts :=
        List.exists_cons_of_ne_nil (by simp [Operand.tokens])
      -- The right side is a shorter chain, which is read as its tree and stops before the rest.
      have hright : (grammar n).expression l.op.strength ⟨t, ts, found⟩ =
        some (tree l.operand.expr inner,
          ⟨lastToken l.operand.token inner, outer.flatMap Link.tokens ++ rest, found⟩) :=
        hreads _ _ _ ⟨t, ts, found⟩ _ hts.symm hinner (stops_outer hl hrest houter)
          (Nat.le_of_lt l.rank_lt) (by rw [List.length_append]; omega)
      have hsame : Link.tokens l ++
        (inner.flatMap Link.tokens ++ outer.flatMap Link.tokens) ++ rest =
          l.token :: t :: ts := by
        rw [← hts, Link.tokens]
        simp only [List.cons_append, List.append_assoc]
      -- The loop goes on behind it, with the joined tree on the left.
      rw [hsame, operators_of_link hl hright,
        ih (fun k hk => hls k (List.mem_append_right _ hk)) (by omega) (by omega),
          tree_cons hinner houter, lastToken, lastToken_append]

/-- A chain has at least one token for each link. -/
theorem length_le_tokens (links : List Link) :
    links.length ≤ (links.flatMap Link.tokens).length := by
  induction links with
  | nil => exact Nat.le_refl _
  | cons l ls ih =>
    rw [List.flatMap_cons, List.length_append, Link.tokens, List.length_cons, List.length_cons]
    omega

/-- With a bound of any size, chains that fit in it are read as their trees. -/
theorem readsChains (n : Nat) : ReadsChains n := by
  induction n with
  | zero => exact fun _ _ _ _ _ _ _ _ _ hn => absurd hn (Nat.not_lt_zero _)
  | succ n ih =>
    intro p o links s rest hs hlinks hrest hp hn
    obtain ⟨c, ts, found⟩ := s
    rw [List.length_append] at hn
    -- Whatever comes behind the first operand binds less tightly than its prefix operators.
    have hbehind : Strength.prefixed.Stops (links.flatMap Link.tokens ++ rest) := by
      cases links with
      | nil => exact hrest.mono hp
      | cons l ls =>
        refine ⟨l.token, _, rfl, ?_⟩
        rw [l.kind_eq, InfixOp.strength_kind]
        exact Nat.le_of_lt l.rank_lt
    have hpositive : 0 < o.tokens.length := by simp [Operand.tokens]
    have hcount := length_le_tokens links
    rw [List.append_assoc] at hs
    rw [expression_of_operand (operand_of_operand o hbehind (by omega) hs.symm),
      operators_links ih hlinks hrest (by omega) (by omega)]

end Grammar

namespace Chain

/-- Over a chain that a semicolon or the end of the source follows, the reader takes exactly its
tokens. What it reads is the tree of the chain, and it finds no fault. -/
theorem expression_eq_tree (chain : Chain) {s : ParserState} {stop : Token}
    {tail : List Token} {n : Nat} (hs : s.remaining = chain.tokens ++ stop :: tail)
    (hstop : stop.kind = .semicolon ∨ stop.kind = .eof) (hn : chain.tokens.length < n) :
    (grammar n).expression .lowest s = some (chain.tree, ⟨chain.last, stop :: tail, s.found⟩) := by
  have hlinks : ∀ l ∈ chain.links, Strength.lowest.rank < l.rank := by
    intro l _
    rw [Link.rank]
    cases l.op <;> decide
  have hstops : Strength.lowest.Stops (stop :: tail) := by
    refine ⟨stop, tail, rfl, ?_⟩
    rcases hstop with h | h <;> rw [h] <;> decide
  exact Grammar.readsChains n .lowest chain.first chain.links s (stop :: tail) hs hlinks hstops
    (by decide) hn

/-- `-a * b - !c + 7 = d`, one byte to each token. -/
def difference : Chain where
  first := ⟨[⟨⟨.minus, text "-", 0⟩, .negate, rfl⟩], ⟨.ident, text "a", 1⟩, _, rfl⟩
  links := [
    ⟨⟨.asterisk, text "*", 2⟩, .mul, ⟨[], ⟨.ident, text "b", 3⟩, _, rfl⟩, rfl, by decide⟩,
    ⟨⟨.minus, text "-", 4⟩, .sub,
      ⟨[⟨⟨.bang, text "!", 5⟩, .not, rfl⟩], ⟨.ident, text "c", 6⟩, _, rfl⟩, rfl,
      by decide⟩,
    ⟨⟨.plus, text "+", 7⟩, .add, ⟨[], ⟨.int, text "7", 8⟩, .integer 8 (text "7") 7, rfl⟩,
      rfl, by decide⟩,
    ⟨⟨.assign, text "=", 9⟩, .assign, ⟨[], ⟨.ident, text "d", 10⟩, _, rfl⟩, rfl, by decide⟩]

/-- The tree of the sample: a sign binds tightest, then products, then sums from the left, and the
assignment last. -/
theorem tree_difference : difference.tree =
    .infixed 9 .assign
      (.infixed 7 .add
        (.infixed 4 .sub
          (.infixed 2 .mul (.prefixed 0 .negate (.ident ⟨1, text "a"⟩)) (.ident ⟨3, text "b"⟩))
          (.prefixed 5 .not (.ident ⟨6, text "c"⟩)))
        (.integer 8 (text "7") 7))
      (.ident ⟨10, text "d"⟩) := by
  simp [difference, Chain.tree, Rill.tree, divide, Link.rank, InfixOp.strength, Strength.rank,
    Link.join, Operand.expr]

/-- The sample is read from its tokens as its tree. -/
theorem expression_eq_tree_difference :
    ParserState.remaining ⟨⟨.minus, text "-", 0⟩, difference.tokens.tail ++ [⟨.eof, [], 11⟩], []⟩ =
      difference.tokens ++ [⟨.eof, [], 11⟩] ∧ difference.tokens.length < 12 ∧
    (grammar 12).expression .lowest ⟨⟨.minus, text "-", 0⟩,
      difference.tokens.tail ++ [⟨.eof, [], 11⟩], []⟩ =
      some (.infixed 9 .assign
        (.infixed 7 .add
          (.infixed 4 .sub
            (.infixed 2 .mul (.prefixed 0 .negate (.ident ⟨1, text "a"⟩)) (.ident ⟨3, text "b"⟩))
            (.prefixed 5 .not (.ident ⟨6, text "c"⟩)))
          (.integer 8 (text "7") 7))
        (.ident ⟨10, text "d"⟩), ⟨⟨.ident, text "d", 10⟩, [⟨.eof, [], 11⟩], []⟩) :=
  ⟨rfl, by decide, tree_difference ▸ expression_eq_tree difference rfl (.inr rfl) (by decide)⟩

end Chain

end Rill
