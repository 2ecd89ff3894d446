import Rill.Proofs.Tree.Canonical

/-!
# Reading the tokens of a canonical form

The canonical form of a legible tree consists of the lexemes of the tree: no two of them run
together, and a prefix operator never becomes another operator with what stands behind it.

* `lexemes_render`: the lexemes of a program in canonical form.
-/

namespace Rill

/-! ## The fixed pieces of canonical forms -/

section Pieces

variable (s : Bytes)

/-- A printed opening parenthesis is read back as its token. -/
theorem lexemes_lparen : lexemes (text "(" ++ s) = (.lparen, []) :: lexemes s :=
  lexemes_mark s (by decide) (by decide) (by decide)

/-- A printed closing parenthesis is read back as its token. -/
theorem lexemes_rparen : lexemes (text ")" ++ s) = (.rparen, []) :: lexemes s :=
  lexemes_mark s (by decide) (by decide) (by decide)

/-- A printed opening bracket is read back as its token. -/
theorem lexemes_lbracket : lexemes (text "[" ++ s) = (.lbracket, []) :: lexemes s :=
  lexemes_mark s (by decide) (by decide) (by decide)

/-- A printed closing bracket is read back as its token. -/
theorem lexemes_rbracket : lexemes (text "]" ++ s) = (.rbracket, []) :: lexemes s :=
  lexemes_mark s (by decide) (by decide) (by decide)

/-- A printed opening brace is read back as its token. -/
theorem lexemes_lbrace : lexemes (text "\x7b" ++ s) = (.lbrace, []) :: lexemes s :=
  lexemes_mark s (by decide) (by decide) (by decide)

/-- A printed closing brace is read back as its token. -/
theorem lexemes_rbrace : lexemes (text "\x7d" ++ s) = (.rbrace, []) :: lexemes s :=
  lexemes_mark s (by decide) (by decide) (by decide)

/-- A printed colon is read back as its token. -/
theorem lexemes_colon : lexemes (text ":" ++ s) = (.colon, []) :: lexemes s :=
  lexemes_mark s (by decide) (by decide) (by decide)

/-- A printed semicolon is read back as its token. -/
theorem lexemes_semicolon : lexemes (text ";" ++ s) = (.semicolon, []) :: lexemes s :=
  lexemes_mark s (by decide) (by decide) (by decide)

/-- A printed blank is no token. -/
theorem lexemes_blank : lexemes (text " " ++ s) = lexemes s := lexemes_space s

/-- The end of a condition is read back as one token. -/
theorem lexemes_rparen_blank : lexemes (text ") " ++ s) = (.rparen, []) :: lexemes s :=
  (lexemes_rparen (text " " ++ s)).trans (by rw [lexemes_blank])

/-- The end of an index in its parentheses is read back as two tokens. -/
theorem lexemes_rbracket_rparen :
    lexemes (text "])" ++ s) = (.rbracket, []) :: (.rparen, []) :: lexemes s :=
  (lexemes_rbracket (text ")" ++ s)).trans (by rw [lexemes_rparen])

/-- A semicolon in the head of a loop is read back as one token. -/
theorem lexemes_semicolon_blank : lexemes (text "; " ++ s) = (.semicolon, []) :: lexemes s :=
  (lexemes_semicolon (text " " ++ s)).trans (by rw [lexemes_blank])

/-- The separator of elements is read back as a comma. -/
theorem lexemes_comma_blank : lexemes (text ", " ++ s) = (.comma, []) :: lexemes s := by
  have hcomma : lexemes (text ", " ++ s) = (.comma, []) :: lexemes (text " " ++ s) :=
    lexemes_mark (text " " ++ s) (by decide) (by decide) (by decide)
  rw [hcomma, lexemes_blank]

/-- A keyword with a byte behind it that belongs to no word. -/
theorem lexemes_keyword {w : Bytes} {kind : TokenKind} (hw : w ≠ [])
    (hbytes : w.all Cursor.isWordByte = true) (hkind : TokenKind.ofWord w = kind)
    (hfixed : kind.isFixed) (hs : ∀ b ∈ s.head?, Cursor.isWordByte b = false) :
    lexemes (w ++ s) = (kind, []) :: lexemes s := by
  rw [lexemes_word hw (List.all_eq_true.mp hbytes) hs, hkind, if_pos hfixed]

/-- A keyword with a space behind it. -/
theorem lexemes_keyword_space {w : Bytes} {kind : TokenKind} (hw : w ≠ [])
    (hbytes : w.all Cursor.isWordByte = true) (hkind : TokenKind.ofWord w = kind)
    (hfixed : kind.isFixed) : lexemes (w ++ 0x20 :: s) = (kind, []) :: lexemes s := by
  rw [lexemes_keyword (0x20 :: s) hw hbytes hkind hfixed
    (by simp [Cursor.isWordByte, Bytes.isLetter]),
    lexemes_space]

/-- The keyword of a binding is read back as its token. -/
theorem lexemes_let : lexemes (text "let " ++ s) = (.let_, []) :: lexemes s :=
  lexemes_keyword_space (w := text "let") s (by decide) (by decide) (by decide) (by decide)

/-- The keyword of a `return` is read back as its token. -/
theorem lexemes_return : lexemes (text "return " ++ s) = (.return_, []) :: lexemes s :=
  lexemes_keyword_space (w := text "return") s (by decide) (by decide) (by decide) (by decide)

/-- The keyword of a conditional is read back as its token. -/
theorem lexemes_if : lexemes (text "if " ++ s) = (.if_, []) :: lexemes s :=
  lexemes_keyword_space (w := text "if") s (by decide) (by decide) (by decide) (by decide)

/-- The keyword of a further condition is read back as its token. -/
theorem lexemes_elif : lexemes (text " elif " ++ s) = (.elif, []) :: lexemes s :=
  (lexemes_blank (text "elif " ++ s)).trans
    (lexemes_keyword_space (w := text "elif") s (by decide) (by decide) (by decide) (by decide))

/-- The keyword of the last block of a conditional is read back as its token. -/
theorem lexemes_else : lexemes (text " else " ++ s) = (.else_, []) :: lexemes s :=
  (lexemes_blank (text "else " ++ s)).trans
    (lexemes_keyword_space (w := text "else") s (by decide) (by decide) (by decide) (by decide))

/-- The head of a loop is read back as its three tokens. -/
theorem lexemes_for_let :
    lexemes (text "for (let " ++ s) = (.for_, []) :: (.lparen, []) :: (.let_, []) :: lexemes s := by
  have hfor : lexemes (text "for (let " ++ s) = (.for_, []) ::
    lexemes (text "(" ++ (text "let " ++ s)) :=
    lexemes_keyword_space (w := text "for") _ (by decide) (by decide) (by decide) (by decide)
  rw [hfor, lexemes_lparen, lexemes_let]

/-- The head of a function is read back as its two tokens. -/
theorem lexemes_fn : lexemes (text "fn(" ++ s) = (.function, []) :: (.lparen, []) :: lexemes s := by
  have hfn : lexemes (text "fn(" ++ s) = (.function, []) :: lexemes (text "(" ++ s) :=
    lexemes_keyword (w := text "fn") (text "(" ++ s) (by decide) (by decide) (by decide) (by decide)
      (by simp [text, encodeRune, Cursor.isWordByte, Bytes.isLetter])
  rw [hfn, lexemes_lparen]

/-- A `break` is read back as its two tokens. -/
theorem lexemes_break :
    lexemes (text "break;" ++ s) = (.break_, []) :: (.semicolon, []) :: lexemes s := by
  have hbreak : lexemes (text "break;" ++ s) = (.break_, []) :: lexemes (text ";" ++ s) :=
    lexemes_keyword (w := text "break") (text ";" ++ s) (by decide) (by decide)
      (by decide) (by decide) (by simp [text, encodeRune, Cursor.isWordByte, Bytes.isLetter])
  rw [hbreak, lexemes_semicolon]

/-- A truth value. -/
theorem lexemes_boolean (value : Bool) (hs : Stops s) :
    lexemes ((if value then text "true" else text "false") ++ s) =
      (if value then .true_ else .false_, []) :: lexemes s := by
  cases value
  · exact lexemes_keyword (w := text "false") s (by decide) (by decide) (by decide) (by decide)
      fun b hb => (hs.spec b hb).1
  · exact lexemes_keyword (w := text "true") s (by decide) (by decide) (by decide) (by decide)
      fun b hb => (hs.spec b hb).1

/-- An infix operator between spaces. -/
theorem lexemes_infixOp (op : InfixOp) :
    lexemes (text " " ++ (op.symbol ++ (text " " ++ s))) = (op.kind, []) :: lexemes s := by
  -- The space behind the operator keeps it from becoming a longer one.
  have hscan : Cursor.scan ⟨0, op.symbol ++ (text " " ++ s)⟩ =
      (⟨op.kind, op.symbol, 0⟩, ⟨op.symbol.length, text " " ++ s⟩) := by
    cases op <;> rfl
  have hfixed : op.kind.isFixed := by cases op <;> rfl
  have hkind := (TokenKind.spelled_of_isFixed hfixed op.symbol 0).1
  rw [lexemes_blank, lexemes_eq_cons hscan hkind, Token.lexeme, if_pos hfixed, lexemes_blank]

/-- The sign of a binding is read back as an assignment, not as half of a comparison. -/
theorem lexemes_assign : lexemes (text " = " ++ s) = (.assign, []) :: lexemes s :=
  lexemes_infixOp s .assign

/-- A prefix operator that no `=` follows. -/
theorem lexemes_prefixOp (op : PrefixOp) (hs : ∀ b ∈ s.head?, b ≠ 0x3D) :
    lexemes (op.symbol ++ s) = (op.kind, []) :: lexemes s := by
  cases op with
  | not =>
    have hpair : Cursor.pair? 0x21 = some (.bang, 0x3D, .notEq) := by decide
    exact lexemes_alone (by decide) (by decide) hpair hs
  | negate =>
    have hpair : Cursor.pair? 0x2D = some (.minus, 0x3D, .minusEq) := by decide
    exact lexemes_alone (by decide) (by decide) hpair hs

end Pieces

/-! ## What stands around an expression -/

/-- No number starts with `=`. -/
theorem NumberSpelling.head_ne {kind : TokenKind} {literal : Bytes}
    (h : NumberSpelling kind literal) (rest : Bytes) : ∀ b ∈ (literal ++ rest).head?, b ≠ 0x3D := by
  obtain ⟨c, s, rfl, hc⟩ := h.exists_cons
  rintro b hb rfl
  cases hb
  cases hc

/-- No expression starts with `=`. -/
theorem Expr.head_render_ne :
    ∀ (e : Expr), e.Legible → ∀ rest, ∀ b ∈ (e.render ++ rest).head?, b ≠ 0x3D
  | .missing, h, _, _, _ => h.elim
  | .ident ⟨_, name⟩, h, rest, b, hb => by
    obtain ⟨c, s, rfl⟩ := List.exists_cons_of_ne_nil h.1
    have hc : Cursor.isWordByte c := h.2.1 c List.mem_cons_self
    rintro rfl
    cases hb
    cases hc
  | .integer .., h, rest, b, hb => h.1.head_ne rest b hb
  | .float .., h, rest, b, hb => h.1.head_ne rest b hb
  | .double .., h, rest, b, hb => h.1.head_ne rest b hb
  | .boolean _ value, _, rest, b, hb => by cases value <;> cases hb <;> decide
  | .call _ callee arguments, h, rest, b, hb => by
    rw [Expr.render, List.append_assoc, List.append_assoc, List.append_assoc] at hb
    exact callee.head_render_ne h.1 _ b hb
  | .string .., _, rest, b, hb | .array .., _, rest, b, hb | .hash .., _, rest, b, hb
  | .prefixed .., _, rest, b, hb | .infixed .., _, rest, b, hb | .index .., _, rest, b, hb
  | .function .., _, rest, b, hb | .conditional .., _, rest, b, hb | .loop .., _, rest, b, hb => by
    cases hb
    decide

/-- Joined pieces are the first one and the other ones, each with the separator in front. -/
theorem join_cons (sep p : Bytes) (ps : List Bytes) :
    Bytes.join sep (p :: ps) = p ++ ps.flatMap (sep ++ ·) := by
  induction ps generalizing p with
  | nil => simp [Bytes.join]
  | cons q ps ih =>
    rw [Bytes.join, ih, List.flatMap_cons, List.append_assoc, List.append_assoc]; simp

/-- Further pieces behind a comma stop what is before them. -/
theorem Stops.flatMap_comma (ps : List Bytes) {rest : Bytes} (hrest : Stops rest) :
    Stops (ps.flatMap (text ", " ++ ·) ++ rest) := by
  cases ps with
  | nil => exact hrest
  | cons p ps =>
    rw [List.flatMap_cons, List.append_assoc, List.append_assoc]
    exact .append (by decide) _

/-- A printed name is read back as an identifier with this name, if no letter or digit follows. -/
theorem Name.lexemes_text {name : Name} (h : name.token.Spelled) {s : Bytes} (hs : Stops s) :
    lexemes (name.text ++ s) = (.ident, name.text) :: lexemes s :=
  lexemes_name h hs

/-- The names of parameters, each behind a comma. -/
theorem lexemes_moreParameters {names : List Name} (h : ∀ name ∈ names, name.token.Spelled)
    {rest : Bytes} (hrest : Stops rest) :
    lexemes ((names.map Name.text).flatMap (text ", " ++ ·) ++ rest) =
      (names.flatMap fun n => [(.comma, []), (.ident, n.text)]) ++ lexemes rest := by
  induction names with
  | nil => rfl
  | cons name names ih =>
    obtain ⟨hname, hnames⟩ := List.forall_mem_cons.mp h
    rw [List.map_cons, List.flatMap_cons, List.append_assoc, List.append_assoc, lexemes_comma_blank,
      Name.lexemes_text hname (hrest.flatMap_comma _), ih hnames]
    rfl

/-- The names of parameters. -/
theorem lexemes_parameters {names : List Name} (h : ∀ name ∈ names, name.token.Spelled)
    {rest : Bytes} (hrest : Stops rest) :
    lexemes (Bytes.join (text ", ") (names.map Name.text) ++ rest) =
      parametersLexemes names ++ lexemes rest := by
  cases names with
  | nil => rfl
  | cons name names =>
    obtain ⟨hname, hnames⟩ := List.forall_mem_cons.mp h
    rw [List.map_cons, join_cons, List.append_assoc,
      Name.lexemes_text hname (hrest.flatMap_comma _),
      lexemes_moreParameters hnames hrest]
    rfl

/-! ## Canonical forms -/

mutual

/-- A printed expression is read back as its lexemes, if what follows does not go on with its last
token. -/
theorem Expr.lexemes_render : ∀ (e : Expr), e.Legible → ∀ rest, Stops rest →
    Rill.lexemes (e.render ++ rest) = e.lexemes ++ Rill.lexemes rest
  | .missing, h, _, _ => h.elim
  | .ident name, h, _, hrest => Name.lexemes_text h hrest
  | .integer .., h, _, hrest => lexemes_number h.1 hrest
  | .float .., h, _, hrest => lexemes_number h.1 hrest
  | .double .., h, _, hrest => lexemes_number h.1 hrest
  | .boolean _ value, _, rest, hrest => lexemes_boolean rest value hrest
  | .string _ value, h, rest, _ => by
    rw [Expr.render, List.append_assoc]
    exact lexemes_string rest h
  | .array _ elements, h, rest, _ => by
    simp only [Expr.render, Expr.lexemes, List.append_assoc]
    rw [lexemes_lbracket, lexemes_renderAll elements h _ (.append (by decide) _), lexemes_rbracket]
    simp
  | .hash _ pairs, h, rest, _ => by
    simp only [Expr.render, Expr.lexemes, List.append_assoc]
    rw [lexemes_lbrace, lexemes_renderPairs pairs h _ (.append (by decide) _), lexemes_rbrace]
    simp
  | .prefixed _ op operand, h, rest, _ => by
    simp only [Expr.render, Expr.lexemes, List.append_assoc]
    rw [lexemes_lparen, lexemes_prefixOp _ op (operand.head_render_ne h _),
      operand.lexemes_render h _ (.append (by decide) _), lexemes_rparen]
    simp
  | .infixed _ op left right, h, rest, _ => by
    simp only [Expr.render, Expr.lexemes, List.append_assoc]
    rw [lexemes_lparen, left.lexemes_render h.1 _ (.append (by decide) _), lexemes_infixOp,
      right.lexemes_render h.2 _ (.append (by decide) _), lexemes_rparen]
    simp
  | .index _ collection key, h, rest, _ => by
    simp only [Expr.render, Expr.lexemes, List.append_assoc]
    rw [lexemes_lparen, collection.lexemes_render h.1 _ (.append (by decide) _), lexemes_lbracket,
      key.lexemes_render h.2 _ (.append (by decide) _), lexemes_rbracket_rparen]
    simp
  | .call _ callee arguments, h, rest, _ => by
    simp only [Expr.render, Expr.lexemes, List.append_assoc]
    rw [callee.lexemes_render h.1 _ (.append (by decide) _), lexemes_lparen,
      lexemes_renderAll arguments h.2 _ (.append (by decide) _), lexemes_rparen]
    simp
  | .function _ parameters body, h, rest, _ => by
    simp only [Expr.render, Expr.lexemes, List.append_assoc]
    rw [lexemes_fn, lexemes_parameters h.1 (.append (by decide) _), lexemes_rparen_blank,
      body.lexemes_render h.2]
    simp
  | .conditional _ condition consequence elifs alternative, h, rest, _ => by
    obtain ⟨-, hcondition, hconsequence, helifs, halternative⟩ := h
    simp only [Expr.render, Expr.lexemes, List.append_assoc]
    rw [lexemes_if, condition.lexemes_render hcondition _ (.append (by decide) _), lexemes_blank,
      consequence.lexemes_render hconsequence, lexemes_renderElifs elifs helifs,
      lexemes_renderAlternative alternative halternative]
    simp
  | .loop _ _ counter start condition step body, h, rest, _ => by
    obtain ⟨hcounter, hstart, hcondition, hstep, hbody⟩ := h
    simp only [Expr.render, Expr.lexemes, List.append_assoc]
    rw [lexemes_for_let, Name.lexemes_text hcounter (.append (by decide) _), lexemes_assign,
      start.lexemes_render hstart _ (.append (by decide) _), lexemes_semicolon_blank,
      condition.lexemes_render hcondition _ (.append (by decide) _), lexemes_semicolon_blank,
      step.lexemes_render hstep _ (fun _ => .append (by decide) _), lexemes_rparen_blank,
      body.lexemes_render hbody]
    simp

/-- Printed elements of a list are read back as their lexemes with commas between them. -/
theorem lexemes_renderAll : ∀ (es : List Expr), allLegible es → ∀ rest, Stops rest →
    lexemes (Bytes.join (text ", ") (renderAll es) ++ rest) = elementsLexemes es ++ lexemes rest
  | [], _, _, _ => rfl
  | e :: es, h, rest, hrest => by
    rw [renderAll, join_cons, List.append_assoc, e.lexemes_render h.1 _ (hrest.flatMap_comma _),
      lexemes_renderMore es h.2 rest hrest, elementsLexemes, List.append_assoc]

/-- Printed elements behind the first one are read back as their lexemes with commas in front. -/
theorem lexemes_renderMore : ∀ (es : List Expr), allLegible es → ∀ rest, Stops rest →
    lexemes ((renderAll es).flatMap (text ", " ++ ·) ++ rest) =
      moreElementsLexemes es ++ lexemes rest
  | [], _, _, _ => rfl
  | e :: es, h, rest, hrest => by
    rw [renderAll, List.flatMap_cons, List.append_assoc, List.append_assoc, lexemes_comma_blank,
      e.lexemes_render h.1 _ (hrest.flatMap_comma _), lexemes_renderMore es h.2 rest hrest]
    simp [moreElementsLexemes]

/-- The printed pairs of a hash are read back as their lexemes. -/
theorem lexemes_renderPairs :
    ∀ (pairs : List (Expr × Expr)), pairsLegible pairs → ∀ rest, Stops rest →
    lexemes (Bytes.join (text ", ") (renderPairs pairs) ++ rest) =
      pairsLexemes pairs ++ lexemes rest
  | [], _, _, _ => rfl
  | (k, v) :: pairs, h, rest, hrest => by
    obtain ⟨hk, hv, hpairs⟩ := h
    have hmore := lexemes_renderPairs pairs hpairs rest hrest
    cases pairs with
    -- The last pair is followed by the rest, any other one by a comma.
    | nil =>
      simp only [renderPairs, Bytes.join, List.append_assoc]
      rw [k.lexemes_render hk _ (.append (by decide) _), lexemes_colon, v.lexemes_render hv _ hrest]
      simp [pairsLexemes]
    | cons pair pairs =>
      simp only [renderPairs, List.append_assoc] at hmore
      simp only [renderPairs, Bytes.join, List.append_assoc]
      rw [k.lexemes_render hk _ (.append (by decide) _), lexemes_colon,
        v.lexemes_render hv _ (.append (by decide) _), lexemes_comma_blank, hmore]
      simp [pairsLexemes]

/-- Printed further conditions and their blocks are read back as their lexemes. -/
theorem lexemes_renderElifs : ∀ (elifs : List (Expr × Block)), elifsLegible elifs → ∀ rest,
    lexemes (renderElifs elifs ++ rest) = elifsLexemes elifs ++ lexemes rest
  | [], _, _ => rfl
  | (c, b) :: elifs, h, rest => by
    obtain ⟨-, hc, hb, helifs⟩ := h
    simp only [renderElifs, elifsLexemes, List.append_assoc]
    rw [lexemes_elif, c.lexemes_render hc _ (.append (by decide) _), lexemes_blank,
      b.lexemes_render hb, lexemes_renderElifs elifs helifs]
    simp

/-- The printed last block of a conditional is read back as its lexemes. -/
theorem lexemes_renderAlternative :
    ∀ (alternative : Option Block), alternativeLegible alternative → ∀ rest,
    lexemes (renderAlternative alternative ++ rest) = alternativeLexemes alternative ++ lexemes rest
  | none, _, _ => rfl
  | some b, h, rest => by
    rw [renderAlternative, List.append_assoc, lexemes_else, b.lexemes_render h]
    rfl

/-- A statement that is an expression needs a byte behind it that stops. -/
theorem Stmt.lexemes_render : ∀ (st : Stmt), st.Legible → ∀ rest, (st.isExpression → Stops rest) →
    Rill.lexemes (st.render ++ rest) = st.lexemes ++ Rill.lexemes rest
  | .binding _ name value, h, rest, _ => by
    simp only [Stmt.render, Stmt.lexemes, List.append_assoc]
    rw [lexemes_let, Name.lexemes_text h.1 (.append (by decide) _), lexemes_assign,
      value.lexemes_render h.2 _ (.append (by decide) _), lexemes_semicolon]
    simp
  | .returned _ value, h, rest, _ => by
    simp only [Stmt.render, Stmt.lexemes, List.append_assoc]
    rw [lexemes_return, value.lexemes_render h _ (.append (by decide) _), lexemes_semicolon]
    simp
  | .broken _, _, rest, _ => lexemes_break rest
  | .expression _ value, h, rest, hrest => value.lexemes_render h rest (hrest rfl)

/-- Printed statements are read back as their lexemes. -/
theorem lexemes_renderStatements : ∀ (ss : List Stmt), statementsLegible ss → ∀ rest, Stops rest →
    lexemes (renderStatements ss ++ rest) = statementsLexemes ss ++ lexemes rest
  | [], _, _, _ => rfl
  | st :: ss, h, rest, hrest => by
    obtain ⟨hst, hlast, hss⟩ := h
    rw [renderStatements, List.append_assoc, st.lexemes_render hst,
      lexemes_renderStatements ss hss rest hrest, statementsLexemes, List.append_assoc]
    -- Only the last statement may be an expression, and what stands behind the list stops it.
    intro hexpression
    rw [hlast hexpression]
    exact hrest

/-- A printed block is read back as its lexemes, whatever follows its closing brace. -/
theorem Block.lexemes_render : ∀ (b : Block), b.Legible → ∀ rest,
    Rill.lexemes (b.render ++ rest) = b.lexemes ++ Rill.lexemes rest
  | .mk _ statements, h, rest => by
    simp only [Block.render, Block.lexemes, List.append_assoc]
    rw [lexemes_lbrace, lexemes_renderStatements statements h _ (.append (by decide) _),
      lexemes_rbrace]
    simp

end

/-- The canonical form of a legible program consists of the lexemes of the program. -/
theorem Program.Legible.lexemes_render {p : Program} (h : p.Legible) :
    lexemes p.render = statementsLexemes p.statements ++ [(.eof, [])] := by
  have hrender := lexemes_renderStatements p.statements h [] .nil
  rwa [List.append_nil] at hrender

end Rill
