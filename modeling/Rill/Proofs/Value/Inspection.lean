import Rill.Proofs.Tree.Rereading
import Rill.Proofs.Value.Data
import Rill.Value.Inspect

/-!
# Reading the text of data

The text that is shown for data is a source that gives the data back.

* `Writes`: a text consists of some lexemes, in front of everything that stops it.
* `Denotes`: a text is read as an expression with a property.
* `denotes_array`, `denotes_hash`: texts of arrays and hashes, from those of their parts.
* `Value.IsData.denotes`: the text of data as a part of other data.
* `evaluates_inspect`: the text of data is read without a fault and evaluates to the data.
-/

namespace Rill

/-! ## Texts and their lexemes -/

/-- In front of everything that stops it, the text consists of the lexemes. -/
def Writes (txt : Bytes) (ls : List Lexeme) : Prop :=
  ∀ rest, Stops rest → lexemes (txt ++ rest) = ls ++ lexemes rest

section Writes

variable {txts : List Bytes} {lss : List (List Lexeme)} {k v : Bytes} {kls vls : List Lexeme}

/-- A key and its value, with a colon between them, are written as their lexemes. -/
theorem Writes.pair (hk : Writes k kls) (hv : Writes v vls) :
    Writes (k ++ text ": " ++ v) (kls ++ (.colon, []) :: vls) := by
  intro rest hrest
  have hcolon : lexemes (text ": " ++ (v ++ rest)) = (.colon, []) :: lexemes (v ++ rest) :=
    (lexemes_colon (text " " ++ (v ++ rest))).trans (by rw [lexemes_blank])
  rw [List.append_assoc, List.append_assoc, hk _ (.append (by decide) _), hcolon, hv rest hrest,
    List.append_assoc, List.cons_append]

/-- Further texts, each behind a comma. -/
theorem lexemes_more (h : List.Forall₂ Writes txts lss) {rest : Bytes} (hrest : Stops rest) :
    lexemes (txts.flatMap (text ", " ++ ·) ++ rest) = lss.flatMap ((.comma, []) :: ·) ++
      lexemes rest := by
  induction h with
  | nil => rfl
  | @cons txt ls txts lss htxt _ ih =>
    rw [List.flatMap_cons, List.append_assoc, List.append_assoc, lexemes_comma_blank,
      htxt _ (hrest.flatMap_comma _), ih, List.flatMap_cons, List.append_assoc]
    rfl

/-- Texts with commas between them. -/
theorem lexemes_join (h : List.Forall₂ Writes txts lss) {rest : Bytes} (hrest : Stops rest) :
    lexemes (Bytes.join (text ", ") txts ++ rest) = separated lss ++ lexemes rest := by
  cases h with
  | nil => rfl
  | cons htxt htxts =>
    rw [join_cons, List.append_assoc, htxt _ (hrest.flatMap_comma _),
      lexemes_more htxts hrest, separated, List.append_assoc]

/-- Elements in brackets are written as their lexemes with commas between them. -/
theorem Writes.brackets (h : List.Forall₂ Writes txts lss) :
    Writes (text "[" ++ Bytes.join (text ", ") txts ++ text "]")
      ((.lbracket, []) :: separated lss ++ [(.rbracket, [])]) := by
  intro rest _
  rw [List.append_assoc, List.append_assoc, lexemes_lbracket,
    lexemes_join h (.append (by decide) _), lexemes_rbracket]
  simp

/-- Pairs in braces are written as their lexemes with commas between them. -/
theorem Writes.braces (h : List.Forall₂ Writes txts lss) :
    Writes (text "\x7b" ++ Bytes.join (text ", ") txts ++ text "\x7d")
      ((.lbrace, []) :: separated lss ++ [(.rbrace, [])]) := by
  intro rest _
  rw [List.append_assoc, List.append_assoc, lexemes_lbrace, lexemes_join h (.append (by decide) _),
    lexemes_rbrace]
  simp

end Writes

/-! ## Texts and what they are read as -/

/-- In front of everything that stops it, the text is read as an expression with the property
`P`. -/
def Denotes (txt : Bytes) (P : Expr → Prop) : Prop := ∃ ls, Writes txt ls ∧ Phrase.Reads ⟨ls, P⟩

section Denotes

variable {txt : Bytes} {P P' : Expr → Prop} {txts : List Bytes}

/-- A text denotes what a weaker statement says where it denotes what a stronger one says. -/
theorem Denotes.imp (h : Denotes txt P) (himp : ∀ a, P a → P' a) : Denotes txt P' := by
  obtain ⟨ls, hwrites, hreads⟩ := h
  exact ⟨ls, hwrites, hreads.imp himp⟩

/-- A text that denotes is a source, which is read as one statement. -/
theorem Denotes.parse (h : Denotes txt P) :
    ∃ t a, Rill.parse txt = ⟨⟨[.expression t a]⟩, []⟩ ∧ P a := by
  obtain ⟨ls, hwrites, hreads⟩ := h
  have hlexemes := hwrites [] .nil
  rw [List.append_nil] at hlexemes
  exact hreads.parse hlexemes

/-- The canonical form of a legible expression denotes the expression up to offsets. -/
theorem Expr.Legible.denotes {e : Expr} (h : e.Legible) :
    Denotes e.render (·.unplaced = e.unplaced) :=
  ⟨e.lexemes, e.lexemes_render h, Expr.Reread.reads ⟨h, (e.rereads_of_legible h).1⟩⟩

/-- The phrases that some texts consist of. -/
theorem exists_phrases {Ps : List (Expr → Prop)} (h : List.Forall₂ Denotes txts Ps) :
    ∃ ps : List Phrase,
    ps.map Phrase.means = Ps ∧ (∀ p ∈ ps, p.Reads) ∧
      List.Forall₂ Writes txts (ps.map Phrase.lexemes) := by
  induction h with
  | nil => exact ⟨[], rfl, by simp, .nil⟩
  | @cons txt P txts Ps htxt _ ih =>
    obtain ⟨ls, hwrites, hreads⟩ := htxt
    obtain ⟨ps, rfl, hps, htxts⟩ := ih
    exact ⟨⟨ls, P⟩ :: ps, rfl, List.forall_mem_cons.mpr ⟨hreads, hps⟩, .cons hwrites htxts⟩

/-- Texts of elements in brackets denote an array of what they denote. -/
theorem denotes_array {Ps : List (Expr → Prop)} (h : List.Forall₂ Denotes txts Ps) :
    Denotes (text "[" ++ Bytes.join (text ", ") txts ++ text "]") fun a =>
      ∃ pos es, a = .array pos es ∧ List.Forall₂ (fun P e => P e) Ps es := by
  obtain ⟨ps, rfl, hps, htxts⟩ := exists_phrases h
  refine ⟨_, .brackets htxts, .of_operand ⟨_, _, _, rfl, rfl⟩ fun n s ls _ hs => ?_⟩
  refine (ensures_array hps (by simpa using hs)).imp ?_
  rintro _ s₁ ⟨pos, es, rfl, hes, hs₁⟩
  exact ⟨_, rfl, ⟨pos, es, rfl, List.forall₂_map_left_iff.mpr hes⟩, hs₁⟩

/-- The phrases that the texts of some keys and values consist of. -/
theorem exists_pairs {pairs : List (Bytes × Bytes)} {Ps : List ((Expr → Prop) × (Expr → Prop))}
    (h : List.Forall₂ (fun pair P => Denotes pair.1 P.1 ∧ Denotes pair.2 P.2) pairs Ps) :
    ∃ ps : List (Phrase × Phrase), ps.map (fun p => (p.1.means, p.2.means)) = Ps ∧
      (∀ p ∈ ps, p.1.Reads ∧ p.2.Reads) ∧
      List.Forall₂ Writes (pairs.map fun pair => pair.1 ++ text ": " ++ pair.2)
        (ps.map pairLexemes) := by
  induction h with
  | nil => exact ⟨[], rfl, by simp, .nil⟩
  | @cons pair P pairs Ps hpair _ ih =>
    obtain ⟨⟨ks, hk, hkreads⟩, ⟨vs, hv, hvreads⟩⟩ := hpair
    obtain ⟨ps, rfl, hps, hpairs⟩ := ih
    refine ⟨(⟨ks, P.1⟩, ⟨vs, P.2⟩) :: ps, rfl,
      List.forall_mem_cons.mpr ⟨⟨hkreads, hvreads⟩, hps⟩, ?_⟩
    exact .cons (hk.pair hv) hpairs

/-- Texts of pairs in braces denote a hash of what they denote. -/
theorem denotes_hash {pairs : List (Bytes × Bytes)} {Ps : List ((Expr → Prop) × (Expr → Prop))}
    (h : List.Forall₂ (fun pair P => Denotes pair.1 P.1 ∧ Denotes pair.2 P.2) pairs Ps) :
    Denotes (text "\x7b" ++ Bytes.join (text ", ")
      (pairs.map fun pair => pair.1 ++ text ": " ++ pair.2) ++
      text "\x7d") fun a => ∃ pos es, a = .hash pos es ∧
        List.Forall₂ (fun P e => P.1 e.1 ∧ P.2 e.2) Ps es := by
  obtain ⟨ps, rfl, hps, hpairs⟩ := exists_pairs h
  refine ⟨_, .braces hpairs, .of_operand ⟨_, _, _, rfl, rfl⟩ fun n s ls _ hs => ?_⟩
  refine (ensures_hash hps (by simpa using hs)).imp ?_
  rintro _ s₁ ⟨pos, es, rfl, hes, hs₁⟩
  exact ⟨_, rfl, ⟨pos, es, rfl, List.forall₂_map_left_iff.mpr hes⟩, hs₁⟩

end Denotes

/-! ## Numbers, truth values and texts -/

/-- The digits of a number below two to the 63 are a legible literal. -/
theorem legible_ofNat {n : Nat} (h : n < 0x8000000000000000) :
    (Expr.integer 0 (Bytes.ofNat n) (Int64.ofNat n)).Legible := by
  refine ⟨.int (Bytes.ofNat_ne_nil n) fun b hb => Bytes.isDigit_of_mem_ofNat hb, ?_⟩
  rw [Bytes.toNat_ofNat]
  exact ⟨h, rfl⟩

/-- Up to its offset, a number is nothing but a number. -/
theorem eq_integer_of_unplaced {a : Expr} {pos : Nat} {spelling : Bytes} {n : Int64}
    (h : a.unplaced = (Expr.integer pos spelling n).unplaced) :
    ∃ pos', a = .integer pos' spelling n := by
  cases a with
  | integer pos' spelling' n' =>
    cases h
    exact ⟨pos', rfl⟩
  | _ => cases h

/-- The digits of a number below two to the 63 denote the number. -/
theorem denotes_natural {n : Nat} (h : n < 0x8000000000000000) :
    Denotes (Bytes.ofNat n) (·.EvaluatesTo (.integer (Int64.ofNat n))) := by
  refine (legible_ofNat h).denotes.imp fun a ha => ?_
  obtain ⟨pos, rfl⟩ := eq_integer_of_unplaced ha
  exact evaluatesTo_integer pos _ _

/-- A negative number is read as a minus in front of a number. -/
theorem denotes_negative {n : Nat} (h : n < 0x8000000000000000) :
    Denotes (Bytes.ascii '-' :: Bytes.ofNat n) (·.EvaluatesTo (.integer (-Int64.ofNat n))) := by
  have hlegible := legible_ofNat h
  have hrereads := ((Expr.integer 0 (Bytes.ofNat n) (Int64.ofNat n)).rereads_of_legible hlegible).1
  refine ⟨[(.minus, []), (.int, Bytes.ofNat n)], fun rest hrest => ?_, ?_⟩
  · refine (lexemes_prefixOp (Bytes.ofNat n ++ rest) .negate (hlegible.1.head_ne rest)).trans ?_
    rw [lexemes_number hlegible.1 hrest]
    rfl
  · refine .of_operand ⟨_, _, _, rfl, rfl⟩ fun k s ls hls hs => ?_
    have hread : ((grammar k).operand k s.current).Ensures s fun o s' => ∃ a, o = some a ∧
        (Expr.prefixed 0 .negate (.integer 0 (Bytes.ofNat n) (Int64.ofNat n))).RereadAs ls a s' :=
      ensures_prefixed .negate hrereads hls hs
    refine hread.imp ?_
    rintro _ s₁ ⟨a, rfl, ha, hs₁⟩
    refine ⟨a, rfl, ?_, hs₁⟩
    -- Up to offsets, the operand is the number without its sign.
    cases a with
    | prefixed pos op operand =>
      obtain ⟨-, rfl, hoperand⟩ := Expr.prefixed.inj ha
      obtain ⟨pos', rfl⟩ := eq_integer_of_unplaced hoperand
      exact evaluatesTo_negated pos pos' _ _
    | _ => cases ha

/-- The smallest number is left out: without its sign it is out of range. -/
theorem denotes_integer {n : Int64} (h : Int64.minValue < n) :
    Denotes (Bytes.ofInt n.toInt) (·.EvaluatesTo (.integer n)) := by
  have hlow : -0x8000000000000000 < n.toInt := Int64.lt_iff_toInt_lt.mp h
  have hhigh : n.toInt < 0x8000000000000000 := n.toInt_lt
  -- A sign is written only for a number below zero, and it is an operator.
  cases hn : n.toInt with
  | ofNat m =>
    have hm : n.toInt = (m : Int) := hn
    rw [← n.ofInt_toInt, hm, Int64.ofInt_eq_ofNat]
    exact denotes_natural (by omega)
  | negSucc m =>
    rw [← n.ofInt_toInt, hn, Int.negSucc_eq, ← Int.natCast_succ, ← Int64.neg_ofNat]
    exact denotes_negative (by omega)

/-- The text of a truth value denotes it. -/
theorem denotes_boolean (b : Bool) :
    Denotes (if b then text "true" else text "false") (·.EvaluatesTo (.boolean b)) := by
  have hlegible : (Expr.boolean 0 b).Legible := trivial
  refine hlegible.denotes.imp fun a ha => ?_
  cases a with
  | boolean pos b' =>
    cases ha
    exact evaluatesTo_boolean pos b
  | _ => cases ha

/-- A quoted text of plain bytes denotes the text. -/
theorem denotes_string {s : Bytes} (h : ∀ b ∈ s, Bytes.isPlain b = true) :
    Denotes (quote s) (·.EvaluatesTo (.string s)) := by
  have hlegible : (Expr.string 0 s).Legible := by
    intro b hb
    obtain ⟨hlow, -, hquote, -⟩ := Bytes.isPlain_iff.mp (h b hb)
    simp [Cursor.isQuotedByte, ← UInt8.toNat_inj]
    omega
  rw [quote_of_isPlain h]
  refine hlegible.denotes.imp fun a ha => ?_
  cases a with
  | string pos s' =>
    cases ha
    exact evaluatesTo_string pos s
  | _ => cases ha

/-! ## Data -/

/-- Inside other data, only a text is shown in another way. -/
theorem Value.element_of_kind_ne {v : Value} (h : v.kind ≠ .string) (shown : Option Bytes) :
    v.element shown = shown := by
  cases v with
  | string => exact absurd rfl h
  | _ => rfl

/-- The elements of an array, from what holds of each of them. -/
theorem exists_inspectElements {vs : List Value}
    (h : ∀ v ∈ vs, ∃ txt, (∀ module, v.element (v.inspectWith module) = some txt) ∧
      Denotes txt (·.EvaluatesTo v)) :
    ∃ txts, (∀ module, inspectElements module vs = some txts) ∧
      List.Forall₂ Denotes txts (vs.map fun v a => a.EvaluatesTo v) := by
  induction vs with
  | nil => exact ⟨[], fun _ => rfl, .nil⟩
  | cons v vs ih =>
    obtain ⟨⟨txt, hshown, htxt⟩, hvs⟩ := List.forall_mem_cons.mp h
    obtain ⟨txts, hshowns, htxts⟩ := ih hvs
    refine ⟨txt :: txts, fun module => ?_, .cons htxt htxts⟩
    rw [inspectElements, hshown, hshowns]
    rfl

/-- The entries of a hash, from what holds of each key and each value. -/
theorem exists_inspectPairs {entries : Table Key (Value × Value)}
    (hkeys : ∀ e ∈ entries, ∃ txt, (∀ module, e.2.1.element (e.2.1.inspectWith module) = some txt) ∧
      Denotes txt (·.EvaluatesTo e.2.1))
    (hvalues : ∀ e ∈ entries, ∃ txt,
      (∀ module, e.2.2.element (e.2.2.inspectWith module) = some txt) ∧
      Denotes txt (·.EvaluatesTo e.2.2)) :
    ∃ shown : Table Key (Bytes × Bytes), shown.keys = Table.keys entries ∧
      (∀ module, inspectPairs module entries =
        some (shown.map fun e => (e.1, e.2.1 ++ text ": " ++ e.2.2))) ∧
      List.Forall₂ (fun pair P => Denotes pair.1 P.1 ∧ Denotes pair.2 P.2) (shown.map Prod.snd)
        (entries.map fun e => ((·.EvaluatesTo e.2.1), (·.EvaluatesTo e.2.2))) := by
  induction entries with
  | nil => exact ⟨[], rfl, fun _ => rfl, .nil⟩
  | cons e entries ih =>
    obtain ⟨key, k, v⟩ := e
    obtain ⟨⟨ktxt, hk, hkdenotes⟩, hkeys⟩ := List.forall_mem_cons.mp hkeys
    obtain ⟨⟨vtxt, hv, hvdenotes⟩, hvalues⟩ := List.forall_mem_cons.mp hvalues
    obtain ⟨shown, hsame, hshown, hpairs⟩ := ih hkeys hvalues
    refine ⟨(key, ktxt, vtxt) :: shown, congrArg (key :: ·) hsame, fun module => ?_,
      .cons ⟨hkdenotes, hvdenotes⟩ hpairs⟩
    rw [inspectPairs, hk, hv, hshown]
    rfl

/-- What is shown for data inside other data denotes it. -/
theorem Value.IsData.denotes {v : Value} (h : v.IsData) :
    ∃ txt, (∀ module, v.element (v.inspectWith module) = some txt) ∧
      Denotes txt (·.EvaluatesTo v) := by
  induction h with
  | integer h => exact ⟨_, fun _ => rfl, denotes_integer h⟩
  | boolean b => exact ⟨_, fun _ => rfl, denotes_boolean b⟩
  | string h => exact ⟨_, fun _ => rfl, denotes_string h⟩
  | @array stamp elements hdata ih =>
    obtain ⟨txts, hshown, htxts⟩ := exists_inspectElements ih
    refine ⟨_, fun module => ?_, (denotes_array htxts).imp ?_⟩
    · rw [element_of_kind_ne (by simp [kind]), inspectWith, hshown, Option.map_some]
    · rintro _ ⟨pos, es, rfl, hes⟩
      exact evaluatesTo_array pos stamp (List.forall₂_map_left_iff.mp hes).flip hdata
  | @hash stamp entries hfiled hordered hdistinct _ hvalues ihkeys ihvalues =>
    obtain ⟨shown, hsame, hshown, hpairs⟩ := exists_inspectPairs ihkeys ihvalues
    refine ⟨_, fun module => ?_, (denotes_hash hpairs).imp ?_⟩
    · -- The texts stand in the order of the keys, which is that of the table.
      have hkeys : entries.order =
        Table.keys (shown.map fun e => (e.1, e.2.1 ++ text ": " ++ e.2.2)) := by
        rw [hordered, ← hsame, Table.keys, Table.keys, List.map_map]
        rfl
      rw [element_of_kind_ne (by simp [kind]), inspectWith, hshown, Option.map_some, hkeys,
        Table.filterMap_get?_keys (hkeys ▸ hdistinct), List.map_map, List.map_map]
      rfl
    · rintro _ ⟨pos, es, rfl, hes⟩
      exact evaluatesTo_hash pos stamp (List.forall₂_map_left_iff.mp hes).flip hfiled hordered
        hdistinct hvalues

/-- The text of data that is no text itself is a source. It is read without a fault, and its program
evaluates to the data in every world and scope, with the entries of hashes in the same order. The
scopes stay as they are. -/
theorem evaluates_inspect {v : Value} (hdata : v.IsData) (hkind : v.kind ≠ .string) :
    ∃ src, (∀ scopes : Scopes, scopes.inspect v = some src) ∧ (parse src).diagnostics = [] ∧
      ∀ (it : Interpreter) (scope : ScopeId) (w : World) (bound : Nat), v.nesting + 4 ≤ bound →
        ∃ r w', it.eval bound (.program (parse src).program) scope w = some (r, w') ∧
          w'.scopes = w.scopes ∧ r.unstamped = v.unstamped := by
  obtain ⟨src, hshown, hdenotes⟩ := hdata.denotes
  obtain ⟨first, e, hparse, he⟩ := hdenotes.parse
  refine ⟨src, fun scopes => ?_, by rw [hparse], fun it scope w bound hbound => ?_⟩
  · rw [Scopes.inspect, Value.inspect, ← Value.element_of_kind_ne hkind (v.inspectWith _)]
    exact hshown _
  · rw [hparse]
    exact gives_program he hdata it scope first hbound w

/-- A hash with a key of each kind, and with a negative number, a text, an array and an empty hash
in it. -/
def inventory : Value :=
  .hash 5 {
    order := [⟨.integer, 3⟩, ⟨.string, digest (text "k")⟩, ⟨.boolean, 0⟩]
    pairs :=
      [(⟨.integer, 3⟩, .integer 3, .array 4 [.boolean true, .string (text "a b"), .integer (-12)]),
      (⟨.string, digest (text "k")⟩, .string (text "k"), .hash 2 {}),
      (⟨.boolean, 0⟩, .boolean false, .integer 0)] }

/-- The sample is data. -/
theorem inventory_isData : inventory.IsData := by
  have hkey : (Value.string (text "k")).IsData := .string (List.all_eq_true.mp (by decide))
  have htext : (Value.string (text "a b")).IsData := .string (List.all_eq_true.mp (by decide))
  refine .hash (by unfold Entries.Filed; decide +kernel) rfl (by decide +kernel) ?_ ?_
  · refine List.forall_mem_cons.mpr ⟨.integer (by decide), List.forall_mem_cons.mpr ⟨hkey, ?_⟩⟩
    exact List.forall_mem_singleton.mpr (.boolean false)
  · have hempty : (Value.hash 2 {}).IsData := .hash nofun rfl .nil nofun nofun
    have harray : (Value.array 4 [.boolean true, .string (text "a b"), .integer (-12)]).IsData := by
      refine .array (List.forall_mem_cons.mpr ⟨.boolean true, List.forall_mem_cons.mpr ⟨htext, ?_⟩⟩)
      exact List.forall_mem_singleton.mpr (.integer (by decide))
    refine List.forall_mem_cons.mpr ⟨harray, List.forall_mem_cons.mpr ⟨hempty, ?_⟩⟩
    exact List.forall_mem_singleton.mpr (.integer (by decide))

/-- A nested sample, which is written and read back. -/
theorem evaluates_inspect_inventory : inventory.IsData ∧ inventory.kind ≠ .string ∧
    ∃ src, (∀ scopes : Scopes, scopes.inspect inventory = some src) ∧ (parse src).diagnostics = [] ∧
      ∀ (it : Interpreter) (scope : ScopeId) (w : World) (bound : Nat),
        inventory.nesting + 4 ≤ bound →
        ∃ r w', it.eval bound (.program (parse src).program) scope w = some (r, w') ∧
          w'.scopes = w.scopes ∧ r.unstamped = inventory.unstamped :=
  ⟨inventory_isData, by decide, evaluates_inspect inventory_isData (by decide)⟩

end Rill
