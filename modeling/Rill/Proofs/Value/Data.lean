import Mathlib.Data.List.Forall2
import Rill.Proofs.Text.Plain
import Rill.Proofs.Value.Association

/-!
# Data

Numbers, truth values and plain texts, and arrays and hashes of them. An expression that consists of
literals evaluates to data in every world, and to the same data up to identities.

* `Value.IsData`: the values that literals are written for.
* `Value.unstamped`: a value without identities. Values that are equal without them have the same
  structure.
* `Run.Gives`: a computation has a result in every world, and leaves the scopes as they are.
* `Expr.EvaluatesTo`: an expression gives a value, wherever it is evaluated.
* `evaluatesTo_array`, `evaluatesTo_hash`: literals of arrays and hashes, from those of their parts.
-/

namespace Rill

/-! ## Structure -/

/-- Whole numbers but the smallest one, truth values, texts of plain bytes, and arrays and hashes of
such values. The keys of a hash are filed, each under a `Key` of its own, and stand in order. -/
inductive Value.IsData : Value → Prop where
  | integer {n : Int64} (h : Int64.minValue < n) : IsData (.integer n)
  | boolean (b : Bool) : IsData (.boolean b)
  | string {s : Bytes} (h : ∀ b ∈ s, Bytes.isPlain b = true) : IsData (.string s)
  | array {stamp : Stamp} {elements : List Value} (h : ∀ v ∈ elements, IsData v) :
      IsData (.array stamp elements)
  | hash {stamp : Stamp} {entries : Entries} (hfiled : entries.Filed)
      (hordered : entries.order = Table.keys entries.pairs) (hdistinct : entries.order.Nodup)
      (hkeys : ∀ e ∈ entries.pairs, IsData e.2.1) (hvalues : ∀ e ∈ entries.pairs, IsData e.2.2) :
      IsData (.hash stamp entries)

mutual

/-- A value without identities. -/
def Value.unstamped : Value → Value
  | .array _ elements => .array 0 (unstampedAll elements)
  | .hash _ ⟨order, pairs⟩ => .hash 0 ⟨order, unstampedEntries pairs⟩
  | .function _ parameters body scope => .function 0 parameters body scope
  | .returned _ v => .returned 0 v.unstamped
  | v => v

/-- Values without identities. -/
def unstampedAll : List Value → List Value
  | [] => []
  | v :: vs => v.unstamped :: unstampedAll vs

/-- Entries without identities. -/
def unstampedEntries : List (Key × Value × Value) → List (Key × Value × Value)
  | [] => []
  | (key, k, v) :: entries => (key, k.unstamped, v.unstamped) :: unstampedEntries entries

end

mutual

/-- How deep arrays and hashes are nested. -/
def Value.nesting : Value → Nat
  | .array _ elements => nestingAll elements + 1
  | .hash _ ⟨_, pairs⟩ => nestingEntries pairs + 1
  | _ => 0

/-- How deep arrays and hashes are nested in some values. -/
def nestingAll : List Value → Nat
  | [] => 0
  | v :: vs => max v.nesting (nestingAll vs)

/-- How deep arrays and hashes are nested in some entries. -/
def nestingEntries : List (Key × Value × Value) → Nat
  | [] => 0
  | (_, k, v) :: entries => max (max k.nesting v.nesting) (nestingEntries entries)

end

theorem Value.kind_unstamped (v : Value) : v.unstamped.kind = v.kind := by cases v <;> rfl

/-- What a value is filed under does not depend on identities. -/
theorem Value.key?_unstamped (v : Value) : v.unstamped.key? = v.key? := by cases v <;> rfl

/-- Data is no fault, and neither ends a function nor a loop. -/
theorem Value.IsData.kind_ne {v : Value} (h : v.IsData) :
    v.kind ≠ .error ∧ v.kind ≠ .returned ∧ v.kind ≠ .broken := by
  cases h <;> simp [kind]

/-- Identities are removed from entries one by one. -/
theorem unstampedEntries_append (entries more : List (Key × Value × Value)) :
    unstampedEntries (entries ++ more) = unstampedEntries entries ++ unstampedEntries more := by
  induction entries with
  | nil => rfl
  | cons e entries ih =>
    obtain ⟨key, k, v⟩ := e
    rw [List.cons_append, unstampedEntries, unstampedEntries, ih, List.cons_append]

/-! ## Results in every world -/

namespace Run

variable {α β : Type} {x : Run α} {f : α → Run β} {Q Q' : α → Prop} {R : β → Prop}

/-- A computation has a result in every world, the result is as `Q` says, and the scopes stay as
they are. -/
def Gives (x : Run α) (Q : α → Prop) : Prop :=
  ∀ w, ∃ a w', x w = some (a, w') ∧ w'.scopes = w.scopes ∧ Q a

namespace Gives

/-- A result without a step is given, and changes no scope. -/
theorem pure {a : α} (h : Q a) : (Pure.pure a : Run α).Gives Q := fun w => ⟨a, w, rfl, rfl, h⟩

/-- A weaker statement about the result holds where a stronger one does. -/
theorem imp (h : x.Gives Q) (himp : ∀ a, Q a → Q' a) : x.Gives Q' := by
  intro w
  obtain ⟨a, w', ha, hscopes, hQ⟩ := h w
  exact ⟨a, w', ha, hscopes, himp a hQ⟩

/-- Computations that have results can be run one after the other. -/
theorem bind (hx : x.Gives Q) (hf : ∀ a, Q a → (f a).Gives R) : (x >>= f).Gives R := by
  intro w
  obtain ⟨a, w₁, ha, hscopes₁, hQ⟩ := hx w
  obtain ⟨b, w₂, hb, hscopes₂, hR⟩ := hf a hQ w₁
  exact ⟨b, w₂, by rw [bind_apply, ha]; exact hb, hscopes₂.trans hscopes₁, hR⟩

/-- A record that is taken first does not change the result. -/
theorem log_bind {level : Level} {message : String} {attributes : List (String × Attribute)}
    {y : Unit → Run β} (hy : (y ()).Gives R) : (log level message attributes >>= y).Gives R := by
  refine .bind (Q := fun _ => True) (fun w => ?_) fun _ _ => hy
  obtain ⟨hscopes, -, -⟩ := quiet_log level message attributes w _ _ rfl
  exact ⟨_, _, rfl, hscopes, trivial⟩

/-- An array is made of its elements, with a stamp of its own. -/
theorem array (elements : List Value) :
    (Run.array elements).Gives (∃ stamp, · = .array stamp elements) :=
  fun w => ⟨_, _, rfl, rfl, w.nextStamp, rfl⟩

/-- A hash is made of its entries, with a stamp of its own. -/
theorem hash (entries : Entries) : (Run.hash entries).Gives (∃ stamp, · = .hash stamp entries) :=
  fun w => ⟨_, _, rfl, rfl, w.nextStamp, rfl⟩

end Gives

end Run

/-! ## Literals -/

/-- An expression gives a value up to identities, whenever evaluations may nest deep enough for
it. -/
def Expr.EvaluatesTo (e : Expr) (v : Value) : Prop :=
  ∀ (it : Interpreter) (scope : ScopeId) (bound : Nat), v.nesting + 2 ≤ bound →
    (it.eval bound (.expr e) scope).Gives fun r => r.unstamped = v.unstamped

namespace Interpreter

variable {it : Interpreter} {scope : ScopeId} {bound : Nat} {Q : Value → Prop}

/-- An expression is evaluated behind its record. -/
theorem gives_expr {e : Expr} (h : (it.evalExpr bound (it.eval bound) scope e).Gives Q) :
    (it.eval (bound + 1) (.expr e) scope).Gives Q := .log_bind h

/-- The elements of an array. -/
theorem gives_evalAll {es : List Expr} {vs : List Value} (h : List.Forall₂ Expr.EvaluatesTo es vs)
    (hdata : ∀ v ∈ vs, v.IsData) (hbound : nestingAll vs + 2 ≤ bound) :
    (evalAll (it.eval bound) scope es).Gives fun r => ∃ rs, r = .ok rs ∧
      unstampedAll rs = unstampedAll vs := by
  induction h with
  | nil => exact .pure ⟨[], rfl, rfl⟩
  | @cons e v es vs he hes ih =>
    obtain ⟨hv, hvs⟩ := List.forall_mem_cons.mp hdata
    rw [nestingAll] at hbound
    rw [evalAll]
    refine .bind (he it scope bound (by omega)) fun r hr => ?_
    split
    -- The element is data, so it is no fault that would end the array.
    next fault => exact absurd (by rw [← v.kind_unstamped, ← hr]; rfl) hv.kind_ne.1
    next =>
      refine .bind (ih hvs (by omega)) ?_
      rintro _ ⟨rs, rfl, hrs⟩
      exact .pure ⟨r :: rs, rfl, by rw [unstampedAll, unstampedAll, hr, hrs]⟩

/-- The pairs of a hash, behind the entries `filed` that are there already. -/
theorem gives_evalPairs {pairs : List (Expr × Expr)} {rest : Table Key (Value × Value)}
    (filed : Entries)
    (h : List.Forall₂ (fun pair e => pair.1.EvaluatesTo e.2.1 ∧
    pair.2.EvaluatesTo e.2.2) pairs rest)
    (hfiled : ∀ e ∈ rest, e.2.1.key? = some e.1) (hvalues : ∀ e ∈ rest, e.2.2.IsData)
    (hdistinct : (Table.keys (filed.pairs ++ rest)).Nodup)
    (hbound : nestingEntries rest + 2 ≤ bound) :
    (evalPairs (it.eval bound) scope filed pairs).Gives fun r =>
      r.unstamped = .hash 0 ⟨filed.order ++ Table.keys rest,
        unstampedEntries filed.pairs ++ unstampedEntries rest⟩ := by
  induction h generalizing filed with
  | nil =>
    refine (Run.Gives.hash filed).imp ?_
    rintro _ ⟨stamp, rfl⟩
    rw [Value.unstamped, unstampedEntries, List.append_nil, Table.keys, List.map_nil,
      List.append_nil]
  | @cons pair e pairs rest hpair hpairs ih =>
    obtain ⟨key, k, v⟩ := e
    obtain ⟨hkey, hfiled⟩ := List.forall_mem_cons.mp hfiled
    obtain ⟨hv, hvalues⟩ := List.forall_mem_cons.mp hvalues
    rw [nestingEntries] at hbound
    rw [evalPairs]
    refine .bind (hpair.1 it scope bound (by dsimp only; omega)) fun r hr => ?_
    -- A key is filed under the same `Key` whatever its identity. A fault has none.
    have hkey : r.key? = some key := by
      rw [← r.key?_unstamped, hr, Value.key?_unstamped]; exact hkey
    split
    next fault => cases hkey
    next =>
      rw [hkey]
      dsimp only
      refine .bind (hpair.2 it scope bound (by dsimp only; omega)) fun r' hr' => ?_
      split
      next fault => exact absurd (by rw [← v.kind_unstamped, ← hr']; rfl) hv.kind_ne.1
      next =>
        -- Keys are distinct, so the entry is put behind those that are there.
        have hkeys : ∀ k v, Table.keys (filed.pairs ++ [(key, k, v)] ++ rest) =
            Table.keys filed.pairs ++ key :: Table.keys rest := by
          intro k v
          simp [Table.keys]
        have hdistinct : (Table.keys filed.pairs ++ key :: Table.keys rest).Nodup := by
          rw [← hkeys k v, List.append_assoc]
          exact hdistinct
        have hfresh : key ∉ Table.keys filed.pairs := fun hmem =>
          (List.nodup_append.mp hdistinct).2.2 key hmem key List.mem_cons_self rfl
        rw [Entries.insert_of_not_mem hfresh]
        refine (ih _ hfiled hvalues (by rwa [hkeys]) (by omega)).imp fun r'' hr'' => ?_
        rw [hr'', unstampedEntries_append, List.append_assoc, List.append_assoc, unstampedEntries,
          unstampedEntries, hr, hr', unstampedEntries]
        rfl

end Interpreter

open Interpreter

/-- An expression evaluates to a value if it does so behind its record, whenever evaluations may
nest deep enough. -/
theorem Expr.EvaluatesTo.of_evalExpr {e : Expr} {v : Value}
    (h : ∀ (it : Interpreter) (scope : ScopeId) (bound : Nat), v.nesting + 1 ≤ bound →
      (it.evalExpr bound (it.eval bound) scope e).Gives fun r => r.unstamped = v.unstamped) :
    e.EvaluatesTo v := by
  rintro it scope (_ | bound) hbound
  · exact absurd hbound (Nat.not_succ_le_zero _)
  · exact gives_expr (h it scope bound (by omega))

/-- The literal of a whole number evaluates to it. -/
theorem evaluatesTo_integer (pos : Nat) (spelling : Bytes) (n : Int64) :
    (Expr.integer pos spelling n).EvaluatesTo (.integer n) :=
  .of_evalExpr fun _ _ _ _ => .pure rfl

/-- A whole number with a sign evaluates to its negative. -/
theorem evaluatesTo_negated (pos pos' : Nat) (spelling : Bytes) (n : Int64) :
    (Expr.prefixed pos .negate (.integer pos' spelling n)).EvaluatesTo (.integer (-n)) := by
  refine .of_evalExpr fun it scope bound hbound => ?_
  obtain ⟨bound, rfl⟩ : ∃ k, bound = k + 1 := ⟨bound - 1, by omega⟩
  have hoperand : (it.eval (bound + 1) (.expr (.integer pos' spelling n)) scope).Gives
    (· = .integer n) :=
    gives_expr (.pure rfl)
  refine .bind hoperand ?_
  rintro _ rfl
  exact .pure rfl

/-- The literal of a truth value evaluates to it. -/
theorem evaluatesTo_boolean (pos : Nat) (b : Bool) :
    (Expr.boolean pos b).EvaluatesTo (.boolean b) :=
  .of_evalExpr fun _ _ _ _ => .pure rfl

/-- The literal of a text evaluates to it. -/
theorem evaluatesTo_string (pos : Nat) (s : Bytes) : (Expr.string pos s).EvaluatesTo (.string s) :=
  .of_evalExpr fun _ _ _ _ => .pure rfl

/-- An array literal evaluates to the array of what its elements evaluate to. -/
theorem evaluatesTo_array {es : List Expr} {vs : List Value} (pos : Nat) (stamp : Stamp)
    (h : List.Forall₂ Expr.EvaluatesTo es vs) (hdata : ∀ v ∈ vs, v.IsData) :
    (Expr.array pos es).EvaluatesTo (.array stamp vs) := by
  refine .of_evalExpr fun it scope bound hbound => ?_
  rw [Value.nesting] at hbound
  refine .bind (gives_evalAll h hdata (by omega)) ?_
  rintro _ ⟨rs, rfl, hrs⟩
  refine (Run.Gives.array rs).imp ?_
  rintro _ ⟨stamp', rfl⟩
  rw [Value.unstamped, Value.unstamped, hrs]

/-- A hash literal evaluates to the hash of what its keys and values evaluate to, as no pair takes
the place of another. -/
theorem evaluatesTo_hash {pairs : List (Expr × Expr)} {entries : Entries} (pos : Nat)
    (stamp : Stamp)
    (h : List.Forall₂ (fun pair e => pair.1.EvaluatesTo e.2.1 ∧ pair.2.EvaluatesTo e.2.2) pairs
    entries.pairs) (hfiled : entries.Filed) (hordered : entries.order = Table.keys entries.pairs)
    (hdistinct : entries.order.Nodup) (hvalues : ∀ e ∈ entries.pairs, e.2.2.IsData) :
    (Expr.hash pos pairs).EvaluatesTo (.hash stamp entries) := by
  refine .of_evalExpr fun it scope bound hbound => ?_
  rw [Value.nesting] at hbound
  rw [hordered] at hdistinct
  refine (gives_evalPairs .empty h hfiled hvalues hdistinct (by omega)).imp fun r hr => ?_
  rw [hr, Value.unstamped, hordered]
  rfl

/-- A program that consists of one literal. -/
theorem gives_program {e : Expr} {v : Value} (h : e.EvaluatesTo v) (hdata : v.IsData)
    (it : Interpreter) (scope : ScopeId) (first : Token) {bound : Nat}
    (hbound : v.nesting + 4 ≤ bound) :
    (it.eval bound (.program ⟨[.expression first e]⟩) scope).Gives fun r =>
      r.unstamped = v.unstamped := by
  obtain ⟨bound, rfl⟩ : ∃ k, bound = k + 2 := ⟨bound - 2, by omega⟩
  have hstatement : (it.eval (bound + 1) (.stmt (.expression first e)) scope).Gives fun r =>
      r.unstamped = v.unstamped := .log_bind (h it scope bound (by omega))
  have hprogram :
    (evalProgram (it.eval (bound + 1)) scope .null [.expression first e]).Gives fun r =>
      r.unstamped = v.unstamped := by
    rw [evalProgram]
    refine .bind hstatement fun r hr => ?_
    have hkind : r.kind = v.kind := by rw [← r.kind_unstamped, hr, v.kind_unstamped]
    obtain ⟨herror, hreturned, hbroken⟩ := hdata.kind_ne
    -- Data does not end a program early, and as the last result it is that of the program.
    split
    next => exact absurd hkind.symm hreturned
    next => exact absurd hkind.symm herror
    next => exact absurd hkind.symm hbroken
    next => exact .pure hr
  exact .log_bind hprogram

end Rill
