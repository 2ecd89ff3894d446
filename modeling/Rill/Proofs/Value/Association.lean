import Rill.Eval
import Rill.Proofs.Run.Quiet
import Rill.Proofs.Table

/-!
# Hashes as association lists

The entries of a hash are a table of pairs and, beside it, the order of its keys. To a program they
look like one list of pairs, in which a key is found by what it is filed under.

* `Assoc`: such lists. Putting a key that is there replaces its pair, and a new key goes to the end.
* `Entries.InStep`: the order and the table fit together, and every key is filed. Then the table of
  a copy is known (`InStep.copy_eq`), since every key is filed again where it came from.
* `Entries.Built`: the entries of the hashes that literals, `put` and `remove` make, each with the
  list that the same operations make.
* `Entries.Built.refines`: under everything that a program can do with a hash, its entries behave
  like that list.
-/

namespace Rill

/-! ## Association lists -/

/-- Pairs of a key and a value. -/
abbrev Assoc := List (Value × Value)

namespace Assoc

/-- The value under a key. -/
def get? (k : Value) (list : Assoc) : Option Value :=
  (list.find? fun pair => pair.1.key? = k.key?).map Prod.snd

/-- Puts a value under a key: in the place of the pair with that key, or else at the end. -/
def put (k v : Value) (list : Assoc) : Assoc :=
  if list.any fun pair => pair.1.key? = k.key? then
    list.map fun pair => if pair.1.key? = k.key? then (k, v) else pair
  else list ++ [(k, v)]

/-- Drops the pair with a key. -/
def remove (k : Value) (list : Assoc) : Assoc := list.filter fun pair => pair.1.key? ≠ k.key?

/-- Puts pairs one after the other. -/
def putAll (list : Assoc) (pairs : List (Value × Value)) : Assoc :=
  pairs.foldl (fun list pair => list.put pair.1 pair.2) list

end Assoc

/-! ## Entries in step -/

namespace Entries

variable {entries : Entries} {key : Key} {k v : Value}

/-- The order is that of the table, no key has two entries, and every key is filed under what it
is. -/
structure InStep (entries : Entries) : Prop where
  order_eq : entries.order = Table.keys entries.pairs
  nodup : entries.order.Nodup
  filed : entries.Filed

/-- A new key is put behind those that are there. -/
theorem insert_of_not_mem (h : key ∉ Table.keys entries.pairs) :
    entries.insert key k v = ⟨entries.order ++ [key], entries.pairs ++ [(key, k, v)]⟩ := by
  rw [insert, if_neg (mt Table.has_iff.mp h), Table.put_of_not_mem h]

/-- The table without the entry of a key. -/
def kept (skip : Option Key) (pairs : Table Key (Value × Value)) : Table Key (Value × Value) :=
  pairs.filter fun e => skip ≠ some e.1

theorem kept_none (pairs : Table Key (Value × Value)) : kept none pairs = pairs :=
  List.filter_eq_self.mpr fun _ _ => rfl

/-- What was put under a key is dropped with it. -/
theorem kept_put (pairs : Table Key (Value × Value)) :
    kept (some key) (Table.put key (k, v) pairs) = kept (some key) pairs := by
  induction pairs with
  | nil => simp [Table.put, kept]
  | cons e pairs ih =>
    obtain ⟨key', pair⟩ := e
    rw [Table.put]
    split
    next hkey => simp [kept, hkey]
    next =>
      rw [kept, kept] at ih
      rw [kept, kept, List.filter_cons, List.filter_cons, ih]

/-! ### The table as a list -/

section Table

variable {pairs : Table Key (Value × Value)}

/-- The pair with a key is found in the table under what the key is filed under. -/
theorem find?_values (hpairs : ∀ e ∈ pairs, e.2.1.key? = some e.1) (hkey : k.key? = some key) :
    ((pairs.map Prod.snd).find? fun pair => pair.1.key? = k.key?) = Table.get? key pairs := by
  induction pairs with
  | nil => rfl
  | cons e pairs ih =>
    obtain ⟨key', pair⟩ := e
    obtain ⟨he, hpairs⟩ := List.forall_mem_cons.mp hpairs
    rw [List.map_cons, List.find?_cons, Table.get?, ih hpairs]
    by_cases h : key' = key <;> simp [h, he, hkey]

/-- The table without an entry has the pairs of the list without it. -/
theorem values_kept (hpairs : ∀ e ∈ pairs, e.2.1.key? = some e.1) (hkey : k.key? = some key) :
    (kept (some key) pairs).map Prod.snd = Assoc.remove k (pairs.map Prod.snd) := by
  rw [kept, Assoc.remove, List.filter_map]
  congr 1
  refine List.filter_congr fun e he => ?_
  simp [hpairs e he, hkey, eq_comm]

/-- Putting an entry into the table is putting the pair into the list. -/
theorem values_put (hpairs : ∀ e ∈ pairs, e.2.1.key? = some e.1) (hnodup : (Table.keys pairs).Nodup)
    (hkey : k.key? = some key) :
    (Table.put key (k, v) pairs).map Prod.snd = Assoc.put k v (pairs.map Prod.snd) := by
  have hany : ((pairs.map Prod.snd).any fun pair => pair.1.key? = k.key?) = true ↔
    key ∈ Table.keys pairs := by
    rw [← Table.has_iff, Table.has, ← find?_values hpairs hkey, List.find?_isSome, List.any_eq_true]
  by_cases hmem : key ∈ Table.keys pairs
  -- The table and the list both keep the place of the key.
  · rw [Assoc.put, if_pos (hany.mpr hmem), Table.put_eq_map hnodup hmem, List.map_map, List.map_map]
    refine List.map_congr_left fun e he => ?_
    by_cases h : e.1 = key <;> simp [h, hpairs e he, hkey]
  · rw [Assoc.put, if_neg (mt hany.mp hmem), Table.put_of_not_mem hmem, List.map_append]
    rfl

end Table

namespace InStep

theorem empty : InStep empty := ⟨rfl, .nil, List.forall_mem_nil _⟩

/-- An entry that is put keeps entries in step. -/
theorem insert (h : entries.InStep) (hkey : k.key? = some key) :
    (entries.insert key k v).InStep := by
  obtain ⟨horder, hnodup, hfiled⟩ := h
  rw [horder] at hnodup
  have horder' : (entries.insert key k v).order =
    Table.keys (Table.put key (k, v) entries.pairs) := by
    by_cases hmem : key ∈ Table.keys entries.pairs
    · rw [Entries.insert, if_pos (Table.has_iff.mpr hmem), horder, Table.keys_put_of_mem hmem]
    · rw [insert_of_not_mem hmem, Table.put_of_not_mem hmem, horder, Table.keys, Table.keys,
        List.map_append]
      rfl
  refine ⟨horder', ?_, fun e he => ?_⟩
  · rw [horder']
    exact Table.nodup_keys_put hnodup
  · rcases Table.mem_put he with rfl | he
    · exact hkey
    · exact hfiled e he

/-- In step, the ordered pairs are those of the table. -/
theorem ordered_eq (h : entries.InStep) : entries.ordered = entries.pairs.map Prod.snd := by
  rw [ordered, h.order_eq]
  exact Table.filterMap_get?_keys (h.order_eq ▸ h.nodup)

/-- In step, putting an entry is putting the pair into the list. -/
theorem ordered_insert (h : entries.InStep) (hkey : k.key? = some key) :
    (entries.insert key k v).ordered = Assoc.put k v entries.ordered := by
  rw [(h.insert hkey).ordered_eq, h.ordered_eq]
  exact values_put h.filed (h.order_eq ▸ h.nodup) hkey

/-- In step, looking a key up is looking it up in the list. -/
theorem lookup_eq (h : entries.InStep) (hkey : k.key? = some key) :
    entries.lookup key = Assoc.get? k entries.ordered := by
  rw [lookup, Assoc.get?, h.ordered_eq, find?_values h.filed hkey]

end InStep

/-- Filing pairs behind others whose keys are not among theirs. Every key goes where it came
from. -/
theorem refile_eq {skip : Option Key} {filed : Entries} {rest : Table Key (Value × Value)}
    (hrest : ∀ e ∈ rest, e.2.1.key? = some e.1)
    (hnodup : (Table.keys (filed.pairs ++ rest)).Nodup) :
    refile skip filed (rest.map Prod.snd) =
      .ok ⟨filed.order ++ Table.keys (kept skip rest), filed.pairs ++ kept skip rest⟩ := by
  induction rest generalizing filed with
  | nil =>
    simp [refile, kept, Table.keys]
  | cons e rest ih =>
    obtain ⟨key, k, v⟩ := e
    obtain ⟨hkey, hrest⟩ := List.forall_mem_cons.mp hrest
    rw [List.map_cons, refile, hkey]
    dsimp only
    have hkeys : (Table.keys filed.pairs ++ key :: Table.keys rest).Nodup := by
      simpa [Table.keys] using hnodup
    split
    next hskip =>
      have hkept : kept skip ((key, k, v) :: rest) = kept skip rest := by simp [kept, hskip]
      have hnodup : (Table.keys (filed.pairs ++ rest)).Nodup := by
        refine hkeys.sublist ?_
        simp [Table.keys]
      rw [ih hrest hnodup, hkept]
    next hskip =>
      have hkept : kept skip ((key, k, v) :: rest) = (key, k, v) :: kept skip rest := by
        simp [kept, hskip]
      -- No key was filed before, so the entry goes to the end.
      have hfresh : key ∉ Table.keys filed.pairs := fun hmem =>
        (List.nodup_append.mp hkeys).2.2 key hmem key List.mem_cons_self rfl
      have hnodup : (Table.keys (filed.pairs ++ [(key, k, v)] ++ rest)).Nodup := by
        simpa [Table.keys] using hkeys
      rw [insert_of_not_mem hfresh, ih hrest hnodup, hkept]
      simp [Table.keys]

/-- A copy is known, and every key goes where it came from. -/
theorem InStep.copy_eq (h : entries.InStep) (skip : Option Key) :
    entries.copy skip = .ok ⟨Table.keys (kept skip entries.pairs), kept skip entries.pairs⟩ := by
  rw [copy, h.ordered_eq]
  exact refile_eq h.filed (h.order_eq ▸ h.nodup)

/-- In step, a copy has the same entries: every key of the order has one. -/
theorem InStep.copy_none (h : entries.InStep) : entries.copy none = .ok entries := by
  rw [h.copy_eq, kept_none, ← h.order_eq]

/-- The entries without that of a key. -/
def without (key : Key) (entries : Entries) : Entries :=
  ⟨Table.keys (kept (some key) entries.pairs), kept (some key) entries.pairs⟩

/-- Dropping an entry keeps entries in step. -/
theorem InStep.without (h : entries.InStep) (key : Key) : (entries.without key).InStep := by
  refine ⟨rfl, ?_, fun e he => h.filed e (List.mem_of_mem_filter he)⟩
  exact (h.order_eq ▸ h.nodup).sublist (List.filter_sublist.map _)

/-- In step, dropping an entry is dropping the pair from the list. -/
theorem InStep.ordered_without (h : entries.InStep) (hkey : k.key? = some key) :
    (entries.without key).ordered = Assoc.remove k entries.ordered := by
  rw [(h.without key).ordered_eq, h.ordered_eq]
  exact values_kept h.filed hkey

/-- What was put under a key is dropped with it. -/
theorem without_insert (entries : Entries) :
    (entries.insert key k v).without key = entries.without key := by
  rw [Entries.without, Entries.without, Entries.insert, kept_put]

end Entries

/-! ## What a program does with hashes -/

section Calls

variable {entries : Entries} {key : Key} {k v : Value}

/-- The builtin for putting makes a hash with the entry put. -/
theorem Builtin.put_eq (h : entries.InStep) (hkey : k.key? = some key) (stamp : Stamp) :
    put [.hash stamp entries, k, v] = Run.hash (entries.insert key k v) := by
  rw [put, hkey]
  dsimp only
  rw [onCopy, h.copy_none]

/-- The builtin for removing makes a hash without the entry. -/
theorem Builtin.remove_eq (h : entries.InStep) (hkey : k.key? = some key) (stamp : Stamp) :
    remove [.hash stamp entries, k] = Run.hash (entries.without key) := by
  rw [remove, hkey]
  dsimp only
  rw [onCopy, h.copy_eq]
  rfl

/-- What the pairs of a literal evaluate to, one after the other, as far as they have values. -/
def literalPairs (self : Evaluator) (scope : ScopeId) : List (Expr × Expr) → World → Assoc
  | [], _ => []
  | (e, e') :: pairs, w =>
    match self (.expr e) scope w with
    | none => []
    | some (k, w₁) =>
      match self (.expr e') scope w₁ with
      | none => []
      | some (v, w₂) => (k, v) :: literalPairs self scope pairs w₂

/-- A literal puts its pairs one after the other. -/
theorem inStep_of_evalPairs {self : Evaluator} {scope : ScopeId} {pairs : List (Expr × Expr)}
    {w w' : World} {filed : Entries} {stamp : Stamp} (hfiled : filed.InStep)
    (hrun : Interpreter.evalPairs self scope filed pairs w = some (.hash stamp entries, w')) :
    entries.InStep ∧ entries.ordered =
      Assoc.putAll filed.ordered (literalPairs self scope pairs w) := by
  induction pairs generalizing filed w with
  | nil =>
    cases hrun
    exact ⟨hfiled, rfl⟩
  | cons pair pairs ih =>
    -- The result is a hash, so neither the key nor the value was an error.
    obtain ⟨e, e'⟩ := pair
    rw [Interpreter.evalPairs] at hrun
    obtain ⟨k, w₁, hk, hrun⟩ := Run.exists_of_bind_eq_some hrun
    split at hrun
    next => cases hrun
    next =>
      cases hkey : k.key? with
      | none =>
        simp only [hkey] at hrun
        cases hrun
      | some key =>
        simp only [hkey] at hrun
        obtain ⟨v, w₂, hv, hrun⟩ := Run.exists_of_bind_eq_some hrun
        split at hrun
        next => cases hrun
        next =>
          obtain ⟨hentries, hordered⟩ := ih (hfiled.insert hkey) hrun
          refine ⟨hentries, ?_⟩
          rw [hordered, hfiled.ordered_insert hkey, literalPairs, hk]
          dsimp only
          rw [hv]
          rfl

end Calls

/-! ## Refinement -/

namespace Entries

/-- The entries that literals, `put` and `remove` make, and those that keys are put into one by one.
Each comes with the list that the same operations make. -/
inductive Built : Entries → Assoc → Prop where
  | empty : Built .empty []
  | insert {entries : Entries} {list : Assoc} {key : Key} {k : Value} (v : Value)
      (h : Built entries list)
      (hkey : k.key? = some key) : Built (entries.insert key k v) (list.put k v)
  | literal {self : Evaluator} {scope : ScopeId} {pairs : List (Expr × Expr)} {w w' : World}
      {stamp : Stamp}
      {entries : Entries}
      (hrun : Interpreter.evalPairs self scope .empty pairs w = some (.hash stamp entries, w')) :
      Built entries (Assoc.putAll [] (literalPairs self scope pairs w))
  | put {entries entries' : Entries} {list : Assoc} {k v : Value} {stamp stamp' : Stamp}
      {w w' : World} (h : Built entries list)
      (hrun : Builtin.put [.hash stamp entries, k, v] w = some (.hash stamp' entries', w')) :
      Built entries' (list.put k v)
  | remove {entries entries' : Entries} {list : Assoc} {k : Value} {stamp stamp' : Stamp}
      {w w' : World} (h : Built entries list)
      (hrun : Builtin.remove [.hash stamp entries, k] w = some (.hash stamp' entries', w')) :
      Built entries' (list.remove k)

/-- To a program, a hash with these entries is the list. -/
structure Refines (entries : Entries) (list : Assoc) : Prop where
  /-- The order has no key twice. -/
  nodup : entries.order.Nodup
  /-- The order has exactly the keys of the table. -/
  listed : ∀ key, key ∈ entries.order ↔ Table.has key entries.pairs = true
  /-- Every key is filed under what it is. -/
  filed : entries.Filed
  size_eq : entries.size = list.length
  lookup_eq : ∀ k key, k.key? = some key → entries.lookup key = list.get? k
  len_eq : ∀ stamp, Builtin.len [.hash stamp entries] = .integer (Int64.ofNat list.length)
  index_eq : ∀ stamp k, k.key? ≠ none →
    Value.index (.hash stamp entries) k = (list.get? k).getD .null
  keys_eq : ∀ stamp, Builtin.keys [.hash stamp entries] = Run.array (list.map Prod.fst)
  values_eq : ∀ stamp, Builtin.values [.hash stamp entries] = Run.array (list.map Prod.snd)
  /-- With a value under a key, a hash is the list with that value under that key. -/
  put_eq : ∀ stamp k v, k.key? ≠ none → ∃ entries',
    Builtin.put [.hash stamp entries, k, v] = Run.hash entries' ∧ entries'.Built (list.put k v)
  /-- Without a key, a hash is the list without that key. -/
  remove_eq : ∀ stamp k, k.key? ≠ none → ∃ entries',
    Builtin.remove [.hash stamp entries, k] = Run.hash entries' ∧ entries'.Built (list.remove k)
  /-- A copy is the same. -/
  copy_eq : entries.copy none = .ok entries
  /-- The values stand in the order of the keys under which they are found. -/
  pairing : ∀ (stamp : Stamp) (i : Nat) (k v : Value), (list.map Prod.fst)[i]? = some k →
    (list.map Prod.snd)[i]? = some v →
    Value.index (.hash stamp entries) k = v
  /-- Without a key it makes no difference that a value was put under it. -/
  remove_put : ∀ stamp stamp' k v, k.key? ≠ none → ∃ entries' removed,
    Builtin.put [.hash stamp entries, k, v] = Run.hash entries' ∧
      Builtin.remove [.hash stamp' entries', k] = Run.hash removed ∧
      Builtin.remove [.hash stamp entries, k] = Run.hash removed

namespace Built

variable {entries : Entries} {list : Assoc} {k v : Value}

/-- Entries that were built are in step, and their pairs are the list. -/
theorem inStep (h : entries.Built list) : entries.InStep ∧ entries.ordered = list := by
  induction h with
  | empty => exact ⟨.empty, rfl⟩
  | insert v _ hkey ih =>
    obtain ⟨hentries, rfl⟩ := ih
    exact ⟨hentries.insert hkey, hentries.ordered_insert hkey⟩
  | literal hrun => exact inStep_of_evalPairs .empty hrun
  | @put entries entries' list k v stamp stamp' w w' _ hrun ih =>
    obtain ⟨hentries, rfl⟩ := ih
    cases hkey : k.key? with
    -- A value that is no key gives an error and no hash, so nothing was built.
    | none =>
      rw [Builtin.put, hkey] at hrun
      cases hrun
    | some key =>
      rw [Builtin.put_eq hentries hkey] at hrun
      cases hrun
      exact ⟨hentries.insert hkey, hentries.ordered_insert hkey⟩
  | @remove entries entries' list k stamp stamp' w w' _ hrun ih =>
    obtain ⟨hentries, rfl⟩ := ih
    cases hkey : k.key? with
    | none =>
      rw [Builtin.remove, hkey] at hrun
      cases hrun
    | some key =>
      rw [Builtin.remove_eq hentries hkey] at hrun
      cases hrun
      exact ⟨hentries.without key, hentries.ordered_without hkey⟩

/-- Dropping an entry is one of the operations that build entries. -/
theorem without (h : entries.Built list) {key : Key} (hkey : k.key? = some key) :
    (entries.without key).Built (list.remove k) :=
  .remove h (congrFun (Builtin.remove_eq h.inStep.1 hkey 0) { files := ⟨[], [], #[]⟩ })

/-- What is found under a key that stands in the list. -/
theorem index_of_mem (h : entries.Built list) (hmem : (k, v) ∈ list) (stamp : Stamp) :
    Value.index (.hash stamp entries) k = v := by
  obtain ⟨hentries, rfl⟩ := h.inStep
  rw [hentries.ordered_eq] at hmem
  obtain ⟨⟨key, pair⟩, he, rfl⟩ := List.mem_map.mp hmem
  have hkey : k.key? = some key := hentries.filed _ he
  have hget : Table.get? key entries.pairs = some (k, v) :=
    Table.get?_of_mem (hentries.order_eq ▸ hentries.nodup) he
  rw [Value.index, hkey]
  dsimp only
  rw [lookup, hget]
  rfl

/-- However entries are made, the hash behaves like the list that the same operations make. -/
theorem refines (h : entries.Built list) : entries.Refines list := by
  obtain ⟨hentries, hordered⟩ := h.inStep
  have hsize : entries.size = list.length := by
    rw [← hordered, hentries.ordered_eq, size, hentries.order_eq, Table.keys, List.length_map,
      List.length_map]
  -- Indexing goes by the key of a value, and so does the list.
  have hindex : ∀ stamp k, k.key? ≠ none →
    Value.index (.hash stamp entries) k = (list.get? k).getD .null := by
    intro stamp k hk
    obtain ⟨key, hkey⟩ := Option.ne_none_iff_exists'.mp hk
    rw [Value.index, hkey]
    dsimp only
    rw [hentries.lookup_eq hkey, hordered]
  exact {
    nodup := hentries.nodup
    listed := fun key => by rw [hentries.order_eq, Table.has_iff]
    filed := hentries.filed
    size_eq := hsize
    lookup_eq := fun k key hkey => by rw [hentries.lookup_eq hkey, hordered]
    len_eq := fun stamp => by rw [Builtin.len, hsize]
    index_eq := hindex
    keys_eq := fun stamp => by rw [Builtin.keys, keyValues, hordered]
    values_eq := fun stamp => by rw [Builtin.values, values, hordered]
    put_eq := fun stamp k v hk => by
      obtain ⟨key, hkey⟩ := Option.ne_none_iff_exists'.mp hk
      exact ⟨_, Builtin.put_eq hentries hkey stamp, h.insert v hkey⟩
    remove_eq := fun stamp k hk => by
      obtain ⟨key, hkey⟩ := Option.ne_none_iff_exists'.mp hk
      exact ⟨_, Builtin.remove_eq hentries hkey stamp, h.without hkey⟩
    copy_eq := hentries.copy_none
    pairing := fun stamp i k v hk hv => by
      rw [List.getElem?_map, Option.map_eq_some_iff] at hk hv
      obtain ⟨pair, hpair, rfl⟩ := hk
      obtain ⟨pair', hpair', rfl⟩ := hv
      -- The key and the value stand at one place of the list, so they are one pair.
      cases hpair.symm.trans hpair'
      exact h.index_of_mem (List.mem_of_getElem? hpair) stamp
    remove_put := fun stamp stamp' k v hk => by
      obtain ⟨key, hkey⟩ := Option.ne_none_iff_exists'.mp hk
      refine ⟨_, _, Builtin.put_eq hentries hkey stamp, ?_, Builtin.remove_eq hentries hkey stamp⟩
      -- A pair that is put and then removed leaves what removing it at once leaves.
      rw [Builtin.remove_eq (hentries.insert hkey) hkey, without_insert] }

/-- The number 1 is put, then `true`, and then 1 again, which keeps its place. -/
theorem refines_replaced : ∃ entries : Entries,
    entries.Built [(.integer 1, .boolean false), (.boolean true, .null)] ∧
      entries.Refines [(.integer 1, .boolean false), (.boolean true, .null)] := by
  have hfirst := Built.insert (k := .integer 1) .null .empty rfl
  have hsecond := hfirst.insert (k := .boolean true) .null rfl
  have hput : Builtin.put [.hash 0 _, .integer 1, .boolean false] { files := ⟨[], [], #[]⟩ } = _ :=
    congrFun (Builtin.put_eq hsecond.inStep.1 rfl 0) _
  have hthird : Built _ [(.integer 1, .boolean false), (.boolean true, .null)] := .put hsecond hput
  exact ⟨_, hthird, hthird.refines⟩

end Built

end Entries

end Rill
