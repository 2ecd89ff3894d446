import Rill.Proofs.Decimal.Zero
import Rill.Proofs.Value.Association

/-!
# Keys that share an entry

A hash files a key under its kind and a digest, and never compares the keys themselves. Equal keys
have one entry. The other way round, keys with one entry are equal but for texts: there are more
texts than digests, and different texts with one digest take each other's place.

* `toNat_digest`: the digest of a text is its FNV-1a digest of 64 bits.
* `Value.key?_eq_key?_iff`: keys are filed alike exactly if they are equal or collide.
* `Entries.Built.put_shared`: what a `put` does to the value under another key and to the length.
-/

namespace Rill

/-! ## Digests -/

/-- The FNV-1a digest of 64 bits in natural numbers. -/
def fnv1a (s : Bytes) : Nat :=
  s.foldl (fun h b => (h ^^^ b.toNat) * (2 ^ 40 + 2 ^ 8 + 0xb3) % 2 ^ 64) 14695981039346656037

/-- Every byte is taken in as the digest has it. -/
theorem toNat_foldl_digest (s : Bytes) (h : UInt64) :
    (s.foldl (fun h b => (h ^^^ b.toUInt64) * 1099511628211) h).toNat =
      s.foldl (fun h b => (h ^^^ b.toNat) * (2 ^ 40 + 2 ^ 8 + 0xb3) % 2 ^ 64) h.toNat := by
  induction s generalizing h with
  | nil => rfl
  | cons b s ih =>
    rw [List.foldl_cons, List.foldl_cons, ih, UInt64.toNat_mul, UInt64.toNat_xor,
      UInt8.toNat_toUInt64]
    rfl

theorem toNat_digest (s : Bytes) : (digest s).toNat = fnv1a s := toNat_foldl_digest s _

/-! ## Keys -/

namespace Value

/-- Keys are equal if they have one kind and equal values. Both zeros of a binary fraction are
equal. -/
def equals : Value → Value → Bool
  | integer a, integer b => a == b
  | float x, float y => x == y
  | double x, double y => x == y
  | boolean a, boolean b => a == b
  | string s, string t => s == t
  | _, _ => false

/-- Whether two keys are different texts with one digest. -/
def collides : Value → Value → Bool
  | string s, string t => s != t && digest s == digest t
  | _, _ => false

/-- Whether a value is a binary fraction that is no number. -/
def isNaN : Value → Bool
  | float x => x.isNaN
  | double x => x.isNaN
  | _ => false

variable {a b : Value}

/-- A key has the kind of its value. -/
theorem kind_of_key? {key : Key} (h : a.key? = some key) : key.kind = a.kind := by
  cases a <;> cases h <;> rfl

/-- Keys of different kinds are filed apart. -/
theorem kind_eq_of_key?_eq (ha : a.key? ≠ none) (h : a.key? = b.key?) : a.kind = b.kind := by
  obtain ⟨key, hkey⟩ := Option.ne_none_iff_exists'.mp ha
  rw [← kind_of_key? hkey, ← kind_of_key? (h ▸ hkey)]

/-- Equal values are of one kind. -/
theorem kind_eq_of_equals (h : a.equals b = true) : a.kind = b.kind := by
  revert h
  fun_cases equals a b <;> simp [kind]

/-- Values that collide are of one kind. -/
theorem kind_eq_of_collides (h : a.collides b = true) : a.kind = b.kind := by
  revert h
  fun_cases collides a b <;> simp [kind]

/-- Keys are filed alike exactly if they are equal or collide. -/
theorem key?_eq_key?_iff (ha : a.key? ≠ none) (hb : b.isNaN = false) :
    a.key? = b.key? ↔ a.equals b = true ∨ a.collides b = true := by
  by_cases hkind : a.kind = b.kind
  · cases a with
    | integer m =>
      cases b with
      | integer n =>
        have hbits : m.toUInt64 = n.toUInt64 ↔ m = n :=
          ⟨congrArg UInt64.toInt64, congrArg Int64.toUInt64⟩
        simp [key?, equals, collides, hbits]
      | _ => cases hkind
    | float x =>
      cases b with
      | float y =>
        rw [isNaN, Float32.isNaN_eq_decide_eq_nan, decide_eq_false_iff_not] at hb
        simp only [key?, equals, collides, Option.some.injEq, Key.mk.injEq, true_and,
          Bool.false_eq_true, or_false]
        exact Binary.standard_single.cleared_inj
          (fun u v h => Float32.toBits_inj.mp (UInt32.toUInt64_inj.mp h)) rfl hb
      | _ => cases hkind
    | double x =>
      cases b with
      | double y =>
        rw [isNaN, Float.isNaN_eq_decide_eq_nan, decide_eq_false_iff_not] at hb
        simp only [key?, equals, collides, Option.some.injEq, Key.mk.injEq, true_and,
          Bool.false_eq_true, or_false]
        exact Binary.standard_double.cleared_inj (fun u v => Float.toBits_inj.mp) rfl hb
      | _ => cases hkind
    | boolean p =>
      cases b with
      | boolean q => cases p <;> cases q <;> simp [key?, equals, collides]
      | _ => cases hkind
    | string s =>
      cases b with
      -- Only here does the digest not tell the values apart.
      | string t => by_cases h : s = t <;> simp [key?, equals, collides, h]
      | _ => cases hkind
    | _ => exact absurd rfl ha
  · exact iff_of_false (mt (kind_eq_of_key?_eq ha) hkind)
      (not_or.mpr ⟨mt kind_eq_of_equals hkind, mt kind_eq_of_collides hkind⟩)

end Value

/-! ## Entries -/

namespace Entries

variable {entries : Entries} {list : Assoc} {key : Key} {a b v : Value}

/-- What is found under a key after another is put. -/
theorem index_insert (ha : a.key? ≠ none) (hkey : b.key? = some key) (stamp stamp' : Stamp) :
    Value.index (.hash stamp (entries.insert key b v)) a =
      if a.key? = b.key? then v else Value.index (.hash stamp' entries) a := by
  obtain ⟨other, hother⟩ := Option.ne_none_iff_exists'.mp ha
  simp only [Value.index, hother, hkey, lookup, insert, Table.get?_put, Option.some.injEq,
    eq_comm (a := other)]
  split
  next => rfl
  next => rfl

/-- A key has an entry if one of the keys of the hash is filed alike. -/
theorem InStep.has_iff (h : entries.InStep) (hkey : b.key? = some key) :
    Table.has key entries.pairs = true ↔ ∃ k ∈ entries.keyValues, k.key? = b.key? := by
  rw [Table.has_iff, keyValues, h.ordered_eq, List.map_map, Table.keys, hkey]
  constructor
  · intro hmem
    obtain ⟨e, he, rfl⟩ := List.mem_map.mp hmem
    exact ⟨e.2.1, List.mem_map.mpr ⟨e, he, rfl⟩, h.filed e he⟩
  · rintro ⟨k, hk, hfiled⟩
    obtain ⟨e, he, rfl⟩ := List.mem_map.mp hk
    exact List.mem_map.mpr ⟨e, he, Option.some.inj ((h.filed e he).symm.trans hfiled)⟩

/-- Inserting an entry adds one, unless the key is there. -/
theorem size_insert (entries : Entries) :
    (entries.insert key b v).size = entries.size +
      if Table.has key entries.pairs then 0 else 1 := by
  rw [size, size, insert]
  split
  next => rfl
  next => rw [List.length_append, List.length_singleton]

/-- The keys of a hash can be keys. -/
theorem InStep.key?_ne_none (h : entries.InStep) {k : Value} (hk : k ∈ entries.keyValues) :
    k.key? ≠ none := by
  rw [keyValues, h.ordered_eq, List.map_map] at hk
  obtain ⟨e, he, rfl⟩ := List.mem_map.mp hk
  exact Option.ne_none_iff_exists'.mpr ⟨e.1, h.filed e he⟩

/-- A `put` changes the value under the keys that are equal to its own or collide with it and under
no others, and it makes a hash longer by one unless there is such a key already. Collisions are
those of the FNV-1a digest. -/
theorem Built.put_shared (h : entries.Built list) (ha : a.key? ≠ none) (hb : b.key? ≠ none)
    (hnan : b.isNaN = false) (v : Value) (stamp : Stamp) :
    (a.key? = b.key? ↔ a.equals b = true ∨ a.collides b = true) ∧
      (∀ s, (digest s).toNat = fnv1a s) ∧
      ∃ entries', Builtin.put [.hash stamp entries, b, v] = Run.hash entries' ∧
        (∀ stamp', Value.index (.hash stamp' entries') a =
          if a.equals b || a.collides b then v else Value.index (.hash stamp entries) a) ∧
        ∀ stamp', Builtin.len [.hash stamp' entries'] =
          .integer (Int64.ofNat (entries.size +
            if entries.keyValues.any fun k => k.equals b || k.collides b then 0 else 1)) := by
  obtain ⟨hentries, -⟩ := h.inStep
  obtain ⟨key, hkey⟩ := Option.ne_none_iff_exists'.mp hb
  -- Two values share an entry if they have one key, and equal or colliding ones have.
  have hshared : ∀ k : Value, k.key? ≠ none →
    (k.key? = b.key? ↔ (k.equals b || k.collides b) = true) :=
    fun k hk => by rw [Value.key?_eq_key?_iff hk hnan, Bool.or_eq_true]
  have hhas : Table.has key entries.pairs = entries.keyValues.any fun k =>
    k.equals b || k.collides b := by
    rw [Bool.eq_iff_iff, hentries.has_iff hkey, List.any_eq_true]
    exact exists_congr fun k => and_congr_right fun hk => hshared k (hentries.key?_ne_none hk)
  refine ⟨Value.key?_eq_key?_iff ha hnan, toNat_digest, _,
    Builtin.put_eq hentries hkey stamp, ?_, ?_⟩
  · intro stamp'
    simp only [index_insert ha hkey stamp' stamp, hshared a ha]
  · intro stamp'
    rw [Builtin.len, size_insert, hhas]

/-- Two texts of letters and signs that collide. The second takes the entry of the first, and
reading the first gives what was put under the second. -/
theorem Built.put_shared_colliding : ∃ entries entries' : Entries,
    entries.Built [(.string (text "!0IC=VloaY"), .integer 1)] ∧
      Value.equals (.string (text "!0IC=VloaY")) (.string (text "77kepQFQ8Kl")) = false ∧
      Builtin.put [.hash 0 entries, .string (text "77kepQFQ8Kl"), .integer 2] = Run.hash entries' ∧
      Value.index (.hash 1 entries') (.string (text "!0IC=VloaY")) = .integer 2 ∧
      Builtin.len [.hash 1 entries'] = .integer 1 := by
  have hbuilt : Built _ [(.string (text "!0IC=VloaY"), .integer 1)] :=
    .insert (k := .string (text "!0IC=VloaY")) (.integer 1) .empty rfl
  have hequals : Value.equals (.string (text "!0IC=VloaY"))
    (.string (text "77kepQFQ8Kl")) = false := by
    decide +kernel
  have hcollides : Value.collides (.string (text "!0IC=VloaY"))
    (.string (text "77kepQFQ8Kl")) = true := by
    decide +kernel
  obtain ⟨-, -, entries', hput, hindex, hlen⟩ :=
    hbuilt.put_shared (a := .string (text "!0IC=VloaY"))
    (b := .string (text "77kepQFQ8Kl")) (by simp [Value.key?])
      (by simp [Value.key?]) rfl (.integer 2) 0
  refine ⟨_, entries', hbuilt, hequals, hput, ?_, ?_⟩
  · rw [hindex, hcollides, Bool.or_true, if_pos rfl]
  · rw [hlen, keyValues, hbuilt.inStep.2, List.map_singleton, List.any_cons, hcollides,
      Bool.or_true, Bool.true_or]
    rfl

end Entries

end Rill
