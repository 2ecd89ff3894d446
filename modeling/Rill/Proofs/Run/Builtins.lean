import Rill.Eval
import Rill.Proofs.Run.Quiet
import Rill.Proofs.Table

/-!
# Operators and builtins make nothing new

Every operator and every builtin gives a fault, or a value with a hereditary property when its
arguments have the property. Most results have no parts at all (`Value.isPlain`); the others are
made of what the arguments hold. In particular no builtin makes a signal of settled values, and none
runs into a breach if the keys of its arguments are filed.

* `Value.isPlain_prefixed`, `Value.isPlain_infixed`, `Value.isPlain_compound`: the operators take
  any operands, signals among them.
* `Builtin.Tame`: a builtin that keeps away from its host, from scopes and from modules, and that
  always has a result, with every hereditary property of its arguments.
* `Interpreter.tame_of_lookup`: every builtin of the language but the one that imports is tame.
-/

namespace Rill

/-! ## Operators -/

namespace Value

/-- A prefix operator gives a value without parts, whatever its operand is. -/
theorem isPlain_prefixed (op : PrefixOp) (v : Value) : (prefixed op v).isPlain = true := by
  unfold prefixed
  split <;> rfl

/-- Arithmetic on whole numbers gives a number or a fault. -/
theorem isPlain_integers (op : ArithOp) (a b : Int64) : (integers op a b).isPlain = true := by
  unfold integers
  split
  next => rfl
  next hzero =>
    cases op with
    | div =>
      -- The branch of zero divisors is behind us, so the quotient is a number.
      have hb : b ≠ 0 := fun hb => hzero ⟨rfl, hb⟩
      simp only [ArithOp.onIntegers, if_neg hb]
      rfl
    | _ => rfl

theorem isPlain_ofNumber (kind : Kind) (x : Float) : (ofNumber kind x).isPlain = true := by
  unfold ofNumber
  split <;> rfl

/-- Every number has a value as a binary fraction. -/
theorem exists_number? {v : Value} (h : v.kind.isNumeric = true) : ∃ x, v.number? = some x := by
  cases v with
  | integer | float | double => exact ⟨_, rfl⟩
  | _ => cases h

/-- What is computed from two numbers has no parts, if no result of the computation has. -/
theorem isPlain_onNumbers {left right : Value} {f : Float → Float → Value}
    (hleft : left.kind.isNumeric = true) (hright : right.kind.isNumeric = true)
    (hf : ∀ x y, (f x y).isPlain = true) : (onNumbers left right f).isPlain = true := by
  obtain ⟨x, hx⟩ := exists_number? hleft
  obtain ⟨y, hy⟩ := exists_number? hright
  simp only [onNumbers, hx, hy]
  exact hf x y

/-- Arithmetic on two numbers of any kind gives a number or a fault. -/
theorem isPlain_arithmetic (kind : Kind) (op : ArithOp) {left right : Value}
    (hleft : left.kind.isNumeric = true) (hright : right.kind.isNumeric = true) :
    (arithmetic kind op left right).isPlain = true := by
  unfold arithmetic
  split
  · exact isPlain_integers _ _ _
  · refine isPlain_onNumbers hleft hright fun x y => ?_
    split
    · rfl
    · exact isPlain_ofNumber _ _

/-- An operator that refuses its operands gives a fault, which has no parts. -/
theorem isPlain_refuse (op : InfixOp) (left right : Value) :
    (refuse op left right).isPlain = true := by
  unfold refuse
  split <;> rfl

theorem isPlain_infixedIntegers (op : InfixOp) (a b : Int64) :
    (infixedIntegers op a b).isPlain = true := by
  unfold infixedIntegers
  split
  · exact isPlain_integers _ _ _
  · rfl
  · rfl

/-- An infix operator between two numbers gives a value without parts. -/
theorem isPlain_numbers (op : InfixOp) {left right : Value} (hleft : left.kind.isNumeric = true)
    (hright : right.kind.isNumeric = true) : (numbers op left right).isPlain = true := by
  unfold numbers
  split
  · exact isPlain_infixedIntegers _ _ _
  · refine isPlain_onNumbers hleft hright fun x y => ?_
    split
    · exact isPlain_arithmetic _ _ hleft hright
    · rfl
    · exact isPlain_refuse _ _ _

/-- An infix operator between operands that are not both numbers gives a value without parts. -/
theorem isPlain_others (op : InfixOp) (left right : Value) :
    (others op left right).isPlain = true := by
  unfold others
  split
  · rfl
  · rfl
  · rfl
  · rfl
  · exact isPlain_refuse _ _ _

/-- An infix operator gives a value without parts, whatever its operands are, signals among them. -/
theorem isPlain_infixed (op : InfixOp) (left right : Value) :
    (infixed op left right).isPlain = true := by
  unfold infixed
  split
  next hnumeric =>
    obtain ⟨hleft, hright⟩ := Bool.and_eq_true_iff.mp hnumeric
    exact isPlain_numbers _ hleft hright
  · split
    · split <;> rfl
    · exact isPlain_others _ _ _

/-- A compound assignment assigns a value without parts. -/
theorem isPlain_compound (op : InfixOp) (current right : Value) :
    (compound op current right).isPlain = true := by
  unfold compound
  split
  · rfl
  · split
    · split
      · rfl
      · split <;> rfl
    -- The three kinds of numbers are treated alike.
    iterate 3
      · split
        next hright => exact isPlain_arithmetic _ _ rfl hright
        next => rfl
    · rfl

end Value

/-! ## Entries -/

variable {strict : Prop} {P : Value → Prop}

namespace Entries

variable {key : Key} {k v : Value} {entries : Entries}

/-- What is found in a hash is one of its values. -/
theorem of_lookup (hvalue : ∀ e ∈ entries.pairs, P e.2.2) (h : lookup key entries = some v) :
    P v := by
  obtain ⟨e, he, rfl⟩ := Option.map_eq_some_iff.mp h
  exact hvalue _ (Table.mem_of_get? he)

theorem All.empty : All strict P empty := ⟨fun _ => List.forall_mem_nil _, List.forall_mem_nil _⟩

/-- The pairs in order are among the entries. -/
theorem exists_of_mem_ordered {pair : Value × Value} (h : pair ∈ entries.ordered) :
    ∃ key, (key, pair) ∈ entries.pairs := by
  obtain ⟨key, -, hget⟩ := List.mem_filterMap.mp h
  exact ⟨key, Table.mem_of_get? hget⟩

/-- A weaker property of the parts of a hash follows from a stronger one. -/
theorem All.imp {P' : Value → Prop} (h : entries.All strict P) (hP : ∀ v, P v → P' v) :
    entries.All strict P' :=
  ⟨h.1, fun e he => (h.2 e he).imp (hP _) (hP _)⟩

/-- A hash keeps a property of its parts when a pair with the property is put in, if its key is
filed under itself. -/
theorem All.insert (h : entries.All strict P) (hfiled : k.key? = some key) (hk : P k) (hv : P v) :
    (insert key k v entries).All strict P := by
  refine ⟨fun hstrict e he => ?_, fun e he => ?_⟩
  · rcases Table.mem_put he with rfl | he
    · exact hfiled
    · exact h.1 hstrict e he
  · rcases Table.mem_put he with rfl | he
    · exact ⟨hk, hv⟩
    · exact h.2 e he

/-- Pairs that are filed anew keep their parts. -/
theorem All.of_refile {skip : Option Key} {filed copy : Entries} {rest : List (Value × Value)}
    (hfiled : filed.All strict P) (h : ∀ pair ∈ rest, P pair.1 ∧ P pair.2)
    (hcopy : refile skip filed rest = .ok copy) : copy.All strict P := by
  induction rest generalizing filed with
  | nil =>
    cases hcopy
    exact hfiled
  | cons pair rest ih =>
    obtain ⟨hpair, hrest⟩ := List.forall_mem_cons.mp h
    rw [refile] at hcopy
    split at hcopy
    next => cases hcopy
    next key hkey =>
      split at hcopy
      · exact ih hfiled hrest hcopy
      · exact ih (hfiled.insert hkey hpair.1 hpair.2) hrest hcopy

/-- A copy of a hash has the properties of the parts of the hash. -/
theorem All.copy {skip : Option Key} {copied : Entries} (h : entries.All strict P)
    (hcopy : copy skip entries = .ok copied) : copied.All strict P := by
  refine All.of_refile .empty (fun pair hpair => ?_) hcopy
  obtain ⟨key, hmem⟩ := exists_of_mem_ordered hpair
  exact h.2 _ hmem

/-- A pair that cannot be filed anew has a key that is none. -/
theorem key?_of_refile {skip : Option Key} {filed : Entries} {rest : List (Value × Value)}
    (h : refile skip filed rest = .error k) : ∃ pair ∈ rest, pair.1.key? = none := by
  induction rest generalizing filed with
  | nil => cases h
  | cons pair rest ih =>
    rw [refile] at h
    split at h
    next hkey => exact ⟨pair, List.mem_cons_self, hkey⟩
    next key hkey =>
      obtain ⟨found, hfound, hnone⟩ : ∃ pair ∈ rest, pair.1.key? = none := by
        split at h
        · exact ih h
        · exact ih h
      exact ⟨found, List.mem_cons_of_mem _ hfound, hnone⟩

/-- Entries that cannot be filed anew were not filed. -/
theorem not_filed_of_copy {skip : Option Key} (h : copy skip entries = .error k) :
    ¬ entries.Filed := by
  intro hentries
  obtain ⟨pair, hpair, hnone⟩ := key?_of_refile h
  obtain ⟨key, hmem⟩ := exists_of_mem_ordered hpair
  rw [hentries _ hmem] at hnone
  cases hnone

end Entries

namespace Value

/-- An element of a collection is null, a fault or one of its parts. -/
theorem Hereditary.index (hP : Hereditary strict P) {collection : Value} (h : P collection)
    (key : Value) :
    (Value.index collection key).Given strict P := by
  unfold Value.index
  split
  next elements i =>
    split
    next => exact hP.given rfl
    next hi =>
      -- Both bounds were checked, so the element is there.
      have hlt : i.toInt.toNat < elements.length := by omega
      rw [List.getElem?_eq_getElem hlt, Option.getD_some]
      exact .inr (hP.array.mp h _ (List.getElem_mem hlt))
  next entries =>
    split
    · exact hP.given rfl
    next k _ =>
      cases hk : Entries.lookup k entries with
      | none => exact hP.given rfl
      | some v => exact .inr (Entries.of_lookup (fun e he => ((hP.hash.mp h).2 e he).2) hk)
  next => exact hP.given rfl

end Value

/-! ## Builtins -/

namespace Builtin

/-- A builtin asks nothing of its host, keeps away from scopes and modules, and always has a result:
a fault, or a value that has every hereditary property of its arguments. -/
structure Tame (b : Builtin) : Prop where
  run_eq : ∀ host host' : Host, b.run host = b.run host'
  quiet : ∀ {strict : Prop} {P : Value → Prop}, Value.Hereditary strict P →
    ∀ (host : Host) (args : List Value), (∀ v ∈ args, P v) →
    Run.Quiet (fun r => ∃ v, r = some v ∧ v.Given strict P) (b.run host args)

/-- A builtin that is a function of its arguments is tame if its results have every hereditary
property of the arguments. -/
theorem tame_plain {name : String} {f : List Value → Value}
    (h : ∀ {strict : Prop} {P : Value → Prop}, Value.Hereditary strict P → ∀ args,
      (∀ v ∈ args, P v) →
      (f args).Given strict P) :
    (plain name f).Tame := by
  refine ⟨fun _ _ => rfl, ?_⟩
  intro strict P hP host args hargs
  exact .pure ⟨_, rfl, h hP args hargs⟩

/-- A builtin that is a function of its arguments is tame if its results have no parts. -/
theorem tame_plain_of_isPlain {name : String} {f : List Value → Value}
    (h : ∀ args, (f args).isPlain = true) : (plain name f).Tame :=
  tame_plain fun hP args _ => hP.given (h args)

/-- A builtin with an effect is tame if the effect is quiet and its results have every hereditary
property of the arguments. -/
theorem tame_effect {name : String} {f : List Value → Run Value}
    (h : ∀ {strict : Prop} {P : Value → Prop}, Value.Hereditary strict P → ∀ args,
      (∀ v ∈ args, P v) →
      Run.Quiet (·.Given strict P) (f args)) :
    (effect name f).Tame := by
  refine ⟨fun _ _ => rfl, ?_⟩
  intro strict P hP host args hargs
  exact (h hP args hargs).bind fun v hv => .pure ⟨v, rfl, hv⟩

/-- Making an array or a hash of parts with a property. -/
theorem quiet_array (hP : Value.Hereditary strict P) {elements : List Value}
    (h : ∀ v ∈ elements, P v) :
    Run.Quiet (·.Given strict P) (Run.array elements) :=
  (Run.quiet_array hP h).imp fun _ => .inr

@[inherit_doc quiet_array]
theorem quiet_hash (hP : Value.Hereditary strict P) {entries : Entries} (h : entries.All strict P) :
    Run.Quiet (·.Given strict P) (Run.hash entries) :=
  (Run.quiet_hash hP h).imp fun _ => .inr

/-! ### Core -/

theorem isPlain_len (args : List Value) : (len args).isPlain = true := by
  unfold len
  split <;> rfl

theorem isPlain_type (args : List Value) : (type args).isPlain = true := by
  unfold type
  split <;> rfl

theorem isPlain_trim (args : List Value) : (trim args).isPlain = true := by
  unfold trim
  split <;> rfl

/-- A builtin on two texts gives a value without parts, if the function behind it does. -/
theorem isPlain_onTexts {name : String} {f : Bytes → Bytes → Value}
    (hf : ∀ s t, (f s t).isPlain = true) (args : List Value) :
    (onTexts name f args).isPlain = true := by
  unfold onTexts
  split
  · exact hf _ _
  · rfl
  · rfl
  · rfl

/-- The first element of an array has the properties that elements inherit. -/
theorem given_first (hP : Value.Hereditary strict P) {args : List Value} (hargs : ∀ v ∈ args, P v) :
    (first args).Given strict P := by
  unfold first
  split
  next elements =>
    have helements := hP.array.mp (hargs _ List.mem_cons_self)
    cases hhead : elements.head? with
    | none => exact hP.given rfl
    | some v => exact .inr (helements v (List.mem_of_mem_head? hhead))
  next => exact hP.given rfl
  next => exact hP.given rfl

/-- The last element of an array has the properties that elements inherit. -/
theorem given_last (hP : Value.Hereditary strict P) {args : List Value} (hargs : ∀ v ∈ args, P v) :
    (last args).Given strict P := by
  unfold last
  split
  next elements =>
    have helements := hP.array.mp (hargs _ List.mem_cons_self)
    cases hlast : elements.getLast? with
    | none => exact hP.given rfl
    | some v => exact .inr (helements v (List.mem_of_getLast? hlast))
  next => exact hP.given rfl
  next => exact hP.given rfl

/-- The texts of arguments are found without a change to scopes or modules. -/
theorem quiet_texts (args : List Value) : Run.Quiet (fun _ => True) (texts args) := by
  induction args with
  | nil => exact .pure trivial
  | cons v vs ih =>
    exact (Run.quiet_inspect v).bind fun _ _ => ih.bind fun _ _ => .pure trivial

/-- The text of a value is a value without parts. -/
theorem quiet_str (hP : Value.Hereditary strict P) (args : List Value) :
    Run.Quiet (·.Given strict P) (str args) := by
  unfold str
  split
  · exact (Run.quiet_inspect _).bind fun _ _ => .pure (hP.given rfl)
  · exact .pure (hP.given rfl)

/-- Printing changes only what was printed, and gives null. -/
theorem quiet_print (hP : Value.Hereditary strict P) (args : List Value) :
    Run.Quiet (·.Given strict P) (print args) :=
  (quiet_texts args).bind fun _ _ => (Run.quiet_print _).bind fun _ _ => .pure (hP.given rfl)

/-- Printing line by line changes only what was printed, and gives null. -/
theorem quiet_puts (hP : Value.Hereditary strict P) (args : List Value) :
    Run.Quiet (·.Given strict P) (puts args) := by
  induction args with
  | nil => exact .pure (hP.given rfl)
  | cons v vs ih =>
    exact (Run.quiet_inspect v).bind fun _ _ => (Run.quiet_print _).bind fun _ _ => ih

/-- The array without its first element has the properties that its elements have. -/
theorem quiet_rest (hP : Value.Hereditary strict P) {args : List Value} (hargs : ∀ v ∈ args, P v) :
    Run.Quiet (·.Given strict P) (rest args) := by
  unfold rest
  split
  next => exact .pure (hP.given rfl)
  next =>
    have helements := hP.array.mp (hargs _ List.mem_cons_self)
    exact quiet_array hP fun v hv => helements v (List.mem_cons_of_mem _ hv)
  next => exact .pure (hP.given rfl)
  next => exact .pure (hP.given rfl)

/-- An array with one more element has the properties that its elements have. -/
theorem quiet_push (hP : Value.Hereditary strict P) {args : List Value} (hargs : ∀ v ∈ args, P v) :
    Run.Quiet (·.Given strict P) (push args) := by
  unfold push
  split
  next =>
    have helements := hP.array.mp (hargs _ List.mem_cons_self)
    apply quiet_array hP
    intro u hu
    rcases List.mem_append.mp hu with hu | hu
    · exact helements u hu
    · exact hargs u (List.mem_cons_of_mem _ hu)
  next => exact .pure (hP.given rfl)
  next => exact .pure (hP.given rfl)

/-- An array of parts of a hash, one for each pair, has the properties of these parts. -/
private theorem quiet_array_map (hP : Value.Hereditary strict P) {entries : Entries}
    {part : Value × Value → Value} (h : ∀ e ∈ entries.pairs, P (part e.2)) :
    Run.Quiet (·.Given strict P) (Run.array (entries.ordered.map part)) := by
  apply quiet_array hP
  intro v hv
  obtain ⟨pair, hpair, rfl⟩ := List.mem_map.mp hv
  obtain ⟨key, hmem⟩ := Entries.exists_of_mem_ordered hpair
  exact h _ hmem

/-- The array of the keys of a hash has the properties of the hash. -/
theorem quiet_keys (hP : Value.Hereditary strict P) {args : List Value} (hargs : ∀ v ∈ args, P v) :
    Run.Quiet (·.Given strict P) (keys args) := by
  unfold keys
  split
  next =>
    have hentries := (hP.hash.mp (hargs _ List.mem_cons_self)).2
    exact quiet_array_map hP fun e he => (hentries e he).1
  next => exact .pure (hP.given rfl)
  next => exact .pure (hP.given rfl)

/-- The array of the values of a hash has the properties of the hash. -/
theorem quiet_values (hP : Value.Hereditary strict P) {args : List Value}
    (hargs : ∀ v ∈ args, P v) :
    Run.Quiet (·.Given strict P) (values args) := by
  unfold values
  split
  next =>
    have hentries := (hP.hash.mp (hargs _ List.mem_cons_self)).2
    exact quiet_array_map hP fun e he => (hentries e he).2
  next => exact .pure (hP.given rfl)
  next => exact .pure (hP.given rfl)

/-- What is made of a copy of a hash has the properties of the hash, and a hash that cannot be
copied is a breach only if it is not filed. -/
theorem quiet_onCopy {skip : Option Key} {entries : Entries}
    (h : entries.All strict P) {f : Entries → Run Value}
    (hf : ∀ copy : Entries, copy.All strict P → Run.Quiet (·.Given strict P) (f copy)) :
    Run.Quiet (·.Given strict P) (onCopy skip entries f) := by
  unfold onCopy
  split
  next hcopy => exact hf _ (h.copy hcopy)
  next hkey =>
    -- Only a key that is none stops the copy, and under a strict property all keys are filed.
    exact .pure (.inl ⟨rfl, fun hstrict => absurd (h.1 hstrict) (Entries.not_filed_of_copy hkey)⟩)

/-- A hash with one more pair has the properties of its parts. -/
theorem quiet_put (hP : Value.Hereditary strict P) {args : List Value} (hargs : ∀ v ∈ args, P v) :
    Run.Quiet (·.Given strict P) (put args) := by
  unfold put
  split
  next entries k v =>
    have hentries := hP.hash.mp (hargs _ List.mem_cons_self)
    have hk : P k := hargs k (by simp)
    have hv : P v := hargs v (by simp)
    split
    next key hkey =>
      exact quiet_onCopy hentries fun copy hcopy => quiet_hash hP (hcopy.insert hkey hk hv)
    next => exact .pure (hP.given rfl)
  next => exact .pure (hP.given rfl)
  next => exact .pure (hP.given rfl)

/-- A hash without a pair has the properties of its parts. -/
theorem quiet_remove (hP : Value.Hereditary strict P) {args : List Value}
    (hargs : ∀ v ∈ args, P v) :
    Run.Quiet (·.Given strict P) (remove args) := by
  unfold remove
  split
  next =>
    have hentries := hP.hash.mp (hargs _ List.mem_cons_self)
    split
    · exact quiet_onCopy hentries fun copy hcopy => quiet_hash hP hcopy
    · exact .pure (hP.given rfl)
  next => exact .pure (hP.given rfl)
  next => exact .pure (hP.given rfl)

/-- All builtins of the core are tame. -/
theorem tame_core : ∀ b ∈ core, b.Tame := by
  simp only [core, List.forall_mem_cons]
  exact ⟨tame_plain_of_isPlain isPlain_len, tame_plain_of_isPlain isPlain_type,
    tame_effect fun hP args _ => quiet_str hP args, tame_effect fun hP args _ =>
      quiet_print hP args,
    tame_effect fun hP args _ => quiet_puts hP args, tame_plain fun hP _ h => given_first hP h,
    tame_plain fun hP _ h => given_last hP h, tame_effect fun hP _ h => quiet_rest hP h,
    tame_effect fun hP _ h => quiet_push hP h, tame_effect fun hP _ h => quiet_keys hP h,
    tame_effect fun hP _ h => quiet_values hP h, tame_effect fun hP _ h => quiet_put hP h,
    tame_effect fun hP _ h => quiet_remove hP h, tame_plain_of_isPlain isPlain_trim,
    tame_plain_of_isPlain (isPlain_onTexts fun _ _ => rfl),
    tame_plain_of_isPlain (isPlain_onTexts fun _ _ => rfl),
    tame_plain_of_isPlain (isPlain_onTexts fun _ _ => rfl),
    tame_plain_of_isPlain (isPlain_onTexts fun _ _ => rfl), List.forall_mem_nil _⟩

/-! ### Numbers -/

theorem isPlain_abs (args : List Value) : (abs args).isPlain = true := by
  unfold abs
  split <;> rfl

/-- Rounding a fraction gives a whole number, or a fault if it does not fit. -/
theorem isPlain_roundFloat (name : String) (mode : Binary.Rounding) (x : Float) :
    (roundFloat name mode x).isPlain = true := by
  unfold roundFloat
  split
  · split <;> rfl
  · rfl

/-- The rounding builtins give values without parts. -/
theorem isPlain_round (name : String) (mode : Binary.Rounding) (args : List Value) :
    (round name mode args).isPlain = true := by
  unfold round
  split
  · rfl
  · split
    · exact isPlain_roundFloat _ _ _
    · rfl
  · rfl

/-- Powers are values without parts. -/
theorem isPlain_pow (args : List Value) : (pow args).isPlain = true := by
  unfold pow
  split
  · split
    · rfl
    · rfl
    · split
      · split <;> rfl
      · exact Value.isPlain_ofNumber _ _
  · rfl

/-- Only numbers have a value as a binary fraction, and numbers have no parts. -/
theorem isPlain_of_number? {v : Value} {x : Float} (h : v.number? = some x) : v.isPlain = true := by
  cases v with
  | integer | float | double => rfl
  | _ => cases h

/-- The best of several numbers is one of them, or there is a fault. -/
theorem isPlain_pickFrom (name : String) (better : Float → Float → Bool) {best : Value}
    (hbest : best.isPlain = true) (x : Float) (args : List Value) :
    (pickFrom name better best x args).isPlain = true := by
  induction args generalizing best x with
  | nil => exact hbest
  | cons v vs ih =>
    rw [pickFrom]
    split
    next => rfl
    next y hy =>
      split
      · exact ih (isPlain_of_number? hy) y
      · exact ih hbest x

/-- The builtins that pick a number give values without parts. -/
theorem isPlain_pick (name : String) (better : Float → Float → Bool) (args : List Value) :
    (pick name better args).isPlain = true := by
  unfold pick
  split
  next => rfl
  next =>
    split
    next => rfl
    next x hx => exact isPlain_pickFrom name better (isPlain_of_number? hx) x _

/-- The square root, whose fault shows its argument, is quiet. -/
theorem quiet_sqrt (hP : Value.Hereditary strict P) (args : List Value) :
    Run.Quiet (·.Given strict P) (sqrt args) := by
  unfold sqrt
  split
  · split
    · split
      · exact (Run.quiet_inspect _).bind fun _ _ => .pure (hP.given rfl)
      · exact .pure (hP.given (Value.isPlain_ofNumber _ _))
    · exact .pure (hP.given rfl)
  · exact .pure (hP.given rfl)

/-- Drawing a random number touches neither scopes nor modules. -/
theorem quiet_randomRange (hP : Value.Hereditary strict P) (args : List Value) :
    Run.Quiet (·.Given strict P) (randomRange args) := by
  unfold randomRange
  split
  · split
    · exact .pure (hP.given rfl)
    · exact Run.quiet_draw.bind fun _ _ => .pure (hP.given rfl)
  · exact .pure (hP.given rfl)
  · exact .pure (hP.given rfl)
  · exact .pure (hP.given rfl)

/-- All builtins of mathematics are tame. -/
theorem tame_math : ∀ b ∈ math, b.Tame := by
  simp only [math, List.forall_mem_cons]
  exact ⟨tame_plain_of_isPlain isPlain_abs, tame_plain_of_isPlain (isPlain_round _ _),
    tame_plain_of_isPlain (isPlain_round _ _), tame_plain_of_isPlain (isPlain_round _ _),
    tame_effect fun hP args _ => quiet_sqrt hP args, tame_plain_of_isPlain isPlain_pow,
    tame_plain_of_isPlain (isPlain_pick _ _), tame_plain_of_isPlain (isPlain_pick _ _),
    tame_effect fun hP args _ => quiet_randomRange hP args, List.forall_mem_nil _⟩

/-! ### Databases -/

/-- The answer of a database is turned into a value without parts, if what it grants is. -/
theorem isPlain_answer {α : Type} {f : α → Value} (hf : ∀ a, (f a).isPlain = true)
    (r : Except DatabaseFault α) : (answer f r).isPlain = true := by
  cases r with
  | ok a => exact hf a
  | error fault => rfl

/-- Opening a database touches neither scopes nor modules, and gives a handle or a fault. -/
theorem quiet_sqlOpen (hP : Value.Hereditary strict P) (args : List Value) :
    Run.Quiet (·.Given strict P) (sqlOpen args) := by
  unfold sqlOpen
  split
  · exact (Run.quiet_onDatabase _).bind fun r _ =>
      .pure (hP.given (isPlain_answer (fun _ => rfl) r))
  · exact .pure (hP.given rfl)
  · exact .pure (hP.given rfl)
  · exact .pure (hP.given rfl)

/-- The builtins that only take a handle give null or a fault. -/
theorem quiet_onHandle (hP : Value.Hereditary strict P) (name : String)
    (f : Int64 → Database → Except DatabaseFault Unit × Database) (args : List Value) :
    Run.Quiet (·.Given strict P) (onHandle name f args) := by
  unfold onHandle
  split
  · exact (Run.quiet_onDatabase _).bind fun r _ =>
      .pure (hP.given (isPlain_answer (fun _ => rfl) r))
  · exact .pure (hP.given rfl)
  · exact .pure (hP.given rfl)

/-- A row of results is a hash of texts and cells, filed under its column names. -/
theorem all_row (hP : Value.Hereditary strict P) {columns : List Bytes} {values : List Value}
    (hvalues : ∀ v ∈ values, P v) : (row columns values).All strict P := by
  -- A row is filled cell by cell, so the entries before a cell have to be general.
  have hfold : ∀ (cells : List (Bytes × Value)) (entries : Entries), entries.All strict P →
      (∀ c ∈ cells, P c.2) →
      Entries.All strict P (cells.foldl
        (fun entries c => Entries.insert ⟨.string, digest c.1⟩ (.string c.1) c.2 entries)
          entries) := by
    intro cells
    induction cells with
    | nil => intro entries hentries _; exact hentries
    | cons c cells ih =>
      intro entries hentries hcells
      obtain ⟨hc, hcells⟩ := List.forall_mem_cons.mp hcells
      exact ih _ (hentries.insert rfl (hP.leaf rfl rfl) hc) hcells
  refine hfold (columns.zip values) .empty .empty ?_
  intro c hc
  exact hvalues c.2 (List.of_mem_zip hc).2

/-- The values of cells have no parts. -/
theorem has_cellValue (hP : Value.Hereditary strict P) {c : Cell} {v : Value}
    (h : cellValue c = .ok v) : P v := by
  unfold cellValue at h
  split at h <;> cases h <;> exact hP.leaf rfl rfl

/-- The cells of a row are values without parts, so they have every hereditary property. -/
theorem has_cellValues (hP : Value.Hereditary strict P) {cells : List Cell} {values : List Value}
    (h : cellValues cells = .ok values) : ∀ v ∈ values, P v := by
  induction cells generalizing values with
  | nil =>
    cases h
    exact List.forall_mem_nil _
  | cons c cells ih =>
    cases hc : cellValue c with
    | error message => simp [cellValues, hc, bind, Except.bind] at h
    | ok v =>
      cases hcs : cellValues cells with
      | error message => simp [cellValues, hc, hcs, bind, Except.bind] at h
      | ok vs =>
        simp only [cellValues, hc, hcs, bind, Except.bind, pure, Except.pure, Except.ok.injEq] at h
        subst h
        exact List.forall_mem_cons.mpr ⟨has_cellValue hP hc, ih hcs⟩

/-- The cells of all rows have every hereditary property. -/
theorem has_rowValues (hP : Value.Hereditary strict P) {rows : List (List Cell)}
    {values : List (List Value)} (h : rowValues rows = .ok values) :
    ∀ r ∈ values, ∀ v ∈ r, P v := by
  induction rows generalizing values with
  | nil =>
    cases h
    exact List.forall_mem_nil _
  | cons r rows ih =>
    cases hr : cellValues r with
    | error message => simp [rowValues, hr, bind, Except.bind] at h
    | ok v =>
      cases hrs : rowValues rows with
      | error message => simp [rowValues, hr, hrs, bind, Except.bind] at h
      | ok vs =>
        simp only [rowValues, hr, hrs, bind, Except.bind, pure, Except.pure, Except.ok.injEq] at h
        subst h
        exact List.forall_mem_cons.mpr ⟨has_cellValues hP hr, ih hrs⟩

/-- The rows of a result become hashes that have every hereditary property. -/
theorem quiet_rowHashes (hP : Value.Hereditary strict P) {columns : List Bytes}
    {rows : List (List Value)} (hrows : ∀ r ∈ rows, ∀ v ∈ r, P v) :
    Run.Quiet (fun hashes => ∀ v ∈ hashes, P v) (rowHashes columns rows) := by
  induction rows with
  | nil => exact .pure (List.forall_mem_nil _)
  | cons r rows ih =>
    obtain ⟨hr, hrows⟩ := List.forall_mem_cons.mp hrows
    have hrow : (row columns r).All strict P := all_row hP hr
    refine (Run.quiet_hash hP hrow).bind fun hash hhash => (ih hrows).bind fun hashes hhashes => ?_
    exact .pure (List.forall_mem_cons.mpr ⟨hhash, hhashes⟩)

/-- Parameters that a statement cannot take are a fault of the program, not a breach. -/
theorem isBreach_of_params {name : String} {args : List Value} {fault : Fault}
    (h : params name args = .error fault) : fault.isBreach = false := by
  induction args with
  | nil => cases h
  | cons v vs ih =>
    rw [params] at h
    split at h
    next =>
      cases h
      rfl
    next p _ =>
      cases hvs : params name vs with
      | error => exact ih (by simpa [hvs, bind, Except.bind] using h)
      | ok ps => simp [hvs, bind, Except.bind, pure, Except.pure] at h

/-- What is wrong with the arguments of a statement is wrong with what the program passed. -/
theorem isBreach_of_statement {name : String} {d : Database} {args : List Value} {fault : Fault}
    (h : statement name d args = .error fault) : fault.isBreach = false := by
  -- A statement fails for its handle, its text, its parameters or the number of its arguments, and
  -- none of these faults is a breach.
  unfold statement at h
  split at h
  next handle query args =>
    cases htarget : d.target handle with
    | error =>
      simp only [htarget, Except.mapError, bind, Except.bind, Except.error.injEq] at h
      subst h
      rfl
    | ok target =>
      simp only [htarget, Except.mapError, bind, Except.bind] at h
      split at h
      next sql =>
        cases hparams : params name args with
        | error fault' =>
          simp only [hparams, Except.error.injEq] at h
          exact h ▸ isBreach_of_params hparams
        | ok ps => simp [hparams, pure, Except.pure] at h
      next =>
        cases h
        rfl
  next =>
    cases h
    rfl
  next =>
    cases h
    rfl

/-- Executing a statement touches neither scopes nor modules, and gives a hash of two numbers. -/
theorem quiet_sqlExec (hP : Value.Hereditary strict P) (args : List Value) :
    Run.Quiet (·.Given strict P) (sqlExec args) := by
  refine Run.Quiet.get.bind fun w _ => ?_
  split
  next hargs => exact .pure (.inl ⟨rfl, fun _ => isBreach_of_statement hargs⟩)
  · refine (Run.quiet_onDatabase _).bind fun r _ => ?_
    split
    · exact .pure (hP.given rfl)
    · refine quiet_hash hP (all_row hP ?_)
      -- The two numbers that an execution answers.
      simp only [List.forall_mem_cons]
      exact ⟨hP.leaf rfl rfl, hP.leaf rfl rfl, List.forall_mem_nil _⟩

/-- A query touches neither scopes nor modules, and gives an array of rows. -/
theorem quiet_sqlQuery (hP : Value.Hereditary strict P) (args : List Value) :
    Run.Quiet (·.Given strict P) (sqlQuery args) := by
  refine Run.Quiet.get.bind fun w _ => ?_
  split
  next hargs => exact .pure (.inl ⟨rfl, fun _ => isBreach_of_statement hargs⟩)
  · refine (Run.quiet_onDatabase _).bind fun r _ => ?_
    split
    · exact .pure (hP.given rfl)
    · split
      next => exact .pure (hP.given rfl)
      next rows hrows =>
        exact (quiet_rowHashes hP (has_rowValues hP hrows)).bind fun hashes h => quiet_array hP h

/-- All builtins of databases are tame. -/
theorem tame_sql : ∀ b ∈ sql, b.Tame := by
  simp only [sql, List.forall_mem_cons]
  exact ⟨tame_effect fun hP args _ => quiet_sqlOpen hP args,
    tame_effect fun hP args _ => quiet_sqlExec hP args,
    tame_effect fun hP args _ => quiet_sqlQuery hP args,
    tame_effect fun hP args _ => quiet_onHandle hP _ _ args,
    tame_effect fun hP args _ => quiet_onHandle hP _ _ args,
    tame_effect fun hP args _ => quiet_onHandle hP _ _ args,
    tame_effect fun hP args _ => quiet_onHandle hP _ _ args, List.forall_mem_nil _⟩

end Builtin

/-! ## The builtins of the language -/

namespace Registry

variable {r : Registry} {builtins : List Builtin} {b : Builtin} {name : Bytes}

/-- What stands in a registry that was extended stood there before, or it is one of the builtins,
under its name. -/
theorem mem_extend {e : Bytes × Builtin} (h : e ∈ r.extend builtins) :
    e ∈ r ∨ e.2 ∈ builtins ∧ e.1 = e.2.name := by
  induction builtins generalizing r with
  | nil => exact .inl h
  | cons b builtins ih =>
    rcases ih h with h | ⟨h, hname⟩
    · rcases Table.mem_put h with rfl | h
      · exact .inr ⟨List.mem_cons_self, rfl⟩
      · exact .inl h
    · exact .inr ⟨List.mem_cons_of_mem _ h, hname⟩

/-- What stands in a registry that was merged from lists stands in one of the lists. -/
theorem mem_merge_ofList {e : Bytes × Builtin} (h : e ∈ r.merge (ofList builtins)) :
    e ∈ r ∨ e.2 ∈ builtins ∧ e.1 = e.2.name := by
  rcases mem_extend h with h | ⟨h, hname⟩
  · exact .inl h
  · obtain ⟨e', he', heq⟩ := List.mem_map.mp h
    rcases mem_extend he' with hnil | ⟨hmem, -⟩
    · cases hnil
    · exact .inr ⟨heq ▸ hmem, hname⟩

end Registry

/-- The builtins of the language are those of three families, and the one that imports. -/
theorem Interpreter.cases_lookup {P : Builtin → Prop} (hcore : ∀ b ∈ Builtin.core, P b)
    (hmath : ∀ b ∈ Builtin.math, P b) (hsql : ∀ b ∈ Builtin.sql, P b) {name : Bytes} {b : Builtin}
    (h : standard.lookup name = some b) :
    P b ∨ b = Import.builtin ∧ name = Import.builtin.name := by
  have hmem : (name, b) ∈ standard := Table.mem_of_get? h
  -- The registry is taken apart from the family that was merged last.
  rcases Registry.mem_merge_ofList hmem with hmem | ⟨hb, -⟩
  · rcases Registry.mem_merge_ofList hmem with hmem | ⟨hb, -⟩
    · rcases Registry.mem_merge_ofList hmem with hmem | ⟨hb, hname⟩
      · rcases Registry.mem_extend hmem with hnil | ⟨hb, -⟩
        · cases hnil
        · exact .inl (hcore b hb)
      · have himport : b = Import.builtin := List.mem_singleton.mp hb
        exact .inr ⟨himport, himport ▸ hname⟩
    · exact .inl (hmath b hb)
  · exact .inl (hsql b hb)

/-- Every builtin of the language is tame, but for the one that imports. -/
theorem Interpreter.tame_of_lookup {name : Bytes} {b : Builtin}
    (h : standard.lookup name = some b) :
    b.Tame ∨ b = Import.builtin :=
  (cases_lookup Builtin.tame_core Builtin.tame_math Builtin.tame_sql h).imp_right And.left

end Rill
