import Rill.Proofs.Run.Builtins

/-!
# Computations apart from files and the log

`Run.Aloof` says that a computation neither looks at files and the log nor changes them: with other
files and another log it does the same. All builtins but one are of this kind, and so is all that is
done to scopes and modules, but for the records of it.

* `Builtin.Aloof`, `Interpreter.aloof_of_lookup`: every builtin of the language but the one that
  imports is aloof.
-/

namespace Rill

namespace Run

variable {α β : Type}

/-- Files and the log make no difference to a computation, and it leaves them as they are. -/
def Aloof (x : Run α) : Prop :=
  ∀ w files journal, x { w with files, journal } = (x w).map fun r =>
    (r.1, { r.2 with files, journal })

namespace Aloof

theorem pure (a : α) : Aloof (Pure.pure a : Run α) := fun _ _ _ => rfl

/-- Steps that keep away from files and the log can be taken one after the other. -/
theorem bind {x : Run α} {f : α → Run β} (hx : Aloof x) (hf : ∀ a, Aloof (f a)) :
    Aloof (x >>= f) := by
  intro w files journal
  rw [bind_apply, bind_apply, hx w files journal]
  cases x w with
  | none => rfl
  | some r => exact hf r.1 r.2 files journal

/-- A change of the world that commutes with every change of files and log keeps away from them. -/
theorem modifyGet {f : World → α × World}
    (hf : ∀ w files journal,
      f { w with files, journal } = ((f w).1, { (f w).2 with files, journal })) :
    Aloof (modifyGet f : Run α) :=
  fun w files journal => congrArg some (hf w files journal)

/-- What is read of the world may be anything but files and the log. -/
theorem read {f : World → Run β} (hread : ∀ w files journal, f { w with files, journal } = f w)
    (hf : ∀ w, Aloof (f w)) : Aloof (get >>= f) := by
  intro w files journal
  rw [get_bind_apply, get_bind_apply, hread, hf]

end Aloof

theorem aloof_stamp : Aloof stamp := .modifyGet fun _ _ _ => rfl

theorem aloof_array (elements : List Value) : Aloof (array elements) :=
  aloof_stamp.bind fun _ => .pure _

theorem aloof_hash (entries : Entries) : Aloof (hash entries) := aloof_stamp.bind fun _ => .pure _

theorem aloof_scope (outer : Option ScopeId) : Aloof (scope outer) := .modifyGet fun _ _ _ => rfl

/-- What a name reads as depends on scopes only. -/
theorem aloof_get? (scope : ScopeId) (name : Bytes) : Aloof (get? scope name) := fun _ _ _ => rfl

/-- The text of a value depends on scopes only. -/
theorem aloof_inspect (v : Value) : Aloof (inspect v) := by
  intro w files journal
  change (w.scopes.inspect v).map _ = ((w.scopes.inspect v).map _).map _
  rw [Option.map_map]
  rfl

theorem aloof_print (piece : Bytes) : Aloof (print piece) := .modifyGet fun _ _ _ => rfl

theorem aloof_draw : Aloof draw := .modifyGet fun _ _ _ => rfl

theorem aloof_onDatabase (f : Database → α × Database) : Aloof (onDatabase f) :=
  .modifyGet fun _ _ _ => rfl

end Run

namespace Builtin

/-- A builtin asks nothing of its host, and keeps away from files and the log. -/
structure Aloof (b : Builtin) : Prop where
  run_eq : ∀ host host' : Host, b.run host = b.run host'
  run : ∀ (host : Host) (args : List Value), Run.Aloof (b.run host args)

/-- A function of its arguments does not look at the world at all. -/
theorem aloof_plain (name : String) (f : List Value → Value) : (plain name f).Aloof :=
  ⟨fun _ _ => rfl, fun _ _ => .pure _⟩

/-- A builtin keeps away from files and the log if its effect does. -/
theorem aloof_effect {name : String} {f : List Value → Run Value} (h : ∀ args, Run.Aloof (f args)) :
    (effect name f).Aloof :=
  ⟨fun _ _ => rfl, fun _ args => (h args).bind fun _ => .pure _⟩

/-! ### Core -/

theorem aloof_str (args : List Value) : Run.Aloof (str args) := by
  unfold str
  split
  · exact (Run.aloof_inspect _).bind fun _ => .pure _
  · exact .pure _

/-- The texts of arguments depend on scopes only. -/
theorem aloof_texts (args : List Value) : Run.Aloof (texts args) := by
  induction args with
  | nil => exact .pure _
  | cons v vs ih => exact (Run.aloof_inspect v).bind fun _ => ih.bind fun _ => .pure _

/-- Printing keeps away from files and the log. -/
theorem aloof_print (args : List Value) : Run.Aloof (print args) :=
  (aloof_texts args).bind fun _ => (Run.aloof_print _).bind fun _ => .pure _

/-- Printing line by line keeps away from files and the log. -/
theorem aloof_puts (args : List Value) : Run.Aloof (puts args) := by
  induction args with
  | nil => exact .pure _
  | cons v vs ih => exact (Run.aloof_inspect v).bind fun _ => (Run.aloof_print _).bind fun _ => ih

theorem aloof_rest (args : List Value) : Run.Aloof (rest args) := by
  unfold rest
  split
  · exact .pure _
  · exact Run.aloof_array _
  · exact .pure _
  · exact .pure _

theorem aloof_push (args : List Value) : Run.Aloof (push args) := by
  unfold push
  split
  · exact Run.aloof_array _
  · exact .pure _
  · exact .pure _

theorem aloof_keys (args : List Value) : Run.Aloof (keys args) := by
  unfold keys
  split
  · exact Run.aloof_array _
  · exact .pure _
  · exact .pure _

theorem aloof_values (args : List Value) : Run.Aloof (values args) := by
  unfold values
  split
  · exact Run.aloof_array _
  · exact .pure _
  · exact .pure _

/-- What is made of a copy of a hash keeps away from files and the log, if the function that makes
it does. -/
theorem aloof_onCopy {f : Entries → Run Value} (hf : ∀ entries, Run.Aloof (f entries))
    (skip : Option Key) (entries : Entries) : Run.Aloof (onCopy skip entries f) := by
  unfold onCopy
  split
  · exact hf _
  · exact .pure _

/-- Putting a pair into a hash makes a new hash, which only takes a stamp. -/
theorem aloof_put (args : List Value) : Run.Aloof (put args) := by
  unfold put
  split
  · split
    · exact aloof_onCopy (fun _ => Run.aloof_hash _) _ _
    · exact .pure _
  · exact .pure _
  · exact .pure _

/-- Taking a pair out of a hash makes a new hash, which only takes a stamp. -/
theorem aloof_remove (args : List Value) : Run.Aloof (remove args) := by
  unfold remove
  split
  · split
    · exact aloof_onCopy Run.aloof_hash _ _
    · exact .pure _
  · exact .pure _
  · exact .pure _

/-- All builtins of the core keep away from files and the log. -/
theorem aloof_core : ∀ b ∈ core, b.Aloof := by
  simp only [core, List.forall_mem_cons]
  exact ⟨aloof_plain _ _, aloof_plain _ _, aloof_effect aloof_str, aloof_effect aloof_print,
    aloof_effect aloof_puts, aloof_plain _ _, aloof_plain _ _, aloof_effect aloof_rest,
    aloof_effect aloof_push, aloof_effect aloof_keys, aloof_effect aloof_values,
      aloof_effect aloof_put,
    aloof_effect aloof_remove, aloof_plain _ _, aloof_plain _ _, aloof_plain _ _, aloof_plain _ _,
    aloof_plain _ _, List.forall_mem_nil _⟩

/-! ### Numbers -/

/-- The square root looks at scopes only, for the text of its fault. -/
theorem aloof_sqrt (args : List Value) : Run.Aloof (sqrt args) := by
  unfold sqrt
  split
  · split
    · split
      · exact (Run.aloof_inspect _).bind fun _ => .pure _
      · exact .pure _
    · exact .pure _
  · exact .pure _

/-- Random numbers are drawn from random bytes, not from files. -/
theorem aloof_randomRange (args : List Value) : Run.Aloof (randomRange args) := by
  unfold randomRange
  split
  · split
    · exact .pure _
    · exact Run.aloof_draw.bind fun _ => .pure _
  · exact .pure _
  · exact .pure _
  · exact .pure _

/-- All builtins of mathematics keep away from files and the log. -/
theorem aloof_math : ∀ b ∈ math, b.Aloof := by
  simp only [math, List.forall_mem_cons]
  exact ⟨aloof_plain _ _, aloof_plain _ _, aloof_plain _ _, aloof_plain _ _,
    aloof_effect aloof_sqrt,
    aloof_plain _ _, aloof_plain _ _, aloof_plain _ _, aloof_effect aloof_randomRange,
    List.forall_mem_nil _⟩

/-! ### Databases -/

/-- Databases are no files of the world, so opening one keeps away from them. -/
theorem aloof_sqlOpen (args : List Value) : Run.Aloof (sqlOpen args) := by
  unfold sqlOpen
  split
  · exact (Run.aloof_onDatabase _).bind fun _ => .pure _
  · exact .pure _
  · exact .pure _
  · exact .pure _

/-- The rows of a result become hashes, which only take stamps. -/
theorem aloof_rowHashes (columns : List Bytes) (rows : List (List Value)) :
    Run.Aloof (rowHashes columns rows) := by
  induction rows with
  | nil => exact .pure _
  | cons r rs ih => exact (Run.aloof_hash _).bind fun _ => ih.bind fun _ => .pure _

/-- Executing a statement touches databases only. -/
theorem aloof_sqlExec (args : List Value) : Run.Aloof (sqlExec args) := by
  refine .read (fun _ _ _ => rfl) fun w => ?_
  split
  · exact .pure _
  · refine (Run.aloof_onDatabase _).bind fun _ => ?_
    split
    · exact .pure _
    · exact Run.aloof_hash _

/-- A query touches databases only. -/
theorem aloof_sqlQuery (args : List Value) : Run.Aloof (sqlQuery args) := by
  refine .read (fun _ _ _ => rfl) fun w => ?_
  split
  · exact .pure _
  · refine (Run.aloof_onDatabase _).bind fun _ => ?_
    split
    · exact .pure _
    · split
      · exact .pure _
      · exact (aloof_rowHashes _ _).bind fun _ => Run.aloof_array _

/-- The builtins that only take a handle touch databases only. -/
theorem aloof_onHandle (name : String) (f : Int64 → Database → Except DatabaseFault Unit × Database)
    (args : List Value) : Run.Aloof (onHandle name f args) := by
  unfold onHandle
  split
  · exact (Run.aloof_onDatabase _).bind fun _ => .pure _
  · exact .pure _
  · exact .pure _

/-- All builtins of databases keep away from files and the log. -/
theorem aloof_sql : ∀ b ∈ sql, b.Aloof := by
  simp only [sql, List.forall_mem_cons]
  exact ⟨aloof_effect aloof_sqlOpen, aloof_effect aloof_sqlExec, aloof_effect aloof_sqlQuery,
    aloof_effect (aloof_onHandle _ _), aloof_effect (aloof_onHandle _ _),
      aloof_effect (aloof_onHandle _ _), aloof_effect (aloof_onHandle _ _), List.forall_mem_nil _⟩

end Builtin

/-- Every builtin of the language is aloof, but for the one that imports. -/
theorem Interpreter.aloof_of_lookup {name : Bytes} {b : Builtin}
    (h : standard.lookup name = some b) :
    b.Aloof ∨ b = Import.builtin ∧ name = Import.builtin.name :=
  cases_lookup Builtin.aloof_core Builtin.aloof_math Builtin.aloof_sql h

end Rill
