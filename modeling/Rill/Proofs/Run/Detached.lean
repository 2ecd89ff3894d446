import Rill.Proofs.Value.Detached

/-!
# Runs without the sources of functions

What a run does to a world does not depend on the sources of the functions in it.

* `World.detached`: a world without the sources of functions.
* `Run.Detaches`: two runs do the same but for these sources. The rules follow how runs are built.
* `Run.detaches_get?`, `Run.detaches_create`, …: what runs are built from.
* `Builtin.Detaches`, `Interpreter.detaches_of_lookup`: all builtins but the one that imports, which
  evaluates trees.
-/

namespace Rill

/-- A module without the sources of its functions. -/
def LoadedModule.detached (loaded : LoadedModule) : LoadedModule :=
  { loaded with module := loaded.module.detached }

/-- The loader without the sources of functions. -/
def Loader.detached (l : Loader) : Loader :=
  { l with
    cache := Table.mapValues LoadedModule.detached l.cache
    loads := Table.mapValues LoadedModule.detached l.loads }

/-- A world without the sources of functions. -/
def World.detached (w : World) : World :=
  { w with scopes := w.scopes.detached, loader := w.loader.detached }

/-- A module is remembered in the same way without sources. -/
theorem Loader.remember_detached (path : Bytes) (loaded : LoadedModule) (l : Loader) :
    l.detached.remember path loaded.detached = (l.remember path loaded).detached := by
  simp only [remember, detached, Table.put_mapValues]
  rfl

namespace World

theorem files_detached (w : World) : w.detached.files = w.files := rfl

theorem database_detached (w : World) : w.detached.database = w.database := rfl

theorem loader_detached (w : World) : w.detached.loader = w.loader.detached := rfl

end World

namespace Run

variable {α β γ δ : Type} {f : α → β} {g : γ → δ} {x : Run α} {y : Run β}

/-- In a world without the sources of functions, `y` does what `x` does, but for these sources. -/
def Detaches (f : α → β) (x : Run α) (y : Run β) : Prop :=
  ∀ w, y w.detached = (x w).map (Prod.map f World.detached)

namespace Detaches

/-- A result that is the same up to `f` makes no difference to the world. -/
theorem pure {a : α} {b : β} (h : b = f a) : Detaches f (Pure.pure a) (Pure.pure b) := by
  rw [h]
  exact fun _ => rfl

/-- Steps that do the same but for sources can be taken one after the other. -/
theorem bind {k : α → Run γ} {l : β → Run δ} (hx : Detaches f x y)
    (hk : ∀ a, Detaches g (k a) (l (f a))) :
    Detaches g (x >>= k) (y >>= l) := by
  intro w
  rw [bind_apply, bind_apply, hx w]
  cases x w with
  | none => rfl
  | some r => exact hk r.1 r.2

/-- A change of the world is the same without sources if it commutes with detaching. -/
theorem modifyGet {h : World → α × World} {h' : World → β × World}
    (hh : ∀ w, h' w.detached = Prod.map f World.detached (h w)) :
    Detaches f (modifyGet h : Run α) (modifyGet h' : Run β) :=
  fun w => congrArg some (hh w)

/-- What is read of the world may have sources. -/
theorem read {k : World → Run α} {l : World → Run β} (hk : ∀ w, Detaches f (k w) (l w.detached)) :
    Detaches f (get >>= k) (get >>= l) :=
  fun w => hk w w

end Detaches

/-- A log record says nothing of sources. -/
theorem detaches_log (level : Level) (message : String) (attributes : List (String × Attribute)) :
    Detaches id (log level message attributes) (log level message attributes) := by
  refine .modifyGet fun w => ?_
  -- The journal is not detached, so both worlds keep a record or neither does.
  by_cases hkeeps : w.journal.keeps level = true
  · have hkeeps' : w.detached.journal.keeps level = true := hkeeps
    simp only [if_pos hkeeps, if_pos hkeeps']
    rfl
  · have hkeeps' : ¬w.detached.journal.keeps level = true := hkeeps
    simp only [if_neg hkeeps, if_neg hkeeps']
    rfl

theorem detaches_stamp : Detaches id stamp stamp := .modifyGet fun _ => rfl

/-- An array of values without sources is the array without sources. -/
theorem detaches_array {elements elements' : List Value}
    (h : elements' = elements.map Value.detached) :
    Detaches Value.detached (array elements) (array elements') := by
  subst h
  exact detaches_stamp.bind fun stamp => .pure (by simp)

/-- A hash of entries without sources is the hash without sources. -/
theorem detaches_hash {entries entries' : Entries} (h : entries' = entries.detached) :
    Detaches Value.detached (hash entries) (hash entries') := by
  subst h
  exact detaches_stamp.bind fun stamp => .pure (by simp)

/-- Making a scope does not look at values. -/
theorem detaches_scope (outer : Option ScopeId) : Detaches id (scope outer) (scope outer) := by
  refine .modifyGet fun w => ?_
  simp only [World.detached, Scopes.fresh_detached]
  rfl

/-- What a name reads as is the same without sources. -/
theorem detaches_get? (scope : ScopeId) (name : Bytes) :
    Detaches (Option.map Value.detached) (get? scope name) (get? scope name) :=
  .read fun _ => .pure (Scopes.get?_detached ..)

/-- A binding to a value without its source is the binding without sources. -/
theorem detaches_create (scope : ScopeId) (name : Bytes) (value : Value) :
    Detaches id (create scope name value) (create scope name value.detached) := by
  rw [create, create, Value.kind_detached]
  refine Detaches.bind (f := id) (.modifyGet fun w => ?_) fun _ => detaches_log _ _ _
  simp only [World.detached, Scopes.create_detached]
  rfl

/-- An assignment of a value without its source is the assignment without sources. -/
theorem detaches_assign (scope : ScopeId) (name : Bytes) (value : Value) :
    Detaches id (assign scope name value) (assign scope name value.detached) := by
  rw [assign, assign, Value.kind_detached]
  refine Detaches.bind (f := id) (.modifyGet fun w => ?_) fun implicit => ?_
  · simp only [World.detached, Scopes.assign_detached]
    rfl
  · dsimp only [id]
    split
    · exact (detaches_log _ _ _).bind fun _ => detaches_log _ _ _
    · exact detaches_log _ _ _

/-- The text of a value does not show its source. -/
theorem detaches_inspect (v : Value) : Detaches id (inspect v) (inspect v.detached) := by
  intro w
  show (w.scopes.detached.inspect v.detached).map _ = ((w.scopes.inspect v).map _).map _
  rw [Scopes.inspect_detached, Option.map_map]
  rfl

theorem detaches_print (piece : Bytes) : Detaches id (print piece) (print piece) :=
  .modifyGet fun _ => rfl

theorem detaches_draw : Detaches id draw draw := .modifyGet fun _ => rfl

/-- Databases hold no values of the program, so they are the same without sources. -/
theorem detaches_onDatabase (f : Database → α × Database) :
    Detaches id (onDatabase f) (onDatabase f) :=
  .modifyGet fun _ => rfl

end Run

/-! ## Builtins -/

namespace Builtin

/-- A builtin that asks nothing of its host and does not depend on the sources of functions. -/
def Detaches (b : Builtin) : Prop :=
  ∀ (host host' : Host) (args : List Value),
    Run.Detaches (Option.map Value.detached) (b.run host args)
      (b.run host' (args.map Value.detached))

/-- A builtin that is a function of its arguments detaches if the function commutes with
detaching. -/
theorem detaches_plain {name : String} {f : List Value → Value}
    (h : ∀ args, f (args.map Value.detached) = (f args).detached) : (plain name f).Detaches :=
  fun _ _ args => .pure (congrArg some (h args))

/-- A builtin with an effect detaches if the effect does. -/
theorem detaches_effect {name : String} {f : List Value → Run Value}
    (h : ∀ args, Run.Detaches Value.detached (f args) (f (args.map Value.detached))) :
    (effect name f).Detaches :=
  fun _ _ args => (h args).bind fun _ => .pure rfl

/-- The fault of a wrong count names the count only. -/
theorem wrongCount_detached (want : Arity) (args : List Value) :
    wrongCount want (args.map Value.detached) = (wrongCount want args).detached := by
  rw [wrongCount, List.length_map]
  rfl

/-- The length of a collection does not depend on sources. -/
theorem len_detached : (args : List Value) → len (args.map Value.detached) = (len args).detached
  | [] => rfl
  | [v] => by
    cases v with
    | array stamp elements => simp [len]
    | hash stamp entries => simp [len]
    | _ => rfl
  | v :: v' :: vs => by cases v <;> exact wrongCount_detached _ (_ :: v' :: vs)

theorem type_detached : (args : List Value) → type (args.map Value.detached) = (type args).detached
  | [] => rfl
  | [v] => by simp [type]
  | v :: v' :: vs => by cases v <;> exact wrongCount_detached _ (_ :: v' :: vs)

/-- The text of a value does not depend on its source. -/
theorem detaches_str : (args : List Value) → Run.Detaches Value.detached (str args)
    (str (args.map Value.detached))
  | [] => .pure rfl
  | [v] => (Run.detaches_inspect v).bind fun _ => .pure rfl
  | v :: v' :: vs => by cases v <;> exact .pure (wrongCount_detached _ (_ :: v' :: vs))

/-- The texts of arguments do not depend on sources. -/
theorem detaches_texts (args : List Value) :
    Run.Detaches id (texts args) (texts (args.map Value.detached)) := by
  induction args with
  | nil => exact .pure rfl
  | cons v vs ih => exact (Run.detaches_inspect v).bind fun _ => ih.bind fun _ => .pure rfl

/-- What is printed does not depend on sources. -/
theorem detaches_print (args : List Value) :
    Run.Detaches Value.detached (print args) (print (args.map Value.detached)) :=
  (detaches_texts args).bind fun _ => (Run.detaches_print _).bind fun _ => .pure rfl

/-- What is printed line by line does not depend on sources. -/
theorem detaches_puts (args : List Value) :
    Run.Detaches Value.detached (puts args) (puts (args.map Value.detached)) := by
  induction args with
  | nil => exact .pure rfl
  | cons v vs ih =>
    exact (Run.detaches_inspect v).bind fun _ => (Run.detaches_print _).bind fun _ => ih

/-- The first element without its source is the first one of the elements without sources. -/
theorem first_detached :
    (args : List Value) → first (args.map Value.detached) = (first args).detached
  | [] => rfl
  | [v] => by
    cases v with
    | array stamp elements => cases elements <;> simp [first]
    | _ => rfl
  | v :: v' :: vs => by cases v <;> exact wrongCount_detached _ (_ :: v' :: vs)

/-- The last element without its source is the last one of the elements without sources. -/
theorem last_detached : (args : List Value) → last (args.map Value.detached) = (last args).detached
  | [] => rfl
  | [v] => by
    cases v with
    | array stamp elements =>
      simp only [List.map_cons, List.map_nil, Value.detached_array, last, List.getLast?_map]
      cases elements.getLast? <;> rfl
    | _ => rfl
  | v :: v' :: vs => by cases v <;> exact wrongCount_detached _ (_ :: v' :: vs)

/-- The array without its first element, without sources. -/
theorem detaches_rest : (args : List Value) → Run.Detaches Value.detached (rest args)
    (rest (args.map Value.detached))
  | [] => .pure rfl
  | [v] => by
    cases v with
    | array stamp elements =>
      rw [List.map_cons, List.map_nil, Value.detached_array]
      cases elements with
      | nil => exact .pure rfl
      | cons e es => exact Run.detaches_array rfl
    | _ => exact .pure rfl
  | v :: v' :: vs => by
    cases v with
    | array _ elements => cases elements <;> exact .pure (wrongCount_detached _ (_ :: v' :: vs))
    | _ => exact .pure (wrongCount_detached _ (_ :: v' :: vs))

/-- The array with one more element, without sources. -/
theorem detaches_push : (args : List Value) → Run.Detaches Value.detached (push args)
    (push (args.map Value.detached))
  | [] => .pure rfl
  | [v] => by cases v <;> exact .pure rfl
  | v :: v' :: vs => by
    cases v with
    | array stamp elements =>
      rw [List.map_cons, List.map_cons, Value.detached_array]
      exact Run.detaches_array (by simp)
    | _ => exact .pure rfl

/-- The keys of a hash, without sources. -/
theorem detaches_keys : (args : List Value) → Run.Detaches Value.detached (keys args)
    (keys (args.map Value.detached))
  | [] => .pure rfl
  | [v] => by
    cases v with
    | hash stamp entries =>
      rw [List.map_cons, List.map_nil, Value.detached_hash]
      exact Run.detaches_array (Entries.keyValues_detached _)
    | _ => exact .pure rfl
  | v :: v' :: vs => by cases v <;> exact .pure (wrongCount_detached _ (_ :: v' :: vs))

/-- The values of a hash, without sources. -/
theorem detaches_values : (args : List Value) →
    Run.Detaches Value.detached (values args) (values (args.map Value.detached))
  | [] => .pure rfl
  | [v] => by
    cases v with
    | hash stamp entries =>
      rw [List.map_cons, List.map_nil, Value.detached_hash]
      exact Run.detaches_array (Entries.values_detached _)
    | _ => exact .pure rfl
  | v :: v' :: vs => by cases v <;> exact .pure (wrongCount_detached _ (_ :: v' :: vs))

/-- What is made of a copy of a hash is the same without sources if the function that makes it
is. -/
theorem detaches_onCopy {f f' : Entries → Run Value}
    (hf : ∀ entries : Entries, Run.Detaches Value.detached (f entries) (f' entries.detached))
    (skip : Option Key) (entries : Entries) :
    Run.Detaches Value.detached (onCopy skip entries f) (onCopy skip entries.detached f') := by
  rw [onCopy, onCopy, Entries.copy_detached]
  cases Entries.copy skip entries with
  | ok copy => exact hf copy
  | error k => exact .pure (by simp)

/-- A hash with one more pair, without sources. -/
theorem detaches_put : (args : List Value) → Run.Detaches Value.detached (put args)
    (put (args.map Value.detached))
  | [] => .pure rfl
  | [h] => by cases h <;> exact .pure rfl
  | [h, _] => by cases h <;> exact .pure rfl
  | [h, k, v] => by
    cases h with
    | hash stamp entries =>
      simp only [List.map_cons, List.map_nil, Value.detached_hash, put, Value.key?_detached,
        Value.kind_detached]
      cases k.key? with
      | none => exact .pure rfl
      | some key =>
        refine detaches_onCopy (fun copy => ?_) _ _
        exact Run.detaches_hash (Entries.insert_detached key k v copy)
    | _ => exact .pure rfl
  | a :: b :: c :: d :: vs => by
    cases a <;> exact .pure (wrongCount_detached _ (_ :: b :: c :: d :: vs))

/-- A hash without one of its pairs, without sources. -/
theorem detaches_remove : (args : List Value) →
    Run.Detaches Value.detached (remove args) (remove (args.map Value.detached))
  | [] => .pure rfl
  | [h] => by cases h <;> exact .pure rfl
  | [h, k] => by
    cases h with
    | hash stamp entries =>
      simp only [List.map_cons, List.map_nil, Value.detached_hash, remove, Value.key?_detached,
        Value.kind_detached]
      cases k.key? with
      | none => exact .pure rfl
      | some key => exact detaches_onCopy (fun copy => Run.detaches_hash rfl) _ _
    | _ => exact .pure rfl
  | a :: b :: c :: vs => by cases a <;> exact .pure (wrongCount_detached _ (_ :: b :: c :: vs))

theorem trim_detached : (args : List Value) → trim (args.map Value.detached) = (trim args).detached
  | [] => rfl
  | [v] => by cases v <;> rfl
  | v :: v' :: vs => by cases v <;> exact wrongCount_detached _ (_ :: v' :: vs)

/-- A function of two texts looks at no source. -/
theorem onTexts_detached {name : String} {f : Bytes → Bytes → Value}
    (hf : ∀ s t, (f s t).detached = f s t) :
    (args : List Value) → onTexts name f (args.map Value.detached) = (onTexts name f args).detached
  | [] => rfl
  | [v] => by cases v <;> rfl
  | [v, v'] => by
    cases v with
    | string s =>
      cases v' with
      | string t => exact (hf s t).symm
      | _ => rfl
    | _ => cases v' <;> rfl
  | v :: v' :: v'' :: vs => by
    cases v <;> cases v' <;> exact wrongCount_detached _ (_ :: _ :: v'' :: vs)

/-- All builtins of the core do the same without sources. -/
theorem detaches_core : ∀ b ∈ core, b.Detaches := by
  simp only [core, List.forall_mem_cons]
  exact ⟨detaches_plain len_detached, detaches_plain type_detached, detaches_effect detaches_str,
    detaches_effect detaches_print, detaches_effect detaches_puts, detaches_plain first_detached,
    detaches_plain last_detached, detaches_effect detaches_rest, detaches_effect detaches_push,
    detaches_effect detaches_keys, detaches_effect detaches_values, detaches_effect detaches_put,
    detaches_effect detaches_remove, detaches_plain trim_detached,
      detaches_plain (onTexts_detached fun _ _ => rfl),
    detaches_plain (onTexts_detached fun _ _ => rfl),
      detaches_plain (onTexts_detached fun _ _ => rfl),
    detaches_plain (onTexts_detached fun _ _ => rfl), List.forall_mem_nil _⟩

/-! ### Numbers -/

theorem abs_detached : (args : List Value) → abs (args.map Value.detached) = (abs args).detached
  | [] => rfl
  | [v] => by cases v <;> rfl
  | v :: v' :: vs => by cases v <;> exact wrongCount_detached _ (_ :: v' :: vs)

/-- Rounding looks at the number only. -/
theorem round_detached (name : String) (mode : Binary.Rounding) (args : List Value) :
    round name mode (args.map Value.detached) = (round name mode args).detached := by
  -- What comes out has no parts, so only the arguments are left to look at.
  rw [Value.detached_of_isPlain (isPlain_round name mode args)]
  match args with
  | [] => rfl
  | [v] => cases v <;> rfl
  | v :: v' :: vs => cases v <;> exact wrongCount_detached _ (_ :: v' :: vs)

/-- The square root looks at the number only, and its fault at the text of the number. -/
theorem detaches_sqrt : (args : List Value) → Run.Detaches Value.detached (sqrt args)
    (sqrt (args.map Value.detached))
  | [] => .pure rfl
  | [v] => by
    simp only [List.map_cons, List.map_nil, sqrt, Value.number?_detached, Value.kind_detached]
    cases v.number? with
    | none => exact .pure (by simp [notNumber])
    | some x =>
      dsimp only
      split
      · exact (Run.detaches_inspect v).bind fun _ => .pure rfl
      · exact .pure (Value.detached_of_isPlain (Value.isPlain_ofNumber _ _)).symm
  | v :: v' :: vs => .pure (wrongCount_detached _ (v :: v' :: vs))

/-- Powers look at the numbers only. -/
theorem pow_detached (args : List Value) : pow (args.map Value.detached) = (pow args).detached := by
  rw [Value.detached_of_isPlain (isPlain_pow args)]
  match args with
  | [] => rfl
  | [_] => rfl
  | [v, v'] => cases v <;> cases v' <;> rfl
  | v :: v' :: v'' :: vs => exact wrongCount_detached _ (v :: v' :: v'' :: vs)

/-- The best of several numbers is chosen by their values. -/
theorem pickFrom_detached (name : String) (better : Float → Float → Bool) (best : Value) (x : Float)
    (vs : List Value) : pickFrom name better best.detached x (vs.map Value.detached) =
      (pickFrom name better best x vs).detached := by
  induction vs generalizing best x with
  | nil => rfl
  | cons v vs ih =>
    rw [List.map_cons, pickFrom, pickFrom, Value.number?_detached]
    cases v.number? with
    | none => simp [notNumber]
    | some y =>
      dsimp only
      rw [ih, ih]
      split <;> rfl

/-- The builtins that pick a number do the same without sources. -/
theorem pick_detached (name : String) (better : Float → Float → Bool) (args : List Value) :
    pick name better (args.map Value.detached) = (pick name better args).detached := by
  cases args with
  | nil => rfl
  | cons v vs =>
    rw [List.map_cons, pick, pick, Value.number?_detached]
    cases v.number? with
    | none => simp [notNumber]
    | some x => exact pickFrom_detached name better v x vs

/-- Random numbers are drawn from a range that sources have no part in. -/
theorem detaches_randomRange : (args : List Value) →
    Run.Detaches Value.detached (randomRange args) (randomRange (args.map Value.detached))
  | [] => .pure rfl
  | [v] => by cases v <;> exact .pure rfl
  | [v, v'] => by
    cases v with
    | integer low =>
      cases v' with
      | integer high =>
        show Run.Detaches Value.detached (randomRange [.integer low, .integer high])
          (randomRange [.integer low, .integer high])
        rw [randomRange]
        split
        · exact .pure rfl
        · exact Run.detaches_draw.bind fun _ => .pure rfl
      | _ => exact .pure rfl
    | _ => cases v' <;> exact .pure rfl
  | v :: v' :: v'' :: vs => by
    cases v <;> cases v' <;> exact .pure (wrongCount_detached _ (_ :: _ :: v'' :: vs))

/-- All builtins of mathematics do the same without sources. -/
theorem detaches_math : ∀ b ∈ math, b.Detaches := by
  simp only [math, List.forall_mem_cons]
  exact ⟨detaches_plain abs_detached, detaches_plain (round_detached _ _),
    detaches_plain (round_detached _ _),
    detaches_plain (round_detached _ _), detaches_effect detaches_sqrt, detaches_plain pow_detached,
    detaches_plain (pick_detached _ _), detaches_plain (pick_detached _ _),
      detaches_effect detaches_randomRange, List.forall_mem_nil _⟩

/-! ### Databases -/

/-- Opening a database looks at texts only. -/
theorem detaches_sqlOpen : (args : List Value) →
    Run.Detaches Value.detached (sqlOpen args) (sqlOpen (args.map Value.detached))
  | [] => .pure rfl
  | [v] => by cases v <;> exact .pure rfl
  | [v, v'] => by
    cases v with
    | string driver =>
      cases v' with
      | string database =>
        refine (Run.detaches_onDatabase _).bind fun r => .pure ?_
        cases r <;> rfl
      | _ => exact .pure rfl
    | _ => cases v' <;> exact .pure rfl
  | v :: v' :: v'' :: vs => by
    cases v <;> cases v' <;> exact .pure (wrongCount_detached _ (_ :: _ :: v'' :: vs))

/-- The parameters of a statement are numbers, texts, booleans and nulls, which have no sources. -/
theorem params_detached (name : String) (args : List Value) :
    params name (args.map Value.detached) = params name args := by
  induction args with
  | nil => rfl
  | cons v vs ih =>
    have hparam : param? v.detached = param? v := by cases v <;> rfl
    rw [List.map_cons, params, params, hparam, Value.kind_detached, ih]

/-- A statement is the same without the sources of its arguments. -/
theorem statement_detached (name : String) (d : Database) :
    (args : List Value) → statement name d (args.map Value.detached) = statement name d args
  | [] => rfl
  | [v] => by cases v <;> rfl
  | v :: v' :: vs => by
    have hparams := params_detached name vs
    cases v with
    | integer handle =>
      rw [List.map_cons, List.map_cons, Value.detached_integer]
      cases v' with
      | string sql => simp only [Value.detached_string, statement, hparams]
      | _ => rfl
    | _ => simp [Value.detached, statement, Value.kind]

/-- A row of values without sources has none. -/
theorem row_detached (columns : List Bytes) {values : List Value}
    (h : ∀ v ∈ values, v.detached = v) :
    (row columns values).detached = row columns values := by
  have hall : (row columns values).All False fun v => v.detached = v :=
    all_row Value.hereditary_detached h
  -- The entries of a row are those of a hash without a source.
  have hhash : (Value.hash 0 (row columns values)).detached = .hash 0 (row columns values) :=
    Value.hereditary_detached.hash.mpr hall
  rw [Value.detached_hash] at hhash
  exact (Value.hash.inj hhash).2

/-- Rows of values without sources become hashes without sources. -/
theorem detaches_rowHashes (columns : List Bytes) {rows : List (List Value)}
    (h : ∀ r ∈ rows, ∀ v ∈ r, v.detached = v) :
    Run.Detaches (List.map Value.detached) (rowHashes columns rows) (rowHashes columns rows) := by
  induction rows with
  | nil => exact .pure rfl
  | cons r rows ih =>
    obtain ⟨hr, hrows⟩ := List.forall_mem_cons.mp h
    exact (Run.detaches_hash (row_detached columns hr).symm).bind fun hash =>
      (ih hrows).bind fun hashes => .pure rfl

/-- Executing a statement does the same without sources. -/
theorem detaches_sqlExec (args : List Value) :
    Run.Detaches Value.detached (sqlExec args) (sqlExec (args.map Value.detached)) := by
  refine .read fun w => ?_
  rw [World.database_detached, statement_detached]
  cases statement "sqlExec" w.database args with
  | error fault => exact .pure rfl
  | ok s =>
    refine (Run.detaches_onDatabase _).bind fun r => ?_
    cases r with
    | error fault => exact .pure rfl
    | ok counts => exact Run.detaches_hash rfl

/-- A query does the same without sources. -/
theorem detaches_sqlQuery (args : List Value) :
    Run.Detaches Value.detached (sqlQuery args) (sqlQuery (args.map Value.detached)) := by
  refine .read fun w => ?_
  rw [World.database_detached, statement_detached]
  cases statement "sqlQuery" w.database args with
  | error fault => exact .pure rfl
  | ok s =>
    refine (Run.detaches_onDatabase _).bind fun r => ?_
    cases r with
    | error fault => exact .pure rfl
    | ok table =>
      dsimp only [id]
      cases hrows : rowValues table.rows with
      | error message => exact .pure rfl
      | ok rows =>
        -- No cell of a table holds a function.
        have hsources := has_rowValues Value.hereditary_detached hrows
        exact (detaches_rowHashes table.columns hsources).bind fun hashes => Run.detaches_array rfl

/-- The builtins that only take a handle do the same without sources. -/
theorem detaches_onHandle (name : String)
    (f : Int64 → Database → Except DatabaseFault Unit × Database) :
    (args : List Value) → Run.Detaches Value.detached (onHandle name f args)
      (onHandle name f (args.map Value.detached))
  | [] => .pure rfl
  | [v] => by
    cases v with
    | integer handle =>
      refine (Run.detaches_onDatabase _).bind fun r => .pure ?_
      cases r <;> rfl
    | _ => exact .pure rfl
  | v :: v' :: vs => by cases v <;> exact .pure (wrongCount_detached _ (_ :: v' :: vs))

/-- All builtins of databases do the same without sources. -/
theorem detaches_sql : ∀ b ∈ sql, b.Detaches := by
  simp only [sql, List.forall_mem_cons]
  exact ⟨detaches_effect detaches_sqlOpen, detaches_effect detaches_sqlExec,
    detaches_effect detaches_sqlQuery,
    detaches_effect (detaches_onHandle _ _), detaches_effect (detaches_onHandle _ _),
    detaches_effect (detaches_onHandle _ _), detaches_effect (detaches_onHandle _ _),
      List.forall_mem_nil _⟩

end Builtin

/-- No builtin of the language depends on the sources of functions, but perhaps the one that
imports. -/
theorem Interpreter.detaches_of_lookup {name : Bytes} {b : Builtin}
    (h : standard.lookup name = some b) :
    b.Detaches ∨ b = Import.builtin :=
  (cases_lookup Builtin.detaches_core Builtin.detaches_math Builtin.detaches_sql h).imp_right
    And.left

end Rill
