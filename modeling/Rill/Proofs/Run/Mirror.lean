import Rill.Proofs.Files.Places
import Rill.Proofs.Run.Aloof
import Rill.Proofs.Run.Call

/-!
# Runs that mirror each other

Two runs of the same program, with other logs and other dump files, do the same step by step as long
as they never look at what is written for that. Such writings are kept to hidden places: the two
worlds are the same but for the log and for those places, and whatever is done in both keeps them
so.

* `World.Mirrors`: two worlds that differ in the log and in hidden places only.
* `Run.log_mirrors`, `Import.parseFile_mirrors`: records and dump files go to hidden places, so
  either world may take them without the other.
* `Run.Mirrored`: two computations from two such worlds give the same and leave two such worlds.
* `Import.Clear`: no place that is looked at for the file of an import is hidden.
* `Interpreter.mirrored_evalNode`: the step, from the evaluation of the parts to the evaluation of a
  node, if the import that it makes is clear.
-/

namespace Rill

variable {hidden : List Bytes → Prop}

/-! ## Worlds -/

namespace World

variable {w w' w'' : World}

/-- Records and dump files go to hidden places only. -/
structure Secluded (hidden : List Bytes → Prop) (w : World) : Prop where
  sound : w.files.Sound
  log : ∀ place n, w.journal.handle? = some n → w.files.node? place = some (.file n) → hidden place
  dumps : ∀ place, w.files.DumpPlace place → hidden place

/-- Two worlds that are the same but for the log and for what stands in hidden places. -/
structure Mirrors (hidden : List Bytes → Prop) (w w' : World) : Prop where
  noted : w.Noted w'
  same : w.files.SameBesides hidden w'.files
  left : w.Secluded hidden
  right : w'.Secluded hidden

/-- What is written to hidden places leaves a world that mirrors the one before. -/
theorem Secluded.mirrors (hw : w.Secluded hidden) {files : Files} {journal : Journal}
    (hsame : w.files.SameBesides hidden files) (hsound : files.Sound)
    (hhandle : journal.handle? = w.journal.handle?) :
    w.Mirrors hidden { w with files, journal } where
  noted := ⟨files, journal, rfl⟩
  same := hsame
  left := hw
  right := by
    -- In any other place the same stood before, so that it is hidden after all.
    refine ⟨hsound, fun place n hn hplace => ?_, fun place hplace => ?_⟩
    · by_cases hp : hidden place
      · exact hp
      · exact hw.log place n (hhandle ▸ hn) (hsame.node place hp ▸ hplace)
    · by_cases hp : hidden place
      · exact hp
      · exact hw.dumps place ⟨hplace.1, hsame.node place hp ▸ hplace.2⟩

/-- What keeps to itself in few hidden places does so in more of them. -/
theorem Secluded.mono {hidden' : List Bytes → Prop} (hw : w.Secluded hidden)
    (hle : ∀ place, hidden place → hidden' place) : w.Secluded hidden' where
  sound := hw.sound
  log place n hn hplace := hle place (hw.log place n hn hplace)
  dumps place hplace := hle place (hw.dumps place hplace)

namespace Mirrors

/-- A world whose log and dumps keep to hidden places mirrors itself. -/
theorem refl (hw : w.Secluded hidden) : w.Mirrors hidden w :=
  hw.mirrors (.refl hidden _) hw.sound rfl

/-- Two worlds that differ in hidden places only do so from either side. -/
theorem symm (h : w.Mirrors hidden w') : w'.Mirrors hidden w :=
  ⟨h.noted.symm, h.same.symm, h.right, h.left⟩

/-- Worlds that each differ from the next in hidden places only differ in hidden places only. -/
theorem trans (h : w.Mirrors hidden w') (h' : w'.Mirrors hidden w'') : w.Mirrors hidden w'' :=
  ⟨h.noted.trans h'.noted, h.same.trans h'.same, h.left, h'.right⟩

end Mirrors

end World

/-- A record is written to a hidden place, or to none, and the handle of the log stays. -/
theorem Journal.record_hides {j : Journal} {fs : Files} (hfs : fs.Sound)
    (hhides : ∀ place n, j.handle? = some n → fs.node? place = some (.file n) → hidden place)
    (r : Record) :
    fs.SameBesides hidden (j.record r fs).2 ∧ (j.record r fs).2.Sound ∧
      (j.record r fs).1.handle? = j.handle? := by
  unfold record
  split
  next =>
    dsimp only
    split
    next file hfile =>
      cases hhandle : file.handle with
      | none =>
        rw [LogFile.write, hhandle]
        exact ⟨.refl hidden fs, hfs, rfl⟩
      | some n =>
        -- Only the file of the handle is written to, and all of its places are hidden.
        have hn : j.handle? = some n := by rw [handle?, hfile, Option.bind_some, hhandle]
        rw [LogFile.write, hhandle]
        exact ⟨Files.sameBesides_modify (fun place => hhides place n hn) _, hfs.modify n _, rfl⟩
    next hfile => exact ⟨.refl hidden fs, hfs, rfl⟩
  next => exact ⟨.refl hidden fs, hfs, rfl⟩

/-- A log record leaves a world that differs in hidden places only. -/
theorem Run.log_mirrors (level : Level) (message : String)
    (attributes : List (String × Attribute)) {w : World} (hw : w.Secluded hidden) :
    ∃ w', log level message attributes w = some ((), w') ∧ w.Mirrors hidden w' := by
  refine ⟨_, rfl, ?_⟩
  dsimp only
  split
  next =>
    obtain ⟨hsame, hsound, hhandle⟩ :=
      Journal.record_hides hw.sound hw.log ⟨level, Rill.text message, attributes⟩
    exact hw.mirrors hsame hsound hhandle
  next => exact .refl hw

/-- A file that is parsed leaves a world that differs in hidden places only, whether or not a dump
is written. -/
theorem Import.parseFile_mirrors (host : Host) (path src : Bytes) {w : World}
    (hw : w.Secluded hidden) : ∃ w', w.Mirrors hidden w' ∧ parseFile host path src w = some (
      if (parse src).diagnostics.isEmpty then .ok (parse src).program
      else .error ⟨path, src, (parse src).diagnostics⟩, w') := by
  -- The dump file and each record leave a mirror of what was there before.
  refine exists_parseFile (.refl hw) ?_ ?_
  · intro target files hdump
    obtain ⟨hsame, hsound⟩ := Program.dump_hides hw.sound hw.dumps hdump
    exact hw.mirrors hsame hsound rfl
  · intro u u' level message attributes hu hlog
    obtain ⟨_, hrecord, hmirrors⟩ := Run.log_mirrors level message attributes hu.right
    cases hrecord.symm.trans hlog
    exact hu.trans hmirrors

/-! ## Computations -/

namespace Run

variable {α β : Type} {w w' : World}

/-- Two computations from two worlds: neither has a result, or both have the same and leave worlds
that mirror each other. -/
def Mirrored (hidden : List Bytes → Prop) (x y : Run α) (w w' : World) : Prop :=
  Option.Rel (fun r r' => r.1 = r'.1 ∧ r.2.Mirrors hidden r'.2) (x w) (y w')

namespace Mirrored

/-- Two computations with one result and mirrored worlds are mirrored. -/
theorem of_eq {x y : Run α} {a : α} {u u' : World} (hx : x w = some (a, u))
    (hy : y w' = some (a, u')) (h : u.Mirrors hidden u') : Mirrored hidden x y w w' := by
  rw [Mirrored, hx, hy]
  exact .some ⟨rfl, h⟩

/-- A result without a step is mirrored by itself. -/
theorem pure (hw : w.Mirrors hidden w') (a : α) :
    Mirrored hidden (Pure.pure a : Run α) (Pure.pure a) w w' :=
  .of_eq rfl rfl hw

/-- What the first computation gives is given by the second as well. -/
theorem exists_eq {x y : Run α} (h : Mirrored hidden x y w w') {a : α} {u : World}
    (hx : x w = some (a, u)) :
    ∃ u', y w' = some (a, u') ∧ u.Mirrors hidden u' := by
  rw [Mirrored, hx] at h
  cases hy : y w' with
  | none =>
    rw [hy] at h
    cases h
  | some r =>
    rw [hy] at h
    cases h with
    | some h =>
      obtain ⟨rfl, h⟩ := h
      exact ⟨r.2, rfl, h⟩

/-- Two computations are mirrored from either side. -/
theorem symm {x y : Run α} (h : Mirrored hidden x y w w') : Mirrored hidden y x w' w := by
  unfold Mirrored at *
  generalize x w = r at h
  generalize y w' = r' at h
  cases h with
  | some h => exact .some ⟨h.1.symm, h.2.symm⟩
  | none => exact .none

/-- Computations in two steps are mirrored if their first steps are, and what follows from mirrored
worlds is. -/
theorem bind {x y : Run α} {f g : α → Run β} (hx : Mirrored hidden x y w w')
    (hf : ∀ a u u', x w = some (a, u) → u.Mirrors hidden u' → Mirrored hidden (f a) (g a) u u') :
    Mirrored hidden (x >>= f) (y >>= g) w w' := by
  cases hxw : x w with
  | none =>
    cases hyw : y w' with
    | none =>
      rw [Mirrored, bind_apply, bind_apply, hxw, hyw]
      exact .none
    | some r =>
      obtain ⟨_, hnone, -⟩ := hx.symm.exists_eq hyw
      cases hxw.symm.trans hnone
  | some r =>
    obtain ⟨u', hyw, hu⟩ := hx.exists_eq hxw
    rw [Mirrored, bind_apply, bind_apply, hxw, hyw]
    exact hf r.1 r.2 u' hxw hu

theorem get {f g : World → Run β} (h : Mirrored hidden (f w) (g w') w w') :
    Mirrored hidden (MonadState.get >>= f) (MonadState.get >>= g) w w' := h

/-- A computation that keeps away from files and the log is mirrored by itself. -/
theorem of_aloof {x : Run α} (hx : Aloof x) (hw : w.Mirrors hidden w') :
    Mirrored hidden x x w w' := by
  obtain ⟨files, journal, rfl⟩ := hw.noted
  cases hxw : x w with
  | none =>
    rw [Mirrored, hx w files journal, hxw]
    exact .none
  | some r =>
    -- With its own files and log the world ends with them, so these are the ones that the result
    -- has.
    have hown := hx w w.files w.journal
    rw [show { w with files := w.files, journal := w.journal } = w from rfl, hxw] at hown
    obtain ⟨a, u⟩ := r
    have hu : u = { u with files := w.files, journal := w.journal } :=
      (Prod.mk.inj (Option.some.inj hown)).2
    have hfiles : u.files = w.files := by rw [hu]
    have hjournal : u.journal = w.journal := by rw [hu]
    have hleft : u.Secluded hidden := by
      refine ⟨hfiles ▸ hw.left.sound, ?_, hfiles ▸ hw.left.dumps⟩
      rw [hfiles, hjournal]
      exact hw.left.log
    refine .of_eq hxw (by rw [hx w files journal, hxw]; rfl) ⟨⟨files, journal, rfl⟩, ?_, hleft, ?_⟩
    · rw [hfiles]
      exact hw.same
    · exact ⟨hw.right.sound, hw.right.log, hw.right.dumps⟩

end Mirrored

variable (hw : w.Mirrors hidden w')

include hw

/-- Taking a record is mirrored, whatever the levels of the two logs are. -/
theorem mirrored_log (level : Level) (message : String) (attributes : List (String × Attribute)) :
    Mirrored hidden (log level message attributes) (log level message attributes) w w' := by
  obtain ⟨u, hlog, hu⟩ := log_mirrors level message attributes hw.left
  obtain ⟨u', hlog', hu'⟩ := log_mirrors level message attributes hw.right
  -- Back from one record, across to the other world, and on to its record.
  exact .of_eq hlog hlog' (hu.symm.trans (hw.trans hu'))

/-- A binding is mirrored, with the record that it leaves. -/
theorem mirrored_create (scope : ScopeId) (name : Bytes) (value : Value) :
    Mirrored hidden (create scope name value) (create scope name value) w w' := by
  refine (Mirrored.of_aloof (.modifyGet fun _ _ _ => rfl) hw).bind fun _ _ _ _ hu => ?_
  exact mirrored_log hu _ _ _

/-- An assignment is mirrored, with the records that it leaves. -/
theorem mirrored_assign (scope : ScopeId) (name : Bytes) (value : Value) :
    Mirrored hidden (assign scope name value) (assign scope name value) w w' := by
  refine (Mirrored.of_aloof (.modifyGet fun _ _ _ => rfl) hw).bind fun implicit _ _ _ hu => ?_
  cases implicit with
  | false => exact mirrored_log hu _ _ _
  | true => exact (mirrored_log hu _ _ _).bind fun _ _ _ _ hu => mirrored_log hu _ _ _

end Run

/-! ## Imports -/

namespace Import

/-- The paths that are looked at for the file of an import. -/
def sought (host : Host) (fs : Files) (stack : List Bytes) (name : Bytes) : List Bytes :=
  let file := if Bytes.endsWith name extension then name else name ++ extension
  if Path.isAbsolute file then [file]
  else
    let beside := Path.join [stack.head?.elim host.root Path.parent, file]
    beside :: match fs.stat beside with
      | .ok _ => [Path.absolute fs.cwd beside]
      | .error fault =>
        if fault.reason ≠ .notFound ∨ host.home = [] then []
        else
          let library := Path.join [host.home, text "lib", file]
          [library, Path.absolute fs.cwd library]

/-- No place that is looked at for the file of an import is hidden. -/
def Clear (hidden : List Bytes → Prop) (host : Host) (name : Bytes) (w : World) : Prop :=
  ∀ path ∈ sought host w.files w.loader.stack name, ∀ place ∈ Files.trail w.files.cwd path,
    ¬ hidden place

instance [DecidablePred hidden] (host : Host) (name : Bytes) (w : World) :
    Decidable (Clear hidden host name w) :=
  inferInstanceAs (Decidable (∀ path ∈ _, ∀ place ∈ _, ¬ hidden place))

variable {host : Host} {fs fs' : Files} {stack : List Bytes} {name path : Bytes}

/-- An import finds only files that it looks for. -/
theorem mem_sought_of_resolve (h : resolve host fs stack name = .ok path) :
    path ∈ sought host fs stack name := by
  unfold resolve at h
  unfold sought
  dsimp only at h ⊢
  generalize (if Bytes.endsWith name extension then name else name ++ extension) = file at h ⊢
  split at h
  next habsolute =>
    cases h
    rw [if_pos habsolute]
    exact List.mem_cons_self
  next habsolute =>
    rw [if_neg habsolute]
    generalize Path.join [stack.head?.elim host.root Path.parent, file] = beside at h ⊢
    cases hstat : fs.stat beside with
    | ok =>
      rw [hstat] at h
      cases h
      exact List.mem_cons_of_mem _ List.mem_cons_self
    | error fault =>
      rw [hstat] at h
      dsimp only at h ⊢
      split at h
      · cases h
      next hreason =>
        split at h
        · cases h
        next hhome =>
          -- Nothing beside the file that imports, so the library was searched.
          rw [if_neg (not_or.mpr ⟨hreason, hhome⟩)]
          split at h
          · cases h
            exact List.mem_cons_of_mem _ (List.mem_cons_of_mem _ List.mem_cons_self)
          · cases h

/-- What is found for an import depends on the places that are looked at for it. -/
theorem resolve_eq_of_sought (h : fs.SameBesides hidden fs')
    (hclear : ∀ path ∈ sought host fs stack name, ∀ place ∈ Files.trail fs.cwd path,
      ¬ hidden place) :
    sought host fs' stack name = sought host fs stack name ∧
      resolve host fs' stack name = resolve host fs stack name := by
  unfold sought at hclear ⊢
  unfold resolve
  dsimp only at hclear ⊢
  generalize (if Bytes.endsWith name extension then name else name ++ extension) = file at hclear ⊢
  by_cases habsolute : Path.isAbsolute file = true
  · simp only [if_pos habsolute, and_self]
  · rw [if_neg habsolute] at hclear
    obtain ⟨hbeside, hclear⟩ := List.forall_mem_cons.mp hclear
    simp only [if_neg habsolute, h.cwd, h.stat_eq hbeside]
    refine ⟨trivial, ?_⟩
    split
    next => rfl
    next fault hstat =>
      -- The library is looked at only if nothing is found beside the file that imports.
      rw [hstat] at hclear
      dsimp only at hclear
      split
      next => rfl
      next hreason =>
        split
        next => rfl
        next hhome =>
          rw [if_neg (not_or.mpr ⟨hreason, hhome⟩)] at hclear
          rw [h.stat_eq (hclear _ List.mem_cons_self)]

/-- Imports look at hidden places in a world or in none of those that mirror it. -/
theorem Clear.congr {w w' : World} (h : Clear hidden host name w) (hw : w.Mirrors hidden w') :
    Clear hidden host name w' := by
  obtain ⟨hsought, -⟩ := resolve_eq_of_sought hw.same h
  obtain ⟨files, journal, rfl⟩ := hw.noted
  unfold Clear
  rw [hsought, hw.same.cwd]
  exact h

end Import

/-! ## Evaluation -/

namespace Interpreter

/-- The same interpreter with another format of dump files. -/
def dumping (it : Interpreter) (dump : Bytes) : Interpreter := { it with dump }

theorem registry_dumping (it : Interpreter) (dump : Bytes) :
    (it.dumping dump).registry = it.registry := rfl

/-- Two evaluators do the same in worlds that mirror each other. -/
def Reflects (hidden : List Bytes → Prop) (self self' : Evaluator) : Prop :=
  ∀ (node : Node) {scope : ScopeId} {w w' : World}, w.Mirrors hidden w' →
    Run.Mirrored hidden (self node scope) (self' node scope) w w'

variable {it : Interpreter} {dump : Bytes} {self self' : Evaluator} {scope : ScopeId} {w w' : World}

/-- Evaluators reflect each other from either side. -/
theorem Reflects.symm (h : Reflects hidden self self') : Reflects hidden self' self :=
  fun node _ _ _ hw => (h node hw.symm).symm

section Parts

variable (hself : Reflects hidden self self')

include hself

/-! ### Statements -/

/-- The statements of a program are mirrored, one after the other. -/
theorem mirrored_evalProgram (hw : w.Mirrors hidden w') (result : Value) (statements : List Stmt) :
    Run.Mirrored hidden (evalProgram self scope result statements)
      (evalProgram self' scope result statements) w w' := by
  induction statements generalizing result w w' with
  | nil => exact .pure hw _
  | cons s ss ih =>
    refine (hself _ hw).bind fun v _ _ _ hu => ?_
    cases v with
    | returned | error => exact .pure hu _
    | _ => exact ih hu _

/-- The statements of a block are mirrored, one after the other. -/
theorem mirrored_evalBlock (hw : w.Mirrors hidden w') (result : Value) (statements : List Stmt) :
    Run.Mirrored hidden (evalBlock self scope result statements)
      (evalBlock self' scope result statements) w w' := by
  induction statements generalizing result w w' with
  | nil => exact .pure hw _
  | cons s ss ih =>
    refine (hself _ hw).bind fun v _ _ _ hu => ?_
    cases v with
    | returned | error | broken => exact .pure hu _
    | _ => exact ih hu _

/-! ### Expressions in a row -/

/-- Expressions in a row are mirrored. -/
theorem mirrored_evalAll (hw : w.Mirrors hidden w') (es : List Expr) :
    Run.Mirrored hidden (evalAll self scope es) (evalAll self' scope es) w w' := by
  induction es generalizing w w' with
  | nil => exact .pure hw _
  | cons e es ih =>
    refine (hself _ hw).bind fun v _ _ _ hu => ?_
    cases v with
    | error => exact .pure hu _
    | _ =>
      refine (ih hu).bind fun r _ _ _ hu => ?_
      cases r with
      | error | ok => exact .pure hu _

/-- The pairs of a hash are mirrored, each key before its value. -/
theorem mirrored_evalPairs (hw : w.Mirrors hidden w') (entries : Entries)
    (pairs : List (Expr × Expr)) :
    Run.Mirrored hidden (evalPairs self scope entries pairs)
      (evalPairs self' scope entries pairs) w w' := by
  induction pairs generalizing entries w w' with
  | nil => exact .of_aloof (Run.aloof_hash _) hw
  | cons pair pairs ih =>
    refine (hself _ hw).bind fun key _ _ _ hu => ?_
    cases key with
    | integer | float | double | boolean | string =>
      refine (hself _ hu).bind fun value _ _ _ hu => ?_
      cases value with
      | error => exact .pure hu _
      | _ => exact ih hu _
    | _ => exact .pure hu _

/-! ### Branches and loops -/

/-- The branches of a conditional are mirrored: both runs take the same one. -/
theorem mirrored_evalElifs (hw : w.Mirrors hidden w') (alternative : Option Block)
    (elifs : List (Expr × Block)) :
    Run.Mirrored hidden (evalElifs self scope alternative elifs)
      (evalElifs self' scope alternative elifs) w w' := by
  induction elifs generalizing w w' with
  | nil =>
    cases alternative with
    | none => exact .pure hw _
    | some b => exact hself _ hw
  | cons elif elifs ih =>
    refine (hself _ hw).bind fun v _ _ _ hu => ?_
    cases v with
    | error => exact .pure hu _
    | _ =>
      dsimp only
      split
      · exact hself _ hu
      · exact ih hu

omit hself in
/-- The next round of a loop is mirrored, if the round is. -/
theorem mirrored_nextRound {outer : ScopeId} {counter : Bytes} {round round' : ScopeId → Run Value}
    (hw : w.Mirrors hidden w')
    (hround : ∀ {next u u'}, World.Mirrors hidden u u' → Run.Mirrored hidden (round next)
      (round' next) u u') :
    Run.Mirrored hidden (nextRound outer counter scope round)
      (nextRound outer counter scope round') w w' := by
  refine (Run.Mirrored.of_aloof (Run.aloof_get? _ _) hw).bind fun found _ _ _ hu => ?_
  cases found with
  | none => exact .pure hu _
  | some value =>
    refine (Run.Mirrored.of_aloof (Run.aloof_scope _) hu).bind fun next _ _ _ hu => ?_
    exact (Run.mirrored_create hu _ _ _).bind fun _ _ _ _ hu => hround hu

/-- All rounds of a loop are mirrored. -/
theorem mirrored_evalRounds (hw : w.Mirrors hidden w') (outer : ScopeId) (counter : Bytes)
    (condition : Expr) (step : Stmt) (body : Block) (rounds : Nat) :
    Run.Mirrored hidden (evalRounds self outer counter condition step body rounds scope)
      (evalRounds self' outer counter condition step body rounds scope) w w' := by
  induction rounds generalizing scope w w' with
  -- Without rounds left neither run has a result.
  | zero => exact .none
  | succ rounds ih =>
    refine (hself _ hw).bind fun v _ _ _ hu => ?_
    cases v with
    | boolean b =>
      cases b with
      | false => exact .pure hu _
      | true =>
        refine (hself _ hu).bind fun v _ _ _ hu => ?_
        cases v with
        | error | returned | broken => exact .pure hu _
        | _ =>
          refine (hself _ hu).bind fun v _ _ _ hu => ?_
          cases v with
          | error => exact .pure hu _
          | _ => exact mirrored_nextRound hu ih
    | _ => exact .pure hu _

/-! ### Modules -/

/-- The evaluation of a file on top of the stack is mirrored. -/
theorem mirrored_within (hw : w.Mirrors hidden w') (path : Bytes) (program : Program) :
    Run.Mirrored hidden (Import.within path (self (.program program) scope))
      (Import.within path (self' (.program program) scope)) w w' := by
  refine (Run.Mirrored.of_aloof (.modifyGet fun _ _ _ => rfl) hw).bind fun _ _ _ _ hu => ?_
  refine (hself _ hu).bind fun _ _ _ _ hu => ?_
  exact (Run.Mirrored.of_aloof (.modifyGet fun _ _ _ => rfl) hu).bind fun _ _ _ _ hu => .pure hu _

/-- The evaluation of a module is mirrored, and the module is remembered in both worlds. -/
theorem mirrored_evaluateModule (hw : w.Mirrors hidden w') (path src : Bytes) (program : Program) :
    Run.Mirrored hidden (Import.evaluateModule (it.host self) path src program)
      (Import.evaluateModule ((it.dumping dump).host self') path src program) w w' := by
  refine (Run.Mirrored.of_aloof (Run.aloof_scope _) hw).bind fun _ _ _ _ hu => ?_
  refine (mirrored_within hself hu path program).bind fun v _ _ _ hu => ?_
  dsimp only
  split
  · exact .pure hu _
  · exact (Run.Mirrored.of_aloof (.modifyGet fun _ _ _ => rfl) hu).bind fun _ _ _ _ hu => .pure hu _

omit hself in
/-- Parsing a file is mirrored, whatever the two runs dump of it. -/
theorem mirrored_parseFile (hw : w.Mirrors hidden w') (path src : Bytes) :
    Run.Mirrored hidden (Import.parseFile (it.host self) path src)
      (Import.parseFile ((it.dumping dump).host self') path src) w w' := by
  obtain ⟨_, hleft, hparse⟩ := Import.parseFile_mirrors (it.host self) path src hw.left
  obtain ⟨_, hright, hparse'⟩ :=
    Import.parseFile_mirrors ((it.dumping dump).host self') path src hw.right
  exact .of_eq hparse hparse' (hleft.symm.trans (hw.trans hright))

/-- Loading a path is mirrored if the path keeps away from hidden places, as both runs read the same
file then. -/
theorem mirrored_loadPath (hw : w.Mirrors hidden w') {path : Bytes}
    (hpath : ∀ place ∈ Files.trail w.files.cwd path, ¬ hidden place) :
    Run.Mirrored hidden (Import.loadPath (it.host self) path)
      (Import.loadPath ((it.dumping dump).host self') path) w w' := by
  -- The path is not hidden, so both worlds read the same text.
  have hread : w'.files.read path = w.files.read path := hw.same.read_eq hpath
  have hloader : w'.loader = w.loader := by
    obtain ⟨_, _, rfl⟩ := hw.noted
    rfl
  refine .get ?_
  rw [hread, hloader]
  cases w.files.read path with
  | error => exact .pure hw _
  | ok src =>
    dsimp only
    split
    next => exact (Run.mirrored_log hw _ _ _).bind fun _ _ _ _ hu => .pure hu _
    next =>
      refine (Run.mirrored_log hw _ _ _).bind fun _ _ _ _ hu => ?_
      refine (mirrored_parseFile hu path src).bind fun parsed _ _ _ hu => ?_
      cases parsed with
      | error => exact .pure hu _
      | ok program => exact mirrored_evaluateModule hself hu path src program

/-- An import is mirrored if it looks at no hidden place. -/
theorem mirrored_load (hw : w.Mirrors hidden w') {name : Bytes}
    (hclear : Import.Clear hidden (it.host self) name w) :
    Run.Mirrored hidden (Import.load (it.host self) name)
      (Import.load ((it.dumping dump).host self') name) w w' := by
  -- No place that is looked at is hidden, so both worlds find the same file.
  have hresolve : Import.resolve ((it.dumping dump).host self') w'.files w.loader.stack name =
      Import.resolve (it.host self) w.files w.loader.stack name :=
    (Import.resolve_eq_of_sought hw.same hclear).2
  have hloader : w'.loader = w.loader := by
    obtain ⟨_, _, rfl⟩ := hw.noted
    rfl
  refine .get ?_
  rw [hloader, hresolve]
  cases hfound : Import.resolve (it.host self) w.files w.loader.stack name with
  | error => exact .pure hw _
  | ok path =>
    dsimp only
    split
    · exact .pure hw _
    · exact mirrored_loadPath hself hw (hclear path (Import.mem_sought_of_resolve hfound))

/-- The builtin for imports is mirrored, with whatever arguments, if no import looks at a hidden
place. -/
theorem mirrored_import (hw : w.Mirrors hidden w') (args : List Value)
    (hclear : ∀ name, args = [.string name] → Import.Clear hidden (it.host self) name w) :
    Run.Mirrored hidden (Import.builtin.run (it.host self) args)
      (Import.builtin.run ((it.dumping dump).host self') args) w w' := by
  rcases args with _ | ⟨v, _ | ⟨v', vs⟩⟩
  · exact .pure hw _
  · cases v with
    | string name =>
      change Run.Mirrored hidden (some <$> Import.load _ name) (some <$> Import.load _ name) w w'
      rw [map_eq_pure_bind, map_eq_pure_bind]
      exact (mirrored_load hself hw (hclear name rfl)).bind fun _ _ _ _ hu => .pure hu _
    | _ => exact .pure hw _
  · cases v <;> exact .pure hw _

/-! ### Calls -/

omit hself in
/-- Binding parameters to arguments is mirrored. -/
theorem mirrored_bindAll (hw : w.Mirrors hidden w') (parameters : List Name) (args : List Value) :
    Run.Mirrored hidden (bindAll scope parameters args) (bindAll scope parameters args) w w' := by
  induction parameters generalizing args w w' with
  | nil => exact .pure hw _
  | cons p ps ih =>
    cases args with
    | nil => exact .pure hw _
    | cons v vs => exact (Run.mirrored_create hw _ _ _).bind fun _ _ _ _ hu => ih hu vs

/-- A call is mirrored. Only a call of the builtin for imports can look at files. -/
theorem mirrored_apply (hit : it.registry = standard) (hw : w.Mirrors hidden w') (function : Value)
    (args : List Value) (hclear : ∀ name, function = .builtin Import.builtin.name →
      args = [.string name] →
      Import.Clear hidden (it.host self) name w) :
    Run.Mirrored hidden (it.apply self function args)
      ((it.dumping dump).apply self' function args) w w' := by
  cases function with
  | function stamp parameters body outer =>
    unfold apply
    dsimp only
    split
    · exact .pure hw _
    · refine (Run.Mirrored.of_aloof (Run.aloof_scope _) hw).bind fun inner _ _ _ hu => ?_
      refine (mirrored_bindAll hu parameters args).bind fun bound _ _ _ hu => ?_
      cases bound with
      | error => exact .pure hu _
      | ok => exact (hself _ hu).bind fun _ _ _ _ hu => .pure hu _
  | builtin name =>
    -- The call is recorded first. An import that was clear before the record is clear behind it.
    obtain ⟨u, hlog, hu⟩ := Run.log_mirrors .debug "calling builtin"
      [("name", .word name), ("args", .count args.length)] hw.left
    refine (Run.mirrored_log hw _ _ _).bind fun _ _ u' hlog' hu₁ => ?_
    cases hlog.symm.trans hlog'
    rw [registry_dumping]
    cases hb : it.registry.lookup name with
    | none => exact .pure hu₁ _
    | some b =>
      have hrun : Run.Mirrored hidden (b.run (it.host self) args)
        (b.run ((it.dumping dump).host self') args) u u' := by
        rw [hit] at hb
        rcases aloof_of_lookup hb with haloof | ⟨rfl, rfl⟩
        · rw [haloof.run_eq ((it.dumping dump).host self') (it.host self)]
          exact .of_aloof (haloof.run _ _) hu₁
        · exact mirrored_import hself hu₁ args fun name' hargs => (hclear name' rfl hargs).congr hu
      exact hrun.bind fun _ _ _ _ hu => .pure hu _
  | _ => exact .pure hw _

/-! ### Names and assignments -/

omit hself in
/-- Reading a name is mirrored: it finds the same builtin or the same binding. -/
theorem mirrored_evalName (hw : w.Mirrors hidden w') (name : Bytes) :
    Run.Mirrored hidden (it.evalName scope name) ((it.dumping dump).evalName scope name) w w' := by
  rw [evalName, evalName, registry_dumping]
  split
  · exact .pure hw _
  · refine (Run.Mirrored.of_aloof (Run.aloof_get? _ _) hw).bind fun found _ _ _ hu => ?_
    cases found with
    | none | some => exact .pure hu _

/-- An assignment to a name is mirrored, with its right side. -/
theorem mirrored_evalAssignment (hw : w.Mirrors hidden w') (op : InfixOp) (left right : Expr) :
    Run.Mirrored hidden (evalAssignment self scope op left right)
      (evalAssignment self' scope op left right) w w' := by
  unfold evalAssignment
  split
  next name =>
    refine (hself _ hw).bind fun v _ _ _ hu => ?_
    cases v with
    | error => exact .pure hu _
    | _ =>
      dsimp only
      split
      · exact (Run.mirrored_assign hu _ _ _).bind fun _ _ _ _ hu => .pure hu _
      · -- A compound reads the name first, and scopes are the same in both worlds.
        refine (Run.Mirrored.of_aloof (Run.aloof_get? _ _) hu).bind fun found _ _ _ hu => ?_
        cases found with
        | none => exact .pure hu _
        | some current =>
          dsimp only
          split
          · exact .pure hu _
          · exact (Run.mirrored_assign hu _ _ _).bind fun _ _ _ _ hu => .pure hu _
  next => exact .pure hw _

/-! ### Nodes -/

variable (hit : it.registry = standard)

include hit

/-- A member of a module is mirrored, whether it is read or called. -/
theorem mirrored_evalMember (hw : w.Mirrors hidden w') {pos : Nat} (left right : Expr)
    (hclear : ∀ name u, CallOf self scope w (.infixed pos .member left right)
      (.builtin Import.builtin.name) [.string name] u → Import.Clear hidden (it.host self) name u) :
    Run.Mirrored hidden (it.evalMember self scope left right)
      ((it.dumping dump).evalMember self' scope left right) w w' := by
  refine (hself _ hw).bind fun v u _ hleft hu => ?_
  cases v with
  | module moduleName path inner =>
    dsimp only
    split
    next name =>
      exact (Run.Mirrored.of_aloof (Run.aloof_get? _ _) hu).bind fun _ _ _ _ hu => .pure hu _
    next name arguments =>
      refine (Run.Mirrored.of_aloof (Run.aloof_get? _ _) hu).bind fun found u₁ _ hget hu => ?_
      cases found with
      | none => exact .pure hu _
      | some function =>
        refine (mirrored_evalAll hself hu arguments).bind fun r u₂ _ hargs hu => ?_
        cases r with
        | error => exact .pure hu _
        | ok args =>
          refine mirrored_apply hself hit hu _ args fun name himport hname => ?_
          -- This is a call of an expression, so it is one of those that have to be clear.
          subst himport hname
          obtain ⟨hfound, rfl⟩ := Prod.mk.inj (Option.some.inj hget)
          exact hclear name u₂ (.member hleft hfound hargs)
    next => exact .pure hu _
  | _ => exact .pure hu _

/-- An import is made where an expression calls, so the places of that call have to be clear. -/
theorem mirrored_evalExpr (hw : w.Mirrors hidden w') (rounds : Nat) (e : Expr)
    (hclear : ∀ name u, CallOf self scope w e (.builtin Import.builtin.name) [.string name] u →
      Import.Clear hidden (it.host self) name u) :
    Run.Mirrored hidden (it.evalExpr rounds self scope e)
      ((it.dumping dump).evalExpr rounds self' scope e) w w' := by
  cases e with
  | missing | integer | float | double | boolean | string => exact .pure hw _
  | ident name => exact mirrored_evalName hw _
  | array pos elements =>
    refine (mirrored_evalAll hself hw elements).bind fun r _ _ _ hu => ?_
    cases r with
    | error => exact .pure hu _
    | ok vs => exact .of_aloof (Run.aloof_array _) hu
  | hash pos pairs => exact mirrored_evalPairs hself hw _ _
  | prefixed pos op operand =>
    refine (hself _ hw).bind fun v _ _ _ hu => ?_
    cases v <;> exact .pure hu _
  | infixed pos op left right =>
    cases op with
    | assign | addAssign | subAssign | mulAssign | divAssign =>
      exact mirrored_evalAssignment hself hw _ _ _
    | member => exact mirrored_evalMember hself hit hw left right hclear
    | _ =>
      refine (hself _ hw).bind fun a _ _ _ hu => ?_
      split
      · exact .pure hu _
      · refine (hself _ hu).bind fun b _ _ _ hu => ?_
        split <;> exact .pure hu _
  | index pos collection key =>
    refine (hself _ hw).bind fun c _ _ _ hu => ?_
    cases c with
    | error => exact .pure hu _
    | _ =>
      refine (hself _ hu).bind fun k _ _ _ hu => ?_
      cases k <;> exact .pure hu _
  | call pos callee arguments =>
    refine (hself _ hw).bind fun f u _ hcallee hu => ?_
    split
    next => exact .pure hu _
    next hf =>
      refine (mirrored_evalAll hself hu arguments).bind fun r u₁ _ hargs hu₁ => ?_
      cases r with
      | error => exact .pure hu₁ _
      | ok args =>
        refine mirrored_apply hself hit hu₁ _ args fun name himport hname => ?_
        -- This call is the import that the premise is about, in the world where it is made.
        subst himport hname
        exact hclear name u₁ (.call hcallee rfl hargs)
  | function pos parameters body =>
    exact (Run.Mirrored.of_aloof Run.aloof_stamp hw).bind fun _ _ _ _ hu => .pure hu _
  | conditional pos condition consequence elifs alternative => exact mirrored_evalElifs hself hw _ _
  | loop pos letPos counter start condition step body =>
    refine (Run.Mirrored.of_aloof (Run.aloof_scope _) hw).bind fun inner _ _ _ hu => ?_
    refine (hself _ hu).bind fun v _ _ _ hu => ?_
    cases v with
    | error => exact .pure hu _
    | _ => exact mirrored_evalRounds hself hu _ _ _ _ _ _

omit hit in
/-- A statement is mirrored, if the expressions in it are. -/
theorem mirrored_evalStmt (hw : w.Mirrors hidden w') (s : Stmt) :
    Run.Mirrored hidden (evalStmt self scope s) (evalStmt self' scope s) w w' := by
  cases s with
  | binding pos name value =>
    refine (hself _ hw).bind fun v _ _ _ hu => ?_
    cases v with
    | error => exact .pure hu _
    | _ => exact (Run.mirrored_create hu _ _ _).bind fun _ _ _ _ hu => .pure hu _
  | returned pos value =>
    refine (hself _ hw).bind fun v _ _ _ hu => ?_
    cases v with
    | error => exact .pure hu _
    | _ => exact (Run.Mirrored.of_aloof Run.aloof_stamp hu).bind fun _ _ _ _ hu => .pure hu _
  | broken => exact .pure hw _
  | expression pos value => exact hself _ hw

/-- The evaluation of a node mirrors itself if that of its parts does, and the import in it is
clear. -/
theorem mirrored_evalNode (hw : w.Mirrors hidden w') (rounds : Nat) (node : Node)
    (hclear : ∀ e w₁ name u, node = .expr e → announce node w = some ((), w₁) →
      CallOf self scope w₁ e (.builtin Import.builtin.name) [.string name] u →
      Import.Clear hidden (it.host self) name u) :
    Run.Mirrored hidden (it.evalNode rounds self node scope)
      ((it.dumping dump).evalNode rounds self' node scope) w w' := by
  refine (Run.mirrored_log hw _ _ _).bind fun _ u _ hlog hu => ?_
  cases node with
  | program p => exact mirrored_evalProgram hself hu _ _
  | block b => exact mirrored_evalBlock hself hu _ _
  | stmt s => exact mirrored_evalStmt hself hu s
  | expr e =>
    exact mirrored_evalExpr hself hit hu rounds e fun name u' => hclear e u name u' rfl hlog

end Parts

end Interpreter

end Rill
