import Rill.Proofs.Run.Mirror
import Rill.Proofs.Session.Reachable

/-!
# Runs under observation

A run can be observed: by a log, whose level says how much is recorded, and by dump files of all
that is parsed. Both write files, and imports read files. So observation changes what a run does
exactly through the files that it writes: where no import looks at them, a run does the same under
every observation.

* `World.observed`: a world with a log at some level.
* `World.LogPlace`, `Files.DumpPlace`: the places that a log takes, and those that dump files can
  take.
* `Interpreter.ImportsClear`: the condition on a point of a run that an import there looks at no
  such place.
* `Interpreter.mirrored_eval`: runs in which it always holds mirror each other.
* `Interpreter.sameOutcome_of_observed`: two observations of programs and of files give the same
  outcome.
* `Interpreter.not_sameOutcome_logged`: a log file that is imported, where they do not.
-/

namespace Rill

/-! ## Observations -/

namespace World

/-- A world whose log is opened at a level and with a path. -/
def observed (clock path level : Bytes) (w : World) : Except LogFault World :=
  (Journal.create clock level path w.files).map fun opened =>
    { w with journal := opened.1, files := opened.2 }

/-- The places that a log takes in a world `u` that is observed: what was made for it, and where its
file stands. -/
def LogPlace (w u : World) (place : List Bytes) : Prop :=
  u.files.node? place ≠ w.files.node? place ∨ ∃ n ∈ u.journal.handle?,
    u.files.node? place = some (.file n)

instance (w u : World) : DecidablePred (w.LogPlace u) :=
  fun _ => inferInstanceAs (Decidable (_ ∨ _))

/-- The places that are written when a world is observed in two ways. -/
def Written (w u u' : World) (place : List Bytes) : Prop :=
  w.files.DumpPlace place ∨ w.LogPlace u place ∨ w.LogPlace u' place

instance (w u u' : World) : DecidablePred (w.Written u u') :=
  fun _ => inferInstanceAs (Decidable (_ ∨ _))

/-- A world with its log opened, or the world itself if that is not possible. -/
def logged (clock path level : Bytes) (w : World) : World :=
  (w.observed clock path level).toOption.getD w

variable {w u u' : World} {clock path level level' : Bytes}

/-- A world whose log can be set up is observed with this log. -/
theorem observed_of_isSome (h : (w.observed clock path level).toOption.isSome = true) :
    w.observed clock path level = .ok (w.logged clock path level) := by
  unfold logged
  cases hw : w.observed clock path level with
  | error => rw [hw] at h; cases h
  | ok => rfl

/-- Setting up a log changes records and files only. -/
theorem noted_of_observed (h : w.observed clock path level = .ok u) : w.Noted u := by
  obtain ⟨opened, -, rfl⟩ := Except.exists_of_map_eq_ok h
  exact ⟨opened.2, opened.1, rfl⟩

/-- Setting up a log at most opens its file. -/
theorem opened_of_observed (hw : w.files.Sound) (h : w.observed clock path level = .ok u) :
    w.files.Opened u.files := by
  obtain ⟨opened, hcreate, rfl⟩ := Except.exists_of_map_eq_ok h
  exact Journal.create_opened hw hcreate

/-- Where a log takes no place all is as before. -/
theorem node?_of_not_logPlace {place : List Bytes} (h : ¬ w.LogPlace u place) :
    u.files.node? place = w.files.node? place :=
  Classical.not_not.mp fun hne => h (.inl hne)

/-- Logs with two levels differ in the places of the log only. -/
theorem sameBesides_of_observed (hw : w.files.Sound) (hu : w.observed clock path level = .ok u)
    (hu' : w.observed clock path level' = .ok u') :
    u.files.SameBesides (fun place => w.LogPlace u place ∨ w.LogPlace u' place) u'.files := by
  have hnode (place : List Bytes) (hplace : ¬ (w.LogPlace u place ∨ w.LogPlace u' place)) :
      u.files.node? place = w.files.node? place ∧ u'.files.node? place = w.files.node? place := by
    obtain ⟨hfirst, hsecond⟩ := not_or.mp hplace
    exact ⟨node?_of_not_logPlace hfirst, node?_of_not_logPlace hsecond⟩
  have hopened := opened_of_observed hw hu
  have hopened' := opened_of_observed hw hu'
  refine ⟨hopened'.cwd.trans hopened.cwd.symm, fun place hplace => ?_, fun place n hplace hn => ?_⟩
  · obtain ⟨hfirst, hsecond⟩ := hnode place hplace
    exact hsecond.trans hfirst.symm
  · -- The file was there before the logs were opened, so that neither changed it.
    obtain ⟨hfirst, -⟩ := hnode place hplace
    have hlt : n < w.files.contents.size := hw.lt_size place n (hfirst ▸ hn)
    exact (hopened'.content n hlt).trans (hopened.content n hlt).symm

/-- In an observed world the log and the dumps keep to the places of the log and of dumps. -/
theorem secluded_of_observed (hw : w.files.Sound) (hu : w.observed clock path level = .ok u) :
    u.Secluded fun place => w.files.DumpPlace place ∨ w.LogPlace u place where
  sound := (opened_of_observed hw hu).sound
  log place n hn hplace := .inr (.inr ⟨n, hn, hplace⟩)
  dumps place hplace := by
    by_cases hlog : w.LogPlace u place
    · exact .inr hlog
    · exact .inl ⟨hplace.1, node?_of_not_logPlace hlog ▸ hplace.2⟩

/-- However a world is observed, it is the same but for the places that are written. -/
theorem mirrors_of_observed (hw : w.files.Sound) (hu : w.observed clock path level = .ok u)
    (hu' : w.observed clock path level' = .ok u') : u.Mirrors (w.Written u u') u' where
  noted := (noted_of_observed hu).symm.trans (noted_of_observed hu')
  same := (sameBesides_of_observed hw hu hu').mono fun _ => .inr
  left := (secluded_of_observed hw hu).mono fun _ => Or.imp_right .inl
  right := (secluded_of_observed hw hu').mono fun _ => Or.imp_right .inr

end World

/-- Neither of two runs has an outcome, or both have the same result and differ in files and the log
only. -/
def SameOutcome {α : Type} (r r' : Option (α × World)) : Prop :=
  Option.Rel (fun a a' => a.1 = a'.1 ∧ a.2.Noted a'.2) r r'

/-- Mirrored computations have the same outcome. -/
theorem Run.Mirrored.sameOutcome {α : Type} {hidden : List Bytes → Prop} {x y : Run α}
    {w w' : World} (h : Run.Mirrored hidden x y w w') : SameOutcome (x w) (y w') := by
  unfold Run.Mirrored at h
  unfold SameOutcome
  generalize x w = r at h
  generalize y w' = r' at h
  cases h with
  | some h => exact .some ⟨h.1, h.2.noted⟩
  | none => exact .none

/-- Whatever is made of the results of two runs with the same outcome is the same. -/
theorem SameOutcome.map_eq {α β : Type} {r r' : Option (α × World)}
    (h : SameOutcome r r') (f : α → β) :
    (r.map fun a => f a.1) = r'.map fun a => f a.1 := by
  cases h with
  | some h => rw [Option.map_some, Option.map_some, h.1]
  | none => rfl

/-! ## The imports of a run -/

namespace Interpreter

variable {hidden : List Bytes → Prop}

/-- The import that a node makes: what is imported, and the world in which that is done. -/
def importOf? (self : Evaluator) (node : Node) (scope : ScopeId) (w : World) :
    Option (Bytes × World) :=
  match node, announce node w with
  | .expr e, some (_, w₁) =>
    match callOf? self scope w₁ e with
    | some (.builtin name, [.string file], u) =>
      if name = Import.builtin.name then some (file, u) else none
    | _ => none
  | _, _ => none

/-- A node imports a file from a world if it is a call of the builtin for imports with this text. -/
theorem importOf?_eq_some_iff {self : Evaluator} {node : Node} {scope : ScopeId} {w u : World}
    {file : Bytes} :
    importOf? self node scope w = some (file, u) ↔ ∃ e w₁, node = .expr e ∧
      announce node w = some ((), w₁) ∧
      CallOf self scope w₁ e (.builtin Import.builtin.name) [.string file] u := by
  constructor
  · intro h
    -- Any other node, call or name gives no import.
    unfold importOf? at h
    split at h
    next e _ w₁ hlog =>
      split at h
      next hcall =>
        split at h
        next hname =>
          obtain ⟨rfl, rfl⟩ := Prod.mk.inj (Option.some.inj h)
          exact ⟨e, w₁, rfl, hlog, hname ▸ callOf?_eq_some_iff.mp hcall⟩
        next => cases h
      next => cases h
    next => cases h
  · rintro ⟨e, w₁, rfl, hlog, hcall⟩
    simp [importOf?, hlog, callOf?_eq_some_iff.mpr hcall]

/-- The import that a node makes looks at no hidden place. -/
def ImportsClear (it : Interpreter) (hidden : List Bytes → Prop) : Check :=
  fun _ self node scope w =>
  ∀ found ∈ importOf? self node scope w, Import.Clear hidden (it.host self) found.1 found.2

instance [DecidablePred hidden] (it : Interpreter) (bound : Nat) (self : Evaluator) (node : Node)
    (scope : ScopeId) (w : World) : Decidable (it.ImportsClear hidden bound self node scope w) :=
  inferInstanceAs (Decidable (∀ found ∈ importOf? self node scope w, _))

variable {it : Interpreter} {dump : Bytes} {self self' : Evaluator} {scope : ScopeId}
  {w w' u u' : World}

/-- A call is made in both of two worlds that mirror each other, or in neither. -/
theorem CallOf.mirrors (hself : Reflects hidden self self') (hw : w.Mirrors hidden w')
    {e : Expr} {f : Value} {args : List Value} (h : CallOf self scope w e f args u) :
    ∃ u', CallOf self' scope w' e f args u' ∧ u.Mirrors hidden u' := by
  cases h with
  | call hcallee hf hargs =>
    obtain ⟨v, hcallee', hv⟩ := (hself _ hw).exists_eq hcallee
    obtain ⟨u', hargs', hu'⟩ := (mirrored_evalAll hself hv _).exists_eq hargs
    exact ⟨u', .call hcallee' hf hargs', hu'⟩
  | member hleft hf hargs =>
    obtain ⟨v, hleft', hv⟩ := (hself _ hw).exists_eq hleft
    obtain ⟨u', hargs', hu'⟩ := (mirrored_evalAll hself hv _).exists_eq hargs
    obtain ⟨_, _, rfl⟩ := hv.noted
    exact ⟨u', .member hleft' hf hargs', hu'⟩

/-- Whether imports look at hidden places is the same in mirrored worlds. -/
theorem ImportsClear.congr (hself : Reflects hidden self self') (hw : w.Mirrors hidden w')
    {bound : Nat} {node : Node} (h : it.ImportsClear hidden bound self node scope w) :
    it.ImportsClear hidden bound self' node scope w' := by
  rintro ⟨file, v'⟩ hfound
  obtain ⟨e, w₁', rfl, hlog', hcall'⟩ := importOf?_eq_some_iff.mp hfound
  -- The same import is made in the first world, where it is clear.
  obtain ⟨w₁, hlog, hw₁⟩ := (Run.mirrored_log hw.symm _ _ _).exists_eq hlog'
  obtain ⟨v, hcall, hv⟩ := hcall'.mirrors hself.symm hw₁
  have hclear := h (file, v) (importOf?_eq_some_iff.mpr ⟨e, w₁, rfl, hlog, hcall⟩)
  exact Import.Clear.congr hclear hv.symm

/-- Where parts are stopped by a fault no import is made. -/
theorem steady_importsClear (it : Interpreter) (hidden : List Bytes → Prop) :
    (it.ImportsClear hidden).Steady it := by
  intro fault bound self self' node scope w hself h
  by_cases h' : it.ImportsClear hidden bound self' node scope w
  · exact .inl h'
  · obtain ⟨⟨file, u⟩, hfound⟩ := Classical.not_forall.mp h'
    obtain ⟨hfound, hunclear⟩ := Classical.not_imp.mp hfound
    obtain ⟨e, w₁, rfl, hlog, hcall⟩ := importOf?_eq_some_iff.mp hfound
    have hstopped : CallOf self scope w₁ e (.builtin Import.builtin.name) [.string file] u ∨
        ∃ v, it.evalExpr bound self scope e w₁ = some (.error fault, v) := hcall.of_together hself
    rcases hstopped with hcall | ⟨v, hstop⟩
    · exact (hunclear (h (file, u) (importOf?_eq_some_iff.mpr ⟨e, w₁, rfl, hlog, hcall⟩))).elim
    · refine .inr ⟨v, ?_⟩
      rw [evalNode_of_announce hlog]
      exact hstop

section Watched

variable [DecidablePred hidden] (hit : it.registry = standard)

include hit

/-- Watched runs do the same: the watch steps in at the same points. -/
theorem reflects_watch (dump : Bytes) (fault : Fault) (bound : Nat) :
    Reflects hidden (it.watch (it.ImportsClear hidden) fault bound)
      ((it.dumping dump).watch (it.ImportsClear hidden) fault bound) := by
  induction bound with
  | zero => exact fun _ _ _ _ _ => .none
  | succ bound ih =>
    intro node scope w w' hw
    by_cases h :
      it.ImportsClear hidden bound (it.watch (it.ImportsClear hidden) fault bound) node scope w
    · rw [Run.Mirrored, watch_of_check h, watch_of_check (h.congr ih hw)]
      refine mirrored_evalNode ih hit hw bound node fun e w₁ name u hnode hlog hcall => ?_
      exact h (name, u) (importOf?_eq_some_iff.mpr ⟨e, w₁, hnode, hlog, hcall⟩)
    · have h' :
        ¬ it.ImportsClear hidden bound
        ((it.dumping dump).watch (it.ImportsClear hidden) fault bound)
          node scope w' := fun h' => h (h'.congr ih.symm hw.symm)
      -- Both watches stop here, with the same fault.
      rw [Run.Mirrored, watch_of_not_check h, watch_of_not_check h']
      exact .some ⟨rfl, hw⟩

/-- A run whose imports look at no hidden place is mirrored by the run with other dump files and
another log. -/
theorem mirrored_eval (dump : Bytes) (hw : w.Mirrors hidden w') {bound : Nat} {node : Node}
    (h : it.Throughout (it.ImportsClear hidden) bound node scope w) :
    Run.Mirrored hidden (it.eval bound node scope)
      ((it.dumping dump).eval bound node scope) w w' := by
  -- Some fault is not what the first run gives, and with this one the second run is watched.
  have hfault : ∃ fault, ∀ u, it.eval bound node scope w ≠ some (.error fault, u) := by
    by_cases hgap : ∃ u, it.eval bound node scope w = some (.error .gap, u)
    · obtain ⟨u, hgap⟩ := hgap
      refine ⟨.divisionByZero, fun u' heq => ?_⟩
      cases hgap.symm.trans heq
    · exact ⟨.gap, fun u heq => hgap ⟨u, heq⟩⟩
  obtain ⟨fault, hfault⟩ := hfault
  have hwatched : Run.Mirrored hidden (it.watch (it.ImportsClear hidden) fault bound node scope)
      ((it.dumping dump).watch (it.ImportsClear hidden) fault bound node scope) w w' :=
    reflects_watch hit dump fault bound node hw
  have hsecond : (it.dumping dump).watch (it.ImportsClear hidden) fault bound node scope w' =
        (it.dumping dump).eval bound node scope w' ∨
      ∃ u', (it.dumping dump).watch (it.ImportsClear hidden) fault bound node scope w' =
        some (.error fault, u') :=
    watch_eq_eval_or_fault ((it.registry_dumping dump).trans hit) fault bound node scope w'
  rcases hsecond with heval | ⟨u', hstepped⟩
  · rw [Run.Mirrored, ← h fault, ← heval]
    exact hwatched
  · obtain ⟨u, hfirst, -⟩ := hwatched.symm.exists_eq hstepped
    exact (hfault u ((h fault).symm.trans hfirst)).elim

end Watched

/-- The evaluation of a file is mirrored, if its text is the same and its imports look at no hidden
place. -/
theorem mirrored_evalFile [DecidablePred hidden] (hit : it.registry = standard)
    (dump : Bytes) (hw : w.Mirrors hidden w') {script : Bytes}
    (hread : w'.files.read (Path.absolute w'.files.cwd script) =
      w.files.read (Path.absolute w.files.cwd script))
    (h : ∀ p v, it.FileStart script w p v →
      it.Throughout (it.ImportsClear hidden) limit (.program p) scope v) :
    Run.Mirrored hidden (it.evalFile scope script)
      ((it.dumping dump).evalFile scope script) w w' := by
  refine .get ?_
  dsimp only
  rw [hread, hw.same.cwd]
  cases hsrc : w.files.read (Path.absolute w.files.cwd script) with
  | error => exact .pure hw _
  | ok src =>
    refine (mirrored_parseFile hw _ src).bind fun parsed u u' hparse hu => ?_
    cases parsed with
    | error => exact .pure hu _
    | ok program =>
      -- What is known of imports is known of the run from here on.
      have hstart : it.FileStart script w program
          { u with loader := u.loader.enter (Path.absolute w.files.cwd script) } :=
            ⟨src, u, hsrc, hparse, rfl⟩
      refine Run.Mirrored.bind ?_ fun _ _ _ _ hu => .pure hu _
      refine (Run.Mirrored.of_aloof (.modifyGet fun _ _ _ => rfl) hu).bind
        fun _ v v' henter hv => ?_
      cases henter
      refine (mirrored_eval hit dump hv (h program _ hstart)).bind fun _ _ _ _ hu => ?_
      exact (Run.Mirrored.of_aloof (.modifyGet fun _ _ _ => rfl) hu).bind
        fun _ _ _ _ hu => .pure hu _

/-! ## Two observations -/

/-- A world is observed in two ways: the levels of the log differ, and the formats of dump files. A
program that is evaluated, and a script that is read from a place of no log, have the same outcome,
if the imports of the first run look at no place that is written. -/
theorem sameOutcome_of_observed (it : Interpreter) (hit : it.registry = standard) (dump : Bytes)
    {w u u' : World} (hw : w.files.Sound) {clock path level level' : Bytes}
    (hu : w.observed clock path level = .ok u) (hu' : w.observed clock path level' = .ok u')
    (scope : ScopeId) :
    (∀ bound p, it.Throughout (it.ImportsClear (w.Written u u')) bound (.program p) scope u →
      SameOutcome (it.eval bound (.program p) scope u)
        ((it.dumping dump).eval bound (.program p) scope u')) ∧
    ∀ script, (∀ place ∈ Files.trail w.files.cwd (Path.absolute w.files.cwd script),
        ¬ w.LogPlace u place ∧ ¬ w.LogPlace u' place) →
      (∀ p v, it.FileStart script u p v →
        it.Throughout (it.ImportsClear (w.Written u u')) limit (.program p) scope v) →
      SameOutcome (it.evalFile scope script u) ((it.dumping dump).evalFile scope script u') := by
  have hmirrors := World.mirrors_of_observed hw hu hu'
  refine ⟨fun bound p h => (mirrored_eval hit dump hmirrors h).sameOutcome,
    fun script hscript h => ?_⟩
  -- No dump file is written before the script is read, so that its name may be one of theirs.
  have hread : u'.files.read (Path.absolute u'.files.cwd script) =
      u.files.read (Path.absolute u.files.cwd script) := by
    rw [hmirrors.same.cwd]
    refine (World.sameBesides_of_observed hw hu hu').read_eq fun place hplace => ?_
    rw [(World.opened_of_observed hw hu).cwd] at hplace
    exact not_or.mpr (hscript place hplace)
  exact (mirrored_evalFile hit dump hmirrors hread h).sameOutcome

/-- A program that imports a module. -/
def oneImport : Bytes := text "import(\"m\");"

/-- A module, and a script with the program. -/
def modules : Files :=
  ((Files.empty (text "/")).place (text "m.aqua") (text "print(1);")).place
    (text "main.aqua") oneImport

/-- Without dump files the evaluation of a file starts in the same world, but for the stack. -/
theorem FileStart.eq_of_dump (hdump : it.dump = []) {path src : Bytes} {p : Program}
    (hread : w.files.read (Path.absolute w.files.cwd path) = .ok src)
    (h : it.FileStart path w p w') :
    p = (parse src).program ∧
      w' = { w with loader := w.loader.enter (Path.absolute w.files.cwd path) } := by
  obtain ⟨src', u, hread', hparse, rfl⟩ := h
  cases hread.symm.trans hread'
  have hnone : ¬ (it.host (it.eval limit)).dump ≠ [] := not_not_intro hdump
  rw [Import.parseFile, if_neg hnone] at hparse
  split at hparse
  · obtain ⟨hp, rfl⟩ := Prod.mk.inj (Option.some.inj hparse)
    exact ⟨(Except.ok.inj hp).symm, rfl⟩
  · cases hparse

/-- The modules under two observations. -/
def silent : World := (World.start modules {}).logged [] (text "a.log") (text "none")

@[inherit_doc silent]
def verbose : World := (World.start modules {}).logged [] (text "a.log") (text "debug")

/-- The sample is observed without a log. -/
theorem observed_silent :
    (World.start modules {}).observed [] (text "a.log") (text "none") = .ok silent :=
  World.observed_of_isSome (by decide +kernel)

/-- The sample is observed with a log of all levels. -/
theorem observed_verbose :
    (World.start modules {}).observed [] (text "a.log") (text "debug") = .ok verbose :=
  World.observed_of_isSome (by decide +kernel)

/-- The file system of the sample is sound. -/
theorem sound_modules : modules.Sound :=
  Files.sound_place (Files.sound_place (Files.sound_empty _) _ _) _ _

/-- The log is kept elsewhere, so that neither its records nor dump files matter to the program. -/
theorem sameOutcome_importing :
    SameOutcome (plain.eval limit (.program (parse oneImport).program) World.globalScope silent)
        ((plain.dumping (text "json")).eval limit (.program (parse oneImport).program)
          World.globalScope verbose) ∧
      SameOutcome (plain.evalFile World.globalScope (text "main.aqua") silent)
        ((plain.dumping (text "json")).evalFile World.globalScope (text "main.aqua") verbose) ∧
      ((plain.evalFile World.globalScope (text "main.aqua") silent).map fun r =>
        r.1.toOption.map (·.isError)) =
        some (some false) := by
  have hsound : (World.start modules {}).files.Sound := sound_modules
  have hboth := sameOutcome_of_observed plain rfl (text "json") hsound observed_silent
    observed_verbose World.globalScope
  refine ⟨hboth.1 limit _ ?_, hboth.2 (text "main.aqua") ?_ fun p v hstart => ?_, by decide +kernel⟩
  · exact .of_watch rfl (steady_importsClear _ _) .division (by decide +kernel)
  · decide +kernel
  · have hread : silent.files.read (Path.absolute silent.files.cwd (text "main.aqua")) =
      .ok oneImport := by
      decide +kernel
    obtain ⟨hp, hv⟩ := hstart.eq_of_dump rfl hread
    rw [hp, hv]
    exact .of_watch rfl (steady_importsClear _ _) .division (by decide +kernel)

/-- A log file that is imported: with a log there is a module, and without one there is none.
Meanwhile no import looks at a place with the name of a dump file. -/
theorem not_sameOutcome_logged :
    plainWorld.observed [] (text "m.aqua") (text "none") =
        .ok (plainWorld.logged [] (text "m.aqua") (text "none")) ∧
      plainWorld.observed [] (text "m.aqua") (text "error") =
        .ok (plainWorld.logged [] (text "m.aqua") (text "error")) ∧
      plain.Throughout (plain.ImportsClear fun place =>
        place.getLast?.any DumpFormat.isDumpName = true) limit
        (.program (parse oneImport).program) World.globalScope (plainWorld.logged [] (text "m.aqua")
          (text "none")) ∧
      plain.Throughout (plain.ImportsClear fun place =>
        place.getLast?.any DumpFormat.isDumpName = true) limit
        (.program (parse oneImport).program) World.globalScope (plainWorld.logged [] (text "m.aqua")
          (text "error")) ∧
      ¬ SameOutcome
        (plain.eval limit (.program (parse oneImport).program) World.globalScope
          (plainWorld.logged [] (text "m.aqua") (text "none")))
        (plain.eval limit (.program (parse oneImport).program) World.globalScope
          (plainWorld.logged [] (text "m.aqua") (text "error"))) := by
  refine ⟨World.observed_of_isSome (by decide +kernel),
    World.observed_of_isSome (by decide +kernel),
    .of_watch rfl (steady_importsClear _ _) .division (by decide +kernel),
    .of_watch rfl (steady_importsClear _ _) .division (by decide +kernel), fun hsame => ?_⟩
  -- Without a log the import finds no file. With one it finds the log, which is empty and hence a
  -- module.
  have hnone : ((plain.eval limit (.program (parse oneImport).program) World.globalScope
      (plainWorld.logged [] (text "m.aqua") (text "none"))).map fun r => r.1.isError) =
        some true := by
    decide +kernel
  have herror : ((plain.eval limit (.program (parse oneImport).program) World.globalScope
      (plainWorld.logged [] (text "m.aqua") (text "error"))).map fun r => r.1.isError) =
        some false := by
    decide +kernel
  cases hnone.symm.trans ((hsame.map_eq Value.isError).trans herror)

end Interpreter

end Rill
