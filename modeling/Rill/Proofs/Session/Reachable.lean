import Rill.Outline.Yaml
import Rill.Proofs.Run.Bindings
import Rill.Proofs.Run.Evaluation
import Rill.Session

/-!
# The worlds of a session

A session starts with one empty scope and evaluates texts and files, one after the other, in scopes
that are there. In between its owner may make more outermost scopes, and everything but scopes and
modules may change from outside: files, the log, databases.

* `Interpreter.Reachable`: the worlds that a session can get to.
* `Interpreter.FileStart`: where the evaluation of a file starts.
* `Interpreter.Starts`: where a session starts to evaluate a program.
* `Interpreter.keeps_evalText`, `Interpreter.keeps_evalFile`: texts and files observe a discipline,
  as the programs in them do.
-/

namespace Rill

/-! ## The start -/

namespace World

variable (files : Files) (journal : Journal) (name : Bytes) (s : ScopeId)

private theorem eq_of_getElem?_start {found : Scope}
    (h : (start files journal).scopes[s]? = some found) :
    found = {} := by
  have hmem : found ∈ (start files journal).scopes := Array.mem_of_getElem? h
  simpa [start] using hmem

/-- At the start no name is stored. -/
@[simp]
theorem stored?_start : (start files journal).scopes.stored? name s = none := by
  rw [Scopes.stored?, Option.bind_eq_none_iff]
  intro found h
  rw [eq_of_getElem?_start files journal s h]
  rfl

/-- At the start no name is owned. -/
@[simp]
theorem owned?_start : (start files journal).scopes.owned? name s = none := by
  rw [Scopes.owned?, Option.bind_eq_none_iff]
  intro found h
  rw [eq_of_getElem?_start files journal s h]
  rfl

/-- Nothing is bound at the start, so all that is bound has any property. -/
theorem holding_start (P : Value → Prop) : (start files journal).Holding P := by
  refine ⟨?_, ?_, ?_⟩
  · intro s name v h
    simp at h
  · intro s name v h
    simp at h
  · intro path loaded h
    cases h

end World

namespace Interpreter

/-- The builtins of the language, and a world at its start without files. -/
def plain : Interpreter := { registry := standard, toYaml := Outline.yaml }

@[inherit_doc plain]
def plainWorld : World := World.start ⟨text "/", [], #[]⟩ {}

/-- The worlds between the evaluations of a session. -/
inductive Reachable (it : Interpreter) : World → Prop where
  | start (files : Files) (journal : Journal) : Reachable it (World.start files journal)
  | scope {w w' : World} {scope : ScopeId} (h : Reachable it w)
      (hmake : Run.scope none w = some (scope, w')) : Reachable it w'
  | text {w w' : World} {scope : ScopeId} {src : Bytes} {r : Except (List Diagnostic) Value}
      (h : Reachable it w) (hscope : scope < w.scopes.size)
      (hrun : it.evalText scope src w = some (r, w')) : Reachable it w'
  | file {w w' : World} {scope : ScopeId} {path : Bytes} {r : Except ScriptFault Value}
      (h : Reachable it w) (hscope : scope < w.scopes.size)
      (hrun : it.evalFile scope path w = some (r, w')) : Reachable it w'
  | outside {w w' : World} (h : Reachable it w) (hscopes : w'.scopes = w.scopes)
      (hloader : w'.loader = w.loader) : Reachable it w'

/-- A file can be read and parsed, and the evaluation of its program starts from a world in which it
was put on top of the stack. -/
def FileStart (it : Interpreter) (path : Bytes) (w : World) (program : Program) (w' : World) :
    Prop :=
  let file := Path.absolute w.files.cwd path
  ∃ src u, w.files.read file = .ok src ∧
    Import.parseFile (it.host (it.eval limit)) file src w = some (.ok program, u) ∧
    w' = { u with loader := u.loader.enter file }

/-- Where a session starts to evaluate a program: in a world that it got to, or where the evaluation
of a file starts. -/
inductive Starts (it : Interpreter) : Program → ScopeId → World → Prop where
  | program {w : World} {scope : ScopeId} (h : it.Reachable w) (hscope : scope < w.scopes.size)
      (p : Program) : Starts it p scope w
  | file {w w' : World} {scope : ScopeId} {path : Bytes} {p : Program} (h : it.Reachable w)
      (hscope : scope < w.scopes.size) (hstart : it.FileStart path w p w') : Starts it p scope w'

variable {it : Interpreter} {D : Discipline} {scope : ScopeId} {w w' : World}

/-- A file that is about to be evaluated has changed no scope. -/
theorem FileStart.scopes_eq {path : Bytes} {program : Program}
    (h : it.FileStart path w program w') :
    w'.scopes = w.scopes := by
  obtain ⟨src, u, -, hparse, rfl⟩ := h
  exact (Import.quiet_parseFile _ _ _ _ _ _ hparse).1

/-- A file that is about to be evaluated is on top of the stack. -/
theorem FileStart.loader_eq {path : Bytes} {program : Program}
    (h : it.FileStart path w program w') :
    w'.loader = w.loader.enter (Path.absolute w.files.cwd path) := by
  obtain ⟨src, u, -, hparse, rfl⟩ := h
  obtain ⟨-, hloader, -⟩ := Import.quiet_parseFile _ _ _ _ _ _ hparse
  rw [hloader]

/-- The evaluation of a file is that of its program, and then the file is taken off the stack. -/
theorem FileStart.evalFile_eq {path : Bytes} {program : Program}
    (h : it.FileStart path w program w') :
    it.evalFile scope path w = (do
      let v ← it.evalProgramIn scope program >>= Import.leaving (Path.absolute w.files.cwd path)
      return .ok v : Run (Except ScriptFault Value)) w' := by
  obtain ⟨src, u, hread, hparse, rfl⟩ := h
  rw [evalFile, Run.get_bind_apply, hread]
  dsimp only
  rw [Run.bind_apply, hparse]
  rfl

section Keeps

variable [D.Lenient] (hit : it.registry = standard)
  (hpermits : ∀ scopes s name, D.Permits scopes s name)

include hit hpermits

/-- Every evaluation keeps the discipline. -/
theorem keeps_eval (bound : Nat) {node : Node} (hfits : D.Fits node) (hw : D.Holds w)
    (hscope : D.Open w.scopes scope) : D.Keeps scope D.Yields (it.eval bound node scope) w :=
  ((together_eval (P := .never) hit hpermits bound).part node hfits hw hscope).keeps

/-- The evaluation of a text keeps the discipline. -/
theorem keeps_evalText (hw : D.Holds w) (hscope : D.Open w.scopes scope) (src : Bytes) :
    D.Keeps scope (fun _ _ => True) (it.evalText scope src) w := by
  unfold evalText
  dsimp only
  split
  next hclean =>
    have hfits : D.Fits (.program (parse src).program) := fun hstrict =>
      D.complete_of_parse hstrict (List.isEmpty_iff.mp hclean)
    refine (keeps_eval hit hpermits limit hfits hw hscope).bind fun _ _ _ hw' _ _ => ?_
    exact .pure hw' trivial
  next => exact .pure hw trivial

/-- A file may be evaluated when no file is marked. -/
theorem keeps_evalFile (hw : D.Holds w) (hscope : D.Open w.scopes scope)
    (hidle : w.loader.loading = []) (path : Bytes) :
    D.Keeps scope (fun _ _ => True) (it.evalFile scope path) w := by
  unfold evalFile
  refine .get ?_
  dsimp only
  cases w.files.read (Path.absolute w.files.cwd path) with
  | error fault => exact .pure hw trivial
  | ok src =>
    refine (Discipline.Keeps.of_quiet hw (Import.quiet_parseFile _ _ _)).bind
      fun parsed w₁ hparse hw₁ hlead hparsed => ?_
    cases parsed with
    | error file => exact .pure hw₁ trivial
    | ok program =>
      obtain ⟨-, hloader, -⟩ := Import.quiet_parseFile _ _ _ _ _ _ hparse
      obtain ⟨hclean, rfl⟩ := hparsed program rfl
      have hfits : D.Fits (.program (parse src).program) := fun hstrict =>
        D.complete_of_parse hstrict hclean
      -- Parsing marks no file, so none is marked when this one is put on the stack.
      have hpath : Path.absolute w.files.cwd path ∉ w₁.loader.loading := by
        rw [hloader, hidle]
        exact List.not_mem_nil
      have hscope₁ := D.open_of_leads hlead hscope
      have hwithin : D.Keeps scope D.Yields
          (Import.within (Path.absolute w.files.cwd path)
            (it.evalProgramIn scope (parse src).program)) w₁ := by
        refine (Run.Lockstep.within (P := .never) hw₁ hpath fun hw₂ => .of_keeps ?_).keeps
        exact keeps_eval hit hpermits limit hfits hw₂ hscope₁
      exact hwithin.bind fun _ _ _ hw₃ _ _ => .pure hw₃ trivial

end Keeps

end Interpreter

end Rill
