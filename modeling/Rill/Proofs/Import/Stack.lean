import Rill.Proofs.Run.Call
import Rill.Proofs.Session.Reachable

/-!
# The stack of files

A file is on the stack while it is evaluated, and it is marked as being loaded. This module shows
that the two always go together, whatever is imported and however an import ends, and what an import
of a file gives that is on the stack.

* `Loader.Tidy`: no file is on the stack twice, and the marked files are those on the stack.
* `Discipline.tidy`: evaluations keep the loader tidy and leave the stack and the marks as they find
  them.
* `Interpreter.Reachable.idle`: between the evaluations of a session no file is on the stack.
* `Interpreter.Reachable.holds`: what a discipline asks of worlds holds between the evaluations of a
  session.
* `Import.load_of_mem_stack`: an import of a file on the stack does nothing but tell the way around.
* `Interpreter.loaderDiscipline`: all of this for every session.
-/

namespace Rill

/-! ## Loaders -/

namespace Loader

/-- No file is being evaluated twice, and exactly these files are marked. -/
structure Tidy (l : Loader) : Prop where
  nodup : l.stack.Nodup
  mem_loading : ∀ path, path ∈ l.loading ↔ path ∈ l.stack

/-- The stack and the marks are as they were. -/
def Restored (l l' : Loader) : Prop := l'.stack = l.stack ∧ l'.loading = l.loading

variable {l l' l'' : Loader} {path : Bytes}

/-- A loader that is restored twice is restored. -/
theorem Restored.trans (h : l.Restored l') (h' : l'.Restored l'') : l.Restored l'' :=
  ⟨h'.1.trans h.1, h'.2.trans h.2⟩

/-- A tidy loader is tidy when it is restored. -/
theorem Tidy.of_restored (h : l.Tidy) (hrestored : l.Restored l') : l'.Tidy := by
  obtain ⟨hstack, hloading⟩ := hrestored
  refine ⟨hstack ▸ h.nodup, fun path => ?_⟩
  rw [hstack, hloading]
  exact h.mem_loading path

/-- Entering a file that is not being loaded keeps a loader tidy. -/
theorem Tidy.enter (h : l.Tidy) (hpath : path ∉ l.loading) : (l.enter path).Tidy := by
  refine ⟨List.nodup_cons.mpr ⟨mt (h.mem_loading path).mpr hpath, h.nodup⟩, fun p => ?_⟩
  rw [Loader.enter, List.mem_insert_iff, List.mem_cons, h.mem_loading p]

/-- What is entered and left is as before. -/
theorem restored_leave (hpath : path ∉ l.loading) (h : (l.enter path).Restored l') :
    l.Restored (l'.leave path) := by
  obtain ⟨hstack, hloading⟩ := h
  constructor
  · rw [Loader.leave, hstack]
    rfl
  · rw [Loader.leave, hloading, Loader.enter, List.insert_of_not_mem hpath, List.erase_cons_head]

/-- A loader that loads nothing is tidy. -/
theorem tidy_of_idle (hstack : l.stack = []) (hloading : l.loading = []) : l.Tidy := by
  refine ⟨hstack ▸ List.nodup_nil, fun path => ?_⟩
  rw [hstack, hloading]

end Loader

/-- The loader is tidy, and an evaluation leaves the stack and the marks as they were. -/
def Discipline.tidy : Discipline where
  Strict := False
  Holds w := w.loader.Tidy
  Open _ _ := True
  Allows _ _ := True
  Leads _ w w' := w.loader.Restored w'.loader
  Permits _ _ _ := True
  Takes _ _ _ := True
  leads_refl _ _ := ⟨rfl, rfl⟩
  leads_trans h h' := h.trans h'
  open_of_leads _ _ := trivial
  allows_of_leads _ _ := trivial
  lasts_of_leads h _ := lasts_of_false h
  complete_of_parse := complete_of_false
  hereditary _ := Value.hereditary_true
  allows_broken := trivial
  allows_returned := .rfl
  allows_module := .rfl
  allows_function := function_of_false
  allows_get? _ _ _ := trivial
  allows_cached _ _ := trivial
  permits_of_get? _ _ _ := trivial
  takes_of_isPlain _ := trivial
  takes_fresh _ _ := trivial
  takes_create _ _ := trivial
  quiet _ hw _ hloader := ⟨hloader ▸ hw, hloader ▸ ⟨rfl, rfl⟩⟩
  fresh hw _ := ⟨hw, trivial, fun _ _ h => h⟩
  create _ hw _ _ _ := ⟨hw, rfl, rfl⟩
  assign hw _ _ _ _ := ⟨hw, rfl, rfl⟩
  within hw hpath := by
    refine ⟨hw.enter hpath, fun s w' _ hlead => ?_⟩
    have hrestored := Loader.restored_leave hpath hlead
    exact ⟨hw.of_restored hrestored, hrestored⟩
  remember _ hlead hw _ := ⟨⟨hw.nodup, hw.mem_loading⟩, hlead.1, hlead.2⟩

instance : Discipline.Lenient .tidy := ⟨trivial⟩

/-! ## Cycles -/

namespace Import

/-- The names around a cycle are those from the repeated file inwards, and then the first one
again. -/
theorem cycle_eq {path : Bytes} {inner outer : List Bytes} (h : path ∉ outer) :
    cycle (inner ++ path :: outer) path =
      (path :: inner.reverse).map moduleName ++ [moduleName path] := by
  have hdrop : (inner ++ path :: outer).reverse.dropWhile (· != path) = path :: inner.reverse := by
    rw [List.reverse_append, List.reverse_cons, List.append_assoc, List.dropWhile_append_of_pos]
    · simp
    · intro p hp
      rw [bne_iff_ne]
      rintro rfl
      exact h (List.mem_reverse.mp hp)
  rw [cycle, hdrop]

/-- An import of a file on the stack evaluates nothing, whatever the host would make of a
program. -/
theorem load_of_mem_stack {host : Host} {w : World} (hw : w.loader.Tidy) {name path : Bytes}
    {inner outer : List Bytes} (hresolve : resolve host w.files w.loader.stack name = .ok path)
    (hstack : w.loader.stack = inner ++ path :: outer) :
    load host name w = some (.error (.load (.cycle
      ((path :: inner.reverse).map moduleName ++ [moduleName path]))), w) := by
  have hloading : w.loader.loading.elem path = true := by
    rw [List.elem_iff, hw.mem_loading, hstack]
    exact List.mem_append_right _ List.mem_cons_self
  -- No file is on the stack twice, so the search for the start of the cycle stops at the right
  -- place.
  have houter : path ∉ outer := by
    have hnodup := hw.nodup
    rw [hstack, List.nodup_append, List.nodup_cons] at hnodup
    exact hnodup.2.1.1
  rw [load, Run.get_bind_apply, hresolve]
  dsimp only
  rw [if_pos hloading, hstack, cycle_eq houter]
  rfl

end Import

/-! ## Sessions -/

namespace Interpreter

variable {it : Interpreter} {w : World}

/-- Around the evaluation of a node the loader is tidy, and its stack and its marks are restored. -/
structure TidyAt (it : Interpreter) (bound : Nat) (_parts : Evaluator) (node : Node)
    (scope : ScopeId) (w : World) : Prop where
  /-- Before it, the loader is tidy. -/
  before : w.loader.Tidy
  /-- When the node calls something, the loader is as before. -/
  called : ∀ e w₁ f args u, node = .expr e → announce node w = some ((), w₁) →
    CallOf (it.eval bound) scope w₁ e f args u → w.loader.Restored u.loader
  /-- After it, the loader is as before. -/
  after : ∀ v w', it.eval (bound + 1) node scope w = some (v, w') → w.loader.Restored w'.loader

open Classical in
noncomputable instance (bound : Nat) (parts : Evaluator) (node : Node)
    (scope : ScopeId) (w : World) :
    Decidable (it.TidyAt bound parts node scope w) :=
  inferInstance

section Runs

variable (hit : it.registry = standard)

include hit

/-- Every evaluation leaves a tidy loader as it found it. -/
theorem together_tidy (bound : Nat) : Together .tidy .never (it.eval bound) (it.eval bound) :=
  together_eval hit (fun _ _ _ => trivial) bound

/-- An import leaves the loader as it found it, apart from modules that it remembers. -/
theorem restored_load (hw : w.loader.Tidy) {bound : Nat} {name : Bytes} {v : Value} {w' : World}
    (h : Import.load (it.host (it.eval bound)) name w = some (v, w')) :
    w.loader.Restored w'.loader :=
  ((lockstep_load (together_tidy hit bound) 0 hw name).keeps v w' h).2.1

/-- Every node that is evaluated with a tidy loader finds and leaves it tidy. -/
theorem tidyAt (hw : w.loader.Tidy) (bound : Nat) (parts : Evaluator) (node : Node)
    (scope : ScopeId) :
    it.TidyAt bound parts node scope w := by
  refine ⟨hw, ?_, ?_⟩
  · intro e w₁ f args u _ hlog hcall
    obtain ⟨-, hloader, -⟩ := Run.quiet_log _ _ _ _ _ _ hlog
    rw [← hloader] at hw ⊢
    exact (hcall.keeps (together_tidy hit bound) (.of_lax id) hw trivial).2.1
  · intro v w' h
    exact ((together_tidy hit (bound + 1) node (.of_lax id) hw trivial).keeps v w' h).2.1

/-- From a tidy loader, the loader is tidy at every moment of a run. -/
theorem throughout_tidyAt (hw : w.loader.Tidy) (bound : Nat) (node : Node) (scope : ScopeId) :
    it.Throughout it.TidyAt bound node scope w := by
  intro fault
  have htogether : Together .tidy .never (it.watch it.TidyAt fault bound) (it.eval bound) := by
    refine together_watch hit (fun _ _ _ => trivial) ?_ bound
    exact fun bound node scope w _ hw _ => .inl (tidyAt hit hw bound _ node scope)
  exact ((htogether node (.of_lax id) hw trivial).resolve_right id).1

/-- The evaluation of a text leaves the loader as it found it. -/
theorem restored_evalText (hw : w.loader.Tidy) {scope : ScopeId} {src : Bytes}
    {r : Except (List Diagnostic) Value} {w' : World} (h : it.evalText scope src w = some (r, w')) :
    w.loader.Restored w'.loader :=
  (keeps_evalText (D := .tidy) hit (fun _ _ _ => trivial) hw trivial src r w' h).2.1

/-- The evaluation of a file leaves the loader as it found it, with nothing being loaded. -/
theorem restored_evalFile (hstack : w.loader.stack = []) (hloading : w.loader.loading = [])
    {scope : ScopeId} {path : Bytes} {r : Except ScriptFault Value} {w' : World}
    (h : it.evalFile scope path w = some (r, w')) : w.loader.Restored w'.loader :=
  (keeps_evalFile (D := .tidy) hit (fun _ _ _ => trivial)
    (Loader.tidy_of_idle hstack hloading) trivial
    hloading path r w' h).2.1

/-- Between the evaluations of a session no file is on the stack, and none is marked. -/
theorem Reachable.idle (h : it.Reachable w) : w.loader.stack = [] ∧ w.loader.loading = [] := by
  have hidle : ∀ {w w' : World}, w.loader.stack = [] ∧ w.loader.loading = [] →
      w.loader.Restored w'.loader → w'.loader.stack = [] ∧ w'.loader.loading = [] :=
    fun h hrestored => ⟨hrestored.1.trans h.1, hrestored.2.trans h.2⟩
  induction h with
  | start => exact ⟨rfl, rfl⟩
  | scope _ hmake ih =>
    obtain ⟨-, rfl⟩ := Prod.mk.inj (Option.some.inj hmake)
    exact ih
  | text _ _ hrun ih => exact hidle ih (restored_evalText hit (Loader.tidy_of_idle ih.1 ih.2) hrun)
  | file _ _ hrun ih => exact hidle ih (restored_evalFile hit ih.1 ih.2 hrun)
  | outside _ _ hloader ih => exact hloader ▸ ih

/-- What a discipline asks of the start of a session holds between all its evaluations, if every
scope that is there may come up. -/
theorem Reachable.holds {D : Discipline} [D.Lenient]
    (hpermits : ∀ scopes s name, D.Permits scopes s name)
    (hopen : ∀ scopes s, s < scopes.size → D.Open scopes s)
    (hstart : ∀ files journal, D.Holds (World.start files journal)) (h : it.Reachable w) :
    D.Holds w := by
  induction h with
  | start files journal => exact hstart files journal
  | scope _ hmake ih =>
    obtain ⟨-, rfl⟩ := Prod.mk.inj (Option.some.inj hmake)
    exact (D.fresh ih (by rintro o ⟨⟩)).1
  | text _ hscope hrun ih => exact (keeps_evalText hit hpermits ih (hopen _ _ hscope) _ _ _ hrun).1
  | file h hscope hrun ih =>
    -- No file is marked between two evaluations, so that any file may be put on the stack.
    exact (keeps_evalFile hit hpermits ih (hopen _ _ hscope) (h.idle hit).2 _ _ _ hrun).1
  | outside _ hscopes hloader ih => exact (D.quiet 0 ih hscopes hloader).1

/-- A program starts with a tidy loader. -/
theorem Starts.tidy {p : Program} {scope : ScopeId} (h : it.Starts p scope w) : w.loader.Tidy := by
  cases h with
  | program h =>
    obtain ⟨hstack, hloading⟩ := h.idle hit
    exact Loader.tidy_of_idle hstack hloading
  | file h _ hstart =>
    obtain ⟨hstack, hloading⟩ := h.idle hit
    rw [hstart.loader_eq]
    exact (Loader.tidy_of_idle hstack hloading).enter (hloading ▸ List.not_mem_nil)

end Runs

/-- What the loader of every session observes. -/
structure LoaderDiscipline (it : Interpreter) : Prop where
  /-- Between evaluations no file is on the stack, and none is marked. -/
  idle : ∀ w, it.Reachable w → w.loader.stack = [] ∧ w.loader.loading = []
  /-- The loader is tidy at every moment of the evaluation of a program. -/
  tidy : ∀ bound p scope w, it.Starts p scope w → it.Throughout it.TidyAt bound (.program p) scope w
  /-- A file is evaluated on top of the stack and then taken off again. -/
  file : ∀ w scope path program u, it.Reachable w → it.FileStart path w program u →
    u.loader = w.loader.enter (Path.absolute w.files.cwd path) ∧
      it.evalFile scope path w = (do
        let v ← it.evalProgramIn scope program >>= Import.leaving (Path.absolute w.files.cwd path)
        return .ok v : Run (Except ScriptFault Value)) u
  /-- The evaluation of a file restores the loader, whatever comes of it. -/
  evalFile : ∀ w scope path r w', it.Reachable w → it.evalFile scope path w = some (r, w') →
    w.loader.Restored w'.loader
  /-- Every import restores the loader, whatever comes of it. -/
  load : ∀ bound w name v w', w.loader.Tidy →
    Import.load (it.host (it.eval bound)) name w = some (v, w') → w.loader.Restored w'.loader
  /-- An import of a file on the stack evaluates nothing, changes nothing, and names the files from
  this one to the innermost one, and then this one again. -/
  cycle : ∀ host w name path inner outer, w.loader.Tidy →
    Import.resolve host w.files w.loader.stack name = .ok path →
    w.loader.stack = inner ++ path :: outer →
    ∃ fault, Import.load host name w = some (.error fault, w) ∧
      fault.message = Rill.text "Import cycle detected: " ++ Bytes.join (Rill.text " -> ")
        ((path :: inner.reverse).map Import.moduleName ++ [Import.moduleName path])

/-- With the standard builtins the loader keeps its discipline in every run. -/
theorem loaderDiscipline (it : Interpreter) (hit : it.registry = standard) :
    it.LoaderDiscipline where
  idle _ h := h.idle hit
  tidy bound p scope w h := throughout_tidyAt hit (h.tidy hit) bound _ _
  file _ _ _ _ _ _ hstart := ⟨hstart.loader_eq, hstart.evalFile_eq⟩
  evalFile w scope path r w' h hrun := by
    obtain ⟨hstack, hloading⟩ := h.idle hit
    exact restored_evalFile hit hstack hloading hrun
  load bound w name v w' hw hrun := restored_load hit hw hrun
  cycle host w name path inner outer hw hresolve hstack :=
    ⟨_, Import.load_of_mem_stack hw hresolve hstack, rfl⟩

/-- A world in which one file is evaluated because another one imports it. -/
def importing : World :=
  { plainWorld with loader.stack := [text "/b.aqua", text "/a.aqua"],
                    loader.loading := [text "/b.aqua", text "/a.aqua"] }

/-- A module that imports one that imports it in turn is refused, with the cycle spelled out. -/
theorem loaderDiscipline_importing :
    importing.loader.Tidy ∧ ∃ fault,
      Import.load (plain.host (plain.eval limit))
        (text "/a") importing = some (.error fault, importing) ∧
        fault.message = text "Import cycle detected: a -> b -> a" := by
  have hw : importing.loader.Tidy := ⟨by decide, fun _ => Iff.rfl⟩
  obtain ⟨fault, hload, hmessage⟩ :=
    (loaderDiscipline plain rfl).cycle (plain.host (plain.eval limit))
    importing (text "/a") (text "/a.aqua") [text "/b.aqua"] [] hw rfl rfl
  exact ⟨hw, fault, hload, hmessage.trans (by decide)⟩

end Interpreter

end Rill
