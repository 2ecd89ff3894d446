import Rill.Proofs.Import.Stack

/-!
# The cache of modules

A file is evaluated again only if its bytes differ from those of its last successful load. Files may
be rewritten between two evaluations in any way, loads nest, and a load may fail after others within
it succeeded; still the cache holds the last successful load of every file, at every moment.

* `Loader.Coherent`: the cache agrees with the loads that succeeded.
* `Discipline.cached`: evaluations keep the cache coherent, and load no file that is marked.
* `Import.Loads`: what a load does, said by what the loads before it were.
* `Import.loads_of_coherent`: every load does this where the cache is coherent.
* `Interpreter.cacheCoherence`: the cache is coherent throughout every session.
-/

namespace Rill

/-! ## Loaders -/

namespace Loader

variable {l l' l'' : Loader} {path : Bytes} {loaded : LoadedModule}

/-- The last load of a file that succeeded. -/
def lastLoad? (path : Bytes) (l : Loader) : Option LoadedModule := Table.get? path l.loads

/-- The cache holds the last successful load of every file. -/
def Coherent (l : Loader) : Prop := ∀ path, l.cache.get? path = l.lastLoad? path

theorem Coherent.remember (h : l.Coherent) : (l.remember path loaded).Coherent := by
  intro p
  rw [Loader.remember, Table.get?_put, lastLoad?, Table.get?, h p]
  rfl

/-- The stack and the marks are as they were, and meanwhile no load of a marked file succeeded. -/
structure Continues (l l' : Loader) : Prop where
  restored : l.Restored l'
  loads : ∃ new, l'.loads = new ++ l.loads ∧ ∀ e ∈ new, e.1 ∉ l.loading

namespace Continues

theorem refl (l : Loader) : l.Continues l := ⟨⟨rfl, rfl⟩, [], rfl, List.forall_mem_nil _⟩

/-- A loader that continues one that continues another one continues that. -/
theorem trans (h : l.Continues l') (h' : l'.Continues l'') : l.Continues l'' := by
  obtain ⟨new, hloads, hnew⟩ := h.loads
  obtain ⟨new', hloads', hnew'⟩ := h'.loads
  refine ⟨h.restored.trans h'.restored, new' ++ new, ?_, ?_⟩
  · rw [hloads', hloads, List.append_assoc]
  · rw [h.restored.2] at hnew'
    exact List.forall_mem_append.mpr ⟨hnew', hnew⟩

/-- The last load of a marked file stays the last one. -/
theorem lastLoad?_eq (h : l.Continues l') (hpath : path ∈ l.loading) :
    l'.lastLoad? path = l.lastLoad? path := by
  obtain ⟨new, hloads, hnew⟩ := h.loads
  rw [lastLoad?, hloads, lastLoad?]
  -- The later loads are passed over one by one, and none is of this file.
  clear hloads
  induction new with
  | nil => rfl
  | cons e new ih =>
    obtain ⟨he, hnew⟩ := List.forall_mem_cons.mp hnew
    have hne : e.1 ≠ path := fun heq => he (heq ▸ hpath)
    rw [List.cons_append, Table.get?, if_neg hne, ih hnew]

/-- A file that is evaluated is marked meanwhile. -/
theorem leave (hpath : path ∉ l.loading) (h : (l.enter path).Continues l') :
    l.Continues (l'.leave path) := by
  obtain ⟨new, hloads, hnew⟩ := h.loads
  refine ⟨restored_leave hpath h.restored, new, hloads, fun e he hmem => hnew e he ?_⟩
  exact List.mem_insert_of_mem hmem

/-- Remembering a module that is not being loaded continues a loader. -/
theorem remember (hpath : path ∉ l.loading) (h : l.Continues l') :
    l.Continues (l'.remember path loaded) := by
  obtain ⟨new, hloads, hnew⟩ := h.loads
  refine ⟨h.restored, (path, loaded) :: new, ?_, List.forall_mem_cons.mpr ⟨hpath, hnew⟩⟩
  rw [Loader.remember, hloads]
  rfl

end Continues

end Loader

/-- The cache is coherent, and an evaluation loads no file that is marked. -/
def Discipline.cached : Discipline where
  Strict := False
  Holds w := w.loader.Coherent
  Open _ _ := True
  Allows _ _ := True
  Leads _ w w' := w.loader.Continues w'.loader
  Permits _ _ _ := True
  Takes _ _ _ := True
  leads_refl _ _ := .refl _
  leads_trans h h' := h.trans h'
  open_of_leads _ _ := trivial
  allows_of_leads _ _ := trivial
  lasts_of_leads h _ := lasts_of_false h
  complete_of_parse := complete_of_false
  hereditary _ := Value.hereditary_true
  allows_broken := trivial
  allows_returned := .rfl
  allows_module := .rfl
  allows_function := function_of_false
  allows_get? _ _ _ := trivial
  allows_cached _ _ := trivial
  permits_of_get? _ _ _ := trivial
  takes_of_isPlain _ := trivial
  takes_fresh _ _ := trivial
  takes_create _ _ := trivial
  quiet _ hw _ hloader := ⟨hloader ▸ hw, hloader ▸ .refl _⟩
  fresh hw _ := ⟨hw, trivial, fun _ _ h => h⟩
  create _ hw _ _ _ := ⟨hw, .refl _⟩
  assign hw _ _ _ _ := ⟨hw, .refl _⟩
  within hw hpath := ⟨hw, fun _ _ hw' hlead => ⟨hw', hlead.leave hpath⟩⟩
  remember hpath hlead hw _ := ⟨hw.remember, hlead.remember hpath⟩

instance : Discipline.Lenient .cached := ⟨trivial⟩

/-! ## Loads -/

namespace Import

variable {host : Host} {name path src : Bytes} {w : World}

/-- What becomes of a file once its program was evaluated in a scope: it is taken off the stack, and
its module is remembered unless there was an error. -/
def conclude (path src : Bytes) (scope : ScopeId) (outcome : Value × World) : Value × World :=
  let w := { outcome.2 with loader := outcome.2.loader.leave path }
  if outcome.1.isError then (outcome.1, w)
  else
    let module := Value.module (moduleName path) path scope
    (module, { w with loader := w.loader.remember path ⟨src, module⟩ })

/-- A module is evaluated in a fresh outermost scope. -/
theorem evaluateModule_eq (host : Host) (path src : Bytes) (program : Program) (w : World) :
    evaluateModule host path src program w =
      (host.evaluate program w.scopes.size
        { w with scopes := (w.scopes.fresh none).2, loader := w.loader.enter path }).map
        (conclude path src w.scopes.size) := by
  have hscope : Run.scope none w =
    some (w.scopes.size, { w with scopes := (w.scopes.fresh none).2 }) := rfl
  rw [evaluateModule, Run.bind_apply, hscope, Option.bind_some, Run.bind_apply, within_apply,
    Run.bind_apply]
  dsimp only
  cases host.evaluate program w.scopes.size
      { w with scopes := (w.scopes.fresh none).2, loader := w.loader.enter path } with
  | none => rfl
  | some outcome =>
    obtain ⟨v, u⟩ := outcome
    have hleave : leaving path v u = some (v, { u with loader := u.loader.leave path }) := rfl
    rw [Option.bind_some, hleave, Option.bind_some, Option.map_some, conclude]
    split <;> rfl

/-- A file that is as the cache has it is not evaluated, whatever the host would make of a
program. -/
theorem load_of_cached {loaded : LoadedModule}
    (hresolve : resolve host w.files w.loader.stack name = .ok path)
    (hpath : path ∉ w.loader.loading) (hread : w.files.read path = .ok loaded.src)
    (hcache : w.loader.cache.get? path = some loaded) :
    ∃ w', w.Noted w' ∧ ∀ evaluate,
      load { host with evaluate } name w = some (loaded.module, w') := by
  obtain ⟨w', hlog, hnoted⟩ := Run.log_noted .debug "module cache hit" [("path", .word path)] w
  refine ⟨w', hnoted, fun evaluate => ?_⟩
  have hresolve : resolve { host with evaluate } w.files w.loader.stack name = .ok path := hresolve
  have hloading : w.loader.loading.elem path = false := by simpa using hpath
  have hhit : (w.loader.cache.get? path).filter (·.src = loaded.src) = some loaded := by
    simp [hcache]
  rw [load, Run.get_bind_apply, hresolve]
  dsimp only
  rw [hloading, if_neg Bool.false_ne_true, loadPath, Run.get_bind_apply, hread]
  dsimp only
  rw [hhit]
  dsimp only
  rw [Run.bind_apply, hlog]
  rfl

/-- A file that is not as the cache has it is parsed, and evaluated if that succeeds. -/
theorem load_of_not_cached (hresolve : resolve host w.files w.loader.stack name = .ok path)
    (hpath : path ∉ w.loader.loading) (hread : w.files.read path = .ok src)
    (hcache : ∀ loaded, w.loader.cache.get? path = some loaded → loaded.src ≠ src) :
    ∃ u, w.Noted u ∧ load host name w =
      if (parse src).diagnostics.isEmpty then evaluateModule host path src (parse src).program u
      else some (.error (.load (.malformed ⟨path, src, (parse src).diagnostics⟩)), u) := by
  obtain ⟨w₁, hlog, hnoted⟩ := Run.log_noted .debug "loading module"
    [("path", .word path), ("depth", .count w.loader.stack.length)] w
  obtain ⟨u, hnoted', hparse⟩ := parseFile_noted host path src w₁
  refine ⟨u, hnoted.trans hnoted', ?_⟩
  have hloading : w.loader.loading.elem path = false := by simpa using hpath
  -- What is cached for the path, if anything, was made from other bytes.
  have hmiss : (w.loader.cache.get? path).filter (·.src = src) = none := by
    rw [Option.filter_eq_none_iff]
    simpa using hcache
  rw [load, Run.get_bind_apply, hresolve]
  dsimp only
  rw [hloading, if_neg Bool.false_ne_true, loadPath, Run.get_bind_apply, hread]
  dsimp only
  rw [hmiss]
  dsimp only
  rw [Run.bind_apply, hlog, Option.bind_some, Run.bind_apply, hparse, Option.bind_some]
  split <;> rfl

/-- What the load of a file does that is not marked and has the bytes `src`. -/
structure Loads (it : Interpreter) (bound : Nat) (name path src : Bytes) (w : World) : Prop where
  /-- The bytes are those of the last successful load: its module is given, and nothing is
  evaluated. -/
  unchanged : ∀ loaded, w.loader.lastLoad? path = some loaded → loaded.src = src →
    ∃ w', w.Noted w' ∧ ∀ evaluate,
      load { it.host (it.eval bound) with evaluate } name w = some (loaded.module, w')
  /-- Other bytes are parsed. -/
  malformed : (∀ loaded, w.loader.lastLoad? path = some loaded → loaded.src ≠ src) →
    (parse src).diagnostics ≠ [] → ∃ w', w.Noted w' ∧ load (it.host (it.eval bound)) name w =
      some (.error (.load (.malformed ⟨path, src, (parse src).diagnostics⟩)), w')
  /-- They are evaluated in a fresh outermost scope, on top of the stack. -/
  evaluated : (∀ loaded, w.loader.lastLoad? path = some loaded → loaded.src ≠ src) →
    (parse src).diagnostics = [] → ∃ u, w.Noted u ∧ load (it.host (it.eval bound)) name w =
      (it.eval bound (.program (parse src).program) w.scopes.size
        { u with scopes := (w.scopes.fresh none).2, loader := w.loader.enter path }).map
        (conclude path src w.scopes.size)
  /-- What succeeds is remembered, with its bytes. -/
  succeeded : ∀ v w', load (it.host (it.eval bound)) name w = some (v, w') → v.isError = false →
    w'.loader.cache.get? path = some ⟨src, v⟩
  /-- What fails changes nothing for the file, whatever was loaded meanwhile. -/
  failed : ∀ v w', load (it.host (it.eval bound)) name w = some (v, w') → v.isError = true →
    w'.loader.cache.get? path = w.loader.cache.get? path
  /-- The cache is coherent again, and no load of a marked file succeeded. -/
  coherent : ∀ v w', load (it.host (it.eval bound)) name w = some (v, w') →
    w'.loader.Coherent ∧ w.loader.Continues w'.loader
  /-- After a failure, the bytes of the last successful load give its module. -/
  recovered : ∀ loaded v w', w.loader.lastLoad? path = some loaded →
    load (it.host (it.eval bound)) name w = some (v, w') → v.isError = true →
    ∀ u name', u.loader = w'.loader →
      resolve (it.host (it.eval bound)) u.files u.loader.stack name' = .ok path →
      u.files.read path = .ok loaded.src → ∃ u', u.Noted u' ∧ ∀ evaluate,
        load { it.host (it.eval bound) with evaluate } name' u = some (loaded.module, u')

section

variable {it : Interpreter} (hit : it.registry = Interpreter.standard)

include hit

/-- While a file is evaluated no load of it succeeds. -/
theorem lastLoad?_of_evaluated (hw : w.loader.Coherent) {bound : Nat} {program : Program}
    {scope : ScopeId} {scopes : Scopes} {v : Value} {w' : World}
    (h : it.eval bound (.program program) scope { w with scopes, loader := w.loader.enter path } =
      some (v, w')) :
    w'.loader.Coherent ∧ w'.loader.lastLoad? path = w.loader.lastLoad? path := by
  obtain ⟨hw', hlead, -⟩ :=
    Interpreter.keeps_eval (D := .cached) hit (fun _ _ _ => trivial) bound (.of_lax id)
    (w := { w with scopes, loader := w.loader.enter path }) hw trivial v w' h
  -- The file is marked while it is evaluated, and marked files are not loaded.
  have hlead : (w.loader.enter path).Continues w'.loader := hlead
  exact ⟨hw', hlead.lastLoad?_eq List.mem_insert_self⟩

variable {bound : Nat} (hw : w.loader.Coherent)
  (hresolve : resolve (it.host (it.eval bound)) w.files w.loader.stack name = .ok path)
  (hpath : path ∉ w.loader.loading) (hread : w.files.read path = .ok src)

include hw hresolve hpath hread

/-- After a load the entry of its file is what was loaded, or what it was before if there was an
error. -/
theorem cache_of_load (v : Value) (w' : World)
    (h : load (it.host (it.eval bound)) name w = some (v, w')) :
    (v.isError = false → w'.loader.cache.get? path = some ⟨src, v⟩) ∧
      (v.isError = true → w'.loader.cache.get? path = w.loader.cache.get? path) := by
  by_cases hhit : ∃ loaded, w.loader.cache.get? path = some loaded ∧ loaded.src = src
  · obtain ⟨loaded, hcache, rfl⟩ := hhit
    obtain ⟨w₁, ⟨files, journal, rfl⟩, hload⟩ := load_of_cached hresolve hpath hread hcache
    obtain ⟨rfl, rfl⟩ := Prod.mk.inj (Option.some.inj ((hload _).symm.trans h))
    exact ⟨fun _ => hcache, fun _ => rfl⟩
  · have hcache : ∀ loaded, w.loader.cache.get? path = some loaded → loaded.src ≠ src :=
      fun loaded hloaded hsrc => hhit ⟨loaded, hloaded, hsrc⟩
    obtain ⟨u, ⟨files, journal, rfl⟩, hload⟩ := load_of_not_cached hresolve hpath hread hcache
    rw [h] at hload
    split at hload
    next =>
      -- Files imported by this one may have been loaded meanwhile, so the cache is not the one from
      -- before.
      rw [evaluateModule_eq] at hload
      obtain ⟨⟨r, u'⟩, hrun, hconclude⟩ := Option.map_eq_some_iff.mp hload.symm
      obtain ⟨hu', hlast⟩ := lastLoad?_of_evaluated hit (w := { w with files, journal }) hw hrun
      rw [conclude] at hconclude
      split at hconclude
      next herror =>
        cases hconclude
        refine ⟨fun hv => absurd (hv.symm.trans herror) Bool.false_ne_true, fun _ => ?_⟩
        exact (hu' path).trans (hlast.trans (hw path).symm)
      next =>
        cases hconclude
        refine ⟨fun _ => ?_, nofun⟩
        exact (Table.get?_put ..).trans (if_pos rfl)
    next =>
      cases hload
      exact ⟨nofun, fun _ => rfl⟩

/-- Where the cache is coherent, a load does what the last successful load of its file asks for. -/
theorem loads_of_coherent : Loads it bound name path src w := by
  have hcached := cache_of_load hit hw hresolve hpath hread
  have hkeeps (v : Value) (w' : World) (h : load (it.host (it.eval bound)) name w = some (v, w')) :
      w'.loader.Coherent ∧ w.loader.Continues w'.loader := by
    have htogether : Interpreter.Together .cached .never (it.eval bound) (it.eval bound) :=
      Interpreter.together_eval hit (fun _ _ _ => trivial) bound
    obtain ⟨hw', hlead, -⟩ := (Interpreter.lockstep_load htogether 0 hw name).keeps v w' h
    exact ⟨hw', hlead⟩
  -- The cache has what the last load of a path gave, so other bytes are not in it.
  have hmiss (h : ∀ loaded, w.loader.lastLoad? path = some loaded → loaded.src ≠ src) :
      ∀ loaded, w.loader.cache.get? path = some loaded → loaded.src ≠ src := by
    rwa [hw path]
  exact {
    unchanged := by
      rintro loaded hlast rfl
      exact load_of_cached hresolve hpath hread ((hw path).trans hlast)
    malformed := by
      intro hother hdiagnostics
      obtain ⟨u, hnoted, hload⟩ := load_of_not_cached hresolve hpath hread (hmiss hother)
      exact ⟨u, hnoted, hload.trans (if_neg (by simpa using hdiagnostics))⟩
    evaluated := by
      intro hother hdiagnostics
      obtain ⟨u, ⟨files, journal, rfl⟩, hload⟩ :=
        load_of_not_cached hresolve hpath hread (hmiss hother)
      refine ⟨_, ⟨files, journal, rfl⟩, ?_⟩
      rw [hload, if_pos (by simpa using hdiagnostics), evaluateModule_eq]
      rfl
    succeeded := fun v w' h => (hcached v w' h).1
    failed := fun v w' h => (hcached v w' h).2
    coherent := hkeeps
    recovered := by
      intro loaded v w' hlast h hv u name' hu hresolve' hread'
      obtain ⟨-, hcontinues⟩ := hkeeps v w' h
      -- The module from before is still in the cache, and the path is not being loaded any more.
      refine load_of_cached hresolve' ?_ hread' ?_
      · rwa [hu, hcontinues.restored.2]
      · rw [hu, (hcached v w' h).2 hv, hw path, hlast] }

end

end Import

/-! ## Sessions -/

namespace Interpreter

variable {it : Interpreter} {w : World}

/-- Where a node is evaluated the cache is coherent, also when the node calls something. -/
structure CoherentAt (it : Interpreter) (bound : Nat) (_parts : Evaluator) (node : Node)
    (scope : ScopeId) (w : World) : Prop where
  before : w.loader.Coherent
  called : ∀ e w₁ f args u, node = .expr e → announce node w = some ((), w₁) →
    CallOf (it.eval bound) scope w₁ e f args u → u.loader.Coherent
  after : ∀ v w', it.eval (bound + 1) node scope w = some (v, w') → w'.loader.Coherent

open Classical in
noncomputable instance (bound : Nat) (parts : Evaluator) (node : Node)
    (scope : ScopeId) (w : World) :
    Decidable (it.CoherentAt bound parts node scope w) :=
  inferInstance

section Runs

variable (hit : it.registry = standard)

include hit

/-- Every node that is evaluated with a coherent loader finds and leaves it coherent. -/
theorem coherentAt (hw : w.loader.Coherent) (bound : Nat) (parts : Evaluator) (node : Node)
    (scope : ScopeId) :
    it.CoherentAt bound parts node scope w := by
  have htogether : ∀ bound, Together .cached .never (it.eval bound) (it.eval bound) :=
    together_eval hit fun _ _ _ => trivial
  refine ⟨hw, ?_, ?_⟩
  · intro e w₁ f args u _ hlog hcall
    obtain ⟨-, hloader, -⟩ := Run.quiet_log _ _ _ _ _ _ hlog
    rw [← hloader] at hw
    exact (hcall.keeps (htogether bound) (.of_lax id) hw trivial).1
  · intro v w' h
    exact ((htogether (bound + 1) node (.of_lax id) hw trivial).keeps v w' h).1

/-- From a coherent cache, the cache is coherent at every moment of a run. -/
theorem throughout_coherentAt (hw : w.loader.Coherent) (bound : Nat) (node : Node)
    (scope : ScopeId) :
    it.Throughout it.CoherentAt bound node scope w := by
  intro fault
  have htogether : Together .cached .never (it.watch it.CoherentAt fault bound)
    (it.eval bound) := by
    refine together_watch hit (fun _ _ _ => trivial) ?_ bound
    exact fun bound node scope w _ hw _ => .inl (coherentAt hit hw bound _ node scope)
  exact ((htogether node (.of_lax id) hw trivial).resolve_right id).1

/-- Between the evaluations of a session the cache is coherent. -/
theorem Reachable.coherent (h : it.Reachable w) : w.loader.Coherent :=
  h.holds (D := .cached) hit (fun _ _ _ => trivial) (fun _ _ _ => trivial) fun _ _ _ => rfl

/-- A program starts with a coherent loader. -/
theorem Starts.coherent {p : Program} {scope : ScopeId} (h : it.Starts p scope w) :
    w.loader.Coherent := by
  cases h with
  | program h => exact h.coherent hit
  | file h _ hstart =>
    rw [hstart.loader_eq]
    exact h.coherent hit

end Runs

/-- What the cache of every session observes. Its files may change between evaluations in any
way. -/
structure CacheCoherence (it : Interpreter) : Prop where
  /-- Between evaluations the cache holds the last successful load of every file. -/
  between : ∀ w, it.Reachable w → w.loader.Coherent
  /-- So it does at every moment of the evaluation of a program. -/
  throughout : ∀ bound p scope w, it.Starts p scope w →
    it.Throughout it.CoherentAt bound (.program p) scope w
  /-- Every load of a file that can be read and is not marked goes by the last successful load of
  the file. -/
  load : ∀ bound w name path src, w.loader.Coherent →
    Import.resolve (it.host (it.eval bound)) w.files w.loader.stack name = .ok path →
    path ∉ w.loader.loading → w.files.read path = .ok src → Import.Loads it bound name path src w

/-- With the standard builtins the loader stays coherent in every run. -/
theorem cacheCoherence (it : Interpreter) (hit : it.registry = standard) : it.CacheCoherence where
  between _ h := h.coherent hit
  throughout bound _ _ _ h := throughout_coherentAt hit (h.coherent hit) bound _ _
  load _ _ _ _ _ hw hresolve hpath hread := Import.loads_of_coherent hit hw hresolve hpath hread

/-- Files of which one can be imported, with given bytes. -/
def oneFile (src : Bytes) : Files := ⟨text "/", [([text "m.aqua"], .file 0)], #[[src]]⟩

/-- A load of a file, before it was broken. -/
def earlier : LoadedModule := ⟨text "let x = 1;", .module (text "m") (text "/m.aqua") 0⟩

/-- A world in which a file is broken that was loaded before. -/
def broken : World :=
  { World.start (oneFile (text "let")) {} with
    loader.cache := [(text "/m.aqua", earlier)]
    loader.loads := [(text "/m.aqua", earlier)] }

/-- The file cannot be loaded, and once it is repaired the earlier module is given. -/
theorem cacheCoherence_broken :
    broken.loader.Coherent ∧ ∃ fault w',
      Import.load (plain.host (plain.eval limit))
        (text "/m") broken = some (.error fault, w') ∧ ∃ u',
        Import.load (plain.host (plain.eval limit)) (text "/m")
          { w' with files := oneFile earlier.src } =
          some (.module (text "m") (text "/m.aqua") 0, u') := by
  have hw : broken.loader.Coherent := fun _ => rfl
  have hloads := (cacheCoherence plain rfl).load limit broken (text "/m") (text "/m.aqua")
    (text "let") hw rfl List.not_mem_nil rfl
  have hother : ∀ loaded, broken.loader.lastLoad? (text "/m.aqua") = some loaded →
    loaded.src ≠ text "let" := by
    rintro loaded ⟨⟩
    decide
  obtain ⟨w', -, hload⟩ := hloads.malformed hother (by decide +kernel)
  obtain ⟨u', -, hrecovered⟩ := hloads.recovered earlier _ w' rfl hload rfl
    { w' with files := oneFile earlier.src } (text "/m") rfl rfl rfl
  exact ⟨hw, _, w', hload, u', hrecovered _⟩

end Interpreter

end Rill
