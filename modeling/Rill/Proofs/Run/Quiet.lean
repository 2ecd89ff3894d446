import Rill.Proofs.Value.Parts
import Rill.World

/-!
# Quiet computations

`Run.Quiet` says that a computation touches neither scopes nor modules, and that its results are as
a predicate says. All builtins but one are of this kind. What is done to scopes is done by
`Run.create` and `Run.assign`, which are quiet otherwise (`Run.exists_create`, `Run.assign_noted`).
A log record changes files and the log only (`World.Noted`).
-/

namespace Rill

/-- Nothing changed but files and the log. -/
def World.Noted (w w' : World) : Prop := ∃ files journal, w' = { w with files, journal }

namespace World.Noted

variable {w w' w'' : World}

theorem refl (w : World) : w.Noted w := ⟨_, _, rfl⟩

/-- Worlds that differ in records and files only do so from either side. -/
theorem symm (h : w.Noted w') : w'.Noted w := by
  obtain ⟨_, _, rfl⟩ := h
  exact ⟨w.files, w.journal, rfl⟩

/-- Steps that change records and files only can be taken one after the other. -/
theorem trans (h : w.Noted w') (h' : w'.Noted w'') : w.Noted w'' := by
  obtain ⟨_, _, rfl⟩ := h
  obtain ⟨_, _, rfl⟩ := h'
  exact ⟨_, _, rfl⟩

end World.Noted

namespace Run

variable {α β : Type} {Q : α → Prop} {R : β → Prop}

theorem bind_apply (x : Run α) (f : α → Run β) (w : World) :
    (x >>= f) w = (x w).bind fun p => f p.1 p.2 := rfl

theorem get_bind_apply (f : World → Run β) (w : World) : (get >>= f) w = f w w := rfl

/-- One step of a computation that has a result has one, and so has the rest. -/
theorem exists_of_bind_eq_some {x : Run α} {f : α → Run β} {w w' : World} {b : β}
    (h : (x >>= f) w = some (b, w')) : ∃ a u, x w = some (a, u) ∧ f a u = some (b, w') := by
  rw [bind_apply] at h
  obtain ⟨⟨a, u⟩, hx, hf⟩ := Option.bind_eq_some_iff.mp h
  exact ⟨a, u, hx, hf⟩

/-- A computation touches neither scopes nor modules, and its results are as `Q` says. -/
def Quiet (Q : α → Prop) (x : Run α) : Prop :=
  ∀ w a w', x w = some (a, w') → w'.scopes = w.scopes ∧ w'.loader = w.loader ∧ Q a

namespace Quiet

/-- A result without a step is quiet. -/
theorem pure {a : α} (ha : Q a) : Quiet Q (pure a : Run α) := by
  intro w b w' h
  obtain ⟨rfl, rfl⟩ := Prod.mk.inj (Option.some.inj h)
  exact ⟨rfl, rfl, ha⟩

/-- Quiet steps can be taken one after the other. -/
theorem bind {x : Run α} {f : α → Run β} (hx : Quiet Q x) (hf : ∀ a, Q a → Quiet R (f a)) :
    Quiet R (x >>= f) := by
  intro w b w' h
  obtain ⟨a, u, hxa, hfb⟩ := exists_of_bind_eq_some h
  obtain ⟨hscopes, hloader, ha⟩ := hx w a u hxa
  obtain ⟨hscopes', hloader', hb⟩ := hf a ha u b w' hfb
  exact ⟨hscopes'.trans hscopes, hloader'.trans hloader, hb⟩

/-- A weaker statement about the result holds where a stronger one does. -/
theorem imp {Q' : α → Prop} {x : Run α} (hx : Quiet Q x) (h : ∀ a, Q a → Q' a) : Quiet Q' x := by
  intro w a w' hxa
  obtain ⟨hscopes, hloader, ha⟩ := hx w a w' hxa
  exact ⟨hscopes, hloader, h a ha⟩

/-- A change of the world is quiet if it leaves scopes and modules alone. -/
theorem modifyGet {f : World → α × World} (hscopes : ∀ w, (f w).2.scopes = w.scopes)
    (hloader : ∀ w, (f w).2.loader = w.loader) (hQ : ∀ w, Q (f w).1) :
    Quiet Q (modifyGet f : Run α) := by
  intro w a w' h
  have hf : f w = (a, w') := Option.some.inj h
  have hscopes := hscopes w
  have hloader := hloader w
  have hQ := hQ w
  rw [hf] at hscopes hloader hQ
  exact ⟨hscopes, hloader, hQ⟩

theorem get : Quiet (fun _ => True) (MonadState.get : Run World) := by
  intro w a w' h
  obtain ⟨rfl, rfl⟩ := Prod.mk.inj (Option.some.inj h)
  exact ⟨rfl, rfl, trivial⟩

end Quiet

/-- Taking a record succeeds, and changes records and files only. -/
theorem log_noted (level : Level) (message : String)
    (attributes : List (String × Attribute)) (w : World) :
    ∃ w', log level message attributes w = some ((), w') ∧ w.Noted w' := by
  refine ⟨_, rfl, ?_⟩
  dsimp only
  split <;> exact ⟨_, _, rfl⟩

/-- Taking a record is quiet. -/
theorem quiet_log (level : Level) (message : String) (attributes : List (String × Attribute)) :
    Quiet (fun _ => True) (log level message attributes) := by
  apply Quiet.modifyGet
  · intro w
    dsimp only
    split <;> rfl
  · intro w
    dsimp only
    split <;> rfl
  · exact fun _ => trivial

theorem quiet_stamp : Quiet (fun _ => True) stamp :=
  Quiet.modifyGet (fun _ => rfl) (fun _ => rfl) (fun _ => trivial)

/-- Making an array of fit values is quiet, and the array is fit. -/
theorem quiet_array {strict : Prop} {P : Value → Prop} (hP : Value.Hereditary strict P)
    {elements : List Value} (h : ∀ v ∈ elements, P v) : Quiet P (array elements) :=
  quiet_stamp.bind fun _ _ => .pure (hP.array.mpr h)

/-- Making a hash of fit entries is quiet, and the hash is fit. -/
theorem quiet_hash {strict : Prop} {P : Value → Prop} (hP : Value.Hereditary strict P)
    {entries : Entries} (h : entries.All strict P) : Quiet P (hash entries) :=
  quiet_stamp.bind fun _ _ => .pure (hP.hash.mpr h)

/-- Writing a value as text is quiet. -/
theorem quiet_inspect (v : Value) : Quiet (fun _ => True) (inspect v) := by
  intro w a w' h
  obtain ⟨shown, -, heq⟩ := Option.map_eq_some_iff.mp h
  obtain ⟨rfl, rfl⟩ := Prod.mk.inj heq
  exact ⟨rfl, rfl, trivial⟩

theorem quiet_print (piece : Bytes) : Quiet (fun _ => True) (print piece) :=
  Quiet.modifyGet (fun _ => rfl) (fun _ => rfl) (fun _ => trivial)

/-- Drawing a random word is quiet. -/
theorem quiet_draw : Quiet (fun _ => True) draw := by
  intro w a w' h
  -- The drawn bits stay abstract, so that nothing computes them.
  have hdraw : ∀ drawn : UInt64 × Entropy, w.entropy.draw = drawn →
      draw w = some (drawn.1, { w with entropy := drawn.2 }) := by
    rintro ⟨bits, entropy⟩ hdrawn
    simp only [draw, modifyGet, MonadStateOf.modifyGet, StateT.modifyGet, hdrawn]
    rfl
  rw [hdraw _ rfl] at h
  obtain ⟨rfl, rfl⟩ := Prod.mk.inj (Option.some.inj h)
  exact ⟨rfl, rfl, trivial⟩

/-- Using databases is quiet. -/
theorem quiet_onDatabase (f : Database → α × Database) : Quiet (fun _ => True) (onDatabase f) :=
  Quiet.modifyGet (fun _ => rfl) (fun _ => rfl) (fun _ => trivial)

/-! ## What a binding leaves behind -/

/-- A binding succeeds, and changes the scopes as it says. -/
theorem exists_create (scope : ScopeId) (name : Bytes) (value : Value) (w : World) :
    ∃ w', create scope name value w = some ((), w') ∧
      w'.scopes = w.scopes.create scope name value := by
  rw [create, bind_apply]
  exact ⟨_, rfl, (quiet_log _ _ _ _ _ _ rfl).1⟩

/-- An assignment is made once, and noted in the log. -/
theorem assign_noted (scope : ScopeId) (name : Bytes) (value : Value) (w : World) :
    ∃ w', assign scope name value w = some ((), w') ∧
      World.Noted { w with scopes := (w.scopes.assign scope name value).2 } w' := by
  rcases hassign : w.scopes.assign scope name value with ⟨implicit, scopes⟩
  unfold assign
  rw [bind_apply]
  simp only [modifyGet, MonadStateOf.modifyGet, StateT.modifyGet, hassign, pure, Option.bind_some]
  cases implicit with
  | false => exact log_noted _ _ _ _
  | true =>
    obtain ⟨w₁, hlog, hnoted⟩ := log_noted .debug "implicit binding at outermost scope"
      [("name", .word name)] { w with scopes }
    obtain ⟨w₂, hlog', hnoted'⟩ := log_noted .debug "assigned binding"
      [("name", .word name), ("type", .word value.kind.name)] w₁
    refine ⟨w₂, ?_, hnoted.trans hnoted'⟩
    rw [if_pos rfl, bind_apply, hlog]
    exact hlog'

/-- An assignment succeeds, and changes the scopes as it says. -/
theorem exists_assign (scope : ScopeId) (name : Bytes) (value : Value) (w : World) :
    ∃ w', assign scope name value w = some ((), w') ∧
      w'.scopes = (w.scopes.assign scope name value).2 := by
  obtain ⟨w', hassign, files, journal, rfl⟩ := assign_noted scope name value w
  exact ⟨_, hassign, rfl⟩

end Run

end Rill
