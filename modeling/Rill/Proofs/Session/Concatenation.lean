import Rill.Proofs.Run.Sources
import Rill.Proofs.Session.Reachable
import Rill.Proofs.Tree.Concatenation

/-!
# Texts one behind the other

A text that ends with a semicolon and another text are evaluated together as they are one after the
other in one world, if the first one runs to its end. If it returns or fails, the second one is not
run, and if the second one cannot be parsed, nothing is.

* `detachedStatements_moved`: statements at other offsets are the same without their sources.
* `Interpreter.evalProgram_append_of_not_allRun`, `Interpreter.evalProgram_append_of_allRun`: the
  statements of a program, with other statements behind them.
* `Interpreter.completes`: whether a text neither returns nor fails.
* `Interpreter.evalText_eq_bind`: a text is its record and then its statements.
* `Interpreter.evalText_append`: the parse and the run of two texts one behind the other.
-/

namespace Rill

/-! ## Trees at other offsets -/

mutual

/-- An expression at other offsets is the same without its source. -/
theorem Expr.detached_moved (f : Nat → Nat) : (e : Expr) → (e.moved f).detached = e.detached
  | .missing | .ident _ | .integer .. | .float .. | .double .. | .boolean .. | .string .. => by
    simp only [Expr.moved, Expr.detached, Name.moved, Name.detached]
  | .array _ elements => by simp only [Expr.moved, Expr.detached, detachedAll_moved f elements]
  | .hash _ pairs => by simp only [Expr.moved, Expr.detached, detachedPairs_moved f pairs]
  | .prefixed _ _ operand => by simp only [Expr.moved, Expr.detached, operand.detached_moved f]
  | .infixed _ _ left right => by
    simp only [Expr.moved, Expr.detached, left.detached_moved f, right.detached_moved f]
  | .index _ collection key => by
    simp only [Expr.moved, Expr.detached, collection.detached_moved f, key.detached_moved f]
  | .call _ callee arguments => by
    simp only [Expr.moved, Expr.detached, callee.detached_moved f, detachedAll_moved f arguments]
  | .function _ parameters body => by
    simp only [Expr.moved, Expr.detached, body.detached_moved f, List.map_map]
    rfl
  | .conditional _ condition consequence elifs alternative => by
    simp only [Expr.moved, Expr.detached, condition.detached_moved f, consequence.detached_moved f,
      detachedElifs_moved f elifs, detachedAlternative_moved f alternative]
  | .loop _ _ counter start condition step body => by
    simp only [Expr.moved, Expr.detached, start.detached_moved f, condition.detached_moved f,
      step.detached_moved f, body.detached_moved f, Name.moved, Name.detached]

/-- Expressions in a row at other offsets are the same without their sources. -/
theorem detachedAll_moved (f : Nat → Nat) :
    (es : List Expr) → detachedAll (movedAll f es) = detachedAll es
  | [] => rfl
  | e :: es => by simp only [movedAll, detachedAll, e.detached_moved f, detachedAll_moved f es]

/-- The pairs of a hash at other offsets are the same without their sources. -/
theorem detachedPairs_moved (f : Nat → Nat) : (pairs : List (Expr × Expr)) →
    detachedPairs (movedPairs f pairs) = detachedPairs pairs
  | [] => rfl
  | (k, v) :: pairs => by
    simp only [movedPairs, detachedPairs, k.detached_moved f, v.detached_moved f,
      detachedPairs_moved f pairs]

/-- Further conditions and their blocks at other offsets are the same without their sources. -/
theorem detachedElifs_moved (f : Nat → Nat) : (elifs : List (Expr × Block)) →
    detachedElifs (movedElifs f elifs) = detachedElifs elifs
  | [] => rfl
  | (c, b) :: elifs => by
    simp only [movedElifs, detachedElifs, c.detached_moved f, b.detached_moved f,
      detachedElifs_moved f elifs]

/-- The last block of a conditional at other offsets is the same without its source. -/
theorem detachedAlternative_moved (f : Nat → Nat) : (alternative : Option Block) →
    detachedAlternative (movedAlternative f alternative) = detachedAlternative alternative
  | none => rfl
  | some b => by simp only [movedAlternative, detachedAlternative, b.detached_moved f]

/-- A statement at other offsets is the same without its source. -/
theorem Stmt.detached_moved (f : Nat → Nat) : (s : Stmt) → (s.moved f).detached = s.detached
  | .binding _ name value => by
    simp only [Stmt.moved, Stmt.detached, value.detached_moved f, Name.moved, Name.detached]
  | .returned _ value => by simp only [Stmt.moved, Stmt.detached, value.detached_moved f]
  | .broken _ => rfl
  | .expression first value => by
    simp only [Stmt.moved, Stmt.detached, value.detached_moved f, Token.moved, Token.detached]

/-- Statements at other offsets are the same without their sources. -/
theorem detachedStatements_moved (f : Nat → Nat) : (ss : List Stmt) →
    detachedStatements (movedStatements f ss) = detachedStatements ss
  | [] => rfl
  | s :: ss => by
    simp only [movedStatements, detachedStatements, s.detached_moved f,
      detachedStatements_moved f ss]

/-- A block at other offsets is the same without its source. -/
theorem Block.detached_moved (f : Nat → Nat) : (b : Block) → (b.moved f).detached = b.detached
  | .mk _ statements => by
    simp only [Block.moved, Block.detached, detachedStatements_moved f statements]

end

namespace Interpreter

/-! ## Statements one behind the other -/

/-- Whether the statements of a program are all run: each of them has a result, and none of them
returns or fails. -/
def allRun (self : Evaluator) (scope : ScopeId) : List Stmt → World → Bool
  | [], _ => true
  | s :: ss, w =>
    match self (.stmt s) scope w with
    | none | some (.returned .., _) | some (.error _, _) => false
    | some (_, w') => allRun self scope ss w'

variable {self : Evaluator} {scope : ScopeId} {ss ts : List Stmt} {w : World}

/-- Behind a statement that returns, fails or does not end, no other statement is run. -/
theorem evalProgram_append_of_not_allRun (h : allRun self scope ss w = false) (result : Value) :
    evalProgram self scope result (ss ++ ts) w = evalProgram self scope result ss w := by
  induction ss generalizing result w with
  | nil => cases h
  | cons s ss ih =>
    rw [List.cons_append, evalProgram, evalProgram, Run.bind_apply, Run.bind_apply]
    rw [allRun] at h
    cases hrun : self (.stmt s) scope w with
    | none => rfl
    | some r =>
      obtain ⟨v, w'⟩ := r
      rw [hrun] at h
      cases v with
      | returned | error => rfl
      | _ => exact ih h _

/-- Behind statements that are all run, others start with the result of the last of them and in the
world that it left. -/
theorem evalProgram_append_of_allRun (h : allRun self scope ss w = true) (result : Value) :
    ∃ v w', evalProgram self scope result ss w = some (v, w') ∧
      ∀ ts, evalProgram self scope result (ss ++ ts) w = evalProgram self scope v ts w' := by
  induction ss generalizing result w with
  | nil => exact ⟨result, w, rfl, fun _ => rfl⟩
  | cons s ss ih =>
    rw [allRun] at h
    simp only [List.cons_append, evalProgram, Run.bind_apply]
    cases hrun : self (.stmt s) scope w with
    | none => rw [hrun] at h; cases h
    | some r =>
      obtain ⟨v, w'⟩ := r
      rw [hrun] at h
      cases v with
      | returned | error => cases h
      | _ => exact ih h _

/-! ## Texts -/

variable {it : Interpreter} {src more : Bytes}

/-- Whether a text neither returns nor fails: its statements are all run. -/
def completes (it : Interpreter) (scope : ScopeId) (src : Bytes) (w : World) : Bool :=
  match announce (.program (parse src).program) w with
  | none => false
  | some (_, w') => allRun (it.eval (limit - 1)) scope (parse src).program.statements w'

/-- The result of a text and the world after it, without sources. -/
def textOutcome (it : Interpreter) (scope : ScopeId) (src : Bytes) (w : World) :
    Option (Except (List Diagnostic) Value × World) :=
  (it.evalText scope src w).map (Prod.map (Except.map Value.detached) World.detached)

/-- A text that cannot be parsed is not run. -/
theorem evalText_of_malformed (h : (parse src).diagnostics ≠ []) (w : World) :
    it.evalText scope src w = some (.error (parse src).diagnostics, w) := by
  rw [evalText, if_neg (by simpa using h)]
  rfl

/-- A text that can be parsed is run as its program is. -/
theorem evalText_of_clean (h : (parse src).diagnostics = []) (w : World) :
    it.evalText scope src w =
      (it.eval limit (.program (parse src).program) scope w).map (Prod.map .ok id) := by
  rw [evalText, if_pos (by simp [h])]
  exact Option.map_eq_bind.symm

/-- A program is announced in the log, and then its statements are run. -/
theorem eval_limit (it : Interpreter) (p : Program) (scope : ScopeId) (w : World) :
    it.eval limit (.program p) scope w = (announce (.program p) w).bind fun r =>
      evalProgram (it.eval (limit - 1)) scope .null p.statements r.2 := rfl

/-- Every program is announced in the same way. -/
theorem announce_program (p p' : Program) : announce (.program p) = announce (.program p') := rfl

/-- A text that can be parsed is announced and then its statements are run. Any program is announced
in this way, so two texts can be compared from the same record on. -/
theorem evalText_eq_bind (h : (parse src).diagnostics = [])
    (hstatements : (parse src).program.statements = ss) (p : Program) (w : World) :
    it.evalText scope src w = ((announce (.program p) w).bind fun r =>
      evalProgram (it.eval (limit - 1)) scope .null ss r.2).map (Prod.map .ok id) := by
  rw [evalText_of_clean h, eval_limit, hstatements, announce_program (parse src).program p]

/-- Behind a text that does not run to its end, another one is not run. -/
theorem evalText_append_of_not_completes (hclean : (parse src).diagnostics = [])
    (hall : (parse (src ++ more)).diagnostics = [])
    (hstatements : (parse (src ++ more)).program.statements = (parse src).program.statements ++ ts)
    (h : it.completes scope src w = false) :
    it.evalText scope (src ++ more) w = it.evalText scope src w := by
  rw [evalText_eq_bind hall hstatements (parse src).program,
    evalText_eq_bind hclean rfl (parse src).program]
  rw [completes] at h
  cases hstart : announce (.program (parse src).program) w with
  | none => rfl
  | some r =>
    rw [hstart] at h
    rw [Option.bind_some, Option.bind_some, evalProgram_append_of_not_allRun h]

/-- Behind a text that runs to its end, the statements of another one start with its result and in
the world that it left. -/
theorem evalText_append_of_completes (hclean : (parse src).diagnostics = [])
    (hall : (parse (src ++ more)).diagnostics = [])
    (hstatements : (parse (src ++ more)).program.statements = (parse src).program.statements ++ ts)
    (h : it.completes scope src w = true) :
    ∃ v w₁, it.evalText scope src w = some (.ok v, w₁) ∧ it.evalText scope (src ++ more) w =
      (evalProgram (it.eval (limit - 1)) scope v ts w₁).map (Prod.map .ok id) := by
  rw [evalText_eq_bind hall hstatements (parse src).program,
    evalText_eq_bind hclean rfl (parse src).program]
  rw [completes] at h
  -- Both texts start with the same record, and then the statements of the first one all run.
  cases hstart : announce (.program (parse src).program) w with
  | none => rw [hstart] at h; cases h
  | some r =>
    rw [hstart] at h
    obtain ⟨v, w₁, hfirst, hrest⟩ := evalProgram_append_of_allRun h .null
    refine ⟨v, w₁, ?_, ?_⟩
    · rw [Option.bind_some, hfirst]
      rfl
    · rw [Option.bind_some, hrest]

/-- A program with a statement is run in the same way behind other statements, but for the record
that it is announced with. -/
theorem eval_limit_of_quiet (hne : ss ≠ []) (hquiet : w.journal.keeps .trace = false)
    (result : Value) :
    it.eval limit (.program ⟨ss⟩) scope w = evalProgram (it.eval (limit - 1)) scope
      result ss w := by
  have hstart : announce (.program ⟨ss⟩) w = some ((), w) := by
    show some ((), if w.journal.keeps .trace then _ else w) = _
    rw [hquiet]
    rfl
  rw [eval_limit, hstart, Option.bind_some]
  cases ss with
  | nil => exact absurd rfl hne
  | cons s ss => rfl

/-- The outcome of a text that can be parsed is that of its program. -/
theorem textOutcome_of_clean (h : (parse src).diagnostics = []) (w : World) :
    it.textOutcome scope src w =
      (it.outcome limit (.program (parse src).program) scope w).map (Prod.map .ok id) := by
  rw [textOutcome, evalText_of_clean h, outcome, Option.map_map, Option.map_map]
  rfl

/-- The texts `src` and `more` one behind the other, where `src` can be parsed and ends with a
semicolon. The statements and the diagnostics of `more` come at their offsets behind `src`, with the
same messages. If `more` cannot be parsed, nothing is run. If it can, and `src` returns or fails,
only `src` is run. If `src` runs to its end, the two are run as `more` is in the world that `src`
left, with the result of `src` if `more` has no statement. -/
theorem evalText_append (it : Interpreter) (hit : it.registry = standard) (scope : ScopeId)
    (src more : Bytes) (hclean : (parse src).diagnostics = []) (hsemi : EndsWithSemicolon src) :
    (parse (src ++ more)).program.statements = (parse src).program.statements ++
        (parse more).program.statements.map (Stmt.moved (· + src.length)) ∧
      (parse (src ++ more)).diagnostics =
        (parse more).diagnostics.map (Diagnostic.moved (· + src.length)) ∧
      (parse (src ++ more)).diagnostics.map Diagnostic.message =
        (parse more).diagnostics.map Diagnostic.message ∧
      ((parse more).diagnostics ≠ [] → ∀ w, it.evalText scope (src ++ more) w =
        some (.error (parse (src ++ more)).diagnostics, w)) ∧
      ((parse more).diagnostics = [] → ∀ w,
        (it.completes scope src w = false →
          it.evalText scope (src ++ more) w = it.evalText scope src w) ∧
        (it.completes scope src w = true →
          ∃ v w₁, it.evalText scope src w = some (.ok v, w₁) ∧
            ((parse more).program.statements = [] →
              it.evalText scope (src ++ more) w = some (.ok v, w₁)) ∧
            ((parse more).program.statements ≠ [] → w₁.journal.keeps .trace = false →
              it.textOutcome scope (src ++ more) w = it.textOutcome scope more w₁))) := by
  have hparse := parse_append_eq more hclean hsemi
  have hstatements : (parse (src ++ more)).program.statements = (parse src).program.statements ++
      movedStatements (· + src.length) (parse more).program.statements := by
    rw [hparse]
  have hdiagnostics : (parse (src ++ more)).diagnostics =
      (parse more).diagnostics.map (Diagnostic.moved (· + src.length)) := by
    rw [hparse]
  refine ⟨by rw [hstatements, movedStatements_eq_map], hdiagnostics, ?_, ?_, ?_⟩
  · rw [hdiagnostics, List.map_map]
    rfl
  · intro hmalformed w
    exact evalText_of_malformed (by simpa [hdiagnostics] using hmalformed) w
  intro hmore w
  have hall : (parse (src ++ more)).diagnostics = [] := by rw [hdiagnostics, hmore, List.map_nil]
  refine ⟨evalText_append_of_not_completes hclean hall hstatements, fun hcompletes => ?_⟩
  obtain ⟨v, w₁, hsrc, hboth⟩ :=
    evalText_append_of_completes hclean hall hstatements hcompletes
  refine ⟨v, w₁, hsrc, fun hnone => ?_, fun hsome hquiet => ?_⟩
  · rw [hboth, hnone]
    rfl
  · have hne : movedStatements (· + src.length) (parse more).program.statements ≠ [] := by
      rw [movedStatements_eq_map]
      exact mt List.map_eq_nil_iff.mp hsome
    -- Behind `src`, the statements of `more` stand at other offsets.
    have hmoved : (Node.program ⟨movedStatements (· + src.length)
        (parse more).program.statements⟩).detached = (Node.program (parse more).program).detached :=
      congrArg (fun ss => Node.program ⟨ss⟩) (detachedStatements_moved _ _)
    rw [textOutcome, hboth, ← eval_limit_of_quiet hne hquiet, textOutcome_of_clean hmore,
      ← outcome_eq_of_detached hit hmoved limit scope rfl, outcome, Option.map_map, Option.map_map]
    rfl

/-- A text with semicolons in a string, in a block and behind its statements. -/
def closed : Bytes := text "let f = fn(x) \x7b print(x, \";\"); x + 1; \x7d;\nf([1, -2][0]);"

/-- A text that calls a function of the one before it. -/
def calling : Bytes := text "f(f(5))"

/-- Behind such a text a malformed one stops both from being run, and one that calls its function is
run in the world that it left. -/
theorem evalText_append_closed :
    (parse closed).diagnostics = [] ∧ EndsWithSemicolon closed ∧
      (parse (closed ++ malformed)).diagnostics.map Diagnostic.message =
        (parse malformed).diagnostics.map Diagnostic.message ∧
      plain.evalText World.globalScope (closed ++ malformed) plainWorld =
        some (.error (parse (closed ++ malformed)).diagnostics, plainWorld) ∧
      ∃ v w₁, plain.evalText World.globalScope closed plainWorld = some (.ok v, w₁) ∧
        w₁.output = text "1 ;\n" ∧
          plain.textOutcome World.globalScope (closed ++ calling) plainWorld =
          plain.textOutcome World.globalScope calling w₁ := by
  have hclean : (parse closed).diagnostics = [] := by decide +kernel
  have hsemi : EndsWithSemicolon closed := ⟨closed.dropLast, by decide +kernel, by decide +kernel⟩
  obtain ⟨-, -, hmessages, hnothing, -⟩ :=
    evalText_append plain rfl World.globalScope closed malformed hclean hsemi
  obtain ⟨-, -, -, -, hrun⟩ :=
    evalText_append plain rfl World.globalScope closed calling hclean hsemi
  obtain ⟨v, w₁, hfirst, -, hboth⟩ := (hrun (by decide +kernel) plainWorld).2 (by decide +kernel)
  -- What the first text printed, and that no record is kept behind it.
  have hworld : ((plain.evalText World.globalScope closed plainWorld).map fun r =>
      (r.2.output, r.2.journal.keeps .trace)) = some (text "1 ;\n", false) := by decide +kernel
  rw [hfirst] at hworld
  obtain ⟨houtput, hquiet⟩ := Prod.mk.inj (Option.some.inj hworld)
  exact ⟨hclean, hsemi, hmessages, hnothing (by decide +kernel) plainWorld, v, w₁, hfirst, houtput,
    hboth (by decide +kernel) hquiet⟩

/-- Behind a text that returns, another one is run if the two are fed one after the other, but not
if they are evaluated as one. -/
theorem evalText_append_returning :
    (parse (text "return 1;")).diagnostics = [] ∧ EndsWithSemicolon (text "return 1;") ∧
      (parse (text "print(2);")).diagnostics = [] ∧
      ((plain.evalText World.globalScope (text "return 1;" ++ text "print(2);") plainWorld).map
        fun r => r.2.output) = some [] ∧
      (((plain.evalText World.globalScope (text "return 1;") >>= fun _ =>
        plain.evalText World.globalScope (text "print(2);")) plainWorld).map
        fun r => r.2.output) = some (text "2\n") := by
  refine ⟨by decide +kernel, ⟨text "return 1", by decide +kernel, by decide +kernel⟩,
    by decide +kernel, by decide +kernel, by decide +kernel⟩

end Interpreter

end Rill
