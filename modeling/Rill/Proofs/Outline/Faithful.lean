import Rill.Proofs.Run.Sources

/-!
# Outlines are faithful

Of a tree, an outline leaves out its source and nothing else.

* `Program.outline_faithful`: a tree is read back from its outline, and trees with one outline have
  one canonical form and evaluate to the same.
-/

namespace Rill.Program

/-- A tree is read back from its outline, but for where its tokens stood and of what kind the first
tokens of its statements were. So trees with the same outline differ in nothing else: they have the
same canonical form, and in every world and scope, and however deep evaluations may nest, either
both have no result, or their results and the worlds after them are the same but for the sources of
functions, with the same text and the same output. -/
theorem outline_faithful : (∀ p : Program, ofOutline? p.outline = some p.detached) ∧
    ∀ p q : Program, p.outline = q.outline → p.detached = q.detached ∧ p.render = q.render ∧
      ∀ (root home dump : Bytes) (toYaml : Outline →
        Bytes) (bound : Nat) (scope : ScopeId) (w : World),
        let it : Interpreter := { registry := Interpreter.standard, root, home, dump, toYaml }
        it.outcome bound (.program p) scope w = it.outcome bound (.program q) scope w ∧
          it.shown bound (.program p) scope w = it.shown bound (.program q) scope w := by
  refine ⟨ofOutline?_outline, fun p q h => ?_⟩
  have hdetached : p.detached = q.detached := (outline_eq_iff p q).mp h
  refine ⟨hdetached, ?_, fun root home dump toYaml bound scope w => ?_⟩
  · rw [← p.render_detached, hdetached, q.render_detached]
  · have hnode : (Node.program p).detached = (Node.program q).detached :=
      congrArg Node.program hdetached
    intro it
    have houtcome := it.outcome_eq_of_detached rfl hnode bound scope (rfl : w.detached = w.detached)
    refine ⟨houtcome, ?_⟩
    rw [it.shown_eq_map_outcome, it.shown_eq_map_outcome, houtcome]

/-- `let f = fn(x) { x + 1 }; f(2)`, with tokens that start `gap` bytes apart. -/
def spaced (gap : Nat) : Program :=
  let f (i : Nat) : Name := ⟨i * gap, text "f"⟩
  let x (i : Nat) : Name := ⟨i * gap, text "x"⟩
  let sum : Expr := .infixed (9 * gap) .add (.ident (x 8)) (.integer (10 * gap) (text "1") 1)
  let body : Block := .mk (7 * gap) [.expression ⟨.ident, text "x", 8 * gap⟩ sum]
  let call : Expr := .call (14 * gap) (.ident (f 13)) [.integer (15 * gap) (text "2") 2]
  ⟨[.binding 0 (f 1) (.function (3 * gap) [x 5] body),
    .expression ⟨.ident, text "f", 13 * gap⟩ call]⟩

theorem outline_faithful_spaced :
    let it : Interpreter := { registry := Interpreter.standard, toYaml := fun _ => [] }
    let w : World := { scopes := #[{}], files := ⟨text "/", [], #[]⟩ }
    (spaced 2).outline = (spaced 5).outline ∧ (spaced 2).detached = (spaced 5).detached ∧
      (spaced 2).render = (spaced 5).render ∧
      it.outcome 9 (.program (spaced 2)) 0 w = it.outcome 9 (.program (spaced 5)) 0 w ∧
      it.shown 9 (.program (spaced 5)) 0 w = some (some (text "3"), []) := by
  intro it w
  have houtline : (spaced 2).outline = (spaced 5).outline := rfl
  have hthree : it.shown 9 (.program (spaced 2)) 0 w = some (some (text "3"), []) := by
    decide +kernel
  obtain ⟨hdetached, hrender, heval⟩ := outline_faithful.2 (spaced 2) (spaced 5) houtline
  obtain ⟨houtcome, hshown⟩ := heval (text ".") [] [] (fun _ => []) 9 0 w
  exact ⟨houtline, hdetached, hrender, houtcome, hshown ▸ hthree⟩

end Rill.Program
