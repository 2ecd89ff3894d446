import Mathlib
import Rill.Builtin.Math
import Rill.Proofs.Decimal.Order
import Rill.Proofs.Run.Builtins

/-!
# The first winner

The smallest and the largest of numbers are found in one pass, which compares each number with the
best one so far and with no other. Numbers of all kinds are compared in 64 bits.

* `Builtin.Leads`: what the pass keeps. The best number so far beats all that stand before it, and
  no number that was seen beats it.
* `Builtin.pick_of_find?`: the first argument that is no number is the one that is complained about,
  wherever it stands.
* `Builtin.pick_exact`: the result is the first argument that no other one beats, and there is a
  fault exactly if there is no argument or one that is no number.
-/

namespace Rill

/-- A value counts as a number if its kind is numeric. -/
theorem Value.number?_eq_none_iff {v : Value} : v.number? = none ↔ v.kind.isNumeric = false := by
  cases v <;> simp [number?, kind, Kind.isNumeric, Kind.width?]

theorem Value.isError_of_isNumeric {v : Value} (h : v.kind.isNumeric = true) :
    v.isError = false := by
  cases v with
  | error => cases h
  | _ => rfl

namespace Builtin

variable {better : Float → Float → Bool} {args before between : List Value} {best u v w : Value}

/-! ## Comparison of values -/

/-- One number beats another. -/
def Beats (better : Float → Float → Bool) (v u : Value) : Prop :=
  ∃ x y, v.number? = some x ∧ u.number? = some y ∧ better x y = true

/-- The comparison is a strict weak order on the numbers among values. -/
def Orders (better : Float → Float → Bool) (args : List Value) : Prop :=
  IsStrictWeakOrder {x : Float // x ∈ args.filterMap Value.number?} fun x y => better x.1 y.1 = true

/-- The first of values that none of them beats. -/
def FirstUnbeaten (better : Float → Float → Bool) (args : List Value) (winner : Value) : Prop :=
  ∃ before after, args = before ++ winner :: after ∧ (∀ v ∈ args, ¬ Beats better v winner) ∧
    ∀ u ∈ before, ∃ v ∈ args, Beats better v u

/-- A number beats another one if it is better. -/
theorem beats_iff {x y : Float} (hv : v.number? = some x) (hu : u.number? = some y) :
    Beats better v u ↔ better x y = true := by
  constructor
  · rintro ⟨x', y', hx, hy, hbetter⟩
    rw [hv, Option.some.injEq] at hx
    rw [hu, Option.some.injEq] at hy
    rwa [hx, hy]
  · exact fun hbetter => ⟨x, y, hv, hu, hbetter⟩

/-- The number of an argument is among the numbers of the arguments. -/
theorem mem_numbers {x : Float} (hv : v ∈ args) (hx : v.number? = some x) :
    x ∈ args.filterMap Value.number? :=
  List.mem_filterMap.mpr ⟨v, hv, hx⟩

namespace Orders

variable (h : Orders better args)

include h

/-- No argument beats itself. -/
theorem not_beats_self (hv : v ∈ args) : ¬ Beats better v v := by
  rintro ⟨x, y, hx, hy, hbetter⟩
  obtain rfl : x = y := Option.some.inj (hx.symm.trans hy)
  exact h.irrefl ⟨x, mem_numbers hv hx⟩ hbetter

/-- An argument beats whatever is beaten by one that it beats. -/
theorem beats_trans (hu : u ∈ args) (hv : v ∈ args) (hw : w ∈ args) (huv : Beats better u v)
    (hvw : Beats better v w) : Beats better u w := by
  obtain ⟨x, y, hx, hy, hxy⟩ := huv
  obtain ⟨y', z, hy', hz, hyz⟩ := hvw
  obtain rfl : y = y' := Option.some.inj (hy.symm.trans hy')
  exact ⟨x, z, hx, hz, h.trans ⟨x, mem_numbers hu hx⟩ ⟨y, mem_numbers hv hy⟩
    ⟨z, mem_numbers hw hz⟩ hxy hyz⟩

/-- What beats a number beats all that do not beat this number: they tie with it or are beaten by
it. -/
theorem beats_of_not_beats (hu : u ∈ args) (hv : v ∈ args) (hw : w ∈ args)
    (hnumber : w.kind.isNumeric = true) (huv : Beats better u v) (hwv : ¬ Beats better w v) :
    Beats better u w := by
  by_cases hvw : Beats better v w
  · exact h.beats_trans hu hv hw huv hvw
  · -- `w` ties with `v`. If it tied with `u` as well, then so would `v`.
    by_contra huw
    have hwu : ¬ Beats better w u := fun hwu => hwv (h.beats_trans hw hu hv hwu huv)
    obtain ⟨x, y, hx, hy, hxy⟩ := huv
    obtain ⟨z, hz⟩ := Value.exists_number? hnumber
    rw [beats_iff hx hz] at huw
    rw [beats_iff hz hx] at hwu
    rw [beats_iff hz hy] at hwv
    rw [beats_iff hy hz] at hvw
    exact (h.incomp_trans ⟨x, mem_numbers hu hx⟩ ⟨z, mem_numbers hw hz⟩ ⟨y, mem_numbers hv hy⟩
      ⟨huw, hwu⟩ ⟨hwv, hvw⟩).1 hxy

end Orders

/-! ## The pass over the arguments -/

/-- The best of the values seen so far: it beats those before it, and none of them beats it. -/
structure Leads (better : Float → Float → Bool) (before : List Value) (best : Value)
    (between : List Value) : Prop where
  beats : ∀ u ∈ before, Beats better best u
  unbeaten : ∀ v ∈ before ++ best :: between, ¬ Beats better v best

namespace Leads

/-- A value that does not beat the best one changes nothing. -/
theorem keep (h : Leads better before best between) (hv : ¬ Beats better v best) :
    Leads better before best (between ++ [v]) where
  beats := h.beats
  unbeaten u hu := by
    rw [← List.cons_append, ← List.append_assoc, List.mem_append, List.mem_singleton] at hu
    rcases hu with hu | rfl
    · exact h.unbeaten u hu
    · exact hv

/-- A value that beats the best one beats all that were seen. -/
theorem replace (h : Leads better before best between) (horders : Orders better args)
    (hseen : ∀ u ∈ before ++ best :: between, u ∈ args ∧ u.kind.isNumeric = true) (hmem : v ∈ args)
    (hv : Beats better v best) : Leads better (before ++ best :: between) v [] := by
  have hbest : best ∈ args := (hseen best (by simp)).1
  have hbeats : ∀ u ∈ before ++ best :: between, Beats better v u := fun u hu =>
    horders.beats_of_not_beats hmem hbest (hseen u hu).1 (hseen u hu).2 hv (h.unbeaten u hu)
  refine ⟨hbeats, fun u hu hbeaten => ?_⟩
  rw [List.mem_append, List.mem_singleton] at hu
  rcases hu with hu | rfl
  · exact horders.not_beats_self hmem
      (horders.beats_trans hmem (hseen u hu).1 hmem (hbeats u hu) hbeaten)
  · exact horders.not_beats_self hmem hbeaten

/-- A leader that has seen all arguments is the first of those that are not beaten. -/
theorem firstUnbeaten (h : Leads better before best between) :
    FirstUnbeaten better (before ++ best :: between) best :=
  ⟨before, between, rfl, h.unbeaten, fun u hu => ⟨best, by simp, h.beats u hu⟩⟩

end Leads

/-- Picking goes on with the better argument, and ends with the first one that is not beaten. The
induction is on the arguments that are still to come, with the leader kept. -/
theorem pickFrom_firstUnbeaten (name : String) {x : Float} (rest : List Value)
    (horders : Orders better (before ++ best :: between ++ rest))
    (hnumbers : ∀ v ∈ before ++ best :: between ++ rest, v.kind.isNumeric = true)
    (hlead : Leads better before best between) (hx : best.number? = some x) :
    FirstUnbeaten better (before ++ best :: between ++ rest)
      (pickFrom name better best x rest) := by
  induction rest generalizing before best between x with
  | nil =>
    rw [List.append_nil, pickFrom]
    exact hlead.firstUnbeaten
  | cons v rest ih =>
    obtain ⟨y, hy⟩ := Value.exists_number? (hnumbers v (by simp))
    rw [pickFrom, hy]
    dsimp only
    split
    next hbetter =>
      -- All values seen so far stand before the new best one.
      have hsplit : before ++ best :: between ++ v :: rest = (before ++ best :: between) ++ v ::
        [] ++ rest := by simp
      have hnext : Leads better (before ++ best :: between) v [] :=
        hlead.replace horders (fun u hu =>
          ⟨List.mem_append_left _ hu, hnumbers u (List.mem_append_left _ hu)⟩)
          (by simp) ((beats_iff hy hx).mpr hbetter)
      rw [hsplit] at horders hnumbers ⊢
      exact ih horders hnumbers hnext hy
    next hbetter =>
      have hsplit : before ++ best :: between ++ v :: rest = before ++ best :: (between ++ [v]) ++
        rest := by simp
      have hnext : Leads better before best (between ++ [v]) :=
        hlead.keep (mt (beats_iff hy hx).mp hbetter)
      rw [hsplit] at horders hnumbers ⊢
      exact ih horders hnumbers hnext hx

/-- Picking from numbers that are ordered gives the first one that is not beaten. -/
theorem pick_firstUnbeaten (name : String) (hargs : args ≠ [])
    (hnumbers : ∀ v ∈ args, v.kind.isNumeric = true) (horders : Orders better args) :
    FirstUnbeaten better args (pick name better args) := by
  cases args with
  | nil => exact absurd rfl hargs
  | cons v rest =>
    obtain ⟨x, hx⟩ := Value.exists_number? (hnumbers v List.mem_cons_self)
    have hlead : Leads better [] v [] :=
      ⟨List.forall_mem_nil _, List.forall_mem_singleton.mpr
        (horders.not_beats_self List.mem_cons_self)⟩
    rw [pick, hx]
    exact pickFrom_firstUnbeaten name rest horders hnumbers hlead hx

/-! ## Faults -/

/-- The first argument that is no number is the fault, whatever leads by then. -/
theorem pickFrom_of_find? (name : String) (x : Float) {rest : List Value}
    (h : rest.find? (fun v => ! v.kind.isNumeric) = some v) :
    pickFrom name better best x rest = notNumber name v := by
  induction rest generalizing best x with
  | nil => cases h
  | cons u rest ih =>
    rw [pickFrom]
    cases hu : u.kind.isNumeric with
    | false =>
      rw [List.find?_cons_of_pos (by simp [hu]), Option.some.injEq] at h
      rw [Value.number?_eq_none_iff.mpr hu, h]
    | true =>
      rw [List.find?_cons_of_neg (by simp [hu])] at h
      -- A number may take the lead or not. Either way the search goes on.
      obtain ⟨y, hy⟩ := Value.exists_number? hu
      rw [hy]
      dsimp only
      split
      · exact ih y h
      · exact ih x h

/-- The first argument that is no number is complained about, however many numbers stand before
it. -/
theorem pick_of_find? (name : String) (h : args.find? (fun v => ! v.kind.isNumeric) = some v) :
    pick name better args = notNumber name v := by
  cases args with
  | nil => cases h
  | cons u rest =>
    rw [pick]
    cases hu : u.kind.isNumeric with
    | false =>
      rw [List.find?_cons_of_pos (by simp [hu]), Option.some.injEq] at h
      rw [Value.number?_eq_none_iff.mpr hu, h]
    | true =>
      rw [List.find?_cons_of_neg (by simp [hu])] at h
      obtain ⟨x, hx⟩ := Value.exists_number? hu
      rw [hx]
      exact pickFrom_of_find? name x h

/-- Among numbers the result is one of them, in whatever order they stand. -/
theorem pickFrom_mem (name : String) (x : Float) {rest : List Value}
    (hnumbers : ∀ v ∈ rest, v.kind.isNumeric = true) :
    pickFrom name better best x rest ∈ best :: rest := by
  induction rest generalizing best x with
  | nil => exact List.mem_cons_self
  | cons v rest ih =>
    obtain ⟨hv, hrest⟩ := List.forall_mem_cons.mp hnumbers
    obtain ⟨y, hy⟩ := Value.exists_number? hv
    rw [pickFrom, hy]
    dsimp only
    split
    · exact List.mem_cons_of_mem _ (ih y hrest)
    · rcases List.mem_cons.mp (ih x hrest) with hbest | hmem
      · exact List.mem_cons.mpr (.inl hbest)
      · exact List.mem_cons_of_mem _ (List.mem_cons_of_mem _ hmem)

/-- Picking from numbers gives a number. -/
theorem isNumeric_pick (name : String) (hargs : args ≠ [])
    (hnumbers : ∀ v ∈ args, v.kind.isNumeric = true) :
    (pick name better args).kind.isNumeric = true := by
  cases args with
  | nil => exact absurd rfl hargs
  | cons v rest =>
    obtain ⟨hv, hrest⟩ := List.forall_mem_cons.mp hnumbers
    obtain ⟨x, hx⟩ := Value.exists_number? hv
    rw [pick, hx]
    exact hnumbers _ (pickFrom_mem name x hrest)

/-- Picking fails without arguments, or with one that is no number, and only then. -/
theorem isError_pick_iff (name : String) :
    (pick name better args).isError = true ↔ args = [] ∨ ∃ v ∈ args, v.kind.isNumeric = false := by
  constructor
  · intro herror
    by_contra hnot
    obtain ⟨hargs, hnumbers⟩ := not_or.mp hnot
    have hall : ∀ v ∈ args, v.kind.isNumeric = true := fun v hv =>
      Bool.eq_true_of_not_eq_false fun hv' => hnumbers ⟨v, hv, hv'⟩
    rw [Value.isError_of_isNumeric (isNumeric_pick name hargs hall)] at herror
    cases herror
  · rintro (rfl | ⟨v, hv, hnumber⟩)
    · rfl
    · have hfound : (args.find? fun v => ! v.kind.isNumeric).isSome :=
        List.find?_isSome.mpr ⟨v, hv, by rw [hnumber]; rfl⟩
      obtain ⟨u, hu⟩ := Option.isSome_iff_exists.mp hfound
      rw [pick_of_find? name hu]
      rfl

/-! ## The smallest and the largest -/

/-- Without what is not a number, both comparisons are strict weak orders, whatever kinds the
numbers have. -/
theorem orders_of_numbers (h : ∀ x ∈ args.filterMap Value.number?, x.isNaN = false) :
    Orders (fun a b => a < b) args ∧ Orders (fun a b => b < a) args :=
  ⟨Binary.isStrictWeakOrder_lt h, Binary.isStrictWeakOrder_gt h⟩

/-- Among numbers that the comparison orders, the result is the first argument that none of them
beats, as it is; less and greater order all numbers. A fault comes exactly of no arguments or of one
that is no number, and it names the kind of the first such one. -/
theorem pick_exact (name : String) (better : Float → Float → Bool) (args : List Value) :
    (args ≠ [] → (∀ v ∈ args, v.kind.isNumeric = true) → Orders better args →
      FirstUnbeaten better args (pick name better args)) ∧
    ((∀ x ∈ args.filterMap Value.number?, x.isNaN = false) →
      Orders (fun a b => a < b) args ∧ Orders (fun a b => b < a) args) ∧
    ((pick name better args).isError = true ↔ args = [] ∨ ∃ v ∈ args, v.kind.isNumeric = false) ∧
    ∀ v, args.find? (fun v => ! v.kind.isNumeric) = some v →
      ∃ fault, pick name better args = .error fault ∧
        fault.message = text "argument to `" ++ text name ++ text "` must be a number, got " ++
          v.kind.name :=
  ⟨pick_firstUnbeaten name, orders_of_numbers, isError_pick_iff name,
    fun v hv => ⟨.argumentNumber (text name) v.kind, pick_of_find? name hv, rfl⟩⟩

/-- Numbers of three kinds: 3, and then 2 as a number of each kind. -/
def mixed : List Value :=
  [.integer 3, .float (Float32.ofBits 0x40000000),
    .double (Float.ofBits 0x4000000000000000), .integer 2]

/-- The smallest of them is the number of 32 bits, which comes first of those that tie. -/
theorem pick_exact_mixed : (∀ x ∈ mixed.filterMap Value.number?, x.isNaN = false) ∧
    FirstUnbeaten (fun a b => a < b) mixed (pick "min" (fun a b => a < b) mixed) ∧
    pick "min" (fun a b => a < b) mixed = .float (Float32.ofBits 0x40000000) ∧
    FirstUnbeaten (fun a b => b < a) mixed (pick "max" (fun a b => b < a) mixed) ∧
    (pick "min" (fun a b => a < b) (mixed ++ [.null, .boolean true])).isError = true := by
  have hnumbers : ∀ v ∈ mixed, v.kind.isNumeric = true := by decide
  have hnan : ∀ x ∈ mixed.filterMap Value.number?, x.isNaN = false := by decide +kernel
  obtain ⟨hmin, horders, -⟩ := pick_exact "min" (fun a b => a < b) mixed
  obtain ⟨hmax, -⟩ := pick_exact "max" (fun a b => b < a) mixed
  obtain ⟨-, -, herror, -⟩ := pick_exact "min" (fun a b => a < b) (mixed ++ [.null, .boolean true])
  refine ⟨hnan, hmin (by simp [mixed]) hnumbers (horders hnan).1, ?_,
    hmax (by simp [mixed]) hnumbers (horders hnan).2,
    herror.mpr (.inr ⟨.null, by simp, rfl⟩)⟩
  rfl

end Builtin

end Rill
