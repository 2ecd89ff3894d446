import Rill.Database.Server

/-!
# Histories in order

A history of requests is in order if every request was made of something that was open at the time.
What is open is read off the events before: a connection from when it was obtained until it is asked
to close, a transaction from when it began until it is asked to end, whatever the answers are.

* `Request.Fits`: the rule for a single request, given the events before it.
* `InOrder`: the rule along a history.
* `InOrder.countP_closes`, `InOrder.countP_finishes`: nothing is closed or ended twice.
* `InOrder.finished_of_close`: transactions end before their connections.
-/

namespace Rill

variable {past later : List Event} {e : Event} {c : Connection} {t : Transaction}

/-! ## What is open -/

/-- A connection was obtained. -/
def Obtained (past : List Event) (c : Connection) : Prop := ⟨.obtain c, true⟩ ∈ past

/-- A connection was asked to close. -/
def Closed (past : List Event) (c : Connection) : Prop := ∃ granted, ⟨.close c, granted⟩ ∈ past

/-- A transaction began. -/
def Begun (past : List Event) (t : Transaction) : Prop := ⟨.begin t, true⟩ ∈ past

/-- A transaction was asked to end. -/
def Finished (past : List Event) (t : Transaction) : Prop :=
  ∃ commit granted, ⟨.finish commit t, granted⟩ ∈ past

/-- A connection that can be used. -/
def Connection.IsOpen (c : Connection) (past : List Event) : Prop :=
  Obtained past c ∧ ¬ Closed past c

/-- A transaction that can be used. -/
def Transaction.IsOpen (t : Transaction) (past : List Event) : Prop :=
  Begun past t ∧ ¬ Finished past t

/-- A connection on which no transaction is open. -/
def Connection.IsIdle (c : Connection) (past : List Event) : Prop :=
  c.IsOpen past ∧ ∀ t : Transaction, t.connection = c → ¬ t.IsOpen past

/-- The rule for a request: what it is made of is open, and a transaction that is open takes all
requests of its connection. -/
def Request.Fits (past : List Event) : Request → Prop
  | .obtain c => ¬ Obtained past c
  | .ping c | .close c => c.IsIdle past
  | .begin t => t.connection.IsIdle past ∧ ¬ Begun past t
  | .finish _ t => t.IsOpen past ∧ t.connection.IsOpen past
  | .statement _ (.connection c) _ _ => c.IsIdle past
  | .statement _ (.transaction t) _ _ => t.IsOpen past ∧ t.connection.IsOpen past

/-- Every request of a history fits the events before it. -/
def InOrder : (history : List Event) → Prop
  | [] => True
  | e :: past => e.request.Fits past ∧ InOrder past

@[simp] theorem obtained_cons {request : Request} {granted : Bool} :
    Obtained (⟨request, granted⟩ :: past) c ↔ request = .obtain c ∧ granted = true ∨
      Obtained past c := by
  simp [Obtained, eq_comm]

@[simp] theorem closed_cons {request : Request} {granted : Bool} :
    Closed (⟨request, granted⟩ :: past) c ↔ request = .close c ∨ Closed past c := by
  simp [Closed, eq_comm, exists_or]

@[simp] theorem begun_cons {request : Request} {granted : Bool} :
    Begun (⟨request, granted⟩ :: past) t ↔ request = .begin t ∧ granted = true ∨ Begun past t := by
  simp [Begun, eq_comm]

@[simp] theorem finished_cons {request : Request} {granted : Bool} :
    Finished (⟨request, granted⟩ :: past) t ↔ (∃ commit, request = .finish commit t) ∨
      Finished past t := by
  simp [Finished, eq_comm, exists_or]

/-! ## Nothing is closed before it was open, nor twice -/

namespace InOrder

/-- The past of a history in order is in order. -/
theorem of_append (h : InOrder (later ++ past)) : InOrder past := by
  induction later with
  | nil => exact h
  | cons _ _ ih => exact ih h.2

/-- Every request of a history in order fits what was before it. -/
theorem fits (h : InOrder (later ++ e :: past)) : e.request.Fits past := h.of_append.1

/-- In order, what was closed was obtained before. -/
theorem obtained_of_closed (h : InOrder past) (hclosed : Closed past c) : Obtained past c := by
  induction past with
  | nil => simp [Closed] at hclosed
  | cons e past ih =>
    obtain ⟨request, granted⟩ := e
    rw [closed_cons] at hclosed
    rw [obtained_cons]
    rcases hclosed with rfl | hclosed
    · exact .inr h.1.1.1
    · exact .inr (ih h.2 hclosed)

/-- In order, what was ended began before. -/
theorem begun_of_finished (h : InOrder past) (hfinished : Finished past t) : Begun past t := by
  induction past with
  | nil => simp [Finished] at hfinished
  | cons e past ih =>
    obtain ⟨request, granted⟩ := e
    rw [finished_cons] at hfinished
    rw [begun_cons]
    rcases hfinished with ⟨commit, rfl⟩ | hfinished
    · exact .inr h.1.1.1
    · exact .inr (ih h.2 hfinished)

end InOrder

/-- An event asks a connection to close. -/
def Event.closes (c : Connection) (e : Event) : Bool :=
  match e.request with
  | .close c' => c' = c
  | _ => false

/-- An event asks a transaction to end. -/
def Event.finishes (t : Transaction) (e : Event) : Bool :=
  match e.request with
  | .finish _ t' => t' = t
  | _ => false

theorem Event.closes_iff : e.closes c = true ↔ e.request = .close c := by
  obtain ⟨request, granted⟩ := e
  cases request <;> simp [closes]

theorem Event.finishes_iff : e.finishes t = true ↔ ∃ commit, e.request = .finish commit t := by
  obtain ⟨request, granted⟩ := e
  cases request <;> simp [finishes]

namespace InOrder

/-- A connection that was not closed was closed no time. -/
theorem countP_closes_eq_zero (h : ¬ Closed past c) : past.countP (Event.closes c) = 0 := by
  rw [List.countP_eq_zero]
  rintro ⟨request, granted⟩ he hcloses
  obtain rfl : request = .close c := Event.closes_iff.mp hcloses
  exact h ⟨granted, he⟩

/-- A transaction that was not ended was ended no time. -/
theorem countP_finishes_eq_zero (h : ¬ Finished past t) : past.countP (Event.finishes t) = 0 := by
  rw [List.countP_eq_zero]
  rintro ⟨request, granted⟩ he hfinishes
  obtain ⟨commit, rfl⟩ : ∃ commit, request = .finish commit t := Event.finishes_iff.mp hfinishes
  exact h ⟨commit, granted, he⟩

/-- A connection is closed at most once. -/
theorem countP_closes (h : InOrder past) (hclosed : Closed past c) :
    past.countP (Event.closes c) = 1 := by
  induction past with
  | nil => simp [Closed] at hclosed
  | cons e past ih =>
    obtain ⟨request, granted⟩ := e
    by_cases hcloses : request = .close c
    · subst hcloses
      rw [List.countP_cons_of_pos (Event.closes_iff.mpr rfl), countP_closes_eq_zero h.1.1.2]
    · have hpast : Closed past c := (closed_cons.mp hclosed).resolve_left hcloses
      rw [List.countP_cons_of_neg (mt Event.closes_iff.mp hcloses), ih h.2 hpast]

/-- A transaction is ended at most once. -/
theorem countP_finishes (h : InOrder past) (hfinished : Finished past t) :
    past.countP (Event.finishes t) = 1 := by
  induction past with
  | nil => simp [Finished] at hfinished
  | cons e past ih =>
    obtain ⟨request, granted⟩ := e
    by_cases hfinishes : ∃ commit, request = .finish commit t
    · rw [List.countP_cons_of_pos (Event.finishes_iff.mpr hfinishes)]
      obtain ⟨commit, rfl⟩ := hfinishes
      rw [countP_finishes_eq_zero h.1.1.2]
    · have hpast : Finished past t := (finished_cons.mp hfinished).resolve_left hfinishes
      rw [List.countP_cons_of_neg (mt Event.finishes_iff.mp hfinishes), ih h.2 hpast]

/-! ## Transactions end before their connections -/

/-- The connection of an open transaction is open. -/
theorem isOpen_connection (h : InOrder past) (ht : t.IsOpen past) : t.connection.IsOpen past := by
  induction past with
  | nil => simp [Transaction.IsOpen, Begun] at ht
  | cons e past ih =>
    obtain ⟨request, granted⟩ := e
    obtain ⟨hbegun, hfinished⟩ := ht
    rw [begun_cons] at hbegun
    rw [finished_cons, not_or] at hfinished
    rw [Connection.IsOpen, obtained_cons, closed_cons, not_or]
    rcases hbegun with ⟨rfl, -⟩ | hbegun
    · obtain ⟨hobtained, hclosed⟩ := h.1.1.1
      exact ⟨.inr hobtained, by simp, hclosed⟩
    · have ht : t.IsOpen past := ⟨hbegun, hfinished.2⟩
      obtain ⟨hobtained, hclosed⟩ := ih h.2 ht
      refine ⟨.inr hobtained, ?_, hclosed⟩
      -- A connection with an open transaction is not asked to close.
      rintro rfl
      exact h.1.2 t rfl ht

/-- No transaction begins on a connection that was asked to close. -/
theorem begun_of_closed (h : InOrder (later ++ past)) (hclosed : Closed past t.connection)
    (hbegun : Begun (later ++ past) t) : Begun past t := by
  induction later with
  | nil => exact hbegun
  | cons e later ih =>
    obtain ⟨request, granted⟩ := e
    rw [List.cons_append, begun_cons] at hbegun
    rcases hbegun with ⟨rfl, -⟩ | hbegun
    · obtain ⟨granted, hmem⟩ := hclosed
      exact absurd ⟨granted, List.mem_append_right later hmem⟩ h.1.1.1.2
    · exact ih h.2 hbegun

/-- When a connection is asked to close, the transactions on it were asked to end. -/
theorem finished_of_close {granted : Bool}
    (h : InOrder (later ++ ⟨.close t.connection, granted⟩ :: past))
    (hbegun : Begun (later ++ ⟨.close t.connection, granted⟩ :: past) t) : Finished past t := by
  have hclosed : Closed (⟨.close t.connection, granted⟩ :: past) t.connection :=
    closed_cons.mpr (.inl rfl)
  have hbegun := h.begun_of_closed hclosed hbegun
  rw [begun_cons] at hbegun
  exact Classical.byContradiction fun hfinished =>
    h.fits.2 t rfl ⟨hbegun.resolve_left (by simp), hfinished⟩

end InOrder

end Rill
