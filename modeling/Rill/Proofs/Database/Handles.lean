import Mathlib.Logic.Relation
import Rill.Database
import Rill.Proofs.Database.Trace
import Rill.Proofs.Table

/-!
# Handles and what is open

The two tables of handles say what is open, no more and no less, and every request is made in order.

* `Database.Coherent`: the tables agree with the history.
* `Database.Move`: the steps that operations on handles consist of, each with the handle that it is
  about.
* `Database.Move.coherent`: a step keeps the tables coherent.
* `Database.Untouched`, `Database.Move.untouched`: a step leaves all other handles alone.
* `Database.Coherent.releaseIn`: giving up everything closes all that is open, in whatever order.
-/

namespace Rill

variable {past : List Event} {c : Connection} {t : Transaction} {request : Request} {granted : Bool}

/-- The other requests leave connections as they are. -/
theorem Connection.isOpen_cons_of_ne (hobtain : request ≠ .obtain c ∨ granted = false)
    (hclose : request ≠ .close c) : c.IsOpen (⟨request, granted⟩ :: past) ↔ c.IsOpen past := by
  have hobtain : ¬ (request = .obtain c ∧ granted = true) := by
    rintro ⟨rfl, rfl⟩
    exact hobtain.elim (· rfl) nofun
  rw [IsOpen, IsOpen, obtained_cons, closed_cons, or_iff_right hobtain, or_iff_right hclose]

/-- The other requests leave transactions as they are. -/
theorem Transaction.isOpen_cons_of_ne (hbegin : request ≠ .begin t ∨ granted = false)
    (hfinish : ∀ commit, request ≠ .finish commit t) :
    t.IsOpen (⟨request, granted⟩ :: past) ↔ t.IsOpen past := by
  have hbegin : ¬ (request = .begin t ∧ granted = true) := by
    rintro ⟨rfl, rfl⟩
    exact hbegin.elim (· rfl) nofun
  rw [IsOpen, IsOpen, begun_cons, finished_cons, or_iff_right hbegin,
    or_iff_right (not_exists.mpr hfinish)]

/-- A connection is open after a close if it was open before and is another one. -/
theorem Connection.isOpen_cons_close {c' : Connection} :
    c'.IsOpen (⟨.close c, granted⟩ :: past) ↔ c'.IsOpen past ∧ c' ≠ c := by
  by_cases heq : c' = c
  · exact iff_of_false (fun hopen => hopen.2 (closed_cons.mpr (.inl (heq ▸ rfl)))) fun h => h.2 heq
  · rw [isOpen_cons_of_ne (by simp) (by simp [Ne.symm heq]), and_iff_left heq]

/-- A transaction is open after one was ended if it was open before and is another one. -/
theorem Transaction.isOpen_cons_finish {t' : Transaction} {commit : Bool} :
    t'.IsOpen (⟨.finish commit t, granted⟩ :: past) ↔ t'.IsOpen past ∧ t' ≠ t := by
  by_cases heq : t' = t
  · exact iff_of_false (fun hopen => hopen.2 (finished_cons.mpr (.inl ⟨commit, heq ▸ rfl⟩)))
      fun h => h.2 heq
  · rw [isOpen_cons_of_ne (by simp) (by simp [Ne.symm heq]), and_iff_left heq]

namespace Database

variable {d d' : Database} {h : Int64}

/-! ## Tables that agree with the history -/

/-- The tables of handles agree with what was asked of the databases. -/
structure Coherent (d : Database) : Prop where
  inOrder : InOrder d.history
  nodup_connections : d.connections.keys.Nodup
  nodup_transactions : d.transactions.keys.Nodup
  lastHandle_nonneg : 0 ≤ d.lastHandle
  /-- Open handles were given out. -/
  bounds : ∀ h c, d.connections.get? h = some c → 1 ≤ h ∧ h ≤ d.lastHandle
  /-- The open connections are those with a handle. -/
  isOpen_connection : ∀ c : Connection, c.IsOpen d.history ↔ ∃ h, d.connections.get? h = some c
  /-- No connection has two handles. -/
  unique : ∀ h h' c, d.connections.get? h = some c → d.connections.get? h' = some c → h = h'
  /-- The transaction of a handle is the open one on its connection. -/
  get?_transactions : ∀ h t, d.transactions.get? h = some t ↔
    d.connections.get? h = some t.connection ∧ t.IsOpen d.history
  lt_tried : ∀ c, Obtained d.history c → c.number < d.tried
  lt_begun : ∀ t, Begun d.history t → t.number < d.begun

namespace Coherent

/-- A handle without a transaction. -/
theorem isIdle (hd : d.Coherent) (hc : d.connections.get? h = some c)
    (ht : d.transactions.get? h = none) :
    c.IsIdle d.history := by
  refine ⟨(hd.isOpen_connection c).mpr ⟨h, hc⟩, ?_⟩
  rintro t rfl hopen
  rw [(hd.get?_transactions h t).mpr ⟨hc, hopen⟩] at ht
  cases ht

/-- The transaction of a handle. -/
theorem isOpen_transaction (hd : d.Coherent) (ht : d.transactions.get? h = some t) :
    t.IsOpen d.history ∧ t.connection.IsOpen d.history :=
  have hopen := (hd.get?_transactions h t).mp ht
  ⟨hopen.2, (hd.isOpen_connection _).mpr ⟨h, hopen.1⟩⟩

/-- A new connection was neither obtained nor closed. -/
theorem not_obtained (hd : d.Coherent) (hc : c.number = d.tried) : ¬ Obtained d.history c :=
  fun hobtained => absurd (hd.lt_tried c hobtained) (hc ▸ Nat.lt_irrefl _)

/-- A connection that is still to be tried was not closed. -/
theorem not_closed (hd : d.Coherent) (hc : c.number = d.tried) : ¬ Closed d.history c :=
  fun hclosed => hd.not_obtained hc (hd.inOrder.obtained_of_closed hclosed)

/-- What was obtained so far, with a new connection, is among the connections that were tried. -/
theorem lt_tried_succ {c' : Connection} (hd : d.Coherent) (hc : c.number = d.tried)
    (hobtained : c = c' ∨ Obtained d.history c') : c'.number < d.tried + 1 := by
  rcases hobtained with rfl | hobtained
  · exact hc ▸ Nat.lt_succ_self _
  · exact Nat.lt_succ_of_lt (hd.lt_tried c' hobtained)

/-- A new connection has no transaction. -/
theorem isIdle_new (hd : d.Coherent) (hc : c.number = d.tried) :
    c.IsIdle (⟨.obtain c, true⟩ :: d.history) := by
  refine ⟨⟨obtained_cons.mpr (.inl ⟨rfl, rfl⟩), ?_⟩, ?_⟩
  · rw [closed_cons, or_iff_right (by simp)]
    exact hd.not_closed hc
  · rintro t rfl hopen
    rw [Transaction.isOpen_cons_of_ne (by simp) (by simp)] at hopen
    exact hd.not_obtained hc (hd.inOrder.isOpen_connection hopen).1

/-- A new transaction was neither begun nor ended. -/
theorem not_begun (hd : d.Coherent) (ht : t.number = d.begun) : ¬ Begun d.history t :=
  fun hbegun => absurd (hd.lt_begun t hbegun) (ht ▸ Nat.lt_irrefl _)

/-- A transaction that is still to begin was not ended. -/
theorem not_finished (hd : d.Coherent) (ht : t.number = d.begun) : ¬ Finished d.history t :=
  fun hfinished => hd.not_begun ht (hd.inOrder.begun_of_finished hfinished)

end Coherent

/-- Nothing was done yet. -/
theorem coherent_initial (server : Server) : Coherent { server } where
  inOrder := trivial
  nodup_connections := .nil
  nodup_transactions := .nil
  lastHandle_nonneg := (by decide : (0 : Int64) ≤ 0)
  bounds := nofun
  isOpen_connection := by simp [Connection.IsOpen, Obtained, Table.get?]
  unique := nofun
  get?_transactions := by simp [Table.get?]
  lt_tried := nofun
  lt_begun := nofun

/-! ## Steps -/

/-- The steps of operations on handles, with the handle that a step is about. -/
inductive Move : Option Int64 → Database → Database → Prop where
  /-- A connection is not to be had. -/
  | unobtained {d : Database} {c : Connection} (hc : c.number = d.tried) :
      Move none d { d with tried := d.tried + 1, history := ⟨.obtain c, false⟩ :: d.history }
  /-- A connection does not answer and is closed. -/
  | unanswered {d : Database} {c : Connection} (hc : c.number = d.tried) (granted : Bool) :
      Move none d
        { d with
          tried := d.tried + 1
          history := ⟨.close c, granted⟩ :: ⟨.ping c, false⟩ :: ⟨.obtain c, true⟩ :: d.history }
  /-- A connection gets the next handle. -/
  | opened {d : Database} {c : Connection} (hc : c.number = d.tried)
      (hlast : d.lastHandle < Int64.maxValue) :
      Move (some (d.lastHandle + 1)) d
        { d with
          tried := d.tried + 1
          lastHandle := d.lastHandle + 1
          connections := d.connections.put (d.lastHandle + 1) c
          history := ⟨.ping c, true⟩ :: ⟨.obtain c, true⟩ :: d.history }
  /-- A transaction does not begin. -/
  | unbegun {d : Database} {h : Int64} {c : Connection} (hc : d.connections.get? h = some c)
      (ht : d.transactions.get? h = none) :
      Move (some h) d
        { d with begun := d.begun + 1, history := ⟨.begin ⟨d.begun, c⟩, false⟩ :: d.history }
  /-- A transaction begins. -/
  | begun {d : Database} {h : Int64} {c : Connection} (hc : d.connections.get? h = some c)
      (ht : d.transactions.get? h = none) :
      Move (some h) d
        { d with
          begun := d.begun + 1
          transactions := d.transactions.put h ⟨d.begun, c⟩
          history := ⟨.begin ⟨d.begun, c⟩, true⟩ :: d.history }
  /-- A transaction is ended. -/
  | finished {d : Database} {h : Int64} {t : Transaction} (ht : d.transactions.get? h = some t)
      (commit granted : Bool) :
      Move (some h) d
        { d with
          transactions := d.transactions.erase h
          history := ⟨.finish commit t, granted⟩ :: d.history }
  /-- A connection is closed. -/
  | closed {d : Database} {h : Int64} {c : Connection} (hc : d.connections.get? h = some c)
      (ht : d.transactions.get? h = none) (granted : Bool) :
      Move (some h) d
        { d with connections := d.connections.erase h, history := ⟨.close c, granted⟩ :: d.history }
  /-- A statement is run. -/
  | statement {d : Database} {h : Int64} {target : Target} (htarget : d.target h = .ok target)
      (kind : StatementKind) (sql : Bytes) (params : List Param) (granted : Bool) :
      Move (some h) d { d with history := ⟨.statement kind target sql params,
        granted⟩ :: d.history }

namespace Coherent

/-- The next handle is one more than the last one, also as a number: it does not overflow. -/
theorem toInt_lastHandle_add_one (hd : d.Coherent) (hlast : d.lastHandle < Int64.maxValue) :
    (d.lastHandle + 1).toInt = d.lastHandle.toInt + 1 := by
  have hnonneg : 0 ≤ d.lastHandle.toInt := Int64.le_iff_toInt_le.mp hd.lastHandle_nonneg
  have hlast : d.lastHandle.toInt < 0x7FFFFFFFFFFFFFFF := Int64.lt_iff_toInt_lt.mp hlast
  rw [Int64.toInt_add]
  exact Int.bmod_eq_of_le (by simp; omega) (by simp; omega)

/-- The next handle is greater than the last one. -/
theorem lt_lastHandle_add_one (hd : d.Coherent) (hlast : d.lastHandle < Int64.maxValue) :
    d.lastHandle < d.lastHandle + 1 := by
  rw [Int64.lt_iff_toInt_lt, hd.toInt_lastHandle_add_one hlast]
  omega

/-- The next handle was not given out. -/
theorem get?_lastHandle_add_one (hd : d.Coherent) (hlast : d.lastHandle < Int64.maxValue) :
    d.connections.get? (d.lastHandle + 1) = none := by
  rw [Option.eq_none_iff_forall_ne_some]
  intro c hc
  exact Int64.not_le.mpr (hd.lt_lastHandle_add_one hlast) (hd.bounds _ c hc).2

/-- Requests that leave everything as open as it was. -/
theorem of_isOpen_iff (hd : d.Coherent) (hconnections : d'.connections = d.connections)
    (htransactions : d'.transactions = d.transactions) (hlast : d'.lastHandle = d.lastHandle)
    (hin : InOrder d'.history) (hc : ∀ c : Connection, c.IsOpen d'.history ↔ c.IsOpen d.history)
    (ht : ∀ t : Transaction, t.IsOpen d'.history ↔ t.IsOpen d.history)
    (htried : ∀ c, Obtained d'.history c → c.number < d'.tried)
    (hbegun : ∀ t, Begun d'.history t → t.number < d'.begun) : d'.Coherent where
  inOrder := hin
  nodup_connections := hconnections ▸ hd.nodup_connections
  nodup_transactions := htransactions ▸ hd.nodup_transactions
  lastHandle_nonneg := hlast ▸ hd.lastHandle_nonneg
  bounds := by simpa only [hconnections, hlast] using hd.bounds
  isOpen_connection c := by rw [hc, hconnections, hd.isOpen_connection]
  unique := by simpa only [hconnections] using hd.unique
  get?_transactions h t := by rw [htransactions, hconnections, ht, hd.get?_transactions]
  lt_tried := htried
  lt_begun := hbegun

/-- A connection that is asked for and not obtained leaves the tables coherent. -/
theorem unanswered (hd : d.Coherent) (hc : c.number = d.tried) (granted : Bool) :
    Coherent
      { d with
        tried := d.tried + 1
        history := ⟨.close c, granted⟩ :: ⟨.ping c, false⟩ :: ⟨.obtain c, true⟩ :: d.history } := by
  obtain ⟨hopen, hnone⟩ := hd.isIdle_new hc
  have hidle : c.IsIdle (⟨.ping c, false⟩ :: ⟨.obtain c, true⟩ :: d.history) := by
    refine ⟨(Connection.isOpen_cons_of_ne (by simp) (by simp)).mpr hopen, fun t ht => ?_⟩
    rw [Transaction.isOpen_cons_of_ne (by simp) (by simp)]
    exact hnone t ht
  -- The connection is closed as soon as it was obtained, so the same things are open as before.
  refine hd.of_isOpen_iff rfl rfl rfl
    ⟨hidle, ⟨hopen, hnone⟩, hd.not_obtained hc, hd.inOrder⟩ (fun c' => ?_) (fun t => ?_) ?_ ?_
  · by_cases heq : c = c'
    · subst heq
      have hclosed :
        Closed (⟨.close c, granted⟩ :: ⟨.ping c, false⟩ :: ⟨.obtain c, true⟩ :: d.history) c :=
        closed_cons.mpr (.inl rfl)
      exact iff_of_false (fun h => h.2 hclosed) fun h => hd.not_obtained hc h.1
    · rw [Connection.isOpen_cons_of_ne (by simp) (by simp [heq]),
        Connection.isOpen_cons_of_ne (by simp) (by simp),
          Connection.isOpen_cons_of_ne (by simp [heq]) (by simp)]
  · repeat rw [Transaction.isOpen_cons_of_ne (by simp) (by simp)]
  · exact fun c' hobtained => hd.lt_tried_succ hc (by simpa using hobtained)
  · simpa using hd.lt_begun

/-- A connection that is obtained leaves the tables coherent, with the next handle for it. -/
theorem opened (hd : d.Coherent) (hc : c.number = d.tried) (hlast : d.lastHandle < Int64.maxValue) :
    Coherent
      { d with
        tried := d.tried + 1
        lastHandle := d.lastHandle + 1
        connections := d.connections.put (d.lastHandle + 1) c
        history := ⟨.ping c, true⟩ :: ⟨.obtain c, true⟩ :: d.history } := by
  have hidle := hd.isIdle_new hc
  have hnext := hd.get?_lastHandle_add_one hlast
  have hlt := hd.lt_lastHandle_add_one hlast
  -- Open are the new connection and those that were open before.
  have hopen (c' : Connection) :
      c'.IsOpen (⟨.ping c, true⟩ :: ⟨.obtain c, true⟩ :: d.history) ↔ c = c' ∨
        c'.IsOpen d.history := by
    rw [Connection.isOpen_cons_of_ne (by simp) (by simp)]
    by_cases heq : c = c'
    · exact iff_of_true (heq ▸ hidle.1) (.inl heq)
    · rw [Connection.isOpen_cons_of_ne (by simp [heq]) (by simp), or_iff_right heq]
  have hnotOpen : ¬ c.IsOpen d.history := fun h => hd.not_obtained hc h.1
  exact {
    inOrder := ⟨hidle, hd.not_obtained hc, hd.inOrder⟩
    nodup_connections := Table.nodup_keys_put hd.nodup_connections
    nodup_transactions := hd.nodup_transactions
    lastHandle_nonneg := Int64.le_trans hd.lastHandle_nonneg (Int64.le_of_lt hlt)
    bounds := fun h' c' hget => by
      rw [Table.get?_put] at hget
      split at hget
      next heq =>
        subst heq
        refine ⟨?_, Int64.le_refl _⟩
        have hnonneg := Int64.le_iff_toInt_le.mp hd.lastHandle_nonneg
        rw [Int64.le_iff_toInt_le, hd.toInt_lastHandle_add_one hlast]
        simp at hnonneg ⊢
        omega
      next =>
        obtain ⟨hone, hle⟩ := hd.bounds h' c' hget
        exact ⟨hone, Int64.le_trans hle (Int64.le_of_lt hlt)⟩
    isOpen_connection := fun c' => by
      rw [hopen, hd.isOpen_connection]
      constructor
      · rintro (rfl | ⟨h', hget⟩)
        · exact ⟨_, by rw [Table.get?_put, if_pos rfl]⟩
        · refine ⟨h', ?_⟩
          rw [Table.get?_put, if_neg, hget]
          rintro rfl
          rw [hnext] at hget
          cases hget
      · rintro ⟨h', hget⟩
        rw [Table.get?_put] at hget
        split at hget
        next => exact .inl (Option.some.inj hget)
        next => exact .inr ⟨h', hget⟩
    unique := fun h' h'' c' hget hget' => by
      -- The new connection was not open before, so no older handle names it.
      have hold {h : Int64} (hget : d.connections.get? h = some c) : False :=
        hnotOpen ((hd.isOpen_connection c).mpr ⟨h, hget⟩)
      rw [Table.get?_put] at hget hget'
      split at hget <;> split at hget'
      next heq heq' => exact heq.symm.trans heq'
      next =>
        cases hget
        exact (hold hget').elim
      next =>
        cases hget'
        exact (hold hget).elim
      next => exact hd.unique h' h'' c' hget hget'
    get?_transactions := fun h' t => by
      rw [Transaction.isOpen_cons_of_ne (by simp) (by simp),
        Transaction.isOpen_cons_of_ne (by simp) (by simp),
        hd.get?_transactions, Table.get?_put]
      split
      next heq =>
        subst heq
        refine iff_of_false ?_ ?_
        · rw [hnext]
          simp
        · rintro ⟨hc', ht⟩
          cases hc'
          exact hnotOpen (hd.inOrder.isOpen_connection ht)
      next => exact Iff.rfl
    lt_tried := fun c' hobtained => hd.lt_tried_succ hc (by simpa using hobtained)
    lt_begun := by simpa using hd.lt_begun }

/-- A transaction that begins on a connection without one leaves the tables coherent. -/
theorem begun (hd : d.Coherent) (hc : d.connections.get? h = some c)
    (ht : d.transactions.get? h = none) :
    Coherent
      { d with
        begun := d.begun + 1
        transactions := d.transactions.put h ⟨d.begun, c⟩
        history := ⟨.begin ⟨d.begun, c⟩, true⟩ :: d.history } where
  inOrder := ⟨⟨hd.isIdle hc ht, hd.not_begun rfl⟩, hd.inOrder⟩
  nodup_connections := hd.nodup_connections
  nodup_transactions := Table.nodup_keys_put hd.nodup_transactions
  lastHandle_nonneg := hd.lastHandle_nonneg
  bounds := hd.bounds
  isOpen_connection c' := by
    rw [Connection.isOpen_cons_of_ne (by simp) (by simp), hd.isOpen_connection]
  unique := hd.unique
  get?_transactions h' t := by
    have hopen : t.IsOpen (⟨.begin ⟨d.begun, c⟩, true⟩ :: d.history) ↔ ⟨d.begun, c⟩ = t ∨
      t.IsOpen d.history := by
      by_cases heq : ⟨d.begun, c⟩ = t
      · subst heq
        refine iff_of_true ⟨begun_cons.mpr (.inl ⟨rfl, rfl⟩), ?_⟩ (.inl rfl)
        rw [finished_cons, or_iff_right (by simp)]
        exact hd.not_finished rfl
      · rw [Transaction.isOpen_cons_of_ne (by simp [heq]) (by simp), or_iff_right heq]
    rw [hopen, Table.get?_put]
    split
    next heq =>
      subst heq
      constructor
      · rintro ⟨⟩
        exact ⟨hc, .inl rfl⟩
      · rintro ⟨hc', rfl | hopen⟩
        · rfl
        · rw [(hd.get?_transactions h t).mpr ⟨hc', hopen⟩] at ht
          cases ht
    next hne =>
      -- Any other handle has another connection, which the new transaction is not on.
      rw [hd.get?_transactions]
      refine and_congr_right fun hc' => (or_iff_right ?_).symm
      rintro rfl
      exact hne (hd.unique h h' c hc hc')
  lt_tried := by simpa using hd.lt_tried
  lt_begun t hbegun := by
    have hbegun : ⟨d.begun, c⟩ = t ∨ Begun d.history t := by simpa using hbegun
    rcases hbegun with rfl | hbegun
    · exact Nat.lt_succ_self _
    · exact Nat.lt_succ_of_lt (hd.lt_begun t hbegun)

/-- A transaction that ends leaves the tables coherent, whether or not it was granted. -/
theorem finished (hd : d.Coherent) (ht : d.transactions.get? h = some t) (commit granted : Bool) :
    Coherent
      { d with
        transactions := d.transactions.erase h
        history := ⟨.finish commit t, granted⟩ :: d.history } where
  inOrder := ⟨hd.isOpen_transaction ht, hd.inOrder⟩
  nodup_connections := hd.nodup_connections
  nodup_transactions := Table.nodup_keys_erase hd.nodup_transactions
  lastHandle_nonneg := hd.lastHandle_nonneg
  bounds := hd.bounds
  isOpen_connection c := by
    rw [Connection.isOpen_cons_of_ne (by simp) (by simp), hd.isOpen_connection]
  unique := hd.unique
  get?_transactions h' t' := by
    rw [Transaction.isOpen_cons_finish, Table.get?_erase]
    split
    next heq =>
      subst heq
      refine iff_of_false (by simp) ?_
      rintro ⟨hc', hopen, hne⟩
      have ht' := (hd.get?_transactions h t').mpr ⟨hc', hopen⟩
      exact hne (Option.some.inj (ht'.symm.trans ht))
    next hne =>
      -- Any other handle has another connection, and so another transaction.
      rw [hd.get?_transactions]
      refine and_congr_right fun hc' => (and_iff_left ?_).symm
      rintro rfl
      exact hne (hd.unique h h' t'.connection ((hd.get?_transactions h t').mp ht).1 hc')
  lt_tried := by simpa using hd.lt_tried
  lt_begun := by simpa using hd.lt_begun

/-- A connection that is closed without a transaction leaves the tables coherent. -/
theorem closed (hd : d.Coherent) (hc : d.connections.get? h = some c)
    (ht : d.transactions.get? h = none) (granted : Bool) :
    Coherent { d with connections := d.connections.erase h, history :=
      ⟨.close c, granted⟩ :: d.history } where
  -- The connection is idle, as a handle without a transaction has none in the history either.
  inOrder := ⟨hd.isIdle hc ht, hd.inOrder⟩
  nodup_connections := Table.nodup_keys_erase hd.nodup_connections
  nodup_transactions := hd.nodup_transactions
  lastHandle_nonneg := hd.lastHandle_nonneg
  bounds h' c' hget := by
    rw [Table.get?_erase] at hget
    split at hget
    next => cases hget
    next => exact hd.bounds h' c' hget
  isOpen_connection c' := by
    rw [Connection.isOpen_cons_close, hd.isOpen_connection]
    constructor
    · rintro ⟨⟨h', hget⟩, hne⟩
      refine ⟨h', ?_⟩
      rw [Table.get?_erase, if_neg, hget]
      rintro rfl
      -- The closed connection was the only one under this handle,
      exact hne (Option.some.inj (hget.symm.trans hc))
    · rintro ⟨h', hget⟩
      rw [Table.get?_erase] at hget
      split at hget
      next => cases hget
      next hh =>
        refine ⟨⟨h', hget⟩, ?_⟩
        rintro rfl
        -- and this handle was the only one of the connection.
        exact hh (hd.unique h h' c' hc hget)
  unique h' h'' c' hget hget' := by
    rw [Table.get?_erase] at hget hget'
    split at hget <;> split at hget' <;> try contradiction
    exact hd.unique h' h'' c' hget hget'
  get?_transactions h' t := by
    rw [Transaction.isOpen_cons_of_ne (by simp) (by simp), Table.get?_erase]
    split
    next heq =>
      -- Only here it matters that the handle has no transaction.
      subst heq
      simp [ht]
    next => exact hd.get?_transactions h' t
  lt_tried := by simpa using hd.lt_tried
  lt_begun := by simpa using hd.lt_begun

end Coherent

/-- A statement goes to the transaction of its handle, or else to its connection. -/
theorem target_eq_ok {target : Target} (htarget : d.target h = .ok target) :
    (∃ t, target = .transaction t ∧ d.transactions.get? h = some t) ∨
      ∃ c, target = .connection c ∧ d.connections.get? h = some c ∧
        d.transactions.get? h = none := by
  rw [Database.target] at htarget
  split at htarget
  next t ht =>
    cases htarget
    exact .inl ⟨t, rfl, ht⟩
  next ht =>
    split at htarget
    next c hc =>
      cases htarget
      exact .inr ⟨c, rfl, hc, ht⟩
    next => cases htarget

/-- Statements on a handle use its connection. -/
theorem Coherent.get?_target {target : Target} (hd : d.Coherent)
    (htarget : d.target h = .ok target) :
    d.connections.get? h = some target.origin := by
  obtain ⟨t, rfl, ht⟩ | ⟨c, rfl, hc, -⟩ := target_eq_ok htarget
  · exact ((hd.get?_transactions h t).mp ht).1
  · exact hc

/-- A step keeps the tables coherent. -/
theorem Move.coherent {o : Option Int64} (hmove : Move o d d') (hd : d.Coherent) : d'.Coherent := by
  cases hmove with
  -- A refusal changes no table. It only has to fit the history.
  | unobtained hc =>
    refine hd.of_isOpen_iff rfl rfl rfl ⟨hd.not_obtained hc, hd.inOrder⟩ (fun c => ?_)
      (fun t => ?_) ?_ ?_
    · exact Connection.isOpen_cons_of_ne (by simp) (by simp)
    · exact Transaction.isOpen_cons_of_ne (by simp) (by simp)
    · simpa using fun c hobtained => Nat.lt_succ_of_lt (hd.lt_tried c hobtained)
    · simpa using hd.lt_begun
  | unanswered hc granted => exact hd.unanswered hc granted
  | opened hc hlast => exact hd.opened hc hlast
  | unbegun hc ht =>
    refine hd.of_isOpen_iff rfl rfl rfl ⟨⟨hd.isIdle hc ht, hd.not_begun rfl⟩, hd.inOrder⟩
      (fun c => ?_) (fun t => ?_) ?_ ?_
    · exact Connection.isOpen_cons_of_ne (by simp) (by simp)
    · exact Transaction.isOpen_cons_of_ne (by simp) (by simp)
    · simpa using hd.lt_tried
    · simpa using fun t hbegun => Nat.lt_succ_of_lt (hd.lt_begun t hbegun)
  | begun hc ht => exact hd.begun hc ht
  | finished ht commit granted => exact hd.finished ht commit granted
  | closed hc ht granted => exact hd.closed hc ht granted
  | statement htarget kind sql params granted =>
    refine hd.of_isOpen_iff rfl rfl rfl ⟨?_, hd.inOrder⟩ (fun c => ?_) (fun t => ?_) ?_ ?_
    · -- A statement goes to an open transaction, or to a connection without one.
      obtain ⟨t, rfl, ht⟩ | ⟨c, rfl, hc, ht⟩ := target_eq_ok htarget
      · exact hd.isOpen_transaction ht
      · exact hd.isIdle hc ht
    · exact Connection.isOpen_cons_of_ne (by simp) (by simp)
    · exact Transaction.isOpen_cons_of_ne (by simp) (by simp)
    · simpa using hd.lt_tried
    · simpa using hd.lt_begun

/-! ## Other handles -/

/-- A handle is left alone: its connection and its transaction stay, and nothing is asked of
them. -/
structure Untouched (h : Int64) (d d' : Database) : Prop where
  connection : d'.connections.get? h = d.connections.get? h
  transaction : d'.transactions.get? h = d.transactions.get? h
  requests : ∃ new, d'.history = new ++ d.history ∧
    ∀ c, d.connections.get? h = some c → ∀ e ∈ new, e.request.origin ≠ c

theorem Untouched.refl (h : Int64) (d : Database) : Untouched h d d := ⟨rfl, rfl, [], rfl, by simp⟩

/-- A handle that is left alone twice is left alone. -/
theorem Untouched.trans {d'' : Database} (h₁ : Untouched h d d') (h₂ : Untouched h d' d'') :
    Untouched h d d'' := by
  obtain ⟨new₁, hhistory₁, hnew₁⟩ := h₁.requests
  obtain ⟨new₂, hhistory₂, hnew₂⟩ := h₂.requests
  refine ⟨h₂.connection.trans h₁.connection, h₂.transaction.trans h₁.transaction,
    new₂ ++ new₁, ?_, ?_⟩
  · rw [hhistory₂, hhistory₁, List.append_assoc]
  · intro c hc e he
    rcases List.mem_append.mp he with he | he
    · exact hnew₂ c (h₁.connection.trans hc) e he
    · exact hnew₁ c hc e he

/-- A step leaves all handles alone but the one that it is about. -/
theorem Move.untouched {o : Option Int64} (hmove : Move o d d') (hd : d.Coherent)
    (ho : o ≠ some h) :
    Untouched h d d' := by
  -- A connection that is just being tried has no handle.
  have hnew {c c' : Connection} (hc : c.number = d.tried) (hget : d.connections.get? h = some c') :
    c ≠ c' := by
    rintro rfl
    exact hd.not_obtained hc ((hd.isOpen_connection c).mpr ⟨h, hget⟩).1
  -- Two handles never share a connection.
  have hother {h' : Int64} {c c' : Connection} (ho : some h' ≠ some h)
    (hc : d.connections.get? h' = some c) (hget : d.connections.get? h = some c') : c ≠ c' := by
    rintro rfl
    exact ho (congrArg some (hd.unique h' h c hc hget))
  cases hmove with
  | unobtained hc =>
    exact ⟨rfl, rfl, [_], rfl, fun c' hget => by simpa [Request.origin] using hnew hc hget⟩
  | unanswered hc granted =>
    exact ⟨rfl, rfl, [_, _, _], rfl, fun c' hget => by simpa [Request.origin] using hnew hc hget⟩
  | opened hc hlast =>
    refine ⟨?_, rfl, [_, _], rfl, fun c' hget => by simpa [Request.origin] using hnew hc hget⟩
    exact (Table.get?_put ..).trans (if_neg fun heq => ho (congrArg some heq))
  | unbegun hc ht =>
    exact ⟨rfl, rfl, [_], rfl, fun c' hget => by simpa [Request.origin] using hother ho hc hget⟩
  | begun hc ht =>
    refine ⟨rfl, ?_, [_], rfl, fun c' hget => by simpa [Request.origin] using hother ho hc hget⟩
    exact (Table.get?_put ..).trans (if_neg fun heq => ho (congrArg some heq))
  | finished ht commit granted =>
    have hc := ((hd.get?_transactions _ _).mp ht).1
    refine ⟨rfl, ?_, [_], rfl, fun c' hget => by simpa [Request.origin] using hother ho hc hget⟩
    exact (Table.get?_erase ..).trans (if_neg fun heq => ho (congrArg some heq))
  | closed hc ht granted =>
    refine ⟨?_, rfl, [_], rfl, fun c' hget => by simpa [Request.origin] using hother ho hc hget⟩
    exact (Table.get?_erase ..).trans (if_neg fun heq => ho (congrArg some heq))
  | statement htarget kind sql params granted =>
    have hc := hd.get?_target htarget
    exact ⟨rfl, rfl, [_], rfl, fun c' hget => by simpa [Request.origin] using hother ho hc hget⟩

/-- The steps of one operation. -/
abbrev Moves (o : Option Int64) : Database → Database → Prop := Relation.ReflTransGen (Move o)

/-- The steps of an operation keep the tables coherent. -/
theorem Moves.coherent {o : Option Int64} (hmoves : Moves o d d') (hd : d.Coherent) :
    d'.Coherent := by
  induction hmoves with
  | refl => exact hd
  | tail _ hmove ih => exact hmove.coherent ih

/-- The steps of an operation leave the other handles alone. -/
theorem Moves.untouched {o : Option Int64} (hmoves : Moves o d d') (hd : d.Coherent)
    (ho : o ≠ some h) :
    Untouched h d d' := by
  induction hmoves with
  | refl => exact .refl h d
  | tail hmoves hmove ih => exact ih.trans (hmove.untouched (Moves.coherent hmoves hd) ho)

/-! ## Giving up everything -/

/-- The first of several requests is made before the other ones. -/
theorem snd_askAll_cons (service : Service) (h : Int64) (request : Request)
    (rest : List (Int64 × Request)) (d : Database) :
    (askAll service ((h, request) :: rest) d).2 = (askAll service rest (d.ask request).2).2 := by
  rw [askAll]
  generalize d.ask request = asked
  obtain ⟨answer, d'⟩ := asked
  cases answer <;> rfl

/-- Rolling transactions back ends them and leaves the connections open. -/
theorem askAll_finish (ts : Table Int64 Transaction) (hin : InOrder d.history)
    (hnodup : (ts.map Prod.snd).Nodup) (hopen : ∀ t ∈ ts.map Prod.snd, t.IsOpen d.history) :
    ∃ history, (askAll .rollback (ts.map fun (h, t) => (h, .finish false t)) d).2 =
      { d with history } ∧
      InOrder history ∧ (∀ t : Transaction, t.IsOpen history ↔ t.IsOpen d.history ∧
        t ∉ ts.map Prod.snd) ∧
      ∀ c : Connection, c.IsOpen history ↔ c.IsOpen d.history := by
  induction ts generalizing d with
  | nil => exact ⟨d.history, rfl, hin, by simp, by simp⟩
  | cons entry ts ih =>
    obtain ⟨h, t⟩ := entry
    obtain ⟨hfresh, hnodup⟩ := List.nodup_cons.mp hnodup
    obtain ⟨ht, hopen⟩ := List.forall_mem_cons.mp hopen
    have hstep (t' : Transaction) :
        t'.IsOpen (d.ask (.finish false t)).2.history ↔ t'.IsOpen d.history ∧ t' ≠ t :=
      Transaction.isOpen_cons_finish
    rw [List.map_cons, snd_askAll_cons]
    -- The others are still open behind this request, as no transaction is listed twice.
    obtain ⟨history, hd, hin, hts, hcs⟩ := ih (d := (d.ask (.finish false t)).2)
      ⟨⟨ht, hin.isOpen_connection ht⟩, hin⟩ hnodup fun t' hmem =>
        (hstep t').mpr ⟨hopen t' hmem, fun heq => hfresh (heq ▸ hmem)⟩
    refine ⟨history, hd, hin, fun t' => ?_, fun c => ?_⟩
    · rw [hts, hstep, List.map_cons, List.mem_cons, not_or, and_assoc]
    · rw [hcs]
      exact Connection.isOpen_cons_of_ne (by simp) (by simp)

/-- Closing connections without transactions closes them and begins no transaction. -/
theorem askAll_close (cs : Table Int64 Connection) (hin : InOrder d.history)
    (hnodup : (cs.map Prod.snd).Nodup) (hopen : ∀ c ∈ cs.map Prod.snd, c.IsOpen d.history)
    (hnone : ∀ t : Transaction, ¬ t.IsOpen d.history) :
    ∃ history, (askAll .close (cs.map fun (h, c) => (h, .close c)) d).2 = { d with history } ∧
      InOrder history ∧ (∀ c : Connection, c.IsOpen history ↔ c.IsOpen d.history ∧
        c ∉ cs.map Prod.snd) ∧
      ∀ t : Transaction, ¬ t.IsOpen history := by
  induction cs generalizing d with
  | nil => exact ⟨d.history, rfl, hin, by simp, hnone⟩
  | cons entry cs ih =>
    obtain ⟨h, c⟩ := entry
    obtain ⟨hfresh, hnodup⟩ := List.nodup_cons.mp hnodup
    obtain ⟨hc, hopen⟩ := List.forall_mem_cons.mp hopen
    have hstep (c' : Connection) :
        c'.IsOpen (d.ask (.close c)).2.history ↔ c'.IsOpen d.history ∧ c' ≠ c :=
      Connection.isOpen_cons_close
    rw [List.map_cons, snd_askAll_cons]
    -- No transaction is open, so each connection may be closed at once.
    obtain ⟨history, hd, hin, hcs, hts⟩ := ih (d := (d.ask (.close c)).2)
      ⟨⟨hc, fun t _ => hnone t⟩, hin⟩ hnodup
      (fun c' hmem => (hstep c').mpr ⟨hopen c' hmem, fun heq => hfresh (heq ▸ hmem)⟩)
      (fun t => mt (Transaction.isOpen_cons_of_ne (by simp) (by simp)).mp (hnone t))
    refine ⟨history, hd, hin, fun c' => ?_, hts⟩
    rw [hcs, hstep, List.map_cons, List.mem_cons, not_or, and_assoc]

/-- After everything was given up, nothing is open. -/
theorem Coherent.releaseIn {ts : Table Int64 Transaction} {cs : Table Int64 Connection}
    (hd : d.Coherent) (hts : ts.Perm d.transactions) (hcs : cs.Perm d.connections) :
    InOrder (d.releaseIn ts cs).2.history ∧
      (∀ c : Connection, ¬ c.IsOpen (d.releaseIn ts cs).2.history) ∧
      ∀ t : Transaction, ¬ t.IsOpen (d.releaseIn ts cs).2.history := by
  have hmem_ts (t : Transaction) : t ∈ ts.map Prod.snd ↔ ∃ h, d.transactions.get? h = some t := by
    rw [(hts.map Prod.snd).mem_iff]
    exact Table.mem_values_iff hd.nodup_transactions
  have hmem_cs (c : Connection) : c ∈ cs.map Prod.snd ↔ ∃ h, d.connections.get? h = some c := by
    rw [(hcs.map Prod.snd).mem_iff]
    exact Table.mem_values_iff hd.nodup_connections
  have hnodup_ts : (ts.map Prod.snd).Nodup := by
    rw [(hts.map Prod.snd).nodup_iff]
    refine Table.nodup_values hd.nodup_transactions fun h h' t ht ht' => ?_
    exact hd.unique h h' _ ((hd.get?_transactions h t).mp ht).1
      ((hd.get?_transactions h' t).mp ht').1
  have hnodup_cs : (cs.map Prod.snd).Nodup := by
    rw [(hcs.map Prod.snd).nodup_iff]
    exact Table.nodup_values hd.nodup_connections hd.unique
  obtain ⟨history, hrolled, hin, hopen_ts, hopen_cs⟩ :=
    askAll_finish (d := { d with transactions := [] }) ts
    hd.inOrder hnodup_ts fun t ht => by
      obtain ⟨h, ht⟩ := (hmem_ts t).mp ht
      exact (hd.isOpen_transaction ht).1
  -- Every open transaction has a handle, so all were rolled back.
  have hnone (t : Transaction) : ¬ t.IsOpen history := by
    rw [hopen_ts, not_and_not_right]
    intro hopen
    obtain ⟨h, hc⟩ := (hd.isOpen_connection _).mp (hd.inOrder.isOpen_connection hopen)
    exact (hmem_ts t).mpr ⟨h, (hd.get?_transactions h t).mpr ⟨hc, hopen⟩⟩
  -- So no connection has a transaction when it is closed.
  obtain ⟨history', hclosed, hin, hopen_cs', hnone⟩ :=
    askAll_close (d := { d with transactions := [], connections := [], history }) cs hin hnodup_cs
      (fun c hc => (hopen_cs c).mpr ((hd.isOpen_connection c).mpr ((hmem_cs c).mp hc))) hnone
  have hreleased : (d.releaseIn ts cs).2.history = history' := by
    rw [Database.releaseIn]
    simp only [hrolled, hclosed]
  rw [hreleased]
  refine ⟨hin, fun c => ?_, hnone⟩
  -- Every open connection has a handle, so all were closed.
  rw [hopen_cs', not_and_not_right]
  intro hopen
  exact (hmem_cs c).mpr ((hd.isOpen_connection c).mp ((hopen_cs c).mp hopen))

end Database

end Rill
