import Rill.Builtin.Sql
import Rill.Database.Script
import Rill.Proofs.Database.Handles
import Rill.Proofs.Run.Quiet

/-!
# Calls of the database builtins

Programs use databases through seven builtins, with whatever arguments and in whatever order, and
the databases grant or refuse what they like. At the end everything is given up. Over all of this
every connection is closed exactly once, every transaction is ended exactly once and before its
connection, and statements reach only what is open.

* `Database.connect_connects`, …, `Database.close_uses`: the steps of each operation.
* `Builtin.Served`, `Builtin.served_of_mem_sql`: one call of a builtin.
* `Builtin.callAll`, `Builtin.callAll_spec`: calls one after the other.
* `Builtin.calls_linear`: all of it, with giving everything up at the end.
-/

namespace Rill

/-! ## Operations as steps -/

namespace Database

variable {d : Database} {h : Int64}

/-- A request is refused or granted, and noted. -/
theorem ask_cases (d : Database) (request : Request) :
    (∃ answer, d.ask request = (.error answer, d.note request false)) ∨
      d.ask request = (.ok (), d.note request true) := by
  rw [ask]
  cases d.server.serve d.history request with
  | error answer => exact .inl ⟨answer, rfl⟩
  | ok => exact .inr rfl

/-- Connecting gives no handle, or the next one. -/
def Connects (d : Database) (outcome : Except DatabaseFault Int64 × Database) : Prop :=
  (∃ fault, outcome.1 = .error fault) ∧ Moves none d outcome.2 ∧
    outcome.2.lastHandle = d.lastHandle ∨
    outcome.1 = .ok (d.lastHandle + 1) ∧ Moves (some (d.lastHandle + 1)) d outcome.2 ∧
      outcome.2.lastHandle = d.lastHandle + 1

/-- A connection that is asked for gives no handle, or the next one. -/
theorem link_connects {c : Connection} (hc : c.number = d.tried)
    (hlast : d.lastHandle < Int64.maxValue) :
    Connects d (link c { d with tried := d.tried + 1 }) := by
  rw [link]
  rcases ask_cases { d with tried := d.tried + 1 } (.obtain c) with ⟨answer, hobtain⟩ | hobtain
  · rw [hobtain]
    exact .inl ⟨⟨_, rfl⟩, .single (.unobtained hc), rfl⟩
  · simp only [hobtain]
    rcases ask_cases ({ d with tried := d.tried + 1 }.note (.obtain c) true) (.ping c) with
      ⟨answer, hping⟩ | hping
    · simp only [hping]
      exact .inl ⟨⟨_, rfl⟩, .single (.unanswered hc _), rfl⟩
    · simp only [hping]
      exact .inr ⟨rfl, .single (.opened hc hlast), rfl⟩

/-- Connecting to a database gives no handle, or the next one. -/
theorem connect_connects (driver database : Bytes) (hlast : d.lastHandle < Int64.maxValue) :
    Connects d (connect driver database d) := by
  rw [connect]
  split
  next => exact .inl ⟨⟨_, rfl⟩, .refl, rfl⟩
  next =>
    split
    next => exact .inl ⟨⟨_, rfl⟩, .refl, rfl⟩
    next => exact link_connects rfl hlast

/-- An operation on a handle consists of steps about it, and gives no new handle. -/
def Uses (h : Int64) (d d' : Database) : Prop := Moves (some h) d d' ∧ d'.lastHandle = d.lastHandle

/-- Beginning a transaction is about its handle only. -/
theorem begin_uses (h : Int64) (d : Database) : Uses h d (begin h d).2 := by
  rw [begin]
  split
  next => exact ⟨.refl, rfl⟩
  next c hc =>
    split
    next => exact ⟨.refl, rfl⟩
    next hhas =>
      have ht : d.transactions.get? h = none := by simpa [Table.has] using hhas
      rcases ask_cases { d with begun := d.begun + 1 }
        (.begin ⟨d.begun, c⟩) with ⟨answer, hbegin⟩ | hbegin
      · simp only [hbegin]
        exact ⟨.single (.unbegun hc ht), rfl⟩
      · simp only [hbegin]
        exact ⟨.single (.begun hc ht), rfl⟩

/-- Ending a transaction is about its handle only. -/
theorem finish_uses (commit : Bool) (h : Int64) (d : Database) :
    Uses h d (finish commit h d).2 := by
  rw [finish]
  split
  next => exact ⟨.refl, rfl⟩
  next t ht => exact ⟨.single (.finished ht commit _), rfl⟩

/-- Abandoning leaves a handle without a transaction. -/
theorem abandon_uses (h : Int64) (d : Database) :
    Uses h d (abandon h d) ∧ (abandon h d).transactions.get? h = none := by
  rw [abandon]
  split
  next ht => exact ⟨⟨.refl, rfl⟩, ht⟩
  next t ht =>
    exact ⟨⟨.single (.finished ht false _), rfl⟩, (Table.get?_erase ..).trans (if_pos rfl)⟩

/-- Closing a connection is about its handle only. -/
theorem close_uses (h : Int64) (d : Database) : Uses h d (close h d).2 := by
  -- The transaction is abandoned first, so the connection has none when it is closed.
  obtain ⟨⟨hmoves, hlast⟩, ht⟩ := abandon_uses h d
  rw [close]
  split
  next => exact ⟨hmoves, hlast⟩
  next c hc => exact ⟨hmoves.tail (.closed hc ht _), hlast⟩

end Database

/-! ## One call -/

namespace Run

variable {α β : Type} {x : Run α} {f : α → Run β} {w : World}

/-- A computation has a result in a world, and it is as `Q` says. -/
def Ends (x : Run α) (w : World) (Q : α → World → Prop) : Prop :=
  ∃ a w', x w = some (a, w') ∧ Q a w'

/-- A result without a step is as it should be. -/
theorem Ends.pure {a : α} {Q : α → World → Prop} (h : Q a w) : Ends (Pure.pure a) w Q :=
  ⟨a, w, rfl, h⟩

/-- What a second step ends with may depend on what the first one ended with. -/
theorem Ends.bind {Q : α → World → Prop} {R : β → World → Prop} (hx : x.Ends w Q)
    (hf : ∀ a u, Q a u → (f a).Ends u R) : (x >>= f).Ends w R := by
  obtain ⟨a, u, hxa, hQ⟩ := hx
  obtain ⟨b, w', hfb, hR⟩ := hf a u hQ
  refine ⟨b, w', ?_, hR⟩
  rw [bind_apply, hxa]
  exact hfb

/-- A look at the world is a step of its own. -/
theorem Ends.get_bind {f : World → Run β} {R : β → World → Prop} (h : (f w).Ends w R) :
    (get >>= f).Ends w R := h

/-- A use of the databases ends with its result and with the databases that it leaves. -/
theorem ends_onDatabase (f : Database → α × Database) (w : World) :
    (onDatabase f).Ends w fun a w' => a = (f w.database).1 ∧ w'.database = (f w.database).2 :=
  ⟨_, _, rfl, rfl, rfl⟩

end Run

/-- The name of the builtin for statements of a kind. -/
def StatementKind.builtinName : StatementKind → String
  | .exec => "sqlExec"
  | .query => "sqlQuery"

/-- What the builtin for statements of a kind does. -/
def StatementKind.run : StatementKind → List Value → Run Value
  | .exec => Builtin.sqlExec
  | .query => Builtin.sqlQuery

/-- The builtin for statements of a kind. -/
def StatementKind.builtin (kind : StatementKind) : Builtin := .effect kind.builtinName kind.run

namespace Builtin

/-- A call with arguments gave a value: it is about the handle that comes first among the arguments
or that is given out, and a number is given only as the next handle. -/
structure Served (args : List Value) (v : Value) (d d' : Database) : Prop where
  moves : ∃ o, d.Moves o d' ∧ ∀ h, o = some h → args.head? = some (.integer h) ∨ v = .integer h
  given : (∀ n, v ≠ .integer n) ∧ d'.lastHandle = d.lastHandle ∨
    v = .integer d'.lastHandle ∧ d'.lastHandle = d.lastHandle + 1

/-- A call that leaves the databases alone and gives no number is served. -/
theorem Served.idle {args : List Value} {v : Value} (hv : ∀ n, v ≠ .integer n) (d : Database) :
    Served args v d d :=
  ⟨⟨none, .refl, nofun⟩, .inl ⟨hv, rfl⟩⟩

/-- The builtin that connects is served. -/
theorem sqlOpen_served (args : List Value) (w : World)
    (hlast : w.database.lastHandle < Int64.maxValue) :
    ∃ v w', sqlOpen args w = some (v, w') ∧ Served args v w.database w'.database := by
  unfold sqlOpen
  split
  next driver database =>
    refine ⟨answer .integer (Database.connect driver database w.database).1,
      { w with database := (Database.connect driver database w.database).2 }, rfl, ?_⟩
    -- A handle is given out only if the database answered.
    rcases Database.connect_connects driver database hlast with
      ⟨⟨fault, herror⟩, hmoves, hsame⟩ | ⟨hok, hmoves, hnext⟩
    · refine ⟨⟨none, hmoves, nofun⟩, .inl ⟨?_, hsame⟩⟩
      rw [herror]
      exact nofun
    · rw [hok]
      refine ⟨⟨_, hmoves, fun h heq => .inr ?_⟩, .inr ⟨congrArg Value.integer hnext.symm, hnext⟩⟩
      exact congrArg Value.integer (Option.some.inj heq)
  next => exact ⟨_, w, rfl, .idle (by simp [wrongKind]) _⟩
  next => exact ⟨_, w, rfl, .idle (by simp [wrongKind]) _⟩
  next => exact ⟨_, w, rfl, .idle (by simp [wrongCount]) _⟩

/-- An operation on a handle that gives no number. -/
theorem onHandle_served {name : String}
    {f : Int64 → Database → Except DatabaseFault Unit × Database}
    (hf : ∀ h d, Database.Uses h d (f h d).2) (args : List Value) (w : World) :
    ∃ v w', onHandle name f args w = some (v, w') ∧ Served args v w.database w'.database := by
  unfold onHandle
  split
  next h =>
    refine ⟨answer (fun _ => .null) (f h w.database).1,
      { w with database := (f h w.database).2 }, rfl, ?_⟩
    obtain ⟨hmoves, hlast⟩ := hf h w.database
    refine ⟨⟨some h, hmoves,
      fun h' heq => .inl (congrArg (some ∘ Value.integer) (Option.some.inj heq))⟩,
      .inl ⟨fun n => ?_, hlast⟩⟩
    cases (f h w.database).1 <;> simp [answer]
  next => exact ⟨_, w, rfl, .idle (by simp [wrongKind]) _⟩
  next => exact ⟨_, w, rfl, .idle (by simp [wrongCount]) _⟩

/-- A statement is about the handle that comes first among its arguments. -/
theorem statement_eq_ok {name : String} {d : Database} {args : List Value} {s : Statement}
    (hs : statement name d args = .ok s) :
    ∃ h, args.head? = some (.integer h) ∧ d.target h = .ok s.target := by
  unfold statement at hs
  split at hs
  next h query args =>
    refine ⟨h, rfl, ?_⟩
    cases htarget : d.target h with
    | error fault => simp [htarget, Except.mapError, bind, Except.bind] at hs
    | ok target =>
      simp only [htarget, Except.mapError, bind, Except.bind] at hs
      split at hs
      next sql =>
        split at hs
        next => cases hs
        next =>
          cases hs
          rfl
      next => cases hs
  next => cases hs
  next => cases hs

/-- Making hashes of rows leaves the databases alone. -/
theorem ends_rowHashes (columns : List Bytes) (rows : List (List Value)) (w : World) :
    (rowHashes columns rows).Ends w fun _ w' => w'.database = w.database := by
  induction rows generalizing w with
  | nil => exact .pure rfl
  | cons r rows ih =>
    have hhash : (Run.hash (row columns r)).Ends w fun _ w' => w'.database = w.database :=
      ⟨_, _, rfl, rfl⟩
    refine hhash.bind fun hash u hu => (ih u).bind fun hashes w' hw' => ?_
    exact .pure (hw'.trans hu)

/-- A statement with good arguments is run, and gives no number. -/
theorem ends_run_of_ok {kind : StatementKind} {args : List Value} {w : World} {s : Statement}
    (hs : statement kind.builtinName w.database args = .ok s) :
    (kind.run args).Ends w fun v w' => (∀ n, v ≠ .integer n) ∧
      ∃ granted, w'.database =
        w.database.note (.statement kind s.target s.sql s.params) granted := by
  cases kind with
  | exec =>
    have hs : statement "sqlExec" w.database args = .ok s := hs
    refine .get_bind ?_
    rw [hs]
    refine (Run.ends_onDatabase _ w).bind fun answer u ⟨_, hu⟩ => ?_
    cases answer with
    | error fault => exact .pure ⟨by simp, _, hu⟩
    | ok numbers => exact ⟨_, _, rfl, by simp, _, hu⟩
  | query =>
    have hs : statement "sqlQuery" w.database args = .ok s := hs
    refine .get_bind ?_
    rw [hs]
    refine (Run.ends_onDatabase _ w).bind fun answer u ⟨_, hu⟩ => ?_
    cases answer with
    | error fault => exact .pure ⟨by simp, _, hu⟩
    | ok table =>
      -- Rows are read after the answer is noted, so a row that cannot be read changes nothing here.
      cases hrows : rowValues table.rows with
      | error message =>
        simp only [hrows]
        exact .pure ⟨by simp, _, hu⟩
      | ok rows =>
        simp only [hrows]
        refine (ends_rowHashes table.columns rows u).bind fun hashes u' hu' => ?_
        exact ⟨_, _, rfl, by simp, _, hu'.trans hu⟩

/-- A statement with bad arguments is not run. -/
theorem run_of_error {kind : StatementKind} {args : List Value} {w : World} {fault : Fault}
    (hs : statement kind.builtinName w.database args = .error fault) :
    kind.run args w = some (.error fault, w) := by
  cases kind with
  | exec =>
    have hs : statement "sqlExec" w.database args = .error fault := hs
    rw [StatementKind.run, sqlExec, Run.get_bind_apply, hs]
    rfl
  | query =>
    have hs : statement "sqlQuery" w.database args = .error fault := hs
    rw [StatementKind.run, sqlQuery, Run.get_bind_apply, hs]
    rfl

/-- The builtins for statements are served. -/
theorem run_served (kind : StatementKind) (args : List Value) (w : World) :
    (kind.run args).Ends w fun v w' => Served args v w.database w'.database := by
  cases hs : statement kind.builtinName w.database args with
  | error fault => exact ⟨_, w, run_of_error hs, .idle (by simp) _⟩
  | ok s =>
    obtain ⟨h, hargs, htarget⟩ := statement_eq_ok hs
    obtain ⟨v, w', hrun, hv, granted, hd⟩ := ends_run_of_ok hs
    refine ⟨v, w', hrun, ⟨some h, ?_, fun h' heq => .inl ?_⟩, .inl ⟨hv, ?_⟩⟩
    · rw [hd]
      exact .single (.statement htarget kind s.sql s.params granted)
    · rw [hargs, Option.some.inj heq]
    · rw [hd]
      rfl

/-- Every call of a database builtin gives a value. -/
theorem served_of_mem_sql {b : Builtin} (hb : b ∈ sql) (host : Host) (args : List Value) {w : World}
    (hlast : w.database.lastHandle < Int64.maxValue) :
    (b.run host args).Ends w fun v w' => ∃ u, v = some u ∧
      Served args u w.database w'.database := by
  have heffect {name : String} {f : List Value → Run Value}
      (hf : (f args).Ends w fun v w' => Served args v w.database w'.database) :
      ((effect name f).run host args).Ends w fun v w' =>
        ∃ u, v = some u ∧ Served args u w.database w'.database :=
    hf.bind fun v w' hv => .pure ⟨v, rfl, hv⟩
  revert b
  simp only [sql, List.forall_mem_cons]
  exact ⟨heffect (sqlOpen_served args w hlast), heffect (run_served .exec args w),
    heffect (run_served .query args w), heffect (onHandle_served Database.close_uses args w),
    heffect (onHandle_served Database.begin_uses args w),
    heffect (onHandle_served (Database.finish_uses true) args w),
    heffect (onHandle_served (Database.finish_uses false) args w), List.forall_mem_nil _⟩

/-! ## Calls one after the other -/

/-- Database builtins are called one after the other. -/
def callAll (host : Host) :
    List ({ b : Builtin // b ∈ sql } × List Value) → Run (List (Option Value))
  | [] => return []
  | (b, args) :: calls => do
    let v ← b.val.run host args
    return v :: (← callAll host calls)

/-- The handle that a call gave out. -/
def handle? : Option Value → Option Int64
  | some (.integer h) => some h
  | _ => none

/-- A value that is no number is no handle. -/
theorem handle?_of_ne {v : Value} (hv : ∀ n, v ≠ .integer n) : handle? (some v) = none := by
  cases v <;> first | rfl | exact absurd rfl (hv _)

/-- Calls keep the tables coherent. The handles that they give out are all those between the last
one before and the last one after, in ascending order. -/
theorem callAll_spec (host : Host)
    (calls : List ({ b : Builtin // b ∈ sql } × List Value)) {w : World} (hw : w.database.Coherent)
    (hlast : w.database.lastHandle.toInt + calls.length ≤ Int64.maxValue.toInt) :
    (callAll host calls).Ends w fun results w' => w'.database.Coherent ∧
      w'.database.lastHandle.toInt ≤ w.database.lastHandle.toInt + calls.length ∧
      (results.filterMap handle?).Pairwise (· < ·) ∧
        w.database.lastHandle ≤ w'.database.lastHandle ∧
      ∀ h, h ∈ results.filterMap handle? ↔ w.database.lastHandle < h ∧
        h ≤ w'.database.lastHandle := by
  induction calls generalizing w with
  | nil =>
    refine .pure ⟨hw, by simp, .nil, Int64.le_refl _,
      fun h => iff_of_false (by simp) fun hbetween => ?_⟩
    exact Int64.not_le.mpr hbetween.1 hbetween.2
  | cons call calls ih =>
    obtain ⟨⟨b, hb⟩, args⟩ := call
    rw [List.length_cons] at hlast
    have hlt : w.database.lastHandle < Int64.maxValue := Int64.lt_iff_toInt_lt.mpr (by omega)
    refine (served_of_mem_sql hb host args hlt).bind ?_
    rintro _ u ⟨v, rfl, hserved⟩
    obtain ⟨o, hmoves, -⟩ := hserved.moves
    have hu := Database.Moves.coherent hmoves hw
    -- The first call gives no handle, or the next one, which is below all that the other calls
    -- give.
    rcases hserved.given with ⟨hv, hsame⟩ | ⟨rfl, hnext⟩
    · refine (ih hu (by rw [hsame]; omega)).bind
        fun results w' ⟨hw', hle, hpairwise, hmono, hmem⟩ => ?_
      rw [hsame] at hle hmono hmem
      refine .pure ⟨hw', by rw [List.length_cons]; omega, ?_⟩
      rw [List.filterMap_cons_none (handle?_of_ne hv)]
      exact ⟨hpairwise, hmono, hmem⟩
    · have hnext : u.database.lastHandle.toInt = w.database.lastHandle.toInt + 1 := by
        rw [hnext, hw.toInt_lastHandle_add_one hlt]
      refine (ih hu (by omega)).bind fun results w' ⟨hw', hle, hpairwise, hmono, hmem⟩ => ?_
      rw [Int64.le_iff_toInt_le] at hmono
      refine .pure ⟨hw', by rw [List.length_cons]; omega, ?_⟩
      rw [List.filterMap_cons_some (by rfl)]
      refine ⟨.cons (fun h hh => ((hmem h).mp hh).1) hpairwise,
        Int64.le_iff_toInt_le.mpr (by omega), fun h => ?_⟩
      rw [List.mem_cons, hmem, ← Int64.toInt_inj, Int64.lt_iff_toInt_lt, Int64.lt_iff_toInt_lt,
        Int64.le_iff_toInt_le]
      omega

/-- Arguments that all are parameters are taken as parameters. -/
theorem params_eq_ok (name : String) {args : List Value} {ps : List Param}
    (h : args.mapM param? = some ps) :
    params name args = .ok ps := by
  induction args generalizing ps with
  | nil =>
    cases h
    rfl
  | cons v args ih =>
    rw [List.mapM_cons] at h
    obtain ⟨p, hp, h⟩ := Option.bind_eq_some_iff.mp h
    obtain ⟨ps, hps, h⟩ := Option.bind_eq_some_iff.mp h
    cases h
    rw [params, hp, ih hps]
    rfl

/-- A statement on an open handle goes to the transaction of the handle, and else to its
connection. -/
theorem statement_of_open (name : String) {d : Database} {h : Int64} {c : Connection}
    {args : List Value} {ps : List Param} (sql : Bytes) (hc : d.connections.get? h = some c)
    (hps : args.mapM param? = some ps) :
    statement name d (.integer h :: .string sql :: args) =
      .ok ⟨(d.transactions.get? h).elim (.connection c) .transaction, sql, ps⟩ := by
  have htarget : d.target h = .ok ((d.transactions.get? h).elim (.connection c) .transaction) := by
    rw [Database.target]
    cases d.transactions.get? h with
    | none => rw [hc]; rfl
    | some t => rfl
  rw [statement, htarget, params_eq_ok name hps]
  rfl

end Builtin

/-- A history after which nothing is left open: whatever was obtained was closed once, whatever
began was ended once, and before its connection was closed. -/
structure Settled (history : List Event) : Prop where
  inOrder : InOrder history
  closes : ∀ c, Obtained history c → history.countP (Event.closes c) = 1
  finishes : ∀ t, Begun history t → history.countP (Event.finishes t) = 1
  finished : ∀ t later granted past, history = later ++ ⟨.close t.connection, granted⟩ :: past →
    Begun history t → Finished past t

/-- Where all requests were in order and nothing is open, everything is settled. -/
theorem InOrder.settled {history : List Event} (h : InOrder history)
    (hc : ∀ c : Connection, ¬ c.IsOpen history) (ht : ∀ t : Transaction, ¬ t.IsOpen history) :
    Settled history where
  inOrder := h
  closes c hobtained :=
    h.countP_closes (Classical.byContradiction fun hclosed => hc c ⟨hobtained, hclosed⟩)
  finishes t hbegun := h.countP_finishes (Classical.byContradiction fun hfinished =>
    ht t ⟨hbegun, hfinished⟩)
  finished := by
    rintro t later granted past rfl hbegun
    exact h.finished_of_close hbegun

namespace Builtin

/-- Databases are linear resources, whatever they answer and whatever is called with whatever
arguments. Every call ends, and after all calls

* a handle with a transaction is open, and open handles lie between one and the last one given out;
* no handle was given out twice, and only handles that were given out are open;
* the tables of handles say what is open after the history, all of which was in order;
* a statement on an open handle is sent to the open transaction of the handle, and else to its
  connection;
* a further call leaves every handle alone but the one that it names or gives out;
* when everything is given up, in whatever order, every connection was closed exactly once and every
  transaction ended exactly once, before its connection was closed.

Handles are numbers of 64 bits with a sign, and the calls have to be fewer than there are. -/
theorem calls_linear (server : Server) (host : Host) (w : World)
    (calls : List ({ b : Builtin // b ∈ sql } × List Value))
    (hcount : calls.length < Int64.maxValue.toInt) :
    ∃ results w', callAll host calls { w with database := { server } } = some (results, w') ∧
      (∀ h, w'.database.transactions.has h → w'.database.connections.has h) ∧
      (∀ h, w'.database.connections.has h → 1 ≤ h ∧ h ≤ w'.database.lastHandle) ∧
      (results.filterMap handle?).Pairwise (· < ·) ∧
      (∀ h, w'.database.connections.has h → h ∈ results.filterMap handle?) ∧
      w'.database.Coherent ∧
      (∀ (kind : StatementKind) h c sql args ps, w'.database.connections.get? h = some c →
        args.mapM param? = some ps →
        (kind.builtin.run host (.integer h :: .string sql :: args)).Ends w' fun _ w'' => ∃ granted,
          w''.database.history =
            ⟨.statement kind ((w'.database.transactions.get? h).elim (.connection c) .transaction)
              sql ps, granted⟩ :: w'.database.history) ∧
      (∀ b ∈ sql, ∀ args, (b.run host args).Ends w' fun v w'' => ∀ h,
        args.head? ≠ some (.integer h) →
        v ≠ some (.integer h) → Database.Untouched h w'.database w''.database) ∧
      ∀ ts cs, ts.Perm w'.database.transactions → cs.Perm w'.database.connections →
        Settled (w'.database.releaseIn ts cs).2.history := by
  -- All follows from the state after the calls, which is coherent and has given out every handle
  -- from one up to the last one.
  obtain ⟨results, w', hrun, hw', hle, hpairwise, -, hmem⟩ :=
    callAll_spec host calls (w := { w with database := { server } })
      (Database.coherent_initial server) (by simp at hcount ⊢; omega)
  have hbounds (h : Int64) (hhas : w'.database.connections.has h) :
    1 ≤ h ∧ h ≤ w'.database.lastHandle := by
    obtain ⟨c, hc⟩ := Option.isSome_iff_exists.mp hhas
    exact hw'.bounds h c hc
  refine ⟨results, w', hrun, fun h hhas => ?_, hbounds, hpairwise, fun h hhas => ?_,
    hw', ?_, ?_, ?_⟩
  · -- A transaction belongs to the connection of its handle.
    obtain ⟨t, ht⟩ := Option.isSome_iff_exists.mp hhas
    exact Option.isSome_iff_exists.mpr ⟨_, ((hw'.get?_transactions h t).mp ht).1⟩
  · obtain ⟨hone, hlast⟩ := hbounds h hhas
    -- Whatever is open has a handle within these bounds.
    have hpos : 0 < h := Int64.lt_of_lt_of_le (by decide) hone
    exact (hmem h).mpr ⟨hpos, hlast⟩
  · intro kind h c sql args ps hc hps
    refine (ends_run_of_ok (statement_of_open _ sql hc hps)).bind fun v w'' ⟨_, granted, hd⟩ => ?_
    exact .pure ⟨granted, by rw [hd]; rfl⟩
  · intro b hb args
    -- There is room for one more handle, so the builtin is served.
    have hlt : w'.database.lastHandle < Int64.maxValue := by
      rw [Int64.lt_iff_toInt_lt]
      simp at hle
      omega
    obtain ⟨_, w'', hrun, v, rfl, hserved⟩ := served_of_mem_sql hb host args hlt
    refine ⟨some v, w'', hrun, fun h hargs hv => ?_⟩
    obtain ⟨o, hmoves, ho⟩ := hserved.moves
    refine Database.Moves.untouched hmoves hw' fun heq => ?_
    exact (ho h heq).elim hargs fun hgiven => hv (congrArg some hgiven)
  · intro ts cs hts hcs
    -- The end rolls back and closes whatever is left, in any order of the tables.
    obtain ⟨hin, hc, ht⟩ := hw'.releaseIn hts hcs
    exact hin.settled hc ht

/-- A database that does not answer, and one whose transaction cannot be committed and which is left
open. -/
def refusedCalls : List ({ b : Builtin // b ∈ sql } × List Value) :=
  [(⟨effect "sqlOpen" sqlOpen, by simp [sql]⟩,
    [.string (text "sqlite3"), .string (text "failping")]),
    (⟨effect "sqlOpen" sqlOpen, by simp [sql]⟩,
      [.string (text "sqlite3"), .string (text "failcommit")]),
    (⟨effect "sqlBegin" (onHandle "sqlBegin" Database.begin), by simp [sql]⟩, [.integer 1]),
    (⟨effect "sqlCommit" (onHandle "sqlCommit" (Database.finish true)), by simp [sql]⟩,
      [.integer 1])]

/-- Calls that databases refuse leave nothing open either. -/
theorem calls_linear_refused :
    refusedCalls.length < Int64.maxValue.toInt ∧ ∃ results w',
      callAll { toYaml := fun _ => [], evaluate := fun _ _ => return .null } refusedCalls
          { files := ⟨text "/", [], #[]⟩, database := { server := Script.server } } =
          some (results, w') ∧
        (results.filterMap handle?).Pairwise (· < ·) ∧ w'.database.Coherent ∧
        Settled w'.database.release.2.history := by
  have hcount : refusedCalls.length < Int64.maxValue.toInt := by decide
  obtain ⟨results, w', hrun, -, -, hpairwise, -, hcoherent, -, -, hsettled⟩ :=
    calls_linear Script.server { toYaml := fun _ => [], evaluate := fun _ _ => return .null }
      { files := ⟨text "/", [], #[]⟩ } refusedCalls hcount
  exact ⟨hcount, results, w', hrun, hpairwise, hcoherent, hsettled _ _ (.refl _) (.refl _)⟩

end Builtin

end Rill
