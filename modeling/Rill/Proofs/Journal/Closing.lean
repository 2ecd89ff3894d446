import Rill.Journal

/-!
# Closed log files

What becomes of a log file under any calls of its three operations, with any file system at the time
of each call. A file that was closed refuses what is written to it and can be closed again, up to
the first call that opens it anew. From then on it takes everything, and can never be closed any
more.

* `LogFile.outcomes`: what happens in a sequence of calls.
* `LogFile.Reopened.outcomes`: what can happen to a file that was opened anew after it was closed.
* `LogFile.stays_closed_iff`: a file stays closed exactly if it is not used again after it was
  opened anew.
-/

namespace Rill.LogFile

/-! ## Calls -/

/-- An operation on a log file. -/
inductive Operation where
  /-- Writing at the end of the file. -/
  | write (piece : Bytes)
  /-- Opening the path anew. -/
  | reopen
  /-- Giving the handle up. -/
  | close

/-- An operation that is called, and the file system at that time. Others may have changed it since
the call before. -/
structure Call where
  files : Files
  operation : Operation

/-- What happens in a call. -/
inductive Outcome where
  /-- Something was written. -/
  | written
  /-- Nothing was written, as no file was open. -/
  | refused
  /-- The path was opened anew. -/
  | reopened
  /-- The path could not be opened. -/
  | unopened
  /-- The call to close the file returned. -/
  | closed
  /-- The call to close the file did not return, because the file was closed before. -/
  | panicked
  deriving DecidableEq, Repr

namespace Call

/-- What happens in a call. -/
def outcome (c : Call) (f : LogFile) : Outcome :=
  match c.operation with
  | .write piece => if (f.write piece c.files).1 then .written else .refused
  | .reopen => if (f.reopen c.files).isOk then .reopened else .unopened
  | .close => if f.close.isSome then .closed else .panicked

/-- The log file after a call. -/
def after (c : Call) (f : LogFile) : LogFile :=
  match c.operation with
  | .write _ => f
  | .reopen => ((f.reopen c.files).toOption.map Prod.fst).getD f
  | .close => f.close.getD f

end Call

/-- What happens in calls, one after the other. -/
def outcomes (f : LogFile) : List Call → List Outcome
  | [] => []
  | c :: calls => c.outcome f :: (c.after f).outcomes calls

/-! ## One call -/

/-- What a call can do, by the state of the file. -/
inductive Step (f : LogFile) : Outcome → LogFile → Prop where
  | written (h : f.handle.isSome) : Step f .written f
  | refused (h : f.handle = none) : Step f .refused f
  | reopened (number : Nat) : Step f .reopened { f with handle := some number }
  | unopened : Step f .unopened f
  | closed (h : f.released = false) : Step f .closed { f with handle := none, released := true }
  | closedAgain (h : f.handle = none) : Step f .closed f
  | panicked (hopen : f.handle.isSome) (h : f.released = true) : Step f .panicked f

/-- Every call is one step of a log file. -/
theorem Call.step (c : Call) (f : LogFile) : f.Step (c.outcome f) (c.after f) := by
  obtain ⟨fs, operation⟩ := c
  cases operation with
  -- A write needs a handle, and nothing else.
  | write piece =>
    cases hhandle : f.handle with
    | none =>
      have hwrite : f.write piece fs = (false, fs) := by rw [LogFile.write, hhandle]
      simp only [outcome, hwrite]
      exact .refused hhandle
    | some number =>
      have hwrite : f.write piece fs = (true, fs.append number piece) := by
        rw [LogFile.write, hhandle]
      simp only [outcome, hwrite]
      exact .written (by rw [hhandle]; rfl)
  -- Opening anew does not look at the handle, so a closed file gets one again, while the mark that
  -- it was released stays.
  | reopen =>
    unfold outcome after LogFile.reopen
    cases openPath fs f.path with
    | error fault => exact .unopened
    | ok opened => exact .reopened opened.1
  | close =>
    cases hhandle : f.handle with
    | none =>
      have hclose : f.close = some f := by rw [LogFile.close, hhandle]
      rw [outcome, after, hclose]
      exact .closedAgain hhandle
    | some number =>
      cases hreleased : f.released with
      -- With both a handle and the mark, closing panics.
      | true =>
        have hclose : f.close = none := by rw [LogFile.close, hhandle]; exact if_pos hreleased
        rw [outcome, after, hclose]
        exact .panicked (by rw [hhandle]; rfl) hreleased
      | false =>
        have hclose : f.close = some { f with handle := none, released := true } := by
          rw [LogFile.close, hhandle]
          exact if_neg (by simp [hreleased])
        rw [outcome, after, hclose]
        exact .closed hreleased

variable {f f' : LogFile} {o : Outcome}

/-- A file without a handle was closed. -/
def Sound (f : LogFile) : Prop := f.handle = none → f.released = true

/-- The file was closed, and it was not opened since. -/
structure Closed (f : LogFile) : Prop where
  handle : f.handle = none
  released : f.released = true

/-- The file was closed, and it has a handle all the same. -/
structure Reopened (f : LogFile) : Prop where
  handle : f.handle.isSome
  released : f.released = true

/-- A step keeps a log file sound. -/
theorem Sound.step (h : f.Sound) (hstep : f.Step o f') : f'.Sound := by
  cases hstep with
  | reopened number => exact fun hnone => by cases hnone
  | closed => exact fun _ => rfl
  | _ => exact h

/-- A file is closed behind a call that closes it. -/
theorem Sound.closed_of_step (h : f.Sound) (hstep : f.Step .closed f') : f'.Closed := by
  cases hstep with
  | closed => exact ⟨rfl, rfl⟩
  | closedAgain hnone => exact ⟨hnone, h hnone⟩

/-- A closed file refuses what is written and can be closed again. Only opening it anew makes a
difference. -/
theorem Closed.step (h : f.Closed) (hstep : f.Step o f') :
    o = .reopened ∧ f'.Reopened ∨ o ≠ .reopened ∧ o ≠ .written ∧ o ≠ .panicked ∧ f'.Closed := by
  cases hstep with
  | reopened number => exact .inl ⟨rfl, rfl, h.released⟩
  | written hopen | panicked hopen =>
    rw [h.handle] at hopen
    cases hopen
  | closed hreleased =>
    rw [h.released] at hreleased
    cases hreleased
  | refused | unopened | closedAgain => exact .inr ⟨by simp, by simp, by simp, h⟩

/-- A file that was opened anew takes what is written and can never be closed again. -/
theorem Reopened.step (h : f.Reopened) (hstep : f.Step o f') :
    o ≠ .refused ∧ o ≠ .closed ∧ f'.Reopened := by
  cases hstep with
  | reopened number => exact ⟨by simp, by simp, rfl, h.released⟩
  | refused hnone | closedAgain hnone =>
    have hopen := h.handle
    rw [hnone] at hopen
    cases hopen
  | closed hreleased =>
    rw [h.released] at hreleased
    cases hreleased
  | written | unopened | panicked => exact ⟨by simp, by simp, h⟩

/-! ## Sequences of calls -/

/-- The calls behind the one that closes a file. -/
theorem Sound.exists_closed (h : f.Sound) {calls : List Call} {before after : List Outcome}
    (hcalls : f.outcomes calls = before ++ .closed :: after) :
    ∃ f' later, Closed f' ∧ f'.outcomes later = after := by
  induction calls generalizing f before with
  | nil => simp [outcomes] at hcalls
  | cons c calls ih =>
    rw [outcomes] at hcalls
    cases before with
    | nil =>
      obtain ⟨hclosed, hafter⟩ := List.cons.inj hcalls
      have hstep := c.step f
      rw [hclosed] at hstep
      exact ⟨c.after f, calls, h.closed_of_step hstep, hafter⟩
    | cons o before => exact ih (h.step (c.step f)) (List.cons.inj hcalls).2

/-- Behind a call that opened the file anew no call is refused, and none closes the file. -/
theorem Reopened.outcomes (h : f.Reopened) (calls : List Call) :
    ∀ o ∈ f.outcomes calls, o ≠ .refused ∧ o ≠ .closed := by
  induction calls generalizing f with
  | nil => simp [LogFile.outcomes]
  | cons c calls ih =>
    obtain ⟨hrefused, hclosed, hafter⟩ := h.step (c.step f)
    exact List.forall_mem_cons.mpr ⟨⟨hrefused, hclosed⟩, ih hafter⟩

/-- A closed file stays closed up to the first call that opens it anew, and behind that every write
and every call to close it goes wrong. -/
theorem Closed.outcomes (h : f.Closed) (calls : List Call) :
    (∀ o ∈ f.outcomes calls, o ≠ .written ∧ o ≠ .panicked) ↔
      ∀ earlier later, f.outcomes calls = earlier ++ .reopened :: later →
        ∀ o ∈ later, o = .reopened ∨ o = .unopened := by
  induction calls generalizing f with
  | nil => simp [LogFile.outcomes]
  | cons c calls ih =>
    rw [LogFile.outcomes, List.forall_mem_cons]
    rcases h.step (c.step f) with ⟨hreopened, hafter⟩ | ⟨hreopened, hwritten, hpanicked, hafter⟩
    -- From here on every write is taken and every call to close it panics, so no such call may
    -- follow.
    · rw [hreopened]
      have hrest := hafter.outcomes calls
      constructor
      · rintro ⟨-, hcalls⟩ earlier later hsplit o ho
        have hmem : o ∈ (c.after f).outcomes calls := by
          cases earlier with
          | nil => rwa [(List.cons.inj hsplit).2]
          | cons first earlier =>
            rw [(List.cons.inj hsplit).2]
            exact List.mem_append_right _ (List.mem_cons_of_mem _ ho)
        have hwrong := hcalls o hmem
        have hright := hrest o hmem
        cases o <;> simp_all
      · intro hlater
        refine ⟨by simp, fun o ho => ?_⟩
        rcases hlater [] _ rfl o ho with rfl | rfl <;> simp
    -- The file is still closed, and what was opened anew is behind this call.
    · rw [ih hafter]
      constructor
      · rintro ⟨-, hlater⟩ earlier later hsplit
        cases earlier with
        | nil => exact absurd (List.cons.inj hsplit).1 hreopened
        | cons first earlier => exact hlater earlier later (List.cons.inj hsplit).2
      · intro hlater
        refine ⟨⟨hwritten, hpanicked⟩, fun earlier later hsplit => ?_⟩
        exact hlater (c.outcome f :: earlier) later (by rw [hsplit, List.cons_append])

/-- A log file is sound when it is created. -/
theorem sound_of_create {fs fs' : Files} {path : Bytes} (h : create fs path = .ok (f, fs')) :
    f.Sound := by
  unfold create at h
  cases hmade : (fs.makeDirectories (Path.parent path)).mapError (LogFault.directory path) with
  | error fault => simp [hmade, bind, Except.bind] at h
  | ok made =>
    cases hopened : openPath made path with
    | error fault => simp [hmade, hopened, bind, Except.bind] at h
    | ok opened =>
      simp only [hmade, hopened, bind, Except.bind, pure, Except.pure, Except.ok.injEq,
        Prod.mk.injEq] at h
      rw [← h.1]
      exact fun hnone => by cases hnone

/-- A log file that was closed stays closed, so that nothing is written any more and closing it
again returns, if and only if it is neither written nor closed behind a call that opened it anew. -/
theorem stays_closed_iff {fs fs' : Files} {path : Bytes} {f : LogFile}
    (hcreate : create fs path = .ok (f, fs')) {calls : List Call} {before after : List Outcome}
    (hcalls : f.outcomes calls = before ++ .closed :: after) :
    (∀ o ∈ after, o ≠ .written ∧ o ≠ .panicked) ↔
      ∀ earlier later, after = earlier ++ .reopened :: later → ∀ o ∈ later, o = .reopened ∨
        o = .unopened := by
  obtain ⟨closed, later, hclosed, rfl⟩ := (sound_of_create hcreate).exists_closed hcalls
  exact hclosed.outcomes later

/-- A file system with nothing in it. -/
def bare : Files := ⟨text "/", [], #[]⟩

/-- The log file of that file system. -/
def fresh : LogFile := ⟨text "/a.log", some 0, false⟩

/-- A log file that is closed, opened anew and written: the late piece is taken, and it cannot be
closed again. -/
theorem stays_closed_iff_fresh : (∃ fs, create bare (text "/a.log") = .ok (fresh, fs)) ∧
    fresh.outcomes [⟨bare, .close⟩, ⟨bare, .reopen⟩, ⟨bare, .write (text "late")⟩, ⟨bare, .close⟩] =
      [.closed, .reopened, .written, .panicked] ∧
    ¬ ∀ o ∈ [Outcome.reopened, .written, .panicked], o ≠ .written ∧ o ≠ .panicked := by
  have hcreate : ∃ fs, create bare (text "/a.log") = .ok (fresh, fs) := ⟨_, rfl⟩
  have hcalls : fresh.outcomes
      [⟨bare, .close⟩, ⟨bare, .reopen⟩, ⟨bare, .write (text "late")⟩, ⟨bare, .close⟩] =
        [] ++ .closed :: [.reopened, .written, .panicked] := by decide +kernel
  obtain ⟨fs, hfresh⟩ := hcreate
  refine ⟨⟨fs, hfresh⟩, hcalls, ?_⟩
  rw [stays_closed_iff hfresh hcalls]
  intro hlater
  exact absurd (hlater [] _ rfl .written List.mem_cons_self) (by decide)

end Rill.LogFile
