import Rill.Proofs.Files.Names

/-!
# Rotation of the log

A journal writes through a handle. Meanwhile files get other names, and from time to time the path
of the log is opened anew, which may fail. Whatever the order of these events, every record that is
to be kept ends up once, and in its turn, in the file that the path led to when it was last opened,
and no other file changes.

* `Journal.Event`, `Journal.Scene.run`: what happens around a log.
* `Journal.Setup.ledger`: the lines that are due, and the file that each of them belongs in. It
  looks at paths only, and not at the handle.
* `Files.Gained`: what was added to files since an earlier time.
* `Journal.Logging.occur`, `Journal.Logging.run`: what one event keeps, and what all of them keep.
* `Journal.rotation_lossless`: the files after any events hold what the ledger says.
-/

namespace Rill

namespace Journal

/-! ## Events -/

/-- What happens around a log. -/
inductive Event where
  /-- A record is taken. -/
  | record (r : Record)
  /-- A file gets another name. -/
  | rename (source target : Bytes)
  /-- The path of the log is opened anew. -/
  | reopen
  /-- Others leave the file system behind in another state. -/
  | others (files : Files)

/-- A journal and the files around it. -/
structure Scene where
  journal : Journal
  files : Files

namespace Scene

/-- The scene after an event. -/
def occur (s : Scene) : Event → Scene
  | .record r => ⟨(s.journal.record r s.files).1, (s.journal.record r s.files).2⟩
  | .rename source target => { s with files := s.files.rename source target }
  | .reopen => ⟨(s.journal.reopen s.files).2.1, (s.journal.reopen s.files).2.2⟩
  | .others files => { s with files }

/-- The scene after events, one after the other. -/
def run (s : Scene) (events : List Event) : Scene := events.foldl occur s

/-- Files are renamed to unused names, and others change nothing but names. A directory at the path
of the log is such a change, and then the path cannot be opened. -/
def Allows (s : Scene) : Event → Prop
  | .record _ => True
  | .rename _ target => s.files.fileAt? target = none
  | .reopen => True
  | .others files => s.files.Renamed files

/-- Every event is allowed at its time. -/
def AllowsAll (s : Scene) : List Event → Prop
  | [] => True
  | e :: events => s.Allows e ∧ (s.occur e).AllowsAll events

end Scene

/-! ## The ledger -/

/-- A line, and the file that it belongs in. -/
structure Entry where
  file : Option Nat
  line : Bytes
  deriving DecidableEq

/-- The lines of a file in order. -/
def linesOf (n : Nat) (entries : List Entry) : Bytes :=
  (entries.filter (·.file = some n)).flatMap (·.line)

/-- How a log is set up. -/
structure Setup where
  clock : Bytes
  threshold : Level
  path : Bytes

namespace Setup

/-- What is due for an event; `latest` is the file that the path led to when it was last opened. -/
def due (c : Setup) (latest : Option Nat) : Event → List Entry
  | .record r => if c.threshold.rank ≤ r.level.rank then [⟨latest, r.line c.clock⟩] else []
  | .rename .. | .reopen | .others _ => []

/-- The file that the path led to when it was last opened, after one more event. -/
def latest (c : Setup) (fs : Files) (before : Option Nat) : Event → Option Nat
  | .reopen =>
    match fs.openWrite c.path with
    | .ok (_, opened) => opened.fileAt? c.path
    | .error _ => before
  | .record _ | .rename .. | .others _ => before

/-- What is due for events, one after the other. -/
def ledger (c : Setup) (s : Scene) (before : Option Nat) : List Event → List Entry
  | [] => []
  | e :: events => c.due before e ++ c.ledger (s.occur e) (c.latest s.files before e) events

/-- The journal of a log that is written through a handle. -/
def journal (c : Setup) (n : Nat) : Journal where
  threshold := some c.threshold
  clock := c.clock
  file := some ⟨c.path, some n, false⟩

end Setup

variable {c : Setup} {fs fs' : Files} {m : Nat}

@[simp] theorem linesOf_nil (n : Nat) : linesOf n [] = [] := rfl

/-- The lines of a file from entries are those from the first ones and those from the later ones. -/
theorem linesOf_append (n : Nat) (xs ys : List Entry) :
    linesOf n (xs ++ ys) = linesOf n xs ++ linesOf n ys := by
  rw [linesOf, List.filter_append, List.flatMap_append]
  rfl

/-- An entry is a line of its own file, and of no other one. -/
theorem linesOf_singleton (n m : Nat) (line : Bytes) :
    linesOf m [⟨some n, line⟩] = if n = m then line else [] := by
  by_cases h : n = m <;> simp [linesOf, h]

/-! ## What the journal does -/

/-- A record is appended through the handle if its level is high enough, and the journal stays as it
is. -/
theorem record_eq (c : Setup) (n : Nat) (r : Record) (fs : Files) : (c.journal n).record r fs =
    (c.journal n, if c.threshold.rank ≤ r.level.rank then fs.append n (r.line c.clock)
      else fs) := by
  rw [record]
  by_cases hkept : c.threshold.rank ≤ r.level.rank
  · rw [if_pos hkept, if_pos (show (c.journal n).keeps r.level = true from decide_eq_true hkept)]
    rfl
  · rw [if_neg hkept, if_neg
      (show ¬ (c.journal n).keeps r.level = true from mt of_decide_eq_true hkept)]

/-- A journal whose path can be opened goes on through the new handle. -/
theorem reopen_of_ok (n : Nat) (hopen : fs.openWrite c.path = .ok (m, fs')) :
    (c.journal n).reopen fs = (none, c.journal m, fs') := by
  have hfile : LogFile.reopen ⟨c.path, some n, false⟩ fs = .ok (⟨c.path, some m, false⟩, fs') := by
    rw [LogFile.reopen, LogFile.openPath, hopen]
    rfl
  unfold reopen Setup.journal
  simp only [hfile]

/-- A journal whose path cannot be opened goes on through the handle that it has. -/
theorem reopen_of_error {fault : FileFault} (n : Nat) (hopen : fs.openWrite c.path = .error fault) :
    (c.journal n).reopen fs = (some (.file c.path fault), c.journal n, fs) := by
  have hfile : LogFile.reopen ⟨c.path, some n, false⟩ fs = .error (.file c.path fault) := by
    rw [LogFile.reopen, LogFile.openPath, hopen]
    rfl
  unfold reopen Setup.journal
  simp only [hfile]

end Journal

/-! ## What was added to files -/

/-- Files have got what is due, and those that have a name still have one. -/
structure Files.Gained (entries : List Journal.Entry) (fs fs' : Files) : Prop where
  content : ∀ n, fs'.content n = fs.content n ++ Journal.linesOf n entries
  named : ∀ n, fs.Named n → fs'.Named n

namespace Files.Gained

variable {fs fs' fs'' : Files} {n : Nat} {entries later : List Journal.Entry}

/-- Renaming files gains no lines. -/
theorem of_renamed (h : fs.Renamed fs') : Gained [] fs fs' where
  content n := by rw [h.content, Journal.linesOf_nil, List.append_nil]
  named := h.named

/-- A line appended to a file is gained by this file. -/
theorem append (hn : n < fs.contents.size) (line : Bytes) :
    Gained [⟨some n, line⟩] fs (fs.append n line) where
  content m := by rw [content_append hn, Journal.linesOf_singleton]
  named _ h := h

/-- What is gained first and what is gained later is gained together. -/
theorem trans (h : Gained entries fs fs') (h' : Gained later fs' fs'') :
    Gained (entries ++ later) fs fs'' where
  content n := by rw [h'.content, h.content, Journal.linesOf_append, List.append_assoc]
  named n hn := h'.named n (h.named n hn)

end Files.Gained

namespace Journal

variable {c : Setup} {s : Scene} {e : Event} {events : List Event} {fs fs' : Files} {n : Nat}

/-! ## One event -/

/-- The journal writes into a file, wherever that is by now. -/
structure Logging (c : Setup) (s : Scene) (n : Nat) : Prop where
  journal : s.journal = c.journal n
  sound : s.files.Sound
  named : s.files.Named n

/-- The file of the log has a content. -/
theorem Logging.lt_size (h : Logging c s n) : n < s.files.contents.size := by
  obtain ⟨place, hplace⟩ := h.named
  exact h.sound.lt_size place n hplace

/-- A journal goes on in its file when files are renamed. -/
theorem Logging.renamed (h : Logging c s n) (hfiles : s.files.Renamed fs) :
    Logging c { s with files := fs } n :=
  ⟨h.journal, hfiles.sound, hfiles.named n h.named⟩

/-- A journal writes into the file that its path was opened as. -/
theorem logging_of_openWrite (hfs : fs.Sound) (hopen : fs.openWrite c.path = .ok (n, fs')) :
    Logging c ⟨c.journal n, fs'⟩ n where
  journal := rfl
  sound := (Files.openWrite_renamed hfs hopen).sound
  named := Files.named_of_fileAt? (Files.fileAt?_openWrite hopen)

/-- After an event the journal writes into the file that the path led to when it was last opened,
and the files have got what is due for the event. -/
theorem Logging.occur (h : Logging c s n) (hallows : s.Allows e) :
    ∃ m, c.latest s.files (some n) e = some m ∧ Logging c (s.occur e) m ∧
      Files.Gained (c.due (some n) e) s.files (s.occur e).files := by
  cases e with
  | record r =>
    refine ⟨n, rfl, ?_⟩
    rw [Scene.occur, h.journal, record_eq, Setup.due]
    by_cases hkept : c.threshold.rank ≤ r.level.rank
    · rw [if_pos hkept, if_pos hkept]
      exact ⟨⟨rfl, h.sound.modify n _, h.named⟩, .append h.lt_size _⟩
    · rw [if_neg hkept, if_neg hkept]
      exact ⟨⟨rfl, h.sound, h.named⟩, .of_renamed (.refl h.sound)⟩
  | rename source target =>
    -- The handle is a number, so it reaches the file under its new name as well.
    have hfiles : s.files.Renamed (s.files.rename source target) :=
      Files.rename_renamed h.sound hallows
    exact ⟨n, rfl, h.renamed hfiles, .of_renamed hfiles⟩
  | reopen =>
    rw [Scene.occur, h.journal, Setup.latest, Setup.due]
    cases hopen : s.files.openWrite c.path with
    | error fault =>
      rw [reopen_of_error n hopen]
      exact ⟨n, rfl, ⟨rfl, h.sound, h.named⟩, .of_renamed (.refl h.sound)⟩
    | ok opened =>
      obtain ⟨m, fs⟩ := opened
      rw [reopen_of_ok n hopen]
      exact ⟨m, Files.fileAt?_openWrite hopen, logging_of_openWrite h.sound hopen,
        .of_renamed (Files.openWrite_renamed h.sound hopen)⟩
  | others files => exact ⟨n, rfl, h.renamed hallows, .of_renamed hallows⟩

/-! ## All events -/

/-- What is due for an event belongs in the file that the path led to. -/
theorem Setup.file_due {entry : Entry} (h : entry ∈ c.due (some n) e) : entry.file = some n := by
  cases e with
  | record r =>
    rw [due] at h
    split at h
    · rw [List.mem_singleton.mp h]
    · cases h
  | rename | reopen | others => cases h

/-- A run of events leaves a journal that still writes into a file, with all that was due in the
files it was due in. -/
theorem Logging.run (h : Logging c s n) (hevents : s.AllowsAll events) :
    (∃ m, Logging c (s.run events) m) ∧
      Files.Gained (c.ledger s (some n) events) s.files (s.run events).files ∧
      ∀ entry ∈ c.ledger s (some n) events, ∃ m, entry.file = some m ∧
        (s.run events).files.Named m := by
  -- By induction on the events. The file that is written into changes with them, and the one before
  -- keeps a name.
  induction events generalizing s n with
  | nil => exact ⟨⟨n, h⟩, .of_renamed (.refl h.sound), fun entry hentry => by cases hentry⟩
  | cons e events ih =>
    obtain ⟨hallows, hevents⟩ := hevents
    obtain ⟨m, hlatest, hafter, hgained⟩ := h.occur hallows
    obtain ⟨hend, hrest, hfiles⟩ := ih hafter hevents
    rw [Setup.ledger, hlatest]
    refine ⟨hend, hgained.trans hrest, fun entry hentry => ?_⟩
    rcases List.mem_append.mp hentry with hdue | hlater
    · exact ⟨n, Setup.file_due hdue, hrest.named n (hgained.named n h.named)⟩
    · exact hfiles entry hlater

/-- Events are allowed if the earlier ones are, and the later ones behind them. -/
theorem Scene.allowsAll_append {earlier later : List Event} :
    s.AllowsAll (earlier ++ later) ↔ s.AllowsAll earlier ∧ (s.run earlier).AllowsAll later := by
  induction earlier generalizing s with
  | nil => exact (iff_of_eq (true_and _)).symm
  | cons e earlier ih =>
    rw [List.cons_append, AllowsAll, AllowsAll, ih, and_assoc]
    rfl

/-- A journal that was opened for a level and a path writes into the file that the path leads to. -/
theorem logging_of_create {level : Bytes} {j : Journal}
    (hlevel : Level.ofName? level = some c.threshold) (hpath : c.path ≠ []) (hfs : fs.Sound)
    (hcreate : create c.clock level c.path fs = .ok (j, fs')) :
    ∃ n, fs'.fileAt? c.path = some n ∧ Logging c ⟨j, fs'⟩ n ∧
      ∀ k, fs'.content k = fs.content k := by
  simp only [create, hlevel, if_neg hpath] at hcreate
  obtain ⟨⟨file, opened⟩, hfile, hcreate⟩ := Except.exists_of_bind_eq_ok hcreate
  obtain ⟨made, hmade, hfile⟩ := Except.exists_of_bind_eq_ok hfile
  obtain ⟨⟨n, written⟩, hopen, hfile⟩ := Except.exists_of_bind_eq_ok hfile
  cases hfile
  cases hcreate
  have hopen : made.openWrite c.path = .ok (n, opened) := Except.eq_ok_of_mapError hopen
  have hdirectories : fs.OnlyDirectories made := .makeAll (Except.eq_ok_of_mapError hmade)
  have hsound : made.Sound := hdirectories.sound hfs
  have hcontent (k : Nat) : opened.content k = fs.content k := by
    rw [(Files.openWrite_renamed hsound hopen).content, Files.content, Files.content,
      hdirectories.contents]
  exact ⟨n, Files.fileAt?_openWrite hopen, logging_of_openWrite hsound hopen, hcontent⟩

/-- Nothing is lost when a log is rotated. Whatever happens after a journal was opened for a level
and a path:

* every file has what it had before and then the lines that belong in it, each of them once and in
  order, and no others;
* a file that lines belong in has exactly one name by now, whatever that is;
* nothing went to the fallback;
* a path that could not be opened left the journal, and with it the handle, as it was, and the files
  as well. -/
theorem rotation_lossless {level : Bytes} {j : Journal}
    (hlevel : Level.ofName? level = some c.threshold) (hpath : c.path ≠ []) (hfs : fs.Sound)
    (hcreate : create c.clock level c.path fs = .ok (j, fs'))
    (hevents : (Scene.mk j fs').AllowsAll events) :
    (∀ n, ((Scene.mk j fs').run events).files.content n =
      fs.content n ++ linesOf n (c.ledger ⟨j, fs'⟩ (fs'.fileAt? c.path) events)) ∧
    (∀ entry ∈ c.ledger ⟨j, fs'⟩ (fs'.fileAt? c.path) events, ∃ n, entry.file = some n ∧
      ∃! place, ((Scene.mk j fs').run events).files.node? place = some (.file n)) ∧
    ((Scene.mk j fs').run events).journal.fallback = [] ∧
    ∀ earlier later s fault, events = earlier ++ .reopen :: later →
      (Scene.mk j fs').run earlier = s →
      s.files.openWrite c.path = .error fault →
      s.journal.reopen s.files = (some (.file c.path fault), s.journal, s.files) ∧
        s.occur .reopen = s := by
  obtain ⟨n, hlatest, hlogging, hcontent⟩ := logging_of_create hlevel hpath hfs hcreate
  -- The invariant holds when the journal is created, and every event keeps it.
  obtain ⟨⟨m, hend⟩, hgained, hfiles⟩ := hlogging.run hevents
  rw [hlatest]
  refine ⟨fun k => ?_, fun entry hentry => ?_, ?_, ?_⟩
  · rw [hgained.content, hcontent]
  · obtain ⟨k, hfile, place, hplace⟩ := hfiles entry hentry
    -- A sound file system has each file in one place only.
    exact ⟨k, hfile, place, hplace,
      fun other hother => hend.sound.unique other place k hother hplace⟩
  · rw [hend.journal]
    rfl
  · rintro earlier later s fault rfl rfl hopen
    -- What happened before the reopening keeps the invariant too, so the handle is known there.
    obtain ⟨⟨k, hthen⟩, -, -⟩ := hlogging.run (Scene.allowsAll_append.mp hevents).1
    have hreopen := reopen_of_error k hopen
    rw [← hthen.journal] at hreopen
    exact ⟨hreopen, by rw [Scene.occur, hreopen]⟩

/-- The log of a file system with nothing in it. -/
def nightly : Setup := ⟨text "t", .info, text "/a.log"⟩

/-- The scene after it was opened. -/
def evening : Scene := ⟨nightly.journal 0, ((Files.empty (text "/")).create [text "a.log"] []).2⟩

/-- A record without circumstances. -/
def remark (level : Level) (message : String) : Record := { level, message := text message }

/-- The log is renamed and opened anew, and then the new one is renamed. -/
def turnover : List Event :=
  [.record (remark .debug "aside"), .record (remark .info "one"), .rename (text "/a.log")
    (text "/b.log"),
    .record (remark .warn "two"), .reopen, .record (remark .error "three"), .rename (text "/a.log")
      (text "/c.log")]

/-- The files behind that, with a directory at the path of the log. -/
def blocked : Files :=
  ((evening.run turnover).files.makeDirectory nightly.path).toOption.getD
    (evening.run turnover).files

/-- The path cannot be opened any more, and the log goes on in the file that was renamed last. -/
def night : List Event := turnover ++ [.others blocked, .reopen, .record (remark .info "four")]

/-- The first two records that are kept are in the file that was renamed first, and the other two in
the one that was renamed last. -/
theorem rotation_lossless_nightly :
    create nightly.clock (text "info") nightly.path (Files.empty (text "/")) =
      .ok (evening.journal, evening.files) ∧
    evening.AllowsAll night ∧
    (blocked.openWrite nightly.path).isOk = false ∧
    (evening.run (turnover ++ [.others blocked])).occur .reopen =
      evening.run (turnover ++ [.others blocked]) ∧
    (evening.run night).files.content 0 =
      (remark .info "one").line (text "t") ++ (remark .warn "two").line (text "t") ∧
    (evening.run night).files.content 1 =
      (remark .error "three").line (text "t") ++ (remark .info "four").line (text "t") := by
  have hcreate : create nightly.clock (text "info") nightly.path (Files.empty (text "/")) =
      .ok (evening.journal, evening.files) := rfl
  have hlevel : Level.ofName? (text "info") = some nightly.threshold := by decide +kernel
  have hpath : nightly.path ≠ [] := by decide +kernel
  have hturnover : evening.AllowsAll turnover := by
    refine ⟨trivial, trivial, ?_, trivial, trivial, trivial, ?_, trivial⟩
    · rw [Scene.Allows]
      decide +kernel
    · rw [Scene.Allows]
      decide +kernel
  have hblocked : (evening.run turnover).files.Renamed blocked := by
    obtain ⟨n, -, hlogging, -⟩ := logging_of_create hlevel hpath (Files.sound_empty _) hcreate
    obtain ⟨⟨m, hend⟩, -⟩ := hlogging.run hturnover
    unfold blocked
    cases hmade : (evening.run turnover).files.makeDirectory nightly.path with
    | error => exact .refl hend.sound
    | ok made => exact Files.makeDirectory_renamed hend.sound hmade
  have hnight : evening.AllowsAll night :=
    Scene.allowsAll_append.mpr ⟨hturnover, hblocked, trivial, trivial, trivial⟩
  have hopen : (blocked.openWrite nightly.path).isOk = false := by decide +kernel
  obtain ⟨hcontent, -, -, hfault⟩ :=
    rotation_lossless hlevel hpath (Files.sound_empty _) hcreate hnight
  have hthen : evening.run (turnover ++ [.others blocked]) =
    { evening.run turnover with files := blocked } := by
    rw [Scene.run, List.foldl_append]
    rfl
  refine ⟨hcreate, hnight, hopen, ?_, (hcontent 0).trans ?_, (hcontent 1).trans ?_⟩
  · rw [hthen]
    cases hopened : blocked.openWrite nightly.path with
    | ok =>
      rw [hopened] at hopen
      cases hopen
    | error fault =>
      have hsplit : night = (turnover ++ [.others blocked]) ++ .reopen ::
        [.record (remark .info "four")] := by
        rw [List.append_assoc]
        rfl
      exact (hfault _ _ _ fault hsplit hthen hopened).2
  · decide +kernel
  · decide +kernel

end Journal

end Rill
