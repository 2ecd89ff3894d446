import Rill.Journal
import Rill.Outline.Dump
import Rill.Proofs.Table
import Rill.Proofs.Text.Place

/-!
# Places that nobody looks at

A path leads past places, and what it leads to depends on nothing else. So what is written somewhere
makes no difference to paths that keep away from there.

* `Files.trail`: the places on the way of a path.
* `Files.SameBesides`: two file systems that differ in hidden places only, and there in contents as
  well.
* `Files.SameBesides.stat_eq`, `Files.SameBesides.read_eq`: a path past places that are not hidden.
* `Files.Sound`: every file has a number of its own. All that is done to files here keeps it, and
  file systems that are put together from files have it (`Files.sound_empty`, `Files.sound_place`).
* `Files.DumpPlace`, `Program.dump_hides`: the places that dump files are written to.
* `Journal.create_opened`: a journal leaves the contents of files as they are when it is opened.
-/

namespace Rill

/-- A computation in two steps succeeds only if both steps do. -/
theorem Except.exists_of_bind_eq_ok {ε α β : Type} {x : Except ε α} {f : α → Except ε β} {b : β}
    (h : x >>= f = .ok b) : ∃ a, x = .ok a ∧ f a = .ok b := by
  cases x with
  | error => cases h
  | ok a => exact ⟨a, rfl, h⟩

namespace Files

/-! ## The way of a path -/

/-- The places that are looked at on the way along components from a place. -/
def trailFrom (place : List Bytes) : List Bytes → List (List Bytes)
  | [] => []
  | c :: rest =>
    if c = [] || c = Path.dot then trailFrom place rest
    else if c = Path.dots then trailFrom place.dropLast rest
    else (place ++ [c]) :: trailFrom (place ++ [c]) rest

/-- The place that a path starts from. -/
def origin (cwd path : Bytes) : List Bytes := if Path.isAbsolute path then [] else components cwd

/-- The places that are looked at on the way of a path. -/
def trail (cwd path : Bytes) : List (List Bytes) :=
  trailFrom (origin cwd path) (Bytes.splitOn Path.slash path)

/-- The place that a path leads to. -/
def Spot.site : Spot → List Bytes
  | taken place _ => place
  | free place _ => place

variable {fs fs' fs'' : Files} {hidden hidden' : List Bytes → Prop} {place : List Bytes}
  {path : Bytes} {n : Nat}

/-- A walk depends on the nodes of its trail only. -/
theorem walk_congr {cs : List Bytes} (h : ∀ p ∈ trailFrom place cs, fs'.node? p = fs.node? p) :
    fs'.walk place cs = fs.walk place cs := by
  induction cs generalizing place with
  | nil => rfl
  | cons c rest ih =>
    rw [trailFrom] at h
    rw [walk, walk]
    split at h
    next hsame => rw [if_pos hsame, if_pos hsame, ih h]
    next hsame =>
      rw [if_neg hsame, if_neg hsame]
      split at h
      next hup => rw [if_pos hup, if_pos hup, ih h]
      next hup =>
        obtain ⟨hhere, hrest⟩ := List.forall_mem_cons.mp h
        rw [if_neg hup, if_neg hup]
        dsimp only
        rw [hhere, ih hrest]

/-- What a path resolves to is found by a walk over its components, unless the path is refused
before. -/
theorem resolve_eq_walk (fs : Files) (path : Bytes) : fs.resolve path =
    if path.any (· == 0) then .error .invalid
    else if path = [] then .error .notFound
    else if pathLimit ≤ path.length then .error .tooLong
    else fs.walk (origin fs.cwd path) (Bytes.splitOn Path.slash path) := by
  rw [resolve, origin]
  cases Path.isAbsolute path <;> rfl

/-- A path that resolves to a spot is walked to this spot. -/
theorem walk_of_resolve {spot : Spot} (h : fs.resolve path = .ok spot) :
    fs.walk (origin fs.cwd path) (Bytes.splitOn Path.slash path) = .ok spot := by
  rw [resolve_eq_walk] at h
  split at h
  · cases h
  · split at h
    · cases h
    · split at h
      · cases h
      · exact h

/-- What a path resolves to depends on the working directory and the nodes of its trail only. -/
theorem resolve_congr (hcwd : fs'.cwd = fs.cwd)
    (h : ∀ p ∈ trail fs.cwd path, fs'.node? p = fs.node? p) :
    fs'.resolve path = fs.resolve path := by
  rw [resolve_eq_walk, resolve_eq_walk, hcwd, walk_congr h]

/-- A path to a file leads past the place of the file. -/
theorem mem_trailFrom_of_walk {found : List Bytes} {cs : List Bytes}
    (h : fs.walk place cs = .ok (.taken found (.file n))) :
    found ∈ trailFrom place cs ∧ fs.node? found = some (.file n) := by
  -- The walk and the trail look at the components in the same order.
  induction cs generalizing place with
  | nil => cases h
  | cons c rest ih =>
    rw [walk] at h
    rw [trailFrom]
    split at h
    next hsame => rw [if_pos hsame]; exact ih h
    next hsame =>
      rw [if_neg hsame]
      split at h
      next hup => rw [if_pos hup]; exact ih h
      next hup =>
        rw [if_neg hup]
        split at h
        · cases h
        · dsimp only at h
          split at h
          · obtain ⟨hmem, hnode⟩ := ih h
            exact ⟨List.mem_cons_of_mem _ hmem, hnode⟩
          next hnode =>
            split at h
            · cases h
              exact ⟨List.mem_cons_self, hnode⟩
            · cases h
          · split at h <;> cases h

/-- A file that a path resolves to stands on the trail of the path. -/
theorem mem_trail_of_resolve {found : List Bytes}
    (h : fs.resolve path = .ok (.taken found (.file n))) :
    found ∈ trail fs.cwd path ∧ fs.node? found = some (.file n) :=
  mem_trailFrom_of_walk (walk_of_resolve h)

/-- Where a path leads ends with its last component, if that is a name. -/
theorem getLast?_of_walk {c : Bytes} (hc : c ≠ [] ∧ c ≠ Path.dot ∧ c ≠ Path.dots)
    {cs : List Bytes} {spot : Spot} (h : fs.walk place (cs ++ [c]) = .ok spot) :
    spot.site.getLast? = some c := by
  obtain ⟨hempty, hdot, hdots⟩ := hc
  induction cs generalizing place with
  | nil =>
    rw [List.nil_append, walk, if_neg (by simp [hempty, hdot]), if_neg hdots] at h
    split at h
    · cases h
    · dsimp only at h
      split at h
      · cases h
        exact List.getLast?_concat
      · cases h
        exact List.getLast?_concat
      · cases h
        exact List.getLast?_concat
  | cons d rest ih =>
    rw [List.cons_append, walk] at h
    split at h
    · exact ih h
    · split at h
      · exact ih h
      · split at h
        · cases h
        · -- The name is still to come, so the way ends neither at a file nor at a free place.
          dsimp only at h
          split at h
          · exact ih h
          · simp at h
          · simp [trivialTail, hempty] at h

/-! ## File systems that are the same besides hidden places -/

/-- Two file systems that differ in hidden places only. -/
structure SameBesides (hidden : List Bytes → Prop) (fs fs' : Files) : Prop where
  cwd : fs'.cwd = fs.cwd
  node : ∀ place, ¬ hidden place → fs'.node? place = fs.node? place
  content : ∀ place n, ¬ hidden place → fs.node? place = some (.file n) →
    fs'.content n = fs.content n

namespace SameBesides

/-- A file system is the same as itself, whatever is hidden. -/
theorem refl (hidden : List Bytes → Prop) (fs : Files) : SameBesides hidden fs fs :=
  ⟨rfl, fun _ _ => rfl, fun _ _ _ _ => rfl⟩

/-- Being the same besides hidden places goes both ways. -/
theorem symm (h : SameBesides hidden fs fs') : SameBesides hidden fs' fs where
  cwd := h.cwd.symm
  node place hp := (h.node place hp).symm
  content place n hp hn := (h.content place n hp (h.node place hp ▸ hn)).symm

/-- Two changes of hidden places are one change of hidden places. -/
theorem trans (h : SameBesides hidden fs fs') (h' : SameBesides hidden fs' fs'') :
    SameBesides hidden fs fs'' where
  cwd := h'.cwd.trans h.cwd
  node place hp := (h'.node place hp).trans (h.node place hp)
  content place n hp hn :=
    (h'.content place n hp ((h.node place hp).trans hn)).trans (h.content place n hp hn)

/-- What is the same besides few hidden places is the same besides more of them. -/
theorem mono (h : SameBesides hidden fs fs') (hle : ∀ place, hidden place → hidden' place) :
    SameBesides hidden' fs fs' where
  cwd := h.cwd
  node place hp := h.node place (mt (hle place) hp)
  content place n hp := h.content place n (mt (hle place) hp)

variable (h : SameBesides hidden fs fs') (hpath : ∀ p ∈ trail fs.cwd path, ¬ hidden p)

include h hpath

/-- A path whose trail avoids hidden places resolves to the same spot. -/
theorem resolve_eq : fs'.resolve path = fs.resolve path :=
  resolve_congr h.cwd fun p hp => h.node p (hpath p hp)

/-- A path whose trail avoids hidden places stands for the same kind of file. -/
theorem stat_eq : fs'.stat path = fs.stat path := by
  rw [stat, stat, h.resolve_eq hpath]

/-- A path whose trail avoids hidden places is read with the same content. -/
theorem read_eq : fs'.read path = fs.read path := by
  rw [read, read, h.resolve_eq hpath]
  split
  next place n hresolve =>
    obtain ⟨hmem, hnode⟩ := mem_trail_of_resolve hresolve
    -- The file itself is on the way, so it is not hidden either.
    rw [h.content place n (hpath place hmem) hnode]
  all_goals rfl

end SameBesides

/-! ## What is written -/

/-- Every file has a number of its own, and there are contents for it. -/
structure Sound (fs : Files) : Prop where
  lt_size : ∀ place n, fs.node? place = some (.file n) → n < fs.contents.size
  unique : ∀ place place' n, fs.node? place = some (.file n) → fs.node? place' = some (.file n) →
    place = place'

/-- A change of one content leaves the other ones. -/
theorem content_modify {m : Nat} (hne : m ≠ n) (f : List Bytes → List Bytes) :
    content { fs with contents := fs.contents.modify n f } m = fs.content m := by
  simp [content, Array.getElem?_modify, Ne.symm hne]

/-- What is written into a file is hidden if its place is. -/
theorem sameBesides_modify (hn : ∀ place, fs.node? place = some (.file n) → hidden place)
    (f : List Bytes → List Bytes) :
    SameBesides hidden fs { fs with contents := fs.contents.modify n f } where
  cwd := rfl
  node _ _ := rfl
  content place m hp hm := by
    refine content_modify ?_ f
    rintro rfl
    exact hp (hn place hm)

/-- A change of a content keeps a file system sound, as no node changes. -/
theorem Sound.modify (h : fs.Sound) (n : Nat) (f : List Bytes → List Bytes) :
    Sound { fs with contents := fs.contents.modify n f } where
  lt_size place m hm := by
    rw [Array.size_modify]
    exact h.lt_size place m hm
  unique := h.unique

/-- A created file is found at its place, and the other places have the nodes that they had. -/
theorem node?_create (hplace : place ≠ []) (pieces : List Bytes) (p : List Bytes) :
    (fs.create place pieces).2.node? p =
      if p = place then some (.file fs.contents.size) else fs.node? p := by
  by_cases hp : p = []
  · rw [if_neg (hp ▸ hplace.symm), hp]
    rfl
  · rw [node?, if_neg hp, create, Table.get?_put, node?, if_neg hp]
    simp only [eq_comm]

/-- A created file keeps a file system sound: its content is the last one. -/
theorem Sound.create (h : fs.Sound) (hplace : place ≠ []) (pieces : List Bytes) :
    (fs.create place pieces).2.Sound where
  lt_size p m hm := by
    have hsize : (fs.create place pieces).2.contents.size = fs.contents.size + 1 :=
      Array.size_push _
    rw [node?_create hplace] at hm
    rw [hsize]
    split at hm
    · cases hm
      exact Nat.lt_succ_self _
    · exact Nat.lt_succ_of_lt (h.lt_size p m hm)
  unique p q m hp hq := by
    -- The new file has the next number, which no file had before.
    rw [node?_create hplace] at hp hq
    split at hp
    next hpp =>
      cases hp
      split at hq
      next hqp => rw [hpp, hqp]
      next => exact absurd (h.lt_size q _ hq) (Nat.lt_irrefl _)
    next =>
      split at hq
      next =>
        cases hq
        exact absurd (h.lt_size p _ hp) (Nat.lt_irrefl _)
      next => exact h.unique p q m hp hq

/-- A created file leaves the contents that there were. -/
theorem content_create {m : Nat} (hm : m < fs.contents.size) (pieces : List Bytes) :
    (fs.create place pieces).2.content m = fs.content m := by
  simp [content, create, Array.getElem?_push, Nat.ne_of_lt hm]

/-- A file created at a hidden place changes hidden places only. -/
theorem sameBesides_create (h : fs.Sound) (hplace : place ≠ []) (hhidden : hidden place)
    (pieces : List Bytes) :
    SameBesides hidden fs (fs.create place pieces).2 where
  cwd := rfl
  node p hp := by
    rw [node?_create hplace, if_neg]
    rintro rfl
    exact hp hhidden
  content p m _ hm := content_create (h.lt_size p m hm) pieces

/-- A file that is opened for writing is there, or it is made where the path leads. -/
theorem openWrite_cases (h : fs.openWrite path = .ok (n, fs')) :
    (∃ place, fs.resolve path = .ok (.taken place (.file n)) ∧ fs' = fs) ∨
      ∃ place, fs.resolve path = .ok (.free place false) ∧ n = fs.contents.size ∧
        fs' = (fs.create place []).2 := by
  unfold openWrite at h
  split at h
  next place m hresolve =>
    cases h
    exact .inl ⟨place, hresolve, rfl⟩
  next => cases h
  next place hresolve =>
    cases h
    exact .inr ⟨place, hresolve, rfl, rfl⟩
  next => cases h
  next => cases h

/-- At a free place nothing stands yet. -/
theorem node?_of_walk {free : List Bytes} {slashed : Bool} {cs : List Bytes}
    (h : fs.walk place cs = .ok (.free free slashed)) : free ≠ [] ∧ fs.node? free = none := by
  induction cs generalizing place with
  | nil => cases h
  | cons c rest ih =>
    rw [walk] at h
    split at h
    · exact ih h
    · split at h
      · exact ih h
      · split at h
        · cases h
        · dsimp only at h
          split at h
          · exact ih h
          · split at h <;> cases h
          next hnode =>
            split at h
            · cases h
              -- Only the last component of a path may be missing, and it is appended to a place.
              exact ⟨List.concat_ne_nil _ _, hnode⟩
            · cases h

/-- A file that is opened for writing where a path leads to a hidden place. A directory is not
opened. -/
theorem openWrite_hides (hfs : fs.Sound)
    (hpath : ∀ spot, fs.resolve path = .ok spot → fs.node? spot.site ≠ some .directory →
      hidden spot.site) (h : fs.openWrite path = .ok (n, fs')) :
    SameBesides hidden fs fs' ∧ fs'.Sound ∧ ∀ place, fs'.node? place = some (.file n) →
      hidden place := by
  rcases openWrite_cases h with ⟨place, hresolve, rfl⟩ | ⟨place, hresolve, rfl, rfl⟩
  · obtain ⟨-, hnode⟩ := mem_trail_of_resolve hresolve
    refine ⟨.refl hidden fs', hfs, fun place' hplace' => ?_⟩
    -- The file has no other place than the one that was found.
    rw [hfs.unique place' place n hplace' hnode]
    exact hpath _ hresolve (by rw [Spot.site, hnode]; simp)
  · obtain ⟨hplace, hnode⟩ := node?_of_walk (walk_of_resolve hresolve)
    have hhidden : hidden place := hpath _ hresolve (by rw [Spot.site, hnode]; simp)
    refine ⟨sameBesides_create hfs hplace hhidden [], hfs.create hplace [],
      fun place' hplace' => ?_⟩
    rw [node?_create hplace] at hplace'
    split at hplace'
    next heq => exact heq ▸ hhidden
    next => exact absurd (hfs.lt_size place' _ hplace') (Nat.lt_irrefl _)

/-- Writing to a path changes hidden places only, if the file that the path leads to is hidden. -/
theorem write_hides (hfs : fs.Sound)
    (hpath : ∀ spot, fs.resolve path = .ok spot → fs.node? spot.site ≠ some .directory →
      hidden spot.site)
    {piece : Bytes} (h : fs.write path piece = .ok fs') :
    SameBesides hidden fs fs' ∧ fs'.Sound := by
  unfold write at h
  split at h
  next n opened hopen =>
    obtain ⟨hsame, hopened, hn⟩ := openWrite_hides hfs hpath hopen
    cases h
    exact ⟨hsame.trans (sameBesides_modify hn _), hopened.modify n _⟩
  next => cases h

/-! ## Directories -/

/-- Nothing was done but that directories were made. -/
structure OnlyDirectories (fs fs' : Files) : Prop where
  cwd : fs'.cwd = fs.cwd
  contents : fs'.contents = fs.contents
  node : ∀ place n, fs'.node? place = some (.file n) → fs.node? place = some (.file n)

namespace OnlyDirectories

/-- No change makes no new files. -/
theorem refl (fs : Files) : OnlyDirectories fs fs := ⟨rfl, rfl, fun _ _ h => h⟩

/-- Two changes that only make directories only make directories. -/
theorem trans (h : OnlyDirectories fs fs') (h' : OnlyDirectories fs' fs'') :
    OnlyDirectories fs fs'' :=
  ⟨h'.cwd.trans h.cwd, h'.contents.trans h.contents,
    fun place n hn => h.node place n (h'.node place n hn)⟩

/-- New directories keep a file system sound. -/
theorem sound (h : OnlyDirectories fs fs') (hfs : fs.Sound) : fs'.Sound where
  lt_size place n hn := h.contents ▸ hfs.lt_size place n (h.node place n hn)
  unique place place' n hn hn' :=
    hfs.unique place place' n (h.node place n hn) (h.node place' n hn')

/-- Making a directory adds no file. -/
theorem makeDirectory (h : fs.makeDirectory path = .ok fs') : OnlyDirectories fs fs' := by
  unfold Files.makeDirectory at h
  split at h
  next => cases h
  next place slashed hresolve =>
    cases h
    refine ⟨rfl, rfl, fun p n hn => ?_⟩
    rw [node?] at hn ⊢
    split at hn
    · cases hn
    next hp =>
      rw [if_neg hp]
      dsimp only at hn
      rw [Table.get?_put] at hn
      split at hn
      · cases hn
      · exact hn
  next => split at h <;> cases h
  next => cases h

/-- Making a directory with those above it adds no file. -/
theorem makeAll {bound : Nat} (h : fs.makeAll path bound = .ok fs') : OnlyDirectories fs fs' := by
  induction bound generalizing fs fs' path with
  | zero =>
    cases h
    exact .refl _
  | succ bound ih =>
    rw [Files.makeAll] at h
    split at h
    next =>
      cases h
      exact .refl _
    next => cases h
    next =>
      -- First the directories above, and then the last one, unless something stands there by now.
      extract_lets above last at h
      have habove : ∃ made, OnlyDirectories fs made ∧ last made = .ok fs' := by
        split at h
        · exact ⟨fs, .refl fs, h⟩
        · obtain ⟨made, habove, h⟩ := Except.exists_of_bind_eq_ok h
          exact ⟨made, ih habove, h⟩
      obtain ⟨made, hmade, h⟩ := habove
      dsimp only [last] at h
      split at h
      next hlast =>
        cases h
        exact hmade.trans (makeDirectory hlast)
      next =>
        split at h
        · cases h
          exact hmade
        · cases h

end OnlyDirectories

/-! ## How file systems come about -/

/-- Making directories keeps a file system sound, also where it fails. -/
theorem sound_makeDirectories (h : fs.Sound) (path : Bytes) :
    ((fs.makeDirectories path).toOption.getD fs).Sound := by
  cases hmade : fs.makeDirectories path with
  | error => exact h
  | ok made => exact (OnlyDirectories.makeAll hmade).sound h

/-- Placing a file, with the directories above it, keeps a file system sound. -/
theorem sound_place (h : fs.Sound) (path content : Bytes) : (fs.place path content).Sound := by
  unfold Files.place
  dsimp only
  split
  · exact sound_makeDirectories h _
  · -- If the directories cannot be made, the file is written where there are none.
    have hmade := sound_makeDirectories h (Path.join [fs.cwd, leading path])
    generalize (fs.makeDirectories (Path.join [fs.cwd, leading path])).toOption.getD fs =
      made at hmade ⊢
    cases hwrite : made.write path content with
    | error => exact hmade
    | ok written =>
      have hwritten : SameBesides (fun _ => True) made written ∧ written.Sound :=
        write_hides hmade (fun _ _ _ => trivial) hwrite
      exact hwritten.2

/-- A file system with its working directory and nothing else is sound. -/
theorem sound_empty (cwd : Bytes) : (empty cwd).Sound := by
  refine sound_makeDirectories ⟨fun place n hn => ?_, fun place _ n hn => ?_⟩ cwd
  all_goals
    rw [node?] at hn
    split at hn <;> cases hn

end Files

namespace DumpFormat

/-- Whether a name is one that dump files can have. -/
def isDumpName (name : Bytes) : Bool :=
  Bytes.endsWith name (text ".ast.json") || Bytes.endsWith name (text ".ast.yaml")

/-- A text ends with what was appended last. -/
theorem endsWith_append (s t : Bytes) : Bytes.endsWith (s ++ t) t = true := by
  rw [Bytes.endsWith, List.reverse_append, List.isPrefixOf_iff_prefix]
  exact List.prefix_append _ _

/-- The last component of the path of a dump file is such a name. -/
theorem exists_splitOn (path : Bytes) (f : DumpFormat) : ∃ cs name,
    Bytes.splitOn Path.slash (path ++ text ".ast." ++ f.name) = cs ++ [name] ∧
      isDumpName name = true := by
  obtain ⟨cs, last, hpath⟩ := Bytes.exists_splitOn_eq_concat Path.slash path
  have hending : Bytes.splitOn Path.slash (text ".ast." ++ f.name) = [text ".ast." ++ f.name] :=
    Bytes.splitOn_of_not_mem (by cases f <;> decide)
  refine ⟨cs, last ++ (text ".ast." ++ f.name), ?_, ?_⟩
  · rw [List.append_assoc]
    exact Bytes.splitOn_append hpath hending
  · rw [isDumpName, Bool.or_eq_true]
    cases f with
    | json => exact .inl (endsWith_append last _)
    | yaml => exact .inr (endsWith_append last _)

/-- Such a name leads to a place of its own. -/
theorem ne_of_isDumpName {name : Bytes} (h : isDumpName name = true) :
    name ≠ [] ∧ name ≠ Path.dot ∧ name ≠ Path.dots := by
  refine ⟨?_, ?_, ?_⟩
  · rintro rfl
    cases h
  · rintro rfl
    revert h
    decide
  · rintro rfl
    revert h
    decide

end DumpFormat

/-- Where a dump file can be written: a place with such a name, at which no directory stands. -/
def Files.DumpPlace (fs : Files) (place : List Bytes) : Prop :=
  place.getLast?.any DumpFormat.isDumpName = true ∧ fs.node? place ≠ some .directory

instance (fs : Files) : DecidablePred fs.DumpPlace := fun _ => inferInstanceAs (Decidable (_ ∧ _))

/-- A dump changes hidden places only, if the places of dumps are hidden. -/
theorem Program.dump_hides {hidden : List Bytes → Prop} {p : Program} {toYaml : Outline → Bytes}
    {path format target : Bytes} {fs fs' : Files} (hfs : fs.Sound)
    (hhidden : ∀ place, fs.DumpPlace place → hidden place)
    (h : p.dump toYaml path format fs = .ok (target, fs')) :
    fs.SameBesides hidden fs' ∧ fs'.Sound := by
  unfold dump at h
  split at h
  next => cases h
  next f hf =>
    dsimp only at h
    split at h
    next written hwrite =>
      cases h
      refine Files.write_hides hfs (fun spot hresolve hnode => hhidden _ ⟨?_, hnode⟩) hwrite
      -- The last component of the path is the name of a dump file, so the path leads to such a
      -- name.
      obtain ⟨cs, name, hsplit, hname⟩ := DumpFormat.exists_splitOn path f
      have hwalk := Files.walk_of_resolve hresolve
      rw [hsplit] at hwalk
      rw [Files.getLast?_of_walk (DumpFormat.ne_of_isDumpName hname) hwalk, Option.any_some, hname]
    next => cases h

/-- The number of the file that records go to. -/
def Journal.handle? (j : Journal) : Option Nat := j.file.bind (·.handle)

/-- The function of a result is there only if the result is. -/
theorem Except.exists_of_map_eq_ok {ε α β : Type} {x : Except ε α} {f : α → β} {b : β}
    (h : x.map f = .ok b) : ∃ a, x = .ok a ∧ f a = b := by
  cases x with
  | error => cases h
  | ok a => exact ⟨a, rfl, Except.ok.inj h⟩

/-- What succeeds with another error succeeds with its own. -/
theorem Except.eq_ok_of_mapError {ε ε' α : Type} {f : ε → ε'} {x : Except ε α} {a : α}
    (h : x.mapError f = .ok a) : x = .ok a := by
  cases x with
  | error => cases h
  | ok => exact congrArg Except.ok (Except.ok.inj h)

/-- What opening a journal leaves as it is: the contents of the files that are there. -/
structure Files.Opened (fs fs' : Files) : Prop where
  cwd : fs'.cwd = fs.cwd
  sound : fs'.Sound
  content : ∀ n, n < fs.contents.size → fs'.content n = fs.content n

/-- Creating a log file at most makes directories and the file. -/
theorem LogFile.create_opened {fs fs' : Files} {path : Bytes} {file : LogFile} (hfs : fs.Sound)
    (h : LogFile.create fs path = .ok (file, fs')) : fs.Opened fs' := by
  obtain ⟨made, hmade, h⟩ := Except.exists_of_bind_eq_ok h
  obtain ⟨⟨n, written⟩, hopen, h⟩ := Except.exists_of_bind_eq_ok h
  obtain ⟨-, rfl⟩ := Prod.mk.inj (Except.ok.inj h)
  have hdirectories : fs.OnlyDirectories made := .makeAll (Except.eq_ok_of_mapError hmade)
  have hcontent (n : Nat) : made.content n = fs.content n := by
    rw [Files.content, Files.content, hdirectories.contents]
  -- The file was there, or it is new and its contents are those of no other file.
  rcases Files.openWrite_cases (Except.eq_ok_of_mapError hopen) with ⟨-, -, rfl⟩ | ⟨place,
    hresolve, -, rfl⟩
  · exact ⟨hdirectories.cwd, hdirectories.sound hfs, fun n _ => hcontent n⟩
  · obtain ⟨hplace, -⟩ := Files.node?_of_walk (Files.walk_of_resolve hresolve)
    refine ⟨hdirectories.cwd, (hdirectories.sound hfs).create hplace [], fun n hn => ?_⟩
    rw [Files.content_create (hdirectories.contents ▸ hn), hcontent]

/-- Creating a journal at most opens its log file. -/
theorem Journal.create_opened {clock level path : Bytes} {fs fs' : Files} {j : Journal}
    (hfs : fs.Sound) (h : Journal.create clock level path fs = .ok (j, fs')) : fs.Opened fs' := by
  have hrefl : fs.Opened fs := ⟨rfl, hfs, fun _ _ => rfl⟩
  unfold create at h
  split at h
  next =>
    cases h
    exact hrefl
  next =>
    split at h
    next =>
      cases h
      exact hrefl
    next =>
      obtain ⟨⟨file, opened⟩, hfile, h⟩ := Except.exists_of_bind_eq_ok h
      cases h
      exact LogFile.create_opened hfs hfile

end Rill
