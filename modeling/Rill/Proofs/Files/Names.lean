import Rill.Proofs.Files.Places

/-!
# Names of files

A file is known by its number, and its name may change. Opening a path for writing and renaming a
file to an unused name change names only, and so does making a directory: every file keeps its
contents, and every file that has a name still has one.

* `Files.Named`, `Files.fileAt?`: whether a file has a name, and the file that a path leads to.
* `Files.Renamed`: what the three operations have in common.
* `Files.openWrite_renamed`, `Files.fileAt?_openWrite`: a path that was opened leads to the file
  that was opened.
* `Files.rename_renamed`: renaming to an unused name.
* `Files.makeDirectory_renamed`: making a directory.
-/

namespace Rill.Files

variable {fs fs' : Files} {place : List Bytes} {path source : Bytes} {m n : Nat}

/-- Some place is that of the file. -/
def Named (fs : Files) (n : Nat) : Prop := ∃ place, fs.node? place = some (.file n)

/-- The file that a path leads to. -/
def fileAt? (fs : Files) (path : Bytes) : Option Nat :=
  match fs.resolve path with
  | .ok (.taken _ (.file n)) => some n
  | _ => none

/-- A path that resolves to a file is a path of this file. -/
theorem fileAt?_of_resolve (h : fs.resolve path = .ok (.taken place (.file n))) :
    fs.fileAt? path = some n := by
  rw [fileAt?, h]

/-- A file that a path leads to has a name. -/
theorem named_of_fileAt? (h : fs.fileAt? path = some n) : fs.Named n := by
  unfold fileAt? at h
  split at h
  next place m hresolve =>
    cases h
    exact ⟨place, (mem_trail_of_resolve hresolve).2⟩
  next => cases h

/-- A path that resolves to a free spot has no node there, and the spot is not the root. -/
theorem node?_of_resolve {slashed : Bool} (h : fs.resolve path = .ok (.free place slashed)) :
    place ≠ [] ∧ fs.node? place = none :=
  node?_of_walk (walk_of_resolve h)

/-- Whether a path can be followed at all does not depend on what the file system holds. -/
theorem resolve_of_walk {spot spot' : Spot} (h : fs.resolve path = .ok spot)
    (hwalk : fs'.walk (origin fs'.cwd path) (Bytes.splitOn Path.slash path) = .ok spot') :
    fs'.resolve path = .ok spot' := by
  rw [resolve_eq_walk] at h ⊢
  split at h
  · cases h
  next hzero =>
    rw [if_neg hzero]
    split at h
    · cases h
    next hempty =>
      rw [if_neg hempty]
      split at h
      · cases h
      next hlimit => rw [if_neg hlimit, hwalk]

/-- Files have other names than before. -/
structure Renamed (fs fs' : Files) : Prop where
  sound : fs'.Sound
  content : ∀ n, fs'.content n = fs.content n
  named : ∀ n, fs.Named n → fs'.Named n

theorem Renamed.refl (h : fs.Sound) : Renamed fs fs := ⟨h, fun _ => rfl, fun _ hn => hn⟩

/-- Appending to a file changes its content, and no other one. -/
theorem content_append (hn : n < fs.contents.size) (piece : Bytes) :
    (fs.append n piece).content m = fs.content m ++ if n = m then piece else [] := by
  split
  next heq =>
    subst heq
    have hpieces : (fs.append n piece).contents[n]? = some (piece :: fs.contents[n]) := by
      rw [append, Array.getElem?_modify, if_pos rfl, Array.getElem?_eq_getElem hn, Option.map_some]
    rw [content, content, Array.getD_eq_getD_getElem?, Array.getD_eq_getD_getElem?, hpieces,
      Array.getElem?_eq_getElem hn, Option.getD_some, Option.getD_some, List.reverse_cons,
        List.flatten_append, List.flatten_singleton]
  next hne => rw [append, content_modify (Ne.symm hne), List.append_nil]

/-! ## Opening -/

/-- A created empty file changes no content, as a content that is missing is empty. -/
theorem content_create_nil (place : List Bytes) (m : Nat) :
    (fs.create place []).2.content m = fs.content m := by
  -- A number that is not in use yet has no contents, and neither has the new file.
  rcases Nat.lt_trichotomy m fs.contents.size with hlt | heq | hgt
  · exact content_create hlt []
  · simp [content, create, heq]
  · simp [content, create, Array.getElem?_push, Nat.ne_of_gt hgt, Nat.le_of_lt hgt]

/-- A file created in a free place only adds a name. -/
theorem create_renamed (h : fs.Sound) (hplace : place ≠ []) (hfree : fs.node? place = none) :
    Renamed fs (fs.create place []).2 where
  sound := h.create hplace []
  content := content_create_nil place
  named n := by
    rintro ⟨p, hp⟩
    refine ⟨p, ?_⟩
    rw [node?_create hplace, if_neg, hp]
    rintro rfl
    rw [hfree] at hp
    cases hp

/-- Opening a file to write changes names only. -/
theorem openWrite_renamed (h : fs.Sound) (hopen : fs.openWrite path = .ok (n, fs')) :
    Renamed fs fs' := by
  -- The file is there already, or it is made without contents.
  rcases openWrite_cases hopen with ⟨place, -, rfl⟩ | ⟨place, hresolve, -, rfl⟩
  · exact .refl h
  · obtain ⟨hplace, hfree⟩ := node?_of_resolve hresolve
    exact create_renamed h hplace hfree

/-- The way to a free place leads to the file that was made there. On the way there are directories
only, and they are still there. -/
theorem walk_create {free : List Bytes} {cs : List Bytes}
    (h : fs.walk place cs = .ok (.free free false)) (pieces : List Bytes) :
    (fs.create free pieces).2.walk place cs = .ok (.taken free (.file fs.contents.size)) := by
  obtain ⟨hfree, hnone⟩ := node?_of_walk h
  induction cs generalizing place with
  | nil => cases h
  | cons c rest ih =>
    rw [walk] at h ⊢
    split at h
    next hsame => rw [if_pos hsame]; exact ih h
    next hsame =>
      rw [if_neg hsame]
      split at h
      next hup => rw [if_pos hup]; exact ih h
      next hup =>
        rw [if_neg hup]
        split at h
        · cases h
        next hlimit =>
          rw [if_neg hlimit]
          dsimp only at h ⊢
          rw [node?_create hfree]
          split at h
          next hnode =>
            -- A directory on the way was there before, so it is not the place that was free.
            have hne : place ++ [c] ≠ free := by
              rintro rfl
              rw [hnone] at hnode
              cases hnode
            rw [if_neg hne, hnode]
            exact ih h
          next => split at h <;> cases h
          next =>
            split at h
            next =>
              obtain ⟨rfl, hrest⟩ := Spot.free.inj (Except.ok.inj h)
              rw [if_pos rfl]
              dsimp only
              rw [if_pos (by simpa using hrest)]
            next => cases h

/-- A path that was opened to write leads to the file that was opened. -/
theorem fileAt?_openWrite (hopen : fs.openWrite path = .ok (n, fs')) :
    fs'.fileAt? path = some n := by
  rcases openWrite_cases hopen with ⟨place, hresolve, rfl⟩ | ⟨place, hresolve, rfl, rfl⟩
  · exact fileAt?_of_resolve hresolve
  · exact fileAt?_of_resolve (resolve_of_walk hresolve (walk_create (walk_of_resolve hresolve) []))

/-! ## Renaming -/

/-- A file that is moved is found in its new place, and no longer in the old one. -/
theorem node?_move {target : List Bytes} (hplace : place ≠ []) (htarget : target ≠ [])
    (p : List Bytes) :
    node? { fs with nodes := (fs.nodes.erase place).put target (.file n) } p =
      if p = target then some (.file n) else if p = place then none else fs.node? p := by
  by_cases hp : p = []
  · rw [if_neg (hp ▸ htarget.symm), if_neg (hp ▸ hplace.symm), hp]
    rfl
  · rw [node?, if_neg hp, Table.get?_put, Table.get?_erase, node?, if_neg hp]
    simp only [eq_comm]

/-- A file that is moved to a free place has a name as before. -/
theorem move_renamed {target : List Bytes} (h : fs.Sound) (hplace : fs.node? place = some (.file n))
    (htarget : target ≠ []) (hfree : fs.node? target = none) :
    Renamed fs { fs with nodes := (fs.nodes.erase place).put target (.file n) } := by
  have hroot : place ≠ [] := by
    rintro rfl
    cases hplace
  refine ⟨⟨fun p m hm => ?_, fun p q m hp hq => ?_⟩, fun _ => rfl, ?_⟩
  · rw [node?_move hroot htarget] at hm
    split at hm
    · cases hm
      exact h.lt_size place n hplace
    · split at hm
      · cases hm
      · exact h.lt_size p m hm
  · -- Another place of the file would have been a second place of it before.
    rw [node?_move hroot htarget] at hp hq
    split at hp
    next hpt =>
      cases hp
      split at hq
      next hqt => rw [hpt, hqt]
      next =>
        split at hq
        next => cases hq
        next hne => exact absurd (h.unique q place n hq hplace) hne
    next =>
      split at hp
      next => cases hp
      next hne =>
        split at hq
        next =>
          cases hq
          exact absurd (h.unique p place n hp hplace) hne
        next =>
          split at hq
          next => cases hq
          next => exact h.unique p q m hp hq
  · rintro m ⟨p, hp⟩
    by_cases heq : p = place
    · rw [heq, hplace] at hp
      cases hp
      exact ⟨target, by rw [node?_move hroot htarget, if_pos rfl]⟩
    · refine ⟨p, ?_⟩
      rw [node?_move hroot htarget, if_neg, if_neg heq, hp]
      rintro rfl
      rw [hfree] at hp
      cases hp

/-- Renaming to an unused path changes names only. -/
theorem rename_renamed (h : fs.Sound) (hunused : fs.fileAt? path = none) :
    Renamed fs (fs.rename source path) := by
  unfold rename
  split
  next place n target m hsource htarget =>
    -- A file would be replaced here, and the name is not unused.
    rw [fileAt?_of_resolve htarget] at hunused
    cases hunused
  next place n target hsource htarget =>
    split
    · exact .refl h
    · obtain ⟨hroot, hfree⟩ := node?_of_resolve htarget
      exact move_renamed h (mem_trail_of_resolve hsource).2 hroot hfree
  next => exact .refl h

/-! ## Making a directory -/

/-- Making a directory changes names only. -/
theorem makeDirectory_renamed (h : fs.Sound) (hmade : fs.makeDirectory path = .ok fs') :
    Renamed fs fs' := by
  have hdirectories : OnlyDirectories fs fs' := .makeDirectory hmade
  refine ⟨hdirectories.sound h, fun n => by rw [content, content, hdirectories.contents], ?_⟩
  rintro n ⟨p, hp⟩
  refine ⟨p, ?_⟩
  unfold makeDirectory at hmade
  split at hmade
  next => cases hmade
  next place slashed hresolve =>
    obtain ⟨-, hfree⟩ := node?_of_resolve hresolve
    -- The directory is made in a free place, and a named file is not in one.
    have hne : place ≠ p := by
      rintro rfl
      rw [hfree] at hp
      cases hp
    cases hmade
    rw [node?] at hp ⊢
    split at hp
    · cases hp
    next hroot => rw [if_neg hroot, Table.get?_put, if_neg hne, hp]
  next => split at hmade <;> cases hmade
  next => cases hmade

end Rill.Files
