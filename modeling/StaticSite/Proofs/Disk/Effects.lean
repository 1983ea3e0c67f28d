import StaticSite.Proofs.Disk.Following

-- What each operation on a disk changes, read off the place that its path names.
namespace StaticSite.Disk

variable {disk next : Disk} {path : Path}

@[simp]
theorem workDir_putFile (disk : Disk) (name : String) (parent : Location) (content : ByteArray) :
    (disk.putFile name parent content).workDir = disk.workDir := by
  unfold putFile
  split <;> rfl

@[simp]
theorem workDir_putDirectory (disk : Disk) (name : String) (parent : Location) :
    (disk.putDirectory name parent).workDir = disk.workDir := by
  unfold putDirectory
  split <;> rfl

@[simp]
theorem workDir_erase (disk : Disk) (location : Location) :
    (disk.erase location).workDir = disk.workDir := by
  cases location <;> rfl

@[simp]
theorem workDir_eraseBelow (disk : Disk) (location : Location) :
    (disk.eraseBelow location).workDir = disk.workDir := rfl

-- Directories have been made where there was nothing, and nothing else has changed.
structure Grows (made : Location → Prop) (before after : Disk) : Prop where
  workDir : after.workDir = before.workDir
  kind? : ∀ location, after.kind? location = before.kind? location ∨
    made location ∧ before.kind? location = none ∧ after.kind? location = some .directory

namespace Grows

variable {made : Location → Prop} {before middle after : Disk}

theorem refl (disk : Disk) : disk.Grows made disk :=
  ⟨rfl, fun _ => .inl rfl⟩

theorem trans (h : before.Grows made middle) (h' : middle.Grows made after) :
    before.Grows made after := by
  refine ⟨h'.workDir.trans h.workDir, fun location => ?_⟩
  rcases h.kind? location with heq | ⟨hmade, hnone, hdirectory⟩
  · rcases h'.kind? location with heq' | ⟨hmade, hnone, hdirectory⟩
    · exact .inl (heq'.trans heq)
    · exact .inr ⟨hmade, heq ▸ hnone, hdirectory⟩
  · rcases h'.kind? location with heq' | ⟨-, hnone', -⟩
    · exact .inr ⟨hmade, hnone, heq'.trans hdirectory⟩
    · rw [hdirectory] at hnone'
      cases hnone'

theorem mono {other : Location → Prop} (h : before.Grows made after)
    (himp : ∀ location, made location → other location) : before.Grows other after := by
  refine ⟨h.workDir, fun location => ?_⟩
  rcases h.kind? location with heq | ⟨hmade, hkind⟩
  · exact .inl heq
  · exact .inr ⟨himp location hmade, hkind⟩

theorem file?_eq (h : before.Grows made after) (location : Location) :
    after.file? location = before.file? location := by
  rcases h.kind? location with heq | ⟨-, hnone, hdirectory⟩
  · exact file?_eq_of_kind?_eq heq
  · rw [file?, file?, hnone, hdirectory]

theorem kind?_of_some (h : before.Grows made after) {location : Location} {kind : Kind}
    (hkind : before.kind? location = some kind) : after.kind? location = some kind := by
  rcases h.kind? location with heq | ⟨-, hnone, -⟩
  · exact heq.trans hkind
  · rw [hnone] at hkind
    cases hkind

end Grows

theorem makeDirectory_eq_ok (h : disk.makeDirectory path = .ok next) :
    ∃ name parent, name :: parent = Location.walk disk.workDir path ∧ path.check = .ok () ∧
      IsName name ∧ name.utf8ByteSize ≤ longestName ∧ disk.kind? parent = some .directory ∧
      disk.kind? (name :: parent) = none ∧ next = disk.putDirectory name parent := by
  obtain ⟨ending, hending, h⟩ := bind_eq_ok.1 h
  cases ending with
  | root => cases h
  | here => cases h
  | up => cases h
  | name parent name =>
      obtain ⟨hcheck, hname, hparent, hwalk⟩ := ending_eq_name hending
      dsimp only at h
      split at h
      · cases h
      · next hsome =>
        split at h
        · cases h
        · next hlong =>
          cases h
          refine ⟨name, parent, hwalk, hcheck, hname, by omega, hparent, ?_, rfl⟩
          rw [kind?_eq_none]
          simpa using hsome

theorem grows_of_makeDirectory {made : Location → Prop} (h : disk.makeDirectory path = .ok next)
    (hmade : path.check = .ok () → ∀ name parent, name :: parent = Location.walk disk.workDir path →
      name.utf8ByteSize ≤ longestName → made (name :: parent)) : disk.Grows made next := by
  obtain ⟨name, parent, hwalk, hcheck, hname, hlength, hparent, hnone, rfl⟩ :=
    makeDirectory_eq_ok h
  refine ⟨workDir_putDirectory _ _ _, fun location => ?_⟩
  rw [kind?_putDirectory hname hparent hnone]
  by_cases heq : location = name :: parent
  · subst heq
    exact .inr ⟨hmade hcheck name parent hwalk hlength, hnone, if_pos rfl⟩
  · exact .inl (if_neg heq)

theorem makeWay_grows {made : Location → Prop} {segments : List String}
    (hmade : ∀ above, above <:+ segments → (Path.ofSegments above.reverse).check = .ok () →
      ∀ name parent, name :: parent = Location.walk disk.workDir (Path.ofSegments above.reverse) →
        name.utf8ByteSize ≤ longestName → made (name :: parent)) :
    disk.Grows made (disk.makeWay segments).2 := by
  induction segments generalizing disk with
  | nil => exact .refl disk
  | cons segment rest ih =>
      have hrest := ih fun above habove => hmade above (habove.trans (List.suffix_cons _ _))
      rw [makeWay]
      split
      · exact hrest
      · dsimp only
        have hself := hmade (segment :: rest) List.suffix_rfl
        split
        · next made hmake => exact grows_of_makeDirectory hmake hself
        · split
          · next fault middle hway =>
            rw [hway] at hrest
            exact hrest
          · next middle hway =>
            rw [hway] at hrest
            split
            · next made hmake =>
              refine hrest.trans (grows_of_makeDirectory hmake ?_)
              rw [hrest.workDir]
              exact hself
            · exact hrest
        · exact .refl disk

theorem makeDirectories_grows (disk : Disk) (path : Path) :
    disk.Grows (fun _ => True) (disk.makeDirectories path).2 := by
  unfold makeDirectories
  split
  · exact .refl disk
  · exact makeWay_grows fun _ _ _ _ _ _ _ => trivial

theorem write_eq_ok {content : ByteArray} (h : disk.write path content = .ok next) :
    ∃ name parent, name :: parent = Location.walk disk.workDir path ∧ path.check = .ok () ∧
      IsName name ∧ disk.kind? parent = some .directory ∧
      disk.kind? (name :: parent) ≠ some .directory ∧
      (disk.kind? (name :: parent) = none → name.utf8ByteSize ≤ longestName) ∧
      next = disk.putFile name parent content := by
  obtain ⟨ending, hending, h⟩ := bind_eq_ok.1 h
  cases ending with
  | root => cases h
  | here => cases h
  | up => cases h
  | name parent name =>
      obtain ⟨hcheck, hname, hparent, hwalk⟩ := ending_eq_name hending
      dsimp only at h
      split at h
      · cases h
      · split at h
        · cases h
        · next other hget =>
          cases h
          have hkind : disk.kind? (name :: parent) = some (.file other) := kind?_eq_file.2 hget
          exact ⟨name, parent, hwalk, hcheck, hname, hparent, by simp [hkind], by simp [hkind], rfl⟩
        · next hget =>
          have hkind : disk.kind? (name :: parent) = none := kind?_eq_none.2 hget
          split at h
          · cases h
          · next hlong =>
            cases h
            exact ⟨name, parent, hwalk, hcheck, hname, hparent, by simp [hkind],
              fun _ => by omega, rfl⟩

theorem kind?_write {content : ByteArray} (h : disk.write path content = .ok next)
    (location : Location) : next.kind? location =
      if location = Location.walk disk.workDir path then some (.file content)
      else disk.kind? location := by
  obtain ⟨name, parent, hwalk, -, hname, hparent, hfree, -, rfl⟩ := write_eq_ok h
  rw [kind?_putFile hname hparent hfree, hwalk]

theorem workDir_write {content : ByteArray} (h : disk.write path content = .ok next) :
    next.workDir = disk.workDir := by
  obtain ⟨name, parent, -, -, -, -, -, -, rfl⟩ := write_eq_ok h
  exact workDir_putFile _ _ _ _

theorem copy_eq_ok {source target : Path} (h : disk.copy source target = .ok next) :
    ∃ content middle last, disk.read source = .ok content ∧
      disk.write target ByteArray.empty = .ok middle ∧ middle.read source = .ok last ∧
      middle.write target last = .ok next := by
  obtain ⟨content, hcontent, h⟩ := bind_eq_ok.1 h
  obtain ⟨middle, hmiddle, h⟩ := bind_eq_ok.1 h
  obtain ⟨last, hlast, h⟩ := bind_eq_ok.1 h
  exact ⟨content, middle, last, hcontent, hmiddle, hlast, h⟩

theorem workDir_copy {source target : Path} (h : disk.copy source target = .ok next) :
    next.workDir = disk.workDir := by
  obtain ⟨content, middle, last, -, hmiddle, -, hnext⟩ := copy_eq_ok h
  rw [workDir_write hnext, workDir_write hmiddle]

theorem kind?_copy_of_ne {source target : Path} (h : disk.copy source target = .ok next)
    {location : Location} (hne : location ≠ Location.walk disk.workDir target) :
    next.kind? location = disk.kind? location := by
  obtain ⟨content, middle, last, -, hmiddle, -, hnext⟩ := copy_eq_ok h
  rw [kind?_write hnext, workDir_write hmiddle, if_neg hne, kind?_write hmiddle, if_neg hne]

-- A file copied to another place is there what it is at its own.
theorem kind?_copy {source target : Path} (h : disk.copy source target = .ok next)
    (hne : Location.walk disk.workDir source ≠ Location.walk disk.workDir target)
    (location : Location) : next.kind? location =
      if location = Location.walk disk.workDir target then
        disk.kind? (Location.walk disk.workDir source)
      else disk.kind? location := by
  by_cases heq : location = Location.walk disk.workDir target
  · obtain ⟨content, middle, last, -, hmiddle, hlast, hnext⟩ := copy_eq_ok h
    have hfile := file?_eq_some.1 (file?_of_read hlast)
    rw [workDir_write hmiddle, kind?_write hmiddle, if_neg hne] at hfile
    rw [if_pos heq, kind?_write hnext, workDir_write hmiddle, if_pos heq, hfile]
  · rw [if_neg heq, kind?_copy_of_ne h heq]

theorem removeFile_eq_ok (h : disk.removeFile path = .ok next) :
    ∃ content, disk.kind? (Location.walk disk.workDir path) = some (.file content) ∧
      next = disk.erase (Location.walk disk.workDir path) := by
  obtain ⟨ending, hending, h⟩ := bind_eq_ok.1 h
  cases ending with
  | root => cases h
  | here => cases h
  | up => cases h
  | name parent name =>
      obtain ⟨-, -, -, hwalk⟩ := ending_eq_name hending
      rw [← hwalk]
      dsimp only at h
      split at h
      · cases h
      · cases h
      · next content hget =>
        split at h
        · cases h
        · cases h
          exact ⟨content, kind?_eq_file.2 hget, rfl⟩

theorem kind?_removeFile (h : disk.removeFile path = .ok next) (location : Location) :
    next.kind? location =
      if location = Location.walk disk.workDir path then none else disk.kind? location := by
  obtain ⟨content, hfile, rfl⟩ := removeFile_eq_ok h
  obtain ⟨name, parent, heq⟩ : ∃ name parent, Location.walk disk.workDir path = name :: parent := by
    cases hwalk : Location.walk disk.workDir path with
    | nil =>
        rw [hwalk, kind?_nil] at hfile
        cases hfile
    | cons name parent => exact ⟨name, parent, rfl⟩
  rw [heq] at hfile ⊢
  rw [kind?_erase]
  by_cases hwithin : within (name :: parent) location
  · obtain ⟨below, rfl⟩ := within_iff.1 hwithin
    rw [if_pos hwithin]
    by_cases hbelow : below = []
    · subst hbelow
      exact (if_pos rfl).symm
    · rw [if_neg (by simpa using hbelow), kind?_below_of_ne_directory (by simp [hfile]) hbelow]
  · rw [if_neg hwithin, if_neg]
    rintro rfl
    exact hwithin (within_refl _)

theorem workDir_removeFile (h : disk.removeFile path = .ok next) :
    next.workDir = disk.workDir := by
  obtain ⟨content, -, rfl⟩ := removeFile_eq_ok h
  exact workDir_erase _ _

theorem emptyDirectory_eq_ok (h : disk.emptyDirectory path = .ok next) :
    next = disk ∨ disk.kind? (Location.walk disk.workDir path) = some .directory ∧
      next = disk.eraseBelow (Location.walk disk.workDir path) := by
  obtain ⟨spot, hspot, h⟩ := bind_eq_ok.1 h
  obtain ⟨hvalid, hlocation⟩ := find_valid hspot
  cases spot with
  | file trail name content => cases h
  | removed above =>
      cases h
      exact .inl rfl
  | directory trail =>
      cases h
      have hlocation : trail.location = Location.walk disk.workDir path := hlocation
      rw [← hlocation]
      exact .inr ⟨Trail.kind?_location hvalid, rfl⟩

theorem removeEmptied_eq_ok (h : disk.removeEmptied path = .ok next) :
    ∃ name parent, name :: parent = Location.walk disk.workDir path ∧
      next = disk.erase (name :: parent) := by
  obtain ⟨ending, hending, h⟩ := bind_eq_ok.1 h
  cases ending with
  | root => cases h
  | here => cases h
  | up => cases h
  | name parent name =>
      obtain ⟨-, -, -, hwalk⟩ := ending_eq_name hending
      dsimp only at h
      split at h
      · cases h
      · cases h
        exact ⟨name, parent, hwalk, rfl⟩

-- Removing a directory touches nothing outside of it, even when it fails halfway.
theorem removeDirectory_frame (disk : Disk) (path : Path) :
    (disk.removeDirectory path).2.workDir = disk.workDir ∧
      ∀ location, ¬ within (Location.walk disk.workDir path) location →
        (disk.removeDirectory path).2.kind? location = disk.kind? location := by
  unfold removeDirectory
  cases hempty : disk.emptyDirectory path with
  | error fault => exact ⟨rfl, fun _ _ => rfl⟩
  | ok middle =>
      have hmiddle : middle.workDir = disk.workDir ∧
          ∀ location, ¬ within (Location.walk disk.workDir path) location →
            middle.kind? location = disk.kind? location := by
        rcases emptyDirectory_eq_ok hempty with rfl | ⟨hkind, rfl⟩
        · exact ⟨rfl, fun _ _ => rfl⟩
        · refine ⟨workDir_eraseBelow _ _, fun location hnot => ?_⟩
          rw [kind?_eraseBelow hkind, if_neg fun h => hnot h.1]
      cases hremove : middle.removeEmptied path with
      | error fault => simpa [hremove] using hmiddle
      | ok last =>
          obtain ⟨name, parent, hwalk, rfl⟩ := removeEmptied_eq_ok hremove
          rw [hmiddle.1] at hwalk
          dsimp only
          rw [hremove]
          refine ⟨(workDir_erase _ _).trans hmiddle.1, fun location hnot => ?_⟩
          rw [kind?_erase, if_neg (hwalk ▸ hnot), hmiddle.2 location hnot]

end StaticSite.Disk
