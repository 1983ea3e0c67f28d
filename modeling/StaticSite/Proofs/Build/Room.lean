import StaticSite.Proofs.Build.Repeated

-- Which files can be put into an output directory once it has been cleared. Whether one can does
-- not depend on those that have been put there before.
namespace StaticSite

open Disk (within)

namespace Scene

variable {scene : Scene} {location place : Location}

-- All that is missing on the way to a place can be given its name.
theorem passable_iff (hroot : scene [] = some .directory) :
    scene.Passable location ↔ ∀ above, within above location →
      scene above = some .directory ∨ scene above = none ∧ above.Creatable := by
  induction location with
  | nil =>
      refine iff_of_true trivial fun above habove => .inl ?_
      rw [List.suffix_nil.1 (List.isSuffixOf_iff_suffix.1 habove), hroot]
  | cons name parent ih =>
      simp only [Passable, ih, within_cons_iff, forall_eq_or_imp]
      exact and_congr_left fun _ => or_congr_right (and_congr_right fun _ => by
        simp [Location.Creatable])

end Scene

namespace Slot

variable {slot other : Slot} {scene : Scene} {content : ByteArray}

-- Putting a file at a place makes the directories above it, and these only if they can be passed.
theorem passable_fill {location : Location} (h : ¬ within slot.place location) :
    Scene.Passable (slot.fill content scene) location ↔ scene.Passable location := by
  have hfill : ∀ above, within above location → slot.fill content scene above =
      if slot.near then scene.raise slot.place.tail above else scene above := by
    intro above habove
    refine fill_of_ne ?_
    rintro rfl
    exact h habove
  rw [Scene.passable_congr hfill]
  by_cases hnear : slot.near = true
  · simp only [hnear, if_true]
    exact Scene.passable_raise
  · simp only [hnear]
    exact Iff.rfl

-- A file fits where it has been put, or could not be put.
theorem fits_fill_self (hne : slot.place ≠ []) :
    slot.Fits (slot.fill content scene) ↔ slot.Fits scene := by
  have hpass := @passable_fill slot scene content slot.place.tail (not_within_tail hne)
  by_cases hfits : slot.Fits scene
  · have hself : slot.fill content scene slot.place = some (.file content) :=
      if_pos ⟨rfl, hfits⟩
    refine iff_of_true ⟨hfits.1, hpass.2 hfits.2.1, ?_, ?_⟩ hfits <;> simp [hself]
  · have hself : slot.fill content scene slot.place = scene slot.place := by
      rw [fill_of_not_fits hfits, Scene.raise_of_not_within (not_within_tail hne), ite_self]
    rw [Fits, Fits, hpass, hself]

theorem fits_fill_of_apart (h : slot.place.Apart other.place) :
    other.Fits (slot.fill content scene) ↔ other.Fits scene := by
  have hplace : slot.fill content scene other.place = scene other.place := by
    rw [fill_of_ne (Scene.ne_of_not_within h.1), Scene.raise_of_not_within
      (Scene.not_within_tail_of_not_within h.2), ite_self]
  rw [Fits, Fits, passable_fill (Scene.not_within_tail_of_not_within h.1), hplace]

end Slot

namespace Disk

variable {disk cleared : Disk} {out root target : Path} {top : Location}

-- A file can be put at an output once the output directory has been cleared: its path can be
-- followed, and what is missing on the way can be given its name.
def HasRoom (disk : Disk) (out : Path) (relative : String) : Prop :=
  (out.join ⟨relative⟩).check = .ok () ∧
    ∀ above, within above (Location.walk disk.workDir (out.join ⟨relative⟩)) →
      disk.kind? above = some .directory ∧ ¬ within (Location.walk disk.workDir out) above ∨
        above.Creatable

-- The output directory is made for it.
theorem HasRoom.creatable {relative : String} (h : disk.HasRoom out relative)
    (hrelative : IsRelative relative) : (Location.walk disk.workDir out).Creatable :=
  (h.2 _ (hrelative.within_join disk.workDir out)).resolve_left fun hboth =>
    hboth.2 (within_refl _)

theorem Readied.fits_iff {relative : String} (h : Readied out disk cleared)
    (hstraight : out.Straight) (hgrounded : cleared.Grounded out) (hrelative : IsRelative relative) :
    ((out.join ⟨relative⟩).slot cleared.workDir).Fits cleared.kind? ↔
      disk.HasRoom out relative := by
  obtain ⟨below, hne, hnamed, rfl⟩ := hrelative
  obtain ⟨name, rest, rfl⟩ := List.exists_cons_of_ne_nil hne
  obtain ⟨⟨hwork, hkind⟩, -, hway, -⟩ := h
  have haims := aims_join hstraight hgrounded hnamed
  have hfits := Progress.fits_slot haims
  have hwalk := haims.walk
  rw [hwork] at hfits hwalk
  rw [hwork, hfits, HasRoom, hwalk]
  generalize Location.walk disk.workDir out = top at *
  have hinside : within top (name :: (rest ++ top)) := within_append (name :: rest) top
  have hgone : cleared.kind? (name :: (rest ++ top)) = none := by rw [hkind, if_pos hinside]
  -- What is asked of the name of the file is what is asked of those of the directories.
  have hpass : (Scene.Passable cleared.kind? (rest ++ top) ∧
      cleared.kind? (name :: (rest ++ top)) ≠ some .directory ∧
      (cleared.kind? (name :: (rest ++ top)) = none → name.utf8ByteSize ≤ longestName)) ↔
        Scene.Passable cleared.kind? (name :: (rest ++ top)) := by
    rw [Scene.Passable, hgone]
    simp [haims.isName, and_comm]
  rw [hpass, Scene.passable_iff cleared.kind?_nil]
  refine and_congr_right fun _ => forall_congr' fun above => imp_congr_right fun habove => ?_
  rw [hkind]
  by_cases hwithin : within top above
  · simp [hwithin]
  · have habove : within above top := (within_or_within habove hinside).resolve_right hwithin
    cases hthere : disk.kind? above with
    | none => simp [hwithin]
    | some kind =>
        cases kind with
        | directory => simp [hwithin]
        | file content => exact absurd hthere (hway above content habove)

-- A directory that has been cleared is given by its name.
theorem endsInName_of_clearOutput {progress next : Progress}
    (habsolute : out.absolute progress.disk.base? = .ok target) (hstraight : out.Straight)
    (hkind : progress.disk.kind? (Location.walk progress.disk.workDir out) = some .directory)
    (h : progress.clearOutput out = (.ok (), next)) : out.EndsInName := by
  by_contra hname
  have hcheck := check_of_clearOutput (stands_origin habsolute).1 h
  have hempty := emptyDirectory_of_directory hstraight hcheck (grounded_of_absolute habsolute) hkind
  have hemptied : (progress.disk.eraseBelow (Location.walk progress.disk.workDir out)).kind?
      (Location.walk progress.disk.workDir out) = some .directory := by
    rw [kind?_eraseBelow hkind, if_neg fun hboth => hboth.2 rfl, hkind]
  obtain ⟨trail, hfind⟩ := find_of_directory hstraight hcheck
    (grounded_eraseBelow habsolute hstraight hkind) (by rwa [workDir_eraseBelow])
  obtain ⟨fault, hremove, hne⟩ := removeEmptied_of_not_endsInName hname hfind
  rw [Progress.clearOutput, removeDirectory, hempty] at h
  dsimp only at h
  rw [hremove] at h
  cases fault <;> first | exact absurd rfl hne | cases h

-- A path by which an output directory has been cleared can still be followed as far as it goes.
theorem readied_grounded {progress next : Progress}
    (habsolute : out.absolute progress.disk.base? = .ok target) (hstraight : out.Straight)
    (h : progress.clearOutput out = (.ok (), next)) :
    Readied out progress.disk next.disk ∧ next.disk.Grounded out := by
  by_cases hkind : progress.disk.kind? (Location.walk progress.disk.workDir out) = some .directory
  · have hname := endsInName_of_clearOutput habsolute hstraight hkind h
    have hready := readied_of_clearOutput habsolute hstraight hname h
    exact ⟨hready, hready.grounded habsolute hstraight (.inr ⟨rfl, hname⟩)⟩
  · obtain ⟨hready, hsame⟩ := readied_of_not_directory habsolute hstraight hkind h
    exact ⟨hready, hsame ▸ grounded_of_absolute habsolute⟩

-- Of the outputs of two pages none lies below the other, as their files do not.
theorem apart_of_scanSource {tree : SourceTree} {left right : ContentFile}
    (h : disk.scanSource root = .ok tree) (hleft : left ∈ tree.files) (hright : right ∈ tree.files)
    (hpublic : left.isPublic) (hne : left ≠ right) (top : Location) :
    (Location.walk top ⟨left.relative⟩).Apart (Location.walk top ⟨right.relative⟩) := by
  have hscanned := scanned_of_scanSource h
  obtain ⟨found, hfound, rfl⟩ := map_eq_ok.1 h
  have hfile : ∀ file ∈ (SourceTree.ofFound found).files, ∃ below, disk.HasFile root below ∧
      file.relative = "/".intercalate below.reverse := fun file hmem =>
    hasFile_of_mem_scan hfound (SourceTree.mem_files_ofFound hmem).2
  obtain ⟨below, hthere, hrelative⟩ := hfile left hleft
  obtain ⟨below', hthere', hrelative'⟩ := hfile right hright
  have hbelow : below ≠ below' := by
    rintro rfl
    exact hne (hscanned.unique left hleft right hright hpublic (hrelative.trans hrelative'.symm))
  rw [hrelative, hrelative', Location.walk_names (hasFile_named hthere),
    Location.walk_names (hasFile_named hthere')]
  refine Location.Apart.append ⟨fun hwithin => hbelow ?_, fun hwithin => hbelow ?_⟩ top
  · exact List.append_cancel_right
      (eq_of_within_of_file? hthere.2 hthere'.2 (within_append_right_iff.2 hwithin))
  · exact (List.append_cancel_right
      (eq_of_within_of_file? hthere'.2 hthere.2 (within_append_right_iff.2 hwithin))).symm

end Disk

end StaticSite
