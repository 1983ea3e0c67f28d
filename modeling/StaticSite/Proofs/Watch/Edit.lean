import StaticSite.Proofs.Build.Frame
import StaticSite.Proofs.Disk.Renaming
import StaticSite.Proofs.Watch.Shift
import StaticSite.Watch.Event

-- Edits of a tree: what they change on the disk, and what is reported of them.
namespace StaticSite

open Disk (within)

-- A change of what is at a place of a tree.
inductive Edit where
  | write (file : Location) (content : ByteArray)
  | removeFile (file : Location)
  | removeDirectory (directory : Location)
  | rename (old new : Location)
deriving DecidableEq

namespace Edit

-- The places that an edit names.
def places : Edit → List Location
  | .write place _ | .removeFile place | .removeDirectory place => [place]
  | .rename old new => [old, new]

-- The places can be named, and the root of the tree is none of them.
def Inside (edit : Edit) : Prop :=
  ∀ place ∈ edit.places, place ≠ [] ∧ place.Named

instance (edit : Edit) : Decidable edit.Inside := by
  unfold Inside Location.Named; infer_instance

-- The disk after an edit of the tree at `root`. The directory of what is written or renamed is
-- made if it is missing.
def apply (edit : Edit) (root : Location) (disk : Disk) : Except Fault Disk :=
  match edit with
  | .write file content =>
    match disk.makeParent (Location.path (file ++ root)) with
    | (.error fault, _) => .error fault
    | (.ok (), disk) => disk.write (Location.path (file ++ root)) content
  | .removeFile file => disk.removeFile (Location.path (file ++ root))
  | .removeDirectory directory =>
    match disk.removeDirectory (Location.path (directory ++ root)) with
    | (.error fault, _) => .error fault
    | (.ok (), disk) => .ok disk
  | .rename old new =>
    match disk.makeParent (Location.path (new ++ root)) with
    | (.error fault, _) => .error fault
    | (.ok (), disk) => disk.rename (Location.path (old ++ root)) (Location.path (new ++ root))

-- The events that may be reported of an edit. A file that is written is new or has changed, and
-- a rename is a removal and an addition.
def reports (edit : Edit) (root : Location) : List (List Event) :=
  match edit with
  | .write file _ =>
    [[⟨.add, Location.path (file ++ root)⟩], [⟨.change, Location.path (file ++ root)⟩]]
  | .removeFile place | .removeDirectory place => [[⟨.unlink, Location.path (place ++ root)⟩]]
  | .rename old new =>
    [[⟨.unlink, Location.path (old ++ root)⟩, ⟨.add, Location.path (new ++ root)⟩]]

-- Where something is gone after the edit, unless it has come there.
def Gone : Edit → Location → Prop
  | .write _ _, _ => False
  | .removeFile place, location | .removeDirectory place, location => within place location
  | .rename old _, location => within old location

-- Where something has come.
def Come : Edit → Location → Prop
  | .write file _, location => within file location
  | .removeFile _, _ | .removeDirectory _, _ => False
  | .rename _ new, location => within new location

-- The places that an edit takes away, and those at which it puts something.
def goes : Edit → List Location
  | .write _ _ => []
  | .removeFile place | .removeDirectory place => [place]
  | .rename old _ => [old]

def comes : Edit → List Location
  | .write file _ => [file]
  | .removeFile _ | .removeDirectory _ => []
  | .rename _ new => [new]

theorem gone_iff_goes {edit : Edit} {location : Location} :
    edit.Gone location ↔ ∃ place ∈ edit.goes, within place location := by
  cases edit <;> simp [Gone, goes]

theorem come_iff_comes {edit : Edit} {location : Location} :
    edit.Come location ↔ ∃ place ∈ edit.comes, within place location := by
  cases edit <;> simp [Come, comes]

end Edit

namespace Disk

variable {roots : Roots} {disk next : Disk} {root place old new : Location} {name : String}

theorem within_of_below {location : Location} (h : within (place ++ root) location) :
    within root location :=
  within_trans (within_append place root) h

-- Whatever is removed is removed with all that is below it.
theorem kind?_removeFile_within (hne : place ≠ []) (hnamed : place.Named)
    (h : disk.removeFile place.path = .ok next) (location : Location) :
    next.kind? location = if within place location then none else disk.kind? location := by
  obtain ⟨content, -, rfl⟩ := removeFile_eq_ok h
  obtain ⟨name, parent, rfl⟩ := List.exists_cons_of_ne_nil hne
  rw [Location.walk_path hnamed, kind?_erase]

theorem edited_of_removed (h : ∀ location, next.kind? location =
    if within (place ++ root) location then none else disk.kind? location) :
    Edited roots root (within place ·) (fun _ => False) disk next := by
  refine ⟨⟨fun other hstays _ => ?_, fun other hgone _ => ?_, fun _ h => h.elim⟩,
    fun location hnot => file?_eq_of_kind?_eq ?_, fun location hnot hdirectory => ?_,
    fun htidy => tidy_of_kind? htidy fun location kind _ hkind => ?_⟩
  · refine file?_eq_of_kind?_eq ?_
    rw [h, if_neg (mt within_append_right_iff.1 hstays)]
  · rw [file?, h, if_pos (within_append_right_iff.2 hgone)]
  · rw [h, if_neg (mt within_of_below hnot)]
  · rw [h, if_neg (mt within_of_below hnot), hdirectory]
  · rw [h] at hkind
    split at hkind
    · cases hkind
    · exact .inl (by simp [hkind])

theorem edited_of_written {content : ByteArray} {middle : Disk} (hroot : root ≠ [])
    (hnamed : Location.Named (name :: place ++ root))
    (hmake : disk.makeParent (Location.path (name :: place ++ root)) = (.ok (), middle))
    (h : middle.write (Location.path (name :: place ++ root)) content = .ok next) :
    Edited roots root (fun _ => False) (within (name :: place) ·) disk next := by
  obtain ⟨hmiddle, -, htidy⟩ := makeParent_keeps (by simp [hroot]) hnamed hmake
  have hgrows : disk.Grows (fun _ => True) middle := by
    simpa only [hmake] using disk.makeParent_grows (Location.path (name :: place ++ root))
  have hsets := @write_sets middle next roots.out _ content hnamed h
  have hfile : ∀ location, location ≠ name :: place ++ root →
      next.file? location = disk.file? location := fun location hne => by
    rw [hsets.file?, if_neg hne, hmiddle]
  refine ⟨⟨fun other _ hstays => hfile _ ?_, fun _ h => h.elim, fun other hcome _ hsome => ?_⟩,
    fun location hnot => hfile _ ?_, fun location hnot hdirectory => ?_,
    fun h => hsets.tidy (htidy _ h)⟩
  · rintro heq
    rw [List.append_cancel_right heq] at hstays
    exact hstays (within_refl _)
  · rw [hsets.file?]
    split
    · rfl
    · rw [hmiddle]
      exact hsome
  · rintro rfl
    exact hnot (within_append _ _)
  · refine hsets.directory location ?_ (hgrows.kind?_of_some hdirectory)
    rintro rfl
    exact hnot (within_append _ _)

theorem edited_of_moved {middle : Disk} (hroot : root ≠ [])
    (hout : ∀ below, ¬ within roots.out (below ++ root))
    (hnamed : Location.Named (name :: place ++ root))
    (hmake : disk.makeParent (Location.path (name :: place ++ root)) = (.ok (), middle))
    (h : Moves (old ++ root) (name :: place ++ root) middle next) :
    Edited roots root (within old ·) (within (name :: place) ·) disk next := by
  obtain ⟨hmiddle, -, htidy⟩ := makeParent_keeps (by simp [hroot]) hnamed hmake
  have hgrows : disk.Grows (fun _ => True) middle := by
    simpa only [hmake] using disk.makeParent_grows (Location.path (name :: place ++ root))
  have hkind : ∀ location, ¬ within root location → next.kind? location = middle.kind? location :=
    fun location hnot => h.same location (mt within_of_below hnot) (mt within_of_below hnot)
  refine ⟨⟨fun other hstays hnot => ?_, fun other hgone hnot => ?_, fun other hcome hstays hsome => ?_⟩,
    fun location hnot => ?_, fun location hnot hdirectory => ?_,
    fun hbefore => tidy_of_kind? (htidy _ hbefore) fun location kind hwithin hsome => ?_⟩
  · rw [← hmiddle]
    exact file?_eq_of_kind?_eq (h.same _ (mt within_append_right_iff.1 hstays)
      (mt within_append_right_iff.1 hnot))
  · rw [file?, h.lost _ (within_append_right_iff.2 hgone) (mt within_append_right_iff.1 hnot)]
  · rw [← hmiddle] at hsome
    exact h.kept _ (within_append_right_iff.2 hcome) (mt within_append_right_iff.1 hstays) hsome
  · rw [← hmiddle]
    exact file?_eq_of_kind?_eq (hkind location hnot)
  · rw [hkind location hnot, hgrows.kind?_of_some hdirectory]
  · rw [hkind location fun hbelow => ?_] at hsome
    · exact .inl (by simp [hsome])
    · obtain ⟨below, rfl⟩ := within_iff.1 hbelow
      exact hout below hwithin

end Disk

namespace Edit

variable {roots : Roots} {disk next : Disk} {root : Location} {edit : Edit}

-- An edit of one of the trees changes this tree only, where it says.
theorem edited (hroot : root ≠ []) (hnamed : root.Named)
    (hout : ∀ below, ¬ within roots.out (below ++ root)) (hinside : edit.Inside)
    (h : edit.apply root disk = .ok next) :
    Disk.Edited roots root edit.Gone edit.Come disk next := by
  cases edit with
  | write file content =>
      obtain ⟨hne, hfile⟩ := hinside file List.mem_cons_self
      obtain ⟨name, place, rfl⟩ := List.exists_cons_of_ne_nil hne
      rw [apply] at h
      split at h
      · cases h
      · next middle hmake => exact Disk.edited_of_written hroot (hfile.append hnamed) hmake h
  | removeFile place =>
      obtain ⟨hne, hplace⟩ := hinside place List.mem_cons_self
      exact Disk.edited_of_removed
        (Disk.kind?_removeFile_within (by simp [hne]) (hplace.append hnamed) h)
  | removeDirectory place =>
      obtain ⟨hne, hplace⟩ := hinside place List.mem_cons_self
      rw [apply] at h
      split at h
      · cases h
      · next hremove =>
        cases h
        exact Disk.edited_of_removed
          (Disk.kind?_removeDirectory (by simp [hne]) (hplace.append hnamed) hremove)
  | rename old new =>
      obtain ⟨-, hold⟩ := hinside old List.mem_cons_self
      obtain ⟨hne, hnew⟩ := hinside new (by simp [places])
      obtain ⟨name, place, rfl⟩ := List.exists_cons_of_ne_nil hne
      rw [apply] at h
      split at h
      · cases h
      · next middle hmake =>
        obtain ⟨hmoves, -⟩ := Disk.rename_moves (hold.append hnamed) (hnew.append hnamed) h
        exact Disk.edited_of_moved hroot hout (hnew.append hnamed) hmake hmoves

-- What has been written can be reached, and so can what has been renamed.
theorem there_of_write {file : Location} {content : ByteArray}
    (hnamed : Location.Named (file ++ root))
    (h : (Edit.write file content).apply root disk = .ok next) :
    Location.Followable (file ++ root) ∧ (next.file? (file ++ root)).isSome := by
  rw [apply] at h
  split at h
  · cases h
  · next middle _ =>
    obtain ⟨-, -, -, hcheck, -⟩ := Disk.write_eq_ok h
    refine ⟨hcheck, ?_⟩
    have hsets := @Disk.write_sets middle next root _ content hnamed h
    rw [hsets.file?, if_pos rfl]
    rfl

theorem there_of_rename {old new : Location} (hold : Location.Named (old ++ root))
    (hnew : Location.Named (new ++ root)) (h : (Edit.rename old new).apply root disk = .ok next) :
    Location.Followable (new ++ root) ∧ ((next.file? (new ++ root)).isSome ∨
      next.kind? (new ++ root) = some .directory) := by
  rw [apply] at h
  split at h
  · cases h
  · obtain ⟨hmoves, hfollow⟩ := Disk.rename_moves hold hnew h
    exact ⟨hfollow, hmoves.there⟩

end Edit

end StaticSite
