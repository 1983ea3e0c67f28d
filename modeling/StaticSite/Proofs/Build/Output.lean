import StaticSite.Build.File
import StaticSite.Proofs.Disk.Making

-- What a build that does not fail leaves at the place of one output.
namespace StaticSite

def Outcome.isFailed : Outcome → Bool
  | .failed _ _ => true
  | _ => false

namespace Disk

-- Everything at and below `top` can be reached by its path and has a name that can be given.
def Tidy (disk : Disk) (top : Location) : Prop :=
  ∀ location kind, within top location → disk.kind? location = some kind →
    location.Followable ∧ ∀ name ∈ location.head?, name.utf8ByteSize ≤ longestName

-- The file at `place` has got another content, or is gone, and no other file has changed.
structure Sets (top place : Location) (content : Option ByteArray) (before after : Disk) :
    Prop where
  file? : ∀ location, after.file? location =
    if location = place then content else before.file? location
  directory : ∀ location, location ≠ place → before.kind? location = some .directory →
    after.kind? location = some .directory
  tidy : before.Tidy top → after.Tidy top

variable {disk next : Disk} {top location parent : Location} {name : String}

theorem tidy_of_kind? {before after : Disk} (htidy : before.Tidy top)
    (h : ∀ location kind, within top location → after.kind? location = some kind →
      before.kind? location ≠ none ∨
        location.Followable ∧ ∀ name ∈ location.head?, name.utf8ByteSize ≤ longestName) :
    after.Tidy top := by
  intro location kind hwithin hkind
  rcases h location kind hwithin hkind with hbefore | hmade
  · obtain ⟨old, hold⟩ := Option.ne_none_iff_exists'.1 hbefore
    exact htidy location old hwithin hold
  · exact hmade

theorem makeDirectories_made (hne : location ≠ []) (hnamed : location.Named) :
    disk.Grows (fun made => within made location ∧ made.Followable ∧
        ∀ name ∈ made.head?, name.utf8ByteSize ≤ longestName)
      (disk.makeDirectories location.path).2 := by
  have htext : location.path.text ≠ "" := by
    rw [Location.text_path hne]
    simp
  rw [makeDirectories, if_neg htext, Location.segments_path hnamed hne, List.reverse_cons,
    List.reverse_reverse]
  refine makeWay_grows fun above habove hcheck name parent hwalk hlength => ?_
  rcases List.eq_nil_or_concat' above with rfl | ⟨lower, last, rfl⟩
  · cases hcheck
  · obtain ⟨front, hfront⟩ := habove
    rw [← List.append_assoc] at hfront
    have hlast : last = "" := by simpa using List.append_inj_right' hfront rfl
    have hlower : front ++ lower = location := List.append_inj_left' hfront (by simp)
    subst hlast
    have hpath : Path.ofSegments (lower ++ [""]).reverse = Location.path lower := by
      rw [← Location.ofSegments_root, List.reverse_concat]
    have hnamed' : Location.Named lower := (hlower ▸ hnamed).of_append_right
    rw [hpath, Location.walk_path hnamed'] at hwalk
    rw [hpath] at hcheck
    subst hwalk
    exact ⟨hlower ▸ within_append _ _, hcheck, by simpa using hlength⟩

theorem makeParent_path (h : Location.Named (name :: parent)) :
    disk.makeParent (Location.path (name :: parent)) =
      disk.makeDirectories (Location.path parent) := by
  rw [makeParent, Location.parent?_path h]

-- Making the directory that a file lies in changes no file.
theorem makeParent_keeps {middle : Disk} (hne : parent ≠ []) (hnamed : Location.Named (name :: parent))
    (h : disk.makeParent (Location.path (name :: parent)) = (.ok (), middle)) :
    (∀ location, middle.file? location = disk.file? location) ∧
      (∀ location, disk.kind? location = some .directory →
        middle.kind? location = some .directory) ∧
      ∀ top, disk.Tidy top → middle.Tidy top := by
  rw [makeParent_path hnamed] at h
  have hgrows := @makeDirectories_made disk parent hne hnamed.tail
  rw [h] at hgrows
  refine ⟨hgrows.file?_eq, fun _ => hgrows.kind?_of_some,
    fun top htidy => tidy_of_kind? htidy fun location kind _ hkind => ?_⟩
  rcases hgrows.kind? location with heq | ⟨hmade, -⟩
  · exact .inl (by simp [← heq, hkind])
  · exact .inr hmade.2

theorem write_sets {content : ByteArray} (hnamed : location.Named)
    (h : disk.write location.path content = .ok next) :
    disk.Sets top location (some content) next := by
  have hkind := kind?_write h
  obtain ⟨name, parent, hwalk, hcheck, hname, hparent, hfree, hlength, -⟩ := write_eq_ok h
  rw [Location.walk_path hnamed] at hwalk
  subst hwalk
  simp only [Location.walk_path hnamed] at hkind
  constructor
  · intro other
    by_cases heq : other = name :: parent
    · rw [if_pos heq, file?_eq_some, hkind, if_pos heq]
    · rw [if_neg heq]
      exact file?_eq_of_kind?_eq (by rw [hkind, if_neg heq])
  · intro other hne hdirectory
    rw [hkind, if_neg hne, hdirectory]
  · intro htidy
    refine tidy_of_kind? htidy fun other kind hwithin hother => ?_
    by_cases heq : other = name :: parent
    · subst heq
      by_cases hnone : disk.kind? (name :: parent) = none
      · exact .inr ⟨hcheck, by simpa using hlength hnone⟩
      · exact .inl hnone
    · rw [hkind, if_neg heq] at hother
      exact .inl (by simp [hother])

theorem removeFile_sets (hnamed : location.Named) (h : disk.removeFile location.path = .ok next) :
    disk.Sets top location none next := by
  have hkind := kind?_removeFile h
  simp only [Location.walk_path hnamed] at hkind
  constructor
  · intro other
    by_cases heq : other = location
    · rw [if_pos heq, file?, hkind, if_pos heq]
    · rw [if_neg heq]
      exact file?_eq_of_kind?_eq (by rw [hkind, if_neg heq])
  · intro other hne hdirectory
    rw [hkind, if_neg hne, hdirectory]
  · intro htidy
    refine tidy_of_kind? htidy fun other kind hwithin hother => ?_
    rw [hkind] at hother
    by_cases heq : other = location
    · rw [if_pos heq] at hother
      cases hother
    · rw [if_neg heq] at hother
      exact .inl (by simp [hother])

theorem copy_sets {source : Location} {content : ByteArray} (hsource : source.Named)
    (hnamed : location.Named) (hne : source ≠ location)
    (hfile : disk.file? source = some content)
    (h : disk.copy source.path location.path = .ok next) :
    disk.Sets top location (some content) next := by
  obtain ⟨first, middle, last, -, hmiddle, hlast, hnext⟩ := copy_eq_ok h
  have hsets : disk.Sets top location (some ByteArray.empty) middle := write_sets hnamed hmiddle
  have hagain : middle.Sets top location (some last) next := write_sets hnamed hnext
  have hread := (read_path hsource).1 hlast
  rw [hsets.file?, if_neg hne, hfile, Option.some.injEq] at hread
  obtain ⟨-, rfl⟩ := hread
  constructor
  · intro other
    rw [hagain.file?, hsets.file?]
    split <;> rfl
  · exact fun other hne hdirectory =>
      hagain.directory other hne (hsets.directory other hne hdirectory)
  · exact fun htidy => hagain.tidy (hsets.tidy htidy)

end Disk

namespace Progress

variable {progress : Progress} {top below source : Location}

@[simp]
theorem disk_onDisk (progress : Progress) (disk : Disk) : (progress.onDisk disk).disk = disk := rfl

@[simp]
theorem disk_note (progress : Progress) (note : Note) :
    (progress.note note).disk = progress.disk := rfl

@[simp]
theorem disk_announce (progress : Progress) (activity : Activity) :
    (progress.announce activity).disk = progress.disk := rfl

@[simp]
theorem disk_announceAs (progress : Progress) (activity : Option (String → Activity))
    (file : String) : (progress.announceAs activity file).disk = progress.disk := by
  cases activity <;> rfl

theorem place_eq_ok {destination : Path} {change : Disk → Except Fault Disk}
    (h : (progress.place destination change).1 = .ok ()) :
    ∃ middle, progress.disk.makeParent destination = (.ok (), middle) ∧
      change middle = .ok (progress.place destination change).2.disk := by
  unfold place at h ⊢
  split at h
  · cases h
  · next middle hmake =>
    split at h
    · next next hnext => exact ⟨middle, hmake, by simp [hnext]⟩
    · cases h

theorem makeParent_below (hbelow : below ≠ []) (htop : top ≠ [])
    (hnamed : Location.Named (below ++ top)) {disk middle : Disk}
    (h : disk.makeParent (Location.path (below ++ top)) = (.ok (), middle)) :
    (∀ location, middle.file? location = disk.file? location) ∧
      (∀ location, disk.kind? location = some .directory →
        middle.kind? location = some .directory) ∧
      ∀ other, disk.Tidy other → middle.Tidy other := by
  obtain ⟨name, rest, rfl⟩ := List.exists_cons_of_ne_nil hbelow
  exact Disk.makeParent_keeps (show rest ++ top ≠ [] by simp [htop]) hnamed h

theorem place_sets {change : Disk → Except Fault Disk} {content : Option ByteArray}
    (hbelow : below ≠ []) (htop : top ≠ []) (hnamed : Location.Named (below ++ top))
    (hchange : ∀ middle next, (∀ location, middle.file? location = progress.disk.file? location) →
      change middle = .ok next → middle.Sets top (below ++ top) content next)
    (h : (progress.place (Location.path (below ++ top)) change).1 = .ok ()) :
    progress.disk.Sets top (below ++ top) content
      (progress.place (Location.path (below ++ top)) change).2.disk := by
  obtain ⟨middle, hmake, hnext⟩ := place_eq_ok h
  obtain ⟨hfile, hdirectory, htidy⟩ := makeParent_below hbelow htop hnamed hmake
  have hsets := hchange middle _ hfile hnext
  constructor
  · intro location
    rw [hsets.file?, hfile]
  · exact fun location hne h => hsets.directory location hne (hdirectory location h)
  · exact fun h => hsets.tidy (htidy top h)

theorem writeOutput_sets {content : ByteArray} (hbelow : below ≠ []) (htop : top ≠ [])
    (hnamed : Location.Named (below ++ top))
    (h : (progress.writeOutput (Location.path (below ++ top)) content).1.isFailed = false) :
    progress.disk.Sets top (below ++ top) (some content)
      (progress.writeOutput (Location.path (below ++ top)) content).2.disk := by
  have hplace := @place_sets progress top below (·.write (Location.path (below ++ top)) content)
    (some content) hbelow htop hnamed fun _ _ _ hwrite => Disk.write_sets hnamed hwrite
  unfold writeOutput at h ⊢
  split at h
  · next heq =>
    rw [heq] at hplace
    simpa [heq] using hplace rfl
  · cases h

theorem copyOutput_sets {content : ByteArray} (hbelow : below ≠ []) (htop : top ≠ [])
    (hnamed : Location.Named (below ++ top)) (hsource : source.Named)
    (hne : source ≠ below ++ top) (hfile : progress.disk.file? source = some content)
    (h : (progress.copyOutput source.path (Location.path (below ++ top))).1.isFailed = false) :
    progress.disk.Sets top (below ++ top) (some content)
      (progress.copyOutput source.path (Location.path (below ++ top))).2.disk := by
  have hplace := @place_sets progress top below
    (·.copy source.path (Location.path (below ++ top))) (some content) hbelow htop hnamed
    fun middle _ hmiddle hcopy =>
      Disk.copy_sets hsource hnamed hne ((hmiddle source).trans hfile) hcopy
  unfold copyOutput at h ⊢
  split at h
  · next heq =>
    rw [heq] at hplace
    simpa [heq] using hplace rfl
  · cases h

end Progress

end StaticSite
