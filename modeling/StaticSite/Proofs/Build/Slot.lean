import StaticSite.Build.Outcome
import StaticSite.Proofs.Build.Job

-- Where the files of a build go, and what a whole build does there. What comes of it is told by
-- what stands at each place before, so that a second build can be compared with the first.
namespace StaticSite

open Disk (within)

-- A place to which a disk can give its name.
def Location.Creatable (location : Location) : Prop :=
  ∀ name ∈ location.head?, IsName name ∧ name.utf8ByteSize ≤ Disk.longestName

instance Location.decidableCreatable (location : Location) : Decidable location.Creatable := by
  unfold Location.Creatable; infer_instance

namespace Scene

variable {scene other : Scene} {location directory parent : Location} {name : String}

-- What stands where after a directory has been made with those above it, as far as that goes.
def raise (scene : Scene) (directory : Location) : Scene := fun location =>
  if within location directory ∧ scene location = none ∧ scene.Passable location then
    some .directory
  else scene location

theorem raise_of_some {kind : Kind} (h : scene location = some kind) :
    scene.raise directory location = some kind := by
  rw [raise, if_neg fun hmissing => by simp [h] at hmissing, h]

theorem raise_of_not_within (h : ¬ within location directory) :
    scene.raise directory location = scene location :=
  if_neg fun hmissing => h hmissing.1

theorem passable_raise :
    (scene.raise directory).Passable location ↔ scene.Passable location := by
  induction location with
  | nil => exact Iff.rfl
  | cons name parent ih =>
      rw [Passable, Passable, ih]
      by_cases hmissing : within (name :: parent) directory ∧ scene (name :: parent) = none ∧
          scene.Passable (name :: parent)
      · rw [raise, if_pos hmissing]
        exact ⟨fun _ => hmissing.2.2, fun hpass => ⟨.inl rfl, hpass.2⟩⟩
      · rw [raise, if_neg hmissing]

theorem within_cons_iff :
    within location (name :: parent) = true ↔
      location = name :: parent ∨ within location parent = true := by
  simp only [within, List.isSuffixOf_iff_suffix, List.suffix_cons_iff]

-- A directory is made after those above it.
theorem raise_raise : (scene.raise parent).raise (name :: parent) = scene.raise (name :: parent) := by
  funext location
  by_cases hmissing : within location parent ∧ scene location = none ∧ scene.Passable location
  · have hmade : scene.raise parent location = some .directory := if_pos hmissing
    rw [raise_of_some hmade, raise, if_pos ⟨within_cons_iff.2 (.inr hmissing.1), hmissing.2⟩]
  · have hsame : scene.raise parent location = scene location := if_neg hmissing
    simp only [raise.eq_def _ (name :: parent), hsame, passable_raise]

theorem raise_cons_of_not_passable (h : ¬ scene.Passable parent) :
    scene.raise (name :: parent) = scene.raise parent := by
  funext location
  by_cases heq : location = name :: parent
  · subst heq
    rw [raise, if_neg fun hmissing => h hmissing.2.2.2, raise_of_not_within Disk.not_within_tail]
  · simp only [raise, within_cons_iff, heq, false_or]

-- Where nothing is missing on the way, nothing is made.
theorem raise_eq_self (h : ∀ location, within location directory → scene location = none →
    ¬ scene.Passable location) : scene.raise directory = scene :=
  funext fun location => if_neg fun hmissing => h location hmissing.1 hmissing.2.1 hmissing.2.2

theorem Passable.above {below : Location} (h : scene.Passable (below ++ location)) :
    scene.Passable location := by
  induction below with
  | nil => exact h
  | cons name rest ih => exact ih h.2

theorem creatable_of_passable (h : scene.Passable location) (hnone : scene location = none) :
    location.Creatable := by
  intro name hname
  cases location with
  | nil => cases hname
  | cons first parent =>
      obtain rfl := Option.some.inj hname
      rcases h.1 with hdirectory | ⟨-, hfirst⟩
      · rw [hdirectory] at hnone
        cases hnone
      · exact hfirst

end Scene

-- The place of a file, and whether a disk follows the paths to its directory and to the file.
structure Slot where
  place : Location
  near : Bool
  far : Bool
  near_of_far : far = true → near = true

namespace Slot

variable {slot : Slot} {scene other : Scene} {content : ByteArray} {location : Location}

-- A file can be put there, once the directories that lead there are made.
def Fits (slot : Slot) (scene : Scene) : Prop :=
  slot.far = true ∧ scene.Passable slot.place.tail ∧ scene slot.place ≠ some .directory ∧
    (scene slot.place = none → slot.place.Creatable)

instance decidableFits (slot : Slot) (scene : Scene) : Decidable (slot.Fits scene) := by
  unfold Fits; infer_instance

-- What stands where after a file has been put there. The directories are made also where the file
-- does not fit.
def fill (slot : Slot) (content : ByteArray) (scene : Scene) : Scene := fun location =>
  if location = slot.place ∧ slot.Fits scene then some (.file content)
  else if slot.near then scene.raise slot.place.tail location
  else scene location

theorem not_within_tail (hne : slot.place ≠ []) : ¬ within slot.place slot.place.tail := by
  obtain ⟨name, parent, heq⟩ := List.exists_cons_of_ne_nil hne
  rw [heq, List.tail_cons]
  exact Disk.not_within_tail

theorem fill_of_ne (h : location ≠ slot.place) : slot.fill content scene location =
    if slot.near then scene.raise slot.place.tail location else scene location :=
  if_neg fun hboth => h hboth.1

theorem fill_of_not_fits (h : ¬ slot.Fits scene) : slot.fill content scene location =
    if slot.near then scene.raise slot.place.tail location else scene location :=
  if_neg fun hboth => h hboth.2

end Slot

namespace Scene

-- Of the directories that lead to `out`, some more are there.
def Ahead (out : Location) (scene other : Scene) : Prop :=
  ∀ location, other location = scene location ∨
    scene location = none ∧ other location = some .directory ∧ within location out.tail ∧
      location.Creatable

namespace Ahead

variable {out location : Location} {scene other : Scene}

theorem passable (h : Ahead out scene other) :
    other.Passable location ↔ scene.Passable location := by
  induction location with
  | nil => exact Iff.rfl
  | cons name parent ih =>
      rw [Passable, Passable, ih]
      rcases h (name :: parent) with heq | ⟨hnone, hdirectory, -, hnew⟩
      · rw [heq]
      · rw [hnone, hdirectory]
        exact and_congr_left fun _ => iff_of_true (.inl rfl) (.inr ⟨rfl, hnew name rfl⟩)

theorem raise (h : Ahead out scene other) (directory : Location) :
    Ahead out (scene.raise directory) (other.raise directory) := by
  intro location
  rcases h location with heq | ⟨hnone, hdirectory, hwithin, hnew⟩
  · left
    simp only [Scene.raise, heq, h.passable]
  · rw [raise_of_some hdirectory, Scene.raise]
    split
    · exact .inl rfl
    · exact .inr ⟨hnone, rfl, hwithin, hnew⟩

theorem of_below {below : Location} (h : Ahead out scene other) (hne : below ≠ []) :
    other (below ++ out) = scene (below ++ out) := by
  refine (h (below ++ out)).resolve_right fun hmade => ?_
  have hlength := (List.isSuffixOf_iff_suffix.1 hmade.2.2.1).length_le
  have hpos := List.length_pos_iff.2 hne
  simp only [List.length_append, List.length_tail] at hlength
  omega

theorem fits {slot : Slot} {below : Location} (h : Ahead out scene other)
    (hplace : slot.place = below ++ out) (hne : below ≠ []) :
    slot.Fits other ↔ slot.Fits scene := by
  rw [Slot.Fits, Slot.Fits, h.passable, hplace, h.of_below hne]

-- Directories that lead to `out` make no difference to what goes below it: they are made if they
-- are missing.
theorem fill {slot : Slot} {below : Location} (h : Ahead out scene other)
    (hplace : slot.place = below ++ out) (hne : below ≠ []) (content : ByteArray) :
    Ahead out (slot.fill content scene) (slot.fill content other) := by
  intro location
  simp only [Slot.fill, h.fits hplace hne]
  split
  · exact .inl rfl
  · split
    · exact h.raise slot.place.tail location
    · exact h location

end Ahead

end Scene

end StaticSite
