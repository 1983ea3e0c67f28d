import StaticSite.Proofs.Disk.Following

-- The paths of places: what a disk finds there is what stands at the place, unless no disk
-- follows a path of such a length.
namespace StaticSite

namespace Location

-- A disk follows the path of the place.
def Followable (location : Location) : Prop :=
  location.path.check = .ok ()

instance (location : Location) : Decidable location.Followable := by
  unfold Followable; infer_instance

theorem check_eq_ok_iff {path : Path} : path.check = .ok () ↔
    Char.ofNat 0 ∉ path.text.toList ∧ path.text ≠ "" ∧ path.text.utf8ByteSize ≤ Path.longest := by
  unfold Path.check Path.isTooLong
  by_cases hnul : Char.ofNat 0 ∈ path.text.toList
  · simp [hnul]
  · by_cases hempty : path.text = ""
    · simp [hempty]
    · by_cases hlong : Path.longest < path.text.utf8ByteSize
      · simp [hnul, hempty, hlong]
      · simp only [hnul, hempty, hlong, decide_false, Bool.false_eq_true, ↓reduceIte, true_iff,
          not_false_eq_true, ne_eq, true_and]
        omega

theorem followable_nil : Followable [] := by decide

-- The way to a followable place is followable.
theorem Followable.above {below location : Location} (h : Followable (below ++ location)) :
    location.Followable := by
  by_cases hlocation : location = []
  · subst hlocation
    exact followable_nil
  · by_cases hbelow : below = []
    · subst hbelow
      exact h
    · rw [Followable, check_eq_ok_iff, text_path_append hbelow hlocation] at h
      obtain ⟨hnul, -, hlength⟩ := h
      simp only [String.toList_append, List.mem_append, not_or] at hnul
      simp only [String.utf8ByteSize_append] at hlength
      rw [Followable, check_eq_ok_iff]
      refine ⟨hnul.1.1, ?_, by omega⟩
      rw [text_path hlocation]
      simp

theorem Followable.tail {name : String} {location : Location} (h : Followable (name :: location)) :
    location.Followable := by
  have happend : Followable ([name] ++ location) := h
  exact happend.above

-- Names are followed one by one.
theorem foldl_follow_names {location : Location} (h : location.Named) :
    location.reverse.foldl follow [] = location := by
  induction location with
  | nil => rfl
  | cons name parent ih =>
      have hname := h name List.mem_cons_self
      rw [List.reverse_cons, List.foldl_append, ih h.tail, List.foldl_cons, List.foldl_nil, follow,
        if_neg (not_or.2 ⟨hname.1, hname.2.1⟩), if_neg hname.2.2.1]

end Location

namespace Disk

variable {disk : Disk} {location parent : Location} {name : String} {entry : Entry}

theorem steps_path (h : location.Named) : location.path.steps = location.reverse := by
  rw [Path.steps]
  by_cases hnil : location = []
  · subst hnil
    decide
  · rw [Location.segments_path h hnil]
    simp only [ne_eq, not_true_eq_false, decide_false, List.filter_cons_of_neg, Bool.false_eq_true,
      not_false_eq_true]
    rw [List.filter_eq_self]
    intro segment hmem
    simpa using (h segment (List.mem_reverse.1 hmem)).1

theorem endsInSlash_path (h : location.Named) : location.path.endsInSlash = true ↔ location = [] := by
  rw [Path.endsInSlash, decide_eq_true_iff]
  constructor
  · intro hlast
    cases location with
    | nil => rfl
    | cons name parent =>
        exact absurd hlast (Location.getLast?_text_path (h name List.mem_cons_self))
  · rintro rfl
    rfl

theorem origin_path (location : Location) : disk.origin location.path = .directory [] := by
  rw [origin, if_pos (Location.isAbsolute_path location)]

-- Names lead from a directory to what stands below it.
theorem toOption_foldlM_enter {names : List String} (hnames : ∀ name ∈ names, IsName name)
    (trail : Trail) : (names.foldlM disk.enter (.directory trail)).toOption.map (·.entry disk) =
      (trail.inside disk).get? names := by
  induction names generalizing trail with
  | nil => rfl
  | cons name rest ih =>
      have hname := hnames name List.mem_cons_self
      have hrest := ih fun other hmem => hnames other (List.mem_cons_of_mem _ hmem)
      rw [List.foldlM_cons, Folder.get?]
      simp only [enter, if_neg hname.2.1, if_neg hname.2.2.1]
      cases hfind : (trail.inside disk).find? name with
      | none => simp [bind, Except.bind, Except.toOption]
      | some entry =>
          cases entry with
          | directory inside => exact hrest ((name, inside) :: trail)
          | file content =>
              cases rest with
              | nil => rfl
              | cons next others => rfl

-- Following names from the root finds what stands at their place.
theorem foldlM_enter_names (h : disk.get? location = some entry) :
    ∃ spot, location.reverse.foldlM disk.enter (.directory []) = .ok spot ∧
      spot.entry disk = entry := by
  have hnamed : location.Named := named_of_kind? (kind?_of_get? h)
  have hfold := @toOption_foldlM_enter disk location.reverse
    (fun name hmem => hnamed name (List.mem_reverse.1 hmem)) []
  rw [show (Trail.inside disk []).get? location.reverse = some entry from h,
    Option.map_eq_some_iff] at hfold
  obtain ⟨spot, hspot, hentry⟩ := hfold
  refine ⟨spot, ?_, hentry⟩
  cases hlast : location.reverse.foldlM disk.enter (.directory []) with
  | error fault => rw [hlast] at hspot; cases hspot
  | ok last => rw [hlast] at hspot; cases hspot; rfl

theorem location_of_foldlM_enter_names (hnamed : location.Named) {spot : Spot}
    (h : location.reverse.foldlM disk.enter (.directory []) = .ok spot) :
    spot.location disk = location ∧ spot.Valid disk ∧ spot.Stands := by
  have hsteps : "" ∉ location.reverse := fun hmem => (hnamed "" (List.mem_reverse.1 hmem)).1 rfl
  have hroot : (Spot.directory []).Valid disk := trivial
  obtain ⟨hvalid, hlocation, hstands⟩ := foldlM_enter_valid hsteps hroot h
  refine ⟨?_, hvalid, hstands trivial⟩
  rw [hlocation]
  exact Location.foldl_follow_names hnamed

theorem get?_of_foldlM_enter_names (hnamed : location.Named) {spot : Spot}
    (h : location.reverse.foldlM disk.enter (.directory []) = .ok spot) :
    disk.get? location = some (spot.entry disk) := by
  have hfold := @toOption_foldlM_enter disk location.reverse
    (fun name hmem => hnamed name (List.mem_reverse.1 hmem)) []
  rw [h] at hfold
  exact hfold.symm

theorem find_path (hfollow : location.Followable) (hget : disk.get? location = some entry) :
    ∃ spot, disk.find location.path = .ok spot ∧ spot.entry disk = entry := by
  have hnamed : location.Named := named_of_kind? (kind?_of_get? hget)
  obtain ⟨spot, hfold, hentry⟩ := foldlM_enter_names hget
  refine ⟨spot, ?_, hentry⟩
  have hslash : (location.path.endsInSlash && !(spot.entry disk).isDirectory) = false := by
    by_cases hroot : location = []
    · subst hroot
      cases hget
      rw [hentry]
      simp [Entry.isDirectory]
    · have : location.path.endsInSlash = false := by
        rw [Bool.eq_false_iff]
        exact mt (endsInSlash_path hnamed).1 hroot
      simp [this]
  rw [find, show location.path.check = .ok () from hfollow, steps_path hnamed, origin_path, hfold]
  simp [bind, Except.bind, hslash, pure, Except.pure]

theorem location_of_find_path (hnamed : location.Named) {spot : Spot}
    (h : disk.find location.path = .ok spot) :
    location.Followable ∧ spot.location disk = location ∧ spot.Stands ∧
      disk.get? location = some (spot.entry disk) := by
  obtain ⟨hcheck, hfold⟩ := check_of_find h
  rw [steps_path hnamed, origin_path] at hfold
  obtain ⟨hlocation, -, hstands⟩ := location_of_foldlM_enter_names hnamed hfold
  exact ⟨hcheck, hlocation, hstands, get?_of_foldlM_enter_names hnamed hfold⟩

theorem entry?_path (hnamed : location.Named) :
    disk.entry? location.path = if location.Followable then disk.get? location else none := by
  unfold entry?
  cases hfind : disk.find location.path with
  | error fault =>
      by_cases hfollow : location.Followable
      · rw [if_pos hfollow]
        cases hget : disk.get? location with
        | none => rfl
        | some entry =>
            obtain ⟨spot, hspot, -⟩ := find_path hfollow hget
            rw [hfind] at hspot
            cases hspot
      · rw [if_neg hfollow]
  | ok spot =>
      obtain ⟨hfollow, -, -, hget⟩ := location_of_find_path hnamed hfind
      rw [if_pos hfollow, hget]

theorem isDirectory_path (hnamed : location.Named) : disk.isDirectory location.path = true ↔
    location.Followable ∧ disk.kind? location = some .directory := by
  rw [isDirectory, entry?_path hnamed]
  by_cases hfollow : location.Followable
  · rw [if_pos hfollow, kind?]
    cases disk.get? location with
    | none => simp
    | some entry => simp [hfollow, Entry.isDirectory_iff]
  · simp [hfollow]

theorem isFile_path (hnamed : location.Named) : disk.isFile location.path = true ↔
    location.Followable ∧ (disk.file? location).isSome := by
  rw [isFile, entry?_path hnamed]
  by_cases hfollow : location.Followable
  · rw [if_pos hfollow, file?, kind?]
    cases disk.get? location with
    | none => simp
    | some entry => cases entry <;> simp [hfollow, Entry.isDirectory, Entry.kind]
  · simp [hfollow]

theorem read_path {content : ByteArray} (hnamed : location.Named) :
    disk.read location.path = .ok content ↔
      location.Followable ∧ disk.file? location = some content := by
  constructor
  · intro h
    have hfile := file?_of_read h
    rw [Location.walk_path hnamed] at hfile
    refine ⟨?_, hfile⟩
    rw [read] at h
    cases hfind : disk.find location.path with
    | error fault => rw [hfind] at h; cases h
    | ok spot => exact (check_of_find hfind).1
  · rintro ⟨hfollow, hfile⟩
    obtain ⟨spot, hfind, hentry⟩ := find_path hfollow (kind?_eq_file.1 (file?_eq_some.1 hfile))
    rw [read, hfind]
    simp [bind, Except.bind, hentry, pure, Except.pure]

end Disk

end StaticSite
