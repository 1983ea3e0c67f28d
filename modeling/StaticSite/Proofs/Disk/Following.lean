import StaticSite.Disk.Change
import StaticSite.Proofs.Disk.Kind
import StaticSite.Proofs.Except
import StaticSite.Proofs.Path.Place

-- A disk without links follows a path to the place that the path leads to by its components.
namespace StaticSite

namespace Trail

-- Each directory of a trail is in the one before it.
def Valid (disk : Disk) : Trail → Prop
  | [] => True
  | (name, folder) :: rest =>
    Valid disk rest ∧ (Trail.inside disk rest).find? name = some (.directory folder)

theorem get?_location {disk : Disk} {trail : Trail} (h : trail.Valid disk) :
    disk.get? trail.location = some (.directory (trail.inside disk)) := by
  induction trail with
  | nil => rfl
  | cons pair rest ih =>
      obtain ⟨name, folder⟩ := pair
      change disk.get? (name :: Trail.location rest) = _
      rw [Disk.get?_cons, ih h.1]
      exact h.2

theorem kind?_location {disk : Disk} {trail : Trail} (h : trail.Valid disk) :
    disk.kind? trail.location = some .directory :=
  Disk.kind?_eq_directory.2 ⟨_, get?_location h⟩

end Trail

namespace Spot

-- Where a spot lies. What has been removed is known by where it was.
def location (disk : Disk) : Spot → Location
  | .directory trail => trail.location
  | .file trail name _ => name :: trail.location
  | .removed above => disk.workDir.drop (disk.adrift - (above + 1))

def Valid (disk : Disk) : Spot → Prop
  | .directory trail => trail.Valid disk
  | .file trail name content =>
    trail.Valid disk ∧ (trail.inside disk).find? name = some (.file content)
  | .removed above => above < disk.adrift

def Stands : Spot → Prop
  | .removed _ => False
  | _ => True

theorem get?_location {disk : Disk} {spot : Spot} (h : spot.Valid disk) (hstands : spot.Stands) :
    disk.get? (spot.location disk) = some (spot.entry disk) := by
  cases spot with
  | directory trail => exact Trail.get?_location h
  | file trail name content =>
      change disk.get? (name :: trail.location) = _
      rw [Disk.get?_cons, Trail.get?_location h.1]
      exact h.2
  | removed above => exact hstands.elim

-- Nothing but directories has been removed.
theorem stands_of_isDirectory_eq_false {disk : Disk} {spot : Spot}
    (h : (spot.entry disk).isDirectory = false) : spot.Stands := by
  cases spot with
  | removed above => cases h
  | _ => trivial

end Spot

namespace Disk

variable {disk : Disk}

theorem trail_of_kind? {location : Location} (h : disk.kind? location = some .directory) :
    (disk.trail location).Valid disk ∧ (disk.trail location).location = location := by
  induction location with
  | nil => exact ⟨trivial, rfl⟩
  | cons name parent ih =>
      obtain ⟨hvalid, hlocation⟩ := ih (kind?_parent h)
      obtain ⟨inside, hget⟩ := kind?_eq_directory.1 h
      rw [get?_cons, ← hlocation, Trail.get?_location hvalid, Option.bind_some] at hget
      have htrail : disk.trail (name :: parent) = (name, inside) :: disk.trail parent := by
        rw [trail, List.foldr_cons, ← trail,
          show ((disk.trail parent).inside disk).find? name = _ from hget]
      rw [htrail]
      exact ⟨⟨hvalid, hget⟩, congrArg (name :: ·) hlocation⟩

theorem kind?_workDir_drop (disk : Disk) :
    disk.kind? (disk.workDir.drop disk.adrift) = some .directory := by
  have h := disk.grounded
  rw [Option.any_eq_true_iff_get] at h
  obtain ⟨hsome, hdirectory⟩ := h
  rw [kind?, get?, ← Option.some_get hsome, Option.map_some, Entry.isDirectory_iff.1 hdirectory]

-- The place that relative paths start from has a name on every level.
theorem base?_eq_some {start : Location} (h : disk.base? = some start) :
    start = disk.workDir ∧ start.Named := by
  unfold base? at h
  split at h
  · next hadrift =>
    have hground := disk.kind?_workDir_drop
    rw [hadrift, List.drop_zero, Option.some.inj h] at hground
    exact ⟨(Option.some.inj h).symm, named_of_kind? hground⟩
  · cases h

-- A path made absolute names the place that it leads to.
theorem eq_path_of_absolute {path target : Path} (h : path.absolute disk.base? = .ok target) :
    target = (Location.walk disk.workDir path).path ∧
      (Location.walk disk.workDir path).Named := by
  cases hbase : disk.base? with
  | some start =>
      obtain ⟨rfl, hnamed⟩ := base?_eq_some hbase
      exact ⟨Path.absolute_eq_ok hnamed (hbase ▸ h), Location.named_walk hnamed path⟩
  | none =>
      rw [hbase] at h
      have hpath := Path.absolute_none_eq_ok h
      rw [Path.absolute_of_isAbsolute hpath] at h
      rw [Path.walk_of_isAbsolute hpath]
      exact ⟨(Except.ok.inj h).symm, Path.named_walk_root path⟩

theorem origin_valid (disk : Disk) (path : Path) : (disk.origin path).Valid disk ∧
    (disk.origin path).location disk = if path.isAbsolute then [] else disk.workDir := by
  unfold origin
  split
  · exact ⟨trivial, rfl⟩
  · have hground := disk.kind?_workDir_drop
    split
    · next hadrift =>
      rw [hadrift, List.drop_zero] at hground
      exact trail_of_kind? hground
    · next above hadrift =>
      refine ⟨?_, ?_⟩
      · simp only [Spot.Valid, hadrift]
        omega
      · simp [Spot.location, hadrift]

-- One step leads to the place of the step.
theorem enter_valid {spot next : Spot} {step : String} (hstep : step ≠ "")
    (hvalid : spot.Valid disk) (h : disk.enter spot step = .ok next) :
    next.Valid disk ∧ next.location disk = (spot.location disk).follow step := by
  cases spot with
  | file trail name content => cases h
  | directory trail =>
      simp only [enter] at h
      by_cases hdot : step = "."
      · rw [if_pos hdot] at h
        cases h
        exact ⟨hvalid, by simp [Location.follow, hdot]⟩
      · rw [if_neg hdot] at h
        by_cases hup : step = ".."
        · rw [if_pos hup] at h
          cases h
          refine ⟨?_, ?_⟩
          · cases trail with
            | nil => trivial
            | cons pair rest => exact hvalid.1
          · cases trail <;> simp [Spot.location, Trail.location, Location.follow, hup]
        · rw [if_neg hup] at h
          split at h
          · next inside hfind =>
            cases h
            exact ⟨⟨hvalid, hfind⟩, by
              simp [Spot.location, Trail.location, Location.follow, hstep, hdot, hup]⟩
          · next content hfind =>
            cases h
            exact ⟨⟨hvalid, hfind⟩, by
              simp [Spot.location, Location.follow, hstep, hdot, hup]⟩
          · cases h
  | removed above =>
      have habove : above < disk.adrift := hvalid
      simp only [enter] at h
      by_cases hdot : step = "."
      · rw [if_pos hdot] at h
        cases h
        exact ⟨hvalid, by simp [Location.follow, hdot]⟩
      · rw [if_neg hdot] at h
        by_cases hup : step = ".."
        · rw [if_pos hup] at h
          have htail : ((Spot.removed above).location disk).follow step =
              disk.workDir.drop (disk.adrift - above) := by
            have hsucc : disk.adrift - above = disk.adrift - (above + 1) + 1 := by omega
            rw [Location.follow, if_neg (by simp [hup]), if_pos hup, Spot.location, hsucc,
              List.tail_drop]
          rw [htail]
          cases above with
          | zero =>
              cases h
              exact trail_of_kind? disk.kind?_workDir_drop
          | succ more =>
              cases h
              exact ⟨Nat.lt_of_succ_lt habove, rfl⟩
        · rw [if_neg hup] at h
          cases h

theorem enter_stands {spot next : Spot} {step : String} (hstands : spot.Stands)
    (h : disk.enter spot step = .ok next) : next.Stands := by
  cases spot with
  | file trail name content => cases h
  | removed above => exact hstands.elim
  | directory trail =>
      simp only [enter] at h
      split at h
      · cases h; trivial
      · split at h
        · cases h; trivial
        · split at h <;> cases h <;> trivial

theorem foldlM_enter_valid {steps : List String} {spot last : Spot} (hsteps : "" ∉ steps)
    (hvalid : spot.Valid disk) (h : steps.foldlM disk.enter spot = .ok last) :
    last.Valid disk ∧ last.location disk = steps.foldl Location.follow (spot.location disk) ∧
      (spot.Stands → last.Stands) := by
  induction steps generalizing spot with
  | nil =>
      cases h
      exact ⟨hvalid, rfl, id⟩
  | cons step rest ih =>
      rw [List.mem_cons, not_or] at hsteps
      rw [List.foldlM_cons] at h
      cases hnext : disk.enter spot step with
      | error fault => rw [hnext] at h; cases h
      | ok next =>
          rw [hnext] at h
          obtain ⟨hone, hplace⟩ := enter_valid (Ne.symm hsteps.1) hvalid hnext
          obtain ⟨hlast, hlocation, hstands⟩ := ih hsteps.2 hone h
          refine ⟨hlast, ?_, fun hspot => hstands (enter_stands hspot hnext)⟩
          rw [hlocation, hplace, List.foldl_cons]

theorem foldl_follow_steps (path : Path) (start : Location) :
    path.steps.foldl Location.follow start =
      (Path.segments path.text).foldl Location.follow start := by
  rw [Path.steps]
  induction Path.segments path.text generalizing start with
  | nil => rfl
  | cons segment rest ih =>
      rw [List.filter_cons]
      by_cases hempty : segment = ""
      · subst hempty
        simp only [ne_eq, not_true_eq_false, decide_false, Bool.false_eq_true, ↓reduceIte,
          List.foldl_cons]
        exact ih start
      · rw [if_pos (by simpa using hempty), List.foldl_cons, List.foldl_cons]
        exact ih _

theorem not_mem_steps (path : Path) : "" ∉ path.steps := by
  simp [Path.steps]

theorem walk_eq_foldl_steps (disk : Disk) (path : Path) :
    Location.walk disk.workDir path =
      path.steps.foldl Location.follow ((disk.origin path).location disk) := by
  rw [Location.walk_eq_foldl_follow, foldl_follow_steps, (disk.origin_valid path).2]

theorem check_of_find {path : Path} {spot : Spot} (h : disk.find path = .ok spot) :
    path.check = .ok () ∧ path.steps.foldlM disk.enter (disk.origin path) = .ok spot := by
  rw [find] at h
  cases hcheck : path.check with
  | error fault => rw [hcheck] at h; cases h
  | ok _ =>
      rw [hcheck] at h
      cases hfold : path.steps.foldlM disk.enter (disk.origin path) with
      | error fault => rw [hfold] at h; cases h
      | ok last =>
          rw [hfold] at h
          simp only [bind, Except.bind] at h
          split at h
          · cases h
          · cases h
            exact ⟨rfl, rfl⟩

-- The place that a disk finds is the one that the path names.
theorem find_valid {path : Path} {spot : Spot} (h : disk.find path = .ok spot) :
    spot.Valid disk ∧ spot.location disk = Location.walk disk.workDir path := by
  obtain ⟨hvalid, hlocation, -⟩ := foldlM_enter_valid (not_mem_steps path)
    (disk.origin_valid path).1 (check_of_find h).2
  exact ⟨hvalid, hlocation.trans (disk.walk_eq_foldl_steps path).symm⟩

theorem file?_of_read {path : Path} {content : ByteArray} (h : disk.read path = .ok content) :
    disk.file? (Location.walk disk.workDir path) = some content := by
  rw [read] at h
  cases hfind : disk.find path with
  | error fault => rw [hfind] at h; cases h
  | ok spot =>
      rw [hfind] at h
      obtain ⟨hvalid, hlocation⟩ := find_valid hfind
      cases hentry : spot.entry disk with
      | directory inside => simp [hentry, bind, Except.bind] at h
      | file other =>
          simp only [hentry, bind, Except.bind, pure, Except.pure, Except.ok.injEq] at h
          subst h
          have hget := Spot.get?_location hvalid
            (Spot.stands_of_isDirectory_eq_false (by rw [hentry]; rfl))
          rw [hlocation, hentry] at hget
          exact file?_eq_some.2 (kind?_eq_file.2 hget)

theorem exists_read_of_isFile {path : Path} (h : disk.isFile path = true) :
    ∃ content, disk.read path = .ok content := by
  rw [isFile, entry?] at h
  rw [read]
  cases hfind : disk.find path with
  | error fault =>
      rw [hfind] at h
      cases h
  | ok spot =>
      rw [hfind] at h
      cases hentry : spot.entry disk with
      | directory inside => simp [hentry, Entry.isDirectory] at h
      | file content => exact ⟨content, by simp [hentry, bind, Except.bind, pure, Except.pure]⟩

-- How a path ends, once the way to its last step has been followed.
theorem ending_eq_name {path : Path} {parent : Location} {name : String}
    (h : disk.ending path = .ok (.name parent name)) :
    path.check = .ok () ∧ IsName name ∧ disk.kind? parent = some .directory ∧
      name :: parent = Location.walk disk.workDir path := by
  rw [ending] at h
  cases hcheck : path.check with
  | error fault => rw [hcheck] at h; cases h
  | ok _ =>
      rw [hcheck] at h
      simp only [bind, Except.bind] at h
      split at h
      · cases h
      · next last before hsteps =>
        have hsplit : path.steps = before.reverse ++ [last] := by
          rw [← List.reverse_reverse path.steps, hsteps, List.reverse_cons]
        have hlast : last ∈ path.steps := by simp [hsplit]
        have hbefore : "" ∉ before.reverse := fun hmem =>
          not_mem_steps path (by rw [hsplit]; exact List.mem_append_left _ hmem)
        cases hfold : before.reverse.foldlM disk.enter (disk.origin path) with
        | error fault => rw [hfold] at h; cases h
        | ok spot =>
            rw [hfold] at h
            obtain ⟨hvalid, hlocation, -⟩ :=
              foldlM_enter_valid hbefore (disk.origin_valid path).1 hfold
            dsimp only at h
            split at h
            · cases h
            · split at h
              · cases h
              · next hdot =>
                split at h
                · cases h
                · next hup =>
                  cases spot with
                  | file trail other content => cases h
                  | removed above => cases h
                  | directory trail =>
                      simp only [pure, Except.pure, Except.ok.injEq, Ending.name.injEq] at h
                      obtain ⟨hparent, rfl⟩ := h
                      obtain ⟨hmem, hempty⟩ := List.mem_filter.1 hlast
                      have hempty : last ≠ "" := by simpa using hempty
                      refine ⟨rfl, ⟨hempty, hdot, hup, Path.not_mem_of_mem_segments hmem⟩,
                        hparent ▸ Trail.kind?_location hvalid, ?_⟩
                      have hparent : (Spot.directory trail).location disk = parent := hparent
                      rw [walk_eq_foldl_steps, hsplit, List.foldl_append, ← hlocation, hparent,
                        List.foldl_cons, List.foldl_nil, Location.follow,
                        if_neg (not_or.2 ⟨hempty, hdot⟩), if_neg hup]

section Lead

variable {path : Path} {spot : Spot}

-- Where the steps of a path lead, if the path is short enough to be followed.
def lead (disk : Disk) (path : Path) : Except Fault Spot :=
  path.steps.foldlM disk.enter (disk.origin path)

theorem find_of_lead (hcheck : path.check = .ok ()) (hlead : disk.lead path = .ok spot)
    (hslash : path.endsInSlash = true → (spot.entry disk).isDirectory = true) :
    disk.find path = .ok spot := by
  have hend : (path.endsInSlash && !(spot.entry disk).isDirectory) = false := by
    cases hends : path.endsInSlash with
    | false => rfl
    | true => simp [hslash hends]
  rw [find, hcheck, show path.steps.foldlM disk.enter (disk.origin path) = .ok spot from hlead]
  simp [bind, Except.bind, hend, pure, Except.pure]

theorem isDirectory_iff : disk.isDirectory path = true ↔ path.check = .ok () ∧
    ∃ spot, disk.lead path = .ok spot ∧ (spot.entry disk).isDirectory = true := by
  rw [isDirectory, entry?]
  constructor
  · intro h
    cases hfind : disk.find path with
    | error fault => simp [hfind] at h
    | ok spot =>
        rw [hfind] at h
        exact ⟨(check_of_find hfind).1, spot, (check_of_find hfind).2, by simpa using h⟩
  · rintro ⟨hcheck, spot, hlead, hdirectory⟩
    rw [find_of_lead hcheck hlead fun _ => hdirectory]
    simpa using hdirectory

theorem entry?_of_not_endsInSlash (hslash : path.endsInSlash = false) :
    disk.entry? path =
      if path.check = .ok () then (disk.lead path).toOption.map (·.entry disk) else none := by
  unfold entry?
  by_cases hcheck : path.check = .ok ()
  · rw [if_pos hcheck]
    cases hlead : disk.lead path with
    | ok spot =>
        rw [find_of_lead hcheck hlead (by simp [hslash])]
        rfl
    | error fault =>
        cases hfind : disk.find path with
        | error other => rfl
        | ok spot =>
            have := (check_of_find hfind).2
            rw [show disk.lead path = .ok spot from this] at hlead
            cases hlead
  · rw [if_neg hcheck]
    cases hfind : disk.find path with
    | error other => rfl
    | ok spot => exact absurd (check_of_find hfind).1 hcheck

end Lead

end Disk

end StaticSite
