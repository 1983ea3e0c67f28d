import StaticSite.Proofs.Disk.Following

-- How a path ends: the way to its last step, and what the last step is there.
namespace StaticSite

theorem Trail.kind?_cons {disk : Disk} {trail : Trail} (h : trail.Valid disk) (name : String) :
    disk.kind? (name :: trail.location) = ((trail.inside disk).find? name).map Entry.kind := by
  rw [Disk.kind?, Disk.get?_cons, Trail.get?_location h]
  rfl

namespace Disk

variable {disk next : Disk} {path : Path}

-- Where a path leads without its last step.
def way (disk : Disk) (path : Path) : Except Fault Spot :=
  path.steps.dropLast.foldlM disk.enter (disk.origin path)

-- How a path ends after the way to its last step.
def finish (disk : Disk) (spot : Spot) (last : String) : Except Fault Ending :=
  if (spot.entry disk).isDirectory = false then .error .notADirectory
  else if last = "." then .ok .here
  else if last = ".." then .ok .up
  else match spot with
    | .directory trail => .ok (.name trail.location last)
    | _ => .error .notFound

theorem finish_eq_name {spot : Spot} {last name : String} {parent : Location}
    (h : disk.finish spot last = .ok (.name parent name)) :
    ∃ trail, spot = .directory trail ∧ trail.location = parent ∧ last = name ∧ last ≠ "." ∧
      last ≠ ".." := by
  unfold finish at h
  split at h
  · cases h
  · split at h
    · cases h
    · next hdot =>
      split at h
      · cases h
      · next hup =>
        cases spot with
        | directory trail =>
            obtain ⟨hparent, hname⟩ := Ending.name.inj (Except.ok.inj h)
            exact ⟨trail, rfl, hparent, hname, hdot, hup⟩
        | _ => cases h

theorem ending_of_check {fault : Fault} (h : path.check = .error fault) :
    disk.ending path = .error fault := by
  rw [ending, h]
  rfl

theorem ending_of_nil (hcheck : path.check = .ok ()) (h : path.steps = []) :
    disk.ending path = .ok .root := by
  rw [ending, hcheck, h]
  rfl

theorem ending_of_concat {before : List String} {last : String} (hcheck : path.check = .ok ())
    (h : path.steps = before ++ [last]) :
    disk.ending path = (disk.way path).bind fun spot => disk.finish spot last := by
  rw [ending, way, hcheck, h, List.reverse_concat, List.dropLast_concat]
  simp only [List.reverse_reverse, bind, Except.bind]
  cases before.foldlM disk.enter (disk.origin path) with
  | error fault => rfl
  | ok spot =>
      simp only [finish]
      cases hentry : (spot.entry disk).isDirectory with
      | false => rfl
      | true =>
          simp only [Bool.not_true, Bool.false_eq_true, Bool.true_eq_false, ↓reduceIte]
          split
          · rfl
          · split
            · rfl
            · cases spot <;> rfl

theorem lead_of_concat {before : List String} {last : String} (h : path.steps = before ++ [last]) :
    disk.lead path = (disk.way path).bind fun spot => disk.enter spot last := by
  rw [lead, way, h, List.dropLast_concat, List.foldlM_append]
  simp only [List.foldlM_cons, List.foldlM_nil, bind_pure]
  rfl

theorem isDirectory_origin (disk : Disk) (path : Path) :
    ((disk.origin path).entry disk).isDirectory = true := by
  rw [origin]
  split
  · rfl
  · split <;> rfl

-- The last step leads to a directory where it needs no name, or to the name of a directory.
theorem enter_directory_iff {spot : Spot} (hvalid : spot.Valid disk) (last : String) :
    (∃ next, disk.enter spot last = .ok next ∧ (next.entry disk).isDirectory = true) ↔
      ∃ ending, disk.finish spot last = .ok ending ∧ ∀ parent name, ending = .name parent name →
        disk.kind? (name :: parent) = some .directory := by
  cases spot with
  | file trail name content =>
      refine iff_of_false ?_ ?_
      · rintro ⟨next, hnext, -⟩
        cases hnext
      · rintro ⟨ending, hending, -⟩
        cases hending
  | removed above =>
      by_cases hdot : last = "."
      · subst hdot
        exact iff_of_true ⟨_, rfl, rfl⟩ ⟨.here, rfl, fun _ _ heq => by cases heq⟩
      · by_cases hup : last = ".."
        · subst hup
          refine iff_of_true ?_ ⟨.up, rfl, fun _ _ heq => by cases heq⟩
          cases above with
          | zero => exact ⟨_, rfl, rfl⟩
          | succ above => exact ⟨_, rfl, rfl⟩
        · simp [enter, finish, hdot, hup, Spot.entry, Entry.isDirectory]
  | directory trail =>
      by_cases hdot : last = "."
      · subst hdot
        exact iff_of_true ⟨_, rfl, rfl⟩ ⟨.here, rfl, fun _ _ heq => by cases heq⟩
      · by_cases hup : last = ".."
        · subst hup
          exact iff_of_true ⟨_, rfl, rfl⟩ ⟨.up, rfl, fun _ _ heq => by cases heq⟩
        · have hkind := Trail.kind?_cons hvalid last
          have hfinish : disk.finish (.directory trail) last = .ok (.name trail.location last) := by
            simp [finish, hdot, hup, Spot.entry, Entry.isDirectory]
          rw [hfinish]
          simp only [enter, if_neg hdot, if_neg hup]
          cases hfind : (trail.inside disk).find? last with
          | none =>
              rw [hfind] at hkind
              simp [hkind]
          | some entry =>
              rw [hfind] at hkind
              cases entry with
              | file content => simp [hkind, Entry.kind, Spot.entry, Entry.isDirectory]
              | directory inside => simp [hkind, Entry.kind, Spot.entry, Entry.isDirectory]

theorem isDirectory_iff_ending : disk.isDirectory path = true ↔
    ∃ ending, disk.ending path = .ok ending ∧ ∀ parent name, ending = .name parent name →
      disk.kind? (name :: parent) = some .directory := by
  rw [isDirectory_iff]
  cases hcheck : path.check with
  | error fault => simp [ending_of_check hcheck]
  | ok _ =>
      rw [and_iff_right rfl]
      rcases List.eq_nil_or_concat' path.steps with hnil | ⟨before, last, hconcat⟩
      · have hlead : disk.lead path = .ok (disk.origin path) := by
          rw [lead, hnil]
          rfl
        rw [hlead, ending_of_nil hcheck hnil]
        exact iff_of_true ⟨_, rfl, disk.isDirectory_origin path⟩
          ⟨.root, rfl, fun _ _ heq => by cases heq⟩
      · rw [lead_of_concat hconcat, ending_of_concat hcheck hconcat]
        cases hway : disk.way path with
        | error fault => simp [Except.bind]
        | ok spot =>
            refine enter_directory_iff ?_ last
            exact (foldlM_enter_valid (fun hmem => not_mem_steps path (List.dropLast_subset _ hmem))
              (disk.origin_valid path).1 hway).1

-- A path to a directory, however long it is.
def Enters (disk : Disk) (path : Path) : Prop :=
  ∃ spot, disk.lead path = .ok spot ∧ (spot.entry disk).isDirectory = true

end Disk

end StaticSite
