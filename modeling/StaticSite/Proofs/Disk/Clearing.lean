import StaticSite.Build.Batch
import StaticSite.Proofs.Disk.Effects
import StaticSite.Proofs.Path.Descent

-- What clearing a directory leaves of it.
namespace StaticSite

namespace Path

-- A path that goes up, if at all, before it goes down.
def Straight (path : Path) : Prop :=
  (segments path.text).Pairwise fun earlier later =>
    later = ".." → earlier = "" ∨ earlier = "." ∨ earlier = ".."

instance (path : Path) : Decidable path.Straight := by
  unfold Straight
  infer_instance

theorem pairwise_foldl_stack {parts done : List Component}
    (h : done.Pairwise fun later earlier =>
      later = .up ∨ later = .here → ∀ name, earlier ≠ .name name) :
    (parts.foldl stack done).Pairwise fun later earlier =>
      later = .up ∨ later = .here → ∀ name, earlier ≠ .name name := by
  induction parts generalizing done with
  | nil => exact h
  | cons part rest ih =>
      refine ih ?_
      cases part with
      | here => exact h
      | root => exact List.pairwise_cons.2 ⟨by simp, h⟩
      | name text => exact List.pairwise_cons.2 ⟨by simp, h⟩
      | up =>
          cases done with
          | nil => exact List.pairwise_singleton _ _
          | cons last others =>
              have hothers := (List.pairwise_cons.1 h).1
              cases last with
              | name text => exact h.of_cons
              | root => exact h
              | up =>
                  refine List.pairwise_cons.2 ⟨fun earlier hmem _ => ?_, h⟩
                  rcases List.mem_cons.1 hmem with rfl | hmem
                  · simp
                  · exact hothers earlier hmem (.inl rfl)
              | here =>
                  refine List.pairwise_cons.2 ⟨fun earlier hmem _ => ?_, h⟩
                  rcases List.mem_cons.1 hmem with rfl | hmem
                  · simp
                  · exact hothers earlier hmem (.inr rfl)

theorem straight_of_filterMap {segments : List String}
    (h : (segments.filterMap Component.ofSegment?).Pairwise fun earlier later =>
      later = .up ∨ later = .here → ∀ name, earlier ≠ .name name) :
    segments.Pairwise fun earlier later =>
      later = ".." → earlier = "" ∨ earlier = "." ∨ earlier = ".." := by
  refine (List.pairwise_filterMap.1 h).imp fun {earlier later} hpair hup => ?_
  subst hup
  by_contra hname
  rw [not_or, not_or] at hname
  have hearlier : Component.ofSegment? earlier = some (.name earlier) := by
    simp [Component.ofSegment?, hname]
  exact hpair _ hearlier .up rfl (.inl rfl) earlier rfl

-- A normal path is straight.
theorem straight_of_normal {path : Path} (h : path.normalComponents = path.components) :
    path.Straight := by
  have hsorted : path.components.Pairwise fun earlier later =>
      later = .up ∨ later = .here → ∀ name, earlier ≠ .name name := by
    rw [← h, normalComponents, List.pairwise_reverse]
    exact pairwise_foldl_stack .nil
  rw [Straight]
  rw [components] at hsorted
  split at hsorted
  · next heq => simp [heq]
  · next first rest heq =>
    rw [heq]
    dsimp only at hsorted
    split at hsorted
    · next hempty =>
      refine List.pairwise_cons.2 ⟨fun _ _ _ => .inl hempty, ?_⟩
      split at hsorted
      · next hnil => simp [hnil]
      · exact straight_of_filterMap hsorted.of_cons
    · split at hsorted
      · next hdot =>
        exact List.pairwise_cons.2 ⟨fun _ _ _ => .inr (.inl hdot),
          straight_of_filterMap hsorted.of_cons⟩
      · refine straight_of_filterMap ?_
        rw [List.filterMap_cons]
        cases hfirst : Component.ofSegment? first with
        | none => simpa [hfirst] using hsorted
        | some part => simpa [hfirst] using hsorted

end Path

namespace Disk

variable {disk : Disk} {path : Path}

theorem kind?_within_of_none {top location : Location} (h : disk.kind? top = none)
    (hwithin : within top location) : disk.kind? location = none := by
  obtain ⟨below, rfl⟩ := within_iff.1 hwithin
  by_cases hbelow : below = []
  · rw [hbelow]
    exact h
  · exact kind?_below_of_ne_directory (by simp [h]) hbelow

-- Where a straight path stops for want of a name, the name is missing in a directory, and the end of
-- the path lies beyond it.
theorem missing_of_foldlM_enter_notFound {steps : List String} {spot : Spot}
    (hempty : "" ∉ steps) (hvalid : spot.Valid disk) (hstands : spot.Stands)
    (hstraight : steps.Pairwise fun earlier later =>
      later = ".." → earlier = "" ∨ earlier = "." ∨ earlier = "..")
    (h : steps.foldlM disk.enter spot = .error .notFound) :
    ∃ name parent, disk.kind? parent = some .directory ∧ disk.kind? (name :: parent) = none ∧
      name.utf8ByteSize ≤ longestName ∧
      within (name :: parent) (steps.foldl Location.follow (spot.location disk)) := by
  induction steps generalizing spot with
  | nil => cases h
  | cons step rest ih =>
      rw [List.mem_cons, not_or] at hempty
      obtain ⟨hlater, hrest⟩ := List.pairwise_cons.1 hstraight
      rw [List.foldlM_cons] at h
      cases hnext : disk.enter spot step with
      | ok next =>
          rw [hnext] at h
          obtain ⟨hvalid', hlocation⟩ := enter_valid (Ne.symm hempty.1) hvalid hnext
          rw [List.foldl_cons, ← hlocation]
          exact ih hempty.2 hvalid' (enter_stands hstands hnext) hrest h
      | error fault =>
          rw [hnext] at h
          cases h
          obtain ⟨hdot, hup, hparent, hnone, hlength⟩ : step ≠ "." ∧ step ≠ ".." ∧
              disk.kind? (spot.location disk) = some .directory ∧
              disk.kind? (step :: spot.location disk) = none ∧
              step.utf8ByteSize ≤ longestName := by
            cases spot with
            | removed above => exact hstands.elim
            | file trail name content => cases hnext
            | directory trail =>
                simp only [enter] at hnext
                split at hnext
                · cases hnext
                · next hdot =>
                  split at hnext
                  · cases hnext
                  · next hup =>
                    split at hnext
                    · cases hnext
                    · cases hnext
                    · next hfind =>
                      refine ⟨hdot, hup, Trail.kind?_location hvalid, ?_, ?_⟩
                      · rw [kind?_eq_none, get?_cons, Spot.get?_location hvalid hstands,
                          Option.bind_some]
                        exact hfind
                      · rw [missing] at hnext
                        split at hnext
                        · cases hnext
                        · next hlength => exact Nat.not_lt.1 hlength
          -- From here on the path goes down only.
          have hdown : ".." ∉ rest := fun hmem => by
            rcases hlater ".." hmem rfl with heq | heq | heq
            · exact hempty.1 heq.symm
            · exact hdot heq
            · exact hup heq
          rw [List.foldl_cons, Location.follow, if_neg (not_or.2 ⟨Ne.symm hempty.1, hdot⟩),
            if_neg hup]
          exact ⟨step, _, hparent, hnone, hlength, Location.within_foldl_follow hdown _⟩

theorem missing_of_find_notFound (hne : path.text ≠ "") (hstands : (disk.origin path).Stands)
    (hstraight : path.Straight) (h : disk.find path = .error .notFound) :
    ∃ name parent, disk.kind? parent = some .directory ∧ disk.kind? (name :: parent) = none ∧
      name.utf8ByteSize ≤ longestName ∧
      within (name :: parent) (Location.walk disk.workDir path) := by
  have hfold : path.steps.foldlM disk.enter (disk.origin path) = .error .notFound := by
    rw [find] at h
    cases hcheck : path.check with
    | error fault =>
        rw [hcheck] at h
        cases h
        rw [Path.check, if_neg hne] at hcheck
        split at hcheck
        · cases hcheck
        · split at hcheck <;> cases hcheck
    | ok _ =>
        rw [hcheck] at h
        cases hfold : path.steps.foldlM disk.enter (disk.origin path) with
        | error fault =>
            rw [hfold] at h
            cases h
            rfl
        | ok spot =>
            rw [hfold] at h
            simp only [bind, Except.bind] at h
            split at h <;> cases h
  rw [walk_eq_foldl_steps]
  exact missing_of_foldlM_enter_notFound (not_mem_steps path) (disk.origin_valid path).1 hstands
    (hstraight.filter _) hfold

-- There is nothing at the end of such a path.
theorem kind?_of_find_notFound (hne : path.text ≠ "") (hstands : (disk.origin path).Stands)
    (hstraight : path.Straight) (h : disk.find path = .error .notFound) :
    disk.kind? (Location.walk disk.workDir path) = none := by
  obtain ⟨_, _, -, hnone, -, hwithin⟩ := missing_of_find_notFound hne hstands hstraight h
  exact kind?_within_of_none hnone hwithin

-- An absolute path, or one from a working directory that is there, starts at a directory.
theorem stands_origin {target : Path} (h : path.absolute disk.base? = .ok target) :
    path.text ≠ "" ∧ (disk.origin path).Stands := by
  have hne : path.text ≠ "" := by
    intro hempty
    unfold Path.absolute at h
    rw [if_pos hempty] at h
    cases h
  refine ⟨hne, ?_⟩
  rw [origin]
  split
  · trivial
  · next habsolute =>
    split
    · trivial
    · next above hadrift =>
      unfold Path.absolute at h
      rw [if_neg hne, if_neg habsolute, base?, if_neg (by simp [hadrift])] at h
      cases h

-- Where a directory has been removed, or was not found, there are no files, and there are none
-- either if its inside has been removed only.
theorem file?_removeDirectory {next : Disk} {result : Except Fault Unit} {location : Location}
    (hne : path.text ≠ "") (hstands : (disk.origin path).Stands) (hstraight : path.Straight)
    (h : disk.removeDirectory path = (result, next))
    (hresult : result = .ok () ∨ result = .error .notFound)
    (hwithin : within (Location.walk disk.workDir path) location) : next.file? location = none := by
  unfold removeDirectory at h
  split at h
  · next fault hempty =>
    cases h
    simp only [reduceCtorEq, Except.error.injEq, false_or] at hresult
    subst hresult
    have hfind : disk.find path = .error .notFound := by
      rw [emptyDirectory] at hempty
      cases hfind : disk.find path with
      | error fault =>
          rw [hfind] at hempty
          cases hempty
          rfl
      | ok spot =>
          rw [hfind] at hempty
          cases spot <;> cases hempty
    have hnone := kind?_of_find_notFound hne hstands hstraight hfind
    rw [file?, kind?_within_of_none hnone hwithin]
  · next emptied hempty =>
    obtain ⟨spot, hspot, hempty⟩ := bind_eq_ok.1 hempty
    obtain ⟨hvalid, hlocation⟩ := find_valid hspot
    obtain ⟨-, -, hkeeps⟩ := foldlM_enter_valid (not_mem_steps path)
      (disk.origin_valid path).1 (check_of_find hspot).2
    cases spot with
    | file trail name content => cases hempty
    | removed above => exact (hkeeps hstands).elim
    | directory trail =>
        cases hempty
        have hlocation : trail.location = Location.walk disk.workDir path := hlocation
        have hkind := Trail.kind?_location hvalid
        rw [hlocation] at hkind h
        split at h
        · next last hremove =>
          cases h
          obtain ⟨name, parent, hwalk, rfl⟩ := removeEmptied_eq_ok hremove
          rw [workDir_eraseBelow] at hwalk
          rw [file?, kind?_erase, hwalk, if_pos hwithin]
        · cases h
          rw [file?, kind?_eraseBelow hkind]
          by_cases heq : location = Location.walk disk.workDir path
          · rw [if_neg (by simp [heq]), heq, hkind]
          · rw [if_pos ⟨hwithin, heq⟩]

end Disk

-- An output directory that has been cleared holds no file.
theorem Progress.file?_clearOutput {progress cleared : Progress} {out target : Path}
    (habsolute : out.absolute progress.disk.base? = .ok target) (hstraight : out.Straight)
    (h : progress.clearOutput out = (.ok (), cleared)) {location : Location}
    (hwithin : Disk.within (Location.walk progress.disk.workDir out) location) :
    cleared.disk.file? location = none := by
  obtain ⟨hne, hstands⟩ := Disk.stands_origin habsolute
  unfold clearOutput at h
  split at h
  · next disk hremove =>
    cases h
    exact Disk.file?_removeDirectory hne hstands hstraight hremove (.inl rfl) hwithin
  · next disk hremove =>
    cases h
    exact Disk.file?_removeDirectory hne hstands hstraight hremove (.inr rfl) hwithin
  · cases h

end StaticSite
