import StaticSite.Proofs.Build.Alongside
import StaticSite.Proofs.Build.Failed
import StaticSite.Proofs.Build.Slot
import StaticSite.Proofs.Disk.Removing

-- A build that is done again on the disk that it has left: it comes to the same report and leaves
-- every file as it is.
namespace StaticSite

open Disk (within)

theorem IsRelative.segments_join {relative : String} (h : IsRelative relative) (out : Path) :
    ∃ front name, Path.segments (out.join ⟨relative⟩).text = front ++ [name] ∧ IsName name := by
  obtain ⟨below, hne, hnamed, rfl⟩ := h
  rw [Path.segments_join (Location.isAbsolute_names hnamed), Location.segments_names hne hnamed]
  obtain ⟨name, rest, rfl⟩ := List.exists_cons_of_ne_nil hne
  rw [List.reverse_cons, ← List.append_assoc]
  exact ⟨_, name, rfl, hnamed name List.mem_cons_self⟩

namespace Progress

variable {progress other : Progress} {destination : Path} {content : ByteArray}
  {ready : Disk → Prop} {change : Disk → Except Fault Disk} {location : Location}

theorem place_of_disk_eq (h : other.disk = progress.disk) (destination : Path)
    (change : Disk → Except Fault Disk) :
    (other.place destination change).1 = (progress.place destination change).1 ∧
      (other.place destination change).2.disk = (progress.place destination change).2.disk := by
  unfold place
  rw [h]
  split
  · exact ⟨rfl, rfl⟩
  · split <;> exact ⟨rfl, rfl⟩

-- What putting a file changes: its place, if it succeeds, and directories that were missing.
theorem place_changes (hstores : Disk.Stores destination content ready change)
    (hready : ready progress.disk) (location : Location) :
    (progress.place destination change).2.disk.kind? location = progress.disk.kind? location ∨
      (location = Location.walk progress.disk.workDir destination ∧
        (progress.place destination change).1 = .ok ()) ∨
      progress.disk.kind? location = none ∧
        (progress.place destination change).2.disk.kind? location = some .directory := by
  have hgrows := progress.disk.makeParent_grows destination
  unfold place
  generalize progress.disk.makeParent destination = made at hgrows ⊢
  obtain ⟨result, middle⟩ := made
  have hmade := (hgrows.kind? location).imp_right fun hnew => hnew.2
  cases result with
  | error fault => exact hmade.imp_right .inr
  | ok _ =>
      dsimp only at hgrows hmade ⊢
      cases hchange : change middle with
      | error fault => exact hmade.imp_right .inr
      | ok next =>
          have hkind := hstores.kind? _ _ (hstores.grows _ _ hgrows hready) hchange location
          rw [hgrows.workDir] at hkind
          by_cases hplace : location = Location.walk progress.disk.workDir destination
          · exact .inr (.inl ⟨hplace, rfl⟩)
          · rw [if_neg hplace] at hkind
            rw [disk_onDisk, hkind]
            exact hmade.imp_right .inr

theorem file?_place (hstores : Disk.Stores destination content ready change)
    (hready : ready progress.disk)
    (hne : location ≠ Location.walk progress.disk.workDir destination) :
    (progress.place destination change).2.disk.file? location = progress.disk.file? location := by
  rcases place_changes hstores hready location with heq | ⟨heq, -⟩ | ⟨hnone, hdirectory⟩
  · exact Disk.file?_eq_of_kind?_eq heq
  · exact absurd heq hne
  · simp only [Disk.file?, hnone, hdirectory]

end Progress

namespace Disk

variable {disk other next : Disk} {top : Location}

-- A build that has ended on `final` is done again from there, on the disk `other`, while the first
-- time it had come to `disk`. What is as it was in the end already then, stays so.
structure Retraces (top : Location) (final disk other : Disk) : Prop where
  twins : Twins top disk other
  extension : Extends final other
  settled : ∀ location, disk.kind? location = final.kind? location →
    other.kind? location = final.kind? location

-- A build on a disk that has some more of the directories that lead to the output.
structure Leads (out : Path) (top : Location) (disk other : Disk) : Prop where
  base : SameBase disk other
  grounded : disk.Grounded out
  ahead : Scene.Ahead top disk.kind? other.kind?

-- What a build from `disk` changes outside of the output directory: directories that lead there are
-- made. The output directory itself does not become a file.
structure Grown (out : Path) (top : Location) (disk next : Disk) : Prop where
  base : SameBase disk next
  grounded : disk.Grounded out
  ahead : ∀ location, ¬ within top location → next.kind? location = disk.kind? location ∨
    disk.kind? location = none ∧ next.kind? location = some .directory ∧
      within location top.tail ∧ location.Creatable
  free : ∀ content, next.kind? top ≠ some (.file content)

-- What lies on the way to a place below `top`, but not at or below `top`, lies above it.
theorem within_tail_of_append {below location : Location} (h : within location (below ++ top))
    (hnot : ¬ within top location) : within location top.tail := by
  have habove := (within_or_within h (within_append below top)).resolve_right hnot
  cases top with
  | nil => exact habove
  | cons name parent =>
      refine (Scene.within_cons_iff.1 habove).resolve_left ?_
      rintro rfl
      exact hnot (within_refl _)

theorem Leads.file?_eq {out : Path} (h : Leads out top disk other) (location : Location) :
    other.file? location = disk.file? location := by
  rcases h.ahead location with heq | ⟨hnone, hdirectory, -⟩
  · exact file?_eq_of_kind?_eq heq
  · simp only [file?, hnone, hdirectory]

theorem Grown.of_lands {out : Path} {start : Disk} {slot : Slot} {content : ByteArray} {done : Prop}
    {below : Location} (h : Grown out top start disk) (hplace : slot.place = below ++ top)
    (hne : below ≠ []) (hlands : Lands slot content done disk next) : Grown out top start next := by
  have hfill : ∀ location, location ≠ slot.place → next.kind? location =
      if slot.near then Scene.raise disk.kind? slot.place.tail location
      else disk.kind? location := fun location hother => by
    rw [hlands.kind?, Slot.fill_of_ne hother]
  refine ⟨h.base.trans hlands.base, h.grounded, fun location hnot => ?_, fun content hfile => ?_⟩
  · have hother : location ≠ slot.place := by
      rintro rfl
      exact hnot (hplace ▸ within_append below top)
    rw [hfill location hother]
    split
    · rw [Scene.raise]
      split
      · next hmissing =>
        obtain ⟨hway, hnone, hpass⟩ := hmissing
        rw [hplace, List.tail_append_of_ne_nil hne] at hway
        refine .inr ⟨?_, rfl, within_tail_of_append hway hnot,
          Scene.creatable_of_passable hpass hnone⟩
        exact (h.ahead location hnot).elim (·.symm.trans hnone) (·.1)
      · exact h.ahead location hnot
    · exact h.ahead location hnot
  · have hother : top ≠ slot.place := by
      intro heq
      have hlength := congrArg List.length (heq.trans hplace)
      rw [List.length_append] at hlength
      have := List.length_pos_iff.2 hne
      omega
    rw [hfill top hother, Scene.raise] at hfile
    split at hfile
    · split at hfile
      · cases hfile
      · exact h.free content hfile
    · exact h.free content hfile

end Disk

namespace Progress.Alongside

variable {out : Path} {top : Location} {final : Disk}

-- Every step is taken again, with the same outcome.
theorem retraces (out : Path) (top : Location) (final : Disk) :
    Alongside out top final (Disk.Retraces top final) := by
  refine ⟨fun h => h.twins, ?_⟩
  intro progress other relative content ready change htop hrelative hstores hready hready' hsim
    hfinal
  have hpast := hfinal.trans hsim.extension
  have hwork := hsim.twins.base.workDir
  have hmade := place_extends hstores hready
  have hmade' := place_extends hstores hready'
  have hplace : within top (Location.walk progress.disk.workDir (out.join ⟨relative⟩)) :=
    htop ▸ hrelative.within_join _ out
  have htwins : Disk.Twins top (progress.place (out.join ⟨relative⟩) change).2.disk
      (other.place (out.join ⟨relative⟩) change).2.disk := by
    refine ⟨hmade.base.symm.trans (hsim.twins.base.trans hmade'.base), fun location hnot => ?_⟩
    have hne : location ≠ Location.walk progress.disk.workDir (out.join ⟨relative⟩) :=
      fun heq => hnot (heq ▸ hplace)
    rw [file?_place hstores hready hne, file?_place hstores hready' (hwork ▸ hne),
      hsim.twins.file? location hnot]
  -- What the first build has changed by this step, other than by a file, was there before this one.
  have hsettled : ∀ location, (progress.place (out.join ⟨relative⟩) change).2.disk.kind? location =
      final.kind? location → ¬ (location = Location.walk progress.disk.workDir
        (out.join ⟨relative⟩) ∧ (progress.place (out.join ⟨relative⟩) change).1 = .ok ()) →
      other.disk.kind? location = final.kind? location := by
    intro location heq hnot
    rcases place_changes hstores hready location with hsame | hput | ⟨-, hdirectory⟩
    · exact hsim.settled location (hsame.symm.trans heq)
    · exact absurd hput hnot
    · rw [hdirectory] at heq
      rw [← heq, hsim.extension.directory location heq.symm]
  obtain ⟨front, name, hsegments, hname⟩ := hrelative.segments_join out
  rcases place_again hstores hsegments hname hready hready' hpast with
    ⟨hok, hok', hfile, hkind⟩ | ⟨hnot, hnot', hsame⟩
  · refine ⟨iff_of_true hok' hok, htwins, hsim.extension.trans hmade', fun location heq => ?_⟩
    rw [hkind]
    split
    · next hplace =>
      rw [← heq, hplace, hfile]
    · next hne => exact hsettled location heq fun hput => hne hput.1
  · refine ⟨iff_of_false hnot' hnot, htwins, hsim.extension.trans hmade', fun location heq => ?_⟩
    rw [hsame]
    exact hsettled location heq fun hput => hnot hput.2

-- What an output is to a disk on which the path to it can be followed as far as it goes.
theorem lands_output {progress : Progress} {relative : String} {content : ByteArray}
    {ready : Disk → Prop} {change : Disk → Except Fault Disk}
    (htop : Location.walk progress.disk.workDir out = top) (hrelative : IsRelative relative)
    (hstraight : out.Straight) (hgrounded : progress.disk.Grounded out)
    (hstores : Disk.Stores (out.join ⟨relative⟩) content ready change)
    (hready : ready progress.disk) :
    (∃ below, below ≠ [] ∧
      ((out.join ⟨relative⟩).slot progress.disk.workDir).place = below ++ top) ∧
    Disk.Lands ((out.join ⟨relative⟩).slot progress.disk.workDir) content
      ((progress.place (out.join ⟨relative⟩) change).1 = .ok ()) progress.disk
      (progress.place (out.join ⟨relative⟩) change).2.disk := by
  obtain ⟨below, hne, hnamed, rfl⟩ := hrelative
  obtain ⟨name, rest, rfl⟩ := List.exists_cons_of_ne_nil hne
  have haims := Disk.aims_join hstraight hgrounded hnamed
  refine ⟨⟨name :: rest, hne, ?_⟩, place_lands haims hstores hready⟩
  rw [List.cons_append, ← htop]
  exact haims.place_slot

theorem leads (hstraight : out.Straight) (final : Disk) :
    Alongside out top final (Disk.Leads out top) := by
  refine ⟨fun h => ⟨h.base, fun location _ => h.file?_eq location⟩, ?_⟩
  intro progress other relative content ready change htop hrelative hstores hready hready' hsim _
  obtain ⟨⟨below, hne, hplace⟩, hlands⟩ :=
    lands_output htop hrelative hstraight hsim.grounded hstores hready
  obtain ⟨-, hlands'⟩ := lands_output (by rw [hsim.base.workDir, htop]) hrelative hstraight
    (hsim.base.grounded hsim.grounded) hstores hready'
  rw [hsim.base.workDir] at hlands'
  refine ⟨?_, hlands.base.symm.trans (hsim.base.trans hlands'.base),
    hlands.base.grounded hsim.grounded, ?_⟩
  · rw [hlands'.done, hlands.done, hsim.ahead.fits hplace hne]
  · rw [hlands'.kind?, hlands.kind?]
    exact hsim.ahead.fill hplace hne content

-- A build goes beside itself.
theorem grown (hstraight : out.Straight) (start final : Disk) :
    Alongside out top final fun disk other => other = disk ∧ Disk.Grown out top start disk := by
  refine ⟨?_, ?_⟩
  · rintro disk other ⟨rfl, -⟩
    exact ⟨.refl _, fun _ _ => rfl⟩
  · intro progress other relative content ready change htop hrelative hstores hready hready' hsim _
    obtain ⟨hother, hgrown⟩ := hsim
    obtain ⟨hresult, hdisk⟩ := place_of_disk_eq hother (out.join ⟨relative⟩) change
    obtain ⟨⟨below, hne, hplace⟩, hlands⟩ := lands_output htop hrelative hstraight
      (hgrown.base.grounded hgrown.grounded) hstores hready
    exact ⟨by rw [hresult], hdisk, hgrown.of_lands hplace hne hlands⟩

end Progress.Alongside

namespace Disk

variable {disk cleared next other : Disk} {path out target : Path} {top : Location}

-- A path that can be made absolute starts at the root, or at a working directory that stands.
theorem based_of_absolute (h : path.absolute disk.base? = .ok target) :
    path.isAbsolute = true ∨ disk.adrift = 0 := by
  obtain ⟨-, hstands⟩ := stands_origin h
  rw [origin] at hstands
  split at hstands
  · next habsolute => exact .inl habsolute
  · split at hstands
    · next hzero => exact .inr hzero
    · exact hstands.elim

theorem grounded_of_absolute (h : path.absolute disk.base? = .ok target) : disk.Grounded path :=
  grounded_of_based (based_of_absolute h)

-- What is known after the output directory has been cleared, besides that it is gone.
structure Readied (out : Path) (disk cleared : Disk) : Prop where
  clears : Clears (Location.walk disk.workDir out) disk cleared
  check : out.check = .ok ()
  way : disk.Open (Location.walk disk.workDir out)
  adrift : disk.adrift = 0 → cleared.Adrift

theorem check_of_clearOutput {progress next : Progress} (hne : out.text ≠ "")
    (h : progress.clearOutput out = (.ok (), next)) : out.check = .ok () := by
  cases hcheck : out.check with
  | ok _ => rfl
  | error fault =>
      have hremove : progress.disk.removeDirectory out = (.error fault, progress.disk) := by
        simp only [removeDirectory, emptyDirectory, find, hcheck, bind, Except.bind]
      rw [Progress.clearOutput, hremove] at h
      cases fault <;> first | exact absurd rfl (Path.ne_notFound_of_check hne hcheck) | cases h

-- A directory can still be found when it has been emptied: the way to it does not lead through it.
theorem grounded_eraseBelow (habsolute : out.absolute disk.base? = .ok target)
    (hstraight : out.Straight)
    (hkind : disk.kind? (Location.walk disk.workDir out) = some .directory) :
    (disk.eraseBelow (Location.walk disk.workDir out)).Grounded out := by
  rcases based_of_absolute habsolute with hroot | hzero
  · exact .inl hroot
  · rw [Grounded, or_iff_not_imp_left, Bool.not_eq_true]
    intro hrelative
    by_contra hless
    have hgone := (adrift_of_zero hzero).eraseBelow hkind out.rises (Nat.lt_of_not_le hless)
    have habove := @within_walk_straight disk out hstraight hrelative
    rw [workDir_eraseBelow, kind?_eraseBelow hkind, if_neg] at hgone
    · obtain ⟨below, hbelow⟩ := within_iff.1 habove
      by_cases hnil : below = []
      · rw [hnil, List.nil_append] at hbelow
        exact hgone (hbelow ▸ hkind)
      · rw [hbelow] at hkind
        exact hgone (kind?_above hnil hkind)
    · rintro ⟨hwithin, hne⟩
      exact hne (within_antisymm habove hwithin)

theorem readied_of_not_directory {progress next : Progress}
    (habsolute : out.absolute progress.disk.base? = .ok target) (hstraight : out.Straight)
    (hkind : progress.disk.kind? (Location.walk progress.disk.workDir out) ≠ some .directory)
    (h : progress.clearOutput out = (.ok (), next)) :
    Readied out progress.disk next.disk ∧ next.disk = progress.disk := by
  obtain ⟨hne, hstands⟩ := stands_origin habsolute
  have hcheck := check_of_clearOutput hne h
  obtain ⟨fault, hremove, hfault⟩ :=
    removeDirectory_of_not_directory hstraight (grounded_of_absolute habsolute) hkind
  rw [Progress.clearOutput, hremove] at h
  by_cases hmissing : fault = .notFound
  · have hfind := hfault.1 hmissing
    subst hmissing
    cases h
    exact ⟨⟨.of_none (kind?_of_find_notFound hne hstands hstraight hfind), hcheck,
      open_of_find_notFound hne hstands hstraight hfind, adrift_of_zero⟩, rfl⟩
  · cases fault <;> first | exact absurd rfl hmissing | cases h

theorem readied_of_clearOutput {progress next : Progress}
    (habsolute : out.absolute progress.disk.base? = .ok target) (hstraight : out.Straight)
    (hname : out.EndsInName) (h : progress.clearOutput out = (.ok (), next)) :
    Readied out progress.disk next.disk := by
  have hcheck := check_of_clearOutput (stands_origin habsolute).1 h
  by_cases hkind : progress.disk.kind? (Location.walk progress.disk.workDir out) = some .directory
  · rw [Progress.clearOutput, removeDirectory_of_directory hstraight hname hcheck
      (grounded_of_absolute habsolute) (grounded_eraseBelow habsolute hstraight hkind) hkind] at h
    cases h
    obtain ⟨before, name, hsteps, hlast⟩ := hname
    have hwalk := @walk_of_endsInName progress.disk out before name hsteps hlast
    rw [hwalk] at hkind
    refine ⟨?_, hcheck, ?_, fun hzero => ?_⟩ <;> rw [hwalk]
    · exact clears_erase hkind
    · exact open_of_directory hkind
    · exact ((adrift_of_zero hzero).eraseBelow hkind).erase
  · exact (readied_of_not_directory habsolute hstraight hkind h).1

namespace Readied

-- A path that leads to a place outside of the output directory, or to there by its name.
theorem grounded (h : Readied out disk cleared) (habsolute : path.absolute disk.base? = .ok target)
    (hstraight : path.Straight)
    (hplace : ¬ within (Location.walk disk.workDir out) (Location.walk disk.workDir path) ∨
      Location.walk disk.workDir path = Location.walk disk.workDir out ∧ path.EndsInName) :
    cleared.Grounded path := by
  rcases based_of_absolute habsolute with hroot | hzero
  · exact .inl hroot
  · exact grounded_of_adrift hzero h.clears.workDir (h.adrift hzero)
      (fun location hnot => by rw [h.clears.kind?, if_neg hnot]) hstraight hplace

theorem not_within_base (h : Readied out disk cleared) :
    ¬ within (Location.walk disk.workDir out) (cleared.workDir.drop cleared.adrift) := by
  intro hwithin
  have hbase := cleared.kind?_workDir_drop
  rw [h.clears.kind?, if_pos hwithin] at hbase
  cases hbase

-- Nothing that a build makes gets in the way of clearing its output again.
theorem open_of_grown (h : Readied out disk cleared)
    (hgrown : Grown out (Location.walk disk.workDir out) cleared next) :
    next.Open (Location.walk disk.workDir out) := by
  intro above content habove hfile
  by_cases hself : within (Location.walk disk.workDir out) above
  · exact hgrown.free content (within_antisymm hself habove ▸ hfile)
  · rcases hgrown.ahead above hself with heq | ⟨-, hdirectory, -⟩
    · rw [heq, h.clears.kind?, if_neg hself] at hfile
      exact h.way above content habove hfile
    · rw [hdirectory] at hfile
      cases hfile

-- Cleared again, the disk is as it was, but for directories that lead to the output.
theorem leads (h : Readied out disk cleared) (hgrounded : cleared.Grounded out)
    (hgrown : Grown out (Location.walk disk.workDir out) cleared next)
    (hagain : Clears (Location.walk disk.workDir out) next other) (hbase : SameBase next other) :
    Leads out (Location.walk disk.workDir out) cleared other := by
  refine ⟨hgrown.base.trans hbase, hgrounded, fun location => ?_⟩
  rw [hagain.kind?]
  split
  · next hwithin => exact .inl (by rw [h.clears.kind?, if_pos hwithin])
  · next hnot => exact hgrown.ahead location hnot

end Readied

-- A directory that is there, or can be made, can be cleared, and relative paths start from where
-- they did unless that lies in it.
theorem clearOutput_of_open (hstraight : out.Straight) (hname : out.EndsInName)
    (hcheck : out.check = .ok ()) (hgrounded : disk.Grounded out)
    (htop : Location.walk disk.workDir out = top) (hopen : disk.Open top) (hnamed : top.Named)
    (hshort : ∀ name ∈ top, name.utf8ByteSize ≤ longestName)
    (hbase : ¬ within top (disk.workDir.drop disk.adrift)) :
    ∃ next, (Progress.start disk).clearOutput out = (.ok (), next) ∧ Clears top disk next.disk ∧
      SameBase disk next.disk := by
  subst htop
  rw [Progress.clearOutput, show (Progress.start disk).disk = disk from rfl]
  by_cases hkind : disk.kind? (Location.walk disk.workDir out) = some .directory
  · have hemptied := sameBase_eraseBelow hkind hbase
    rw [removeDirectory_of_directory hstraight hname hcheck hgrounded
      (hemptied.grounded hgrounded) hkind]
    refine ⟨_, rfl, ?_, hemptied.trans (sameBase_erase ?_)⟩
    · obtain ⟨before, name, hsteps, hlast⟩ := hname
      rw [walk_of_endsInName hsteps hlast] at hkind ⊢
      exact clears_erase hkind
    · rwa [hemptied.workDir, hemptied.adrift]
  · obtain ⟨fault, hremove, hfault⟩ := removeDirectory_of_not_directory hstraight hgrounded hkind
    have hnone : disk.kind? (Location.walk disk.workDir out) = none := by
      cases hthere : disk.kind? (Location.walk disk.workDir out) with
      | none => rfl
      | some kind =>
          cases kind with
          | directory => exact absurd hthere hkind
          | file content => exact absurd hthere (hopen _ content (within_refl _))
    obtain rfl := hfault.2 (find_of_passable hstraight hgrounded hcheck
      (hopen.passable hnamed hshort) hnone)
    rw [hremove]
    exact ⟨_, rfl, .of_none hnone, .refl disk⟩

end Disk

namespace Progress

variable {disk : Disk} {config : Config} {report : Report} {source assets out : Path}

-- What the inputs of a build are once the output directory has been cleared, if it is cleared.
theorem steady_of_absolute {root target : Path} {disk cleared : Disk} {top : Location}
    (hroot : root.absolute disk.base? = .ok target) (hwork : cleared.workDir = disk.workDir)
    (hgrounded : cleared.Grounded root) (hstraight : root.Straight)
    (hending : root.bare.toList.getLast? ≠ some '\\')
    (houtside : ∀ location, within (Location.walk disk.workDir root) location →
      ¬ within top location) : cleared.Steady top root :=
  ⟨(Disk.stands_origin hroot).1, hending, hstraight, hgrounded, by rw [hwork]; exact houtside⟩

-- A build is repeated on the disk that it has left, with nothing cleared in between.
theorem buildTrees_again {top : Location}
    (htop : Location.walk disk.workDir config.out = top)
    (hsource : disk.Steady top config.source) (hassets : disk.Steady top config.assets)
    (h : ((start disk).buildTrees config).1 = .ok report) :
    let next := ((start disk).buildTrees config).2.disk
    ((start next).buildTrees config).1 = .ok report ∧
      ∀ location, ((start next).buildTrees config).2.disk.file? location = next.file? location := by
  intro next
  obtain ⟨hextends, hother⟩ :=
    (Alongside.retraces config.out top next).buildTrees htop hsource hassets h
  have hspares : disk.Spares top next :=
    htop ▸ ((start disk).buildTrees_alters fun relative hrelative =>
      hrelative.target_spares disk.workDir config.out).spares
  obtain ⟨hreport, hsim⟩ := hother (start next) (.refl next)
    ⟨⟨hextends.base, hspares.file?⟩, .refl next, fun _ heq => rfl⟩
  exact ⟨hreport, fun location => Disk.file?_eq_of_kind?_eq (hsim.settled location rfl)⟩

-- A build whose output directory has been cleared is repeated after it has been cleared again.
theorem buildTrees_cleared_again {cleared : Progress}
    (hready : Disk.Readied config.out disk cleared.disk) (hstraight : config.out.Straight)
    (hname : config.out.EndsInName) (hgrounded : cleared.disk.Grounded config.out)
    (hnamed : (Location.walk disk.workDir config.out).Named)
    (hshort : ∀ name ∈ Location.walk disk.workDir config.out,
      name.utf8ByteSize ≤ Disk.longestName)
    (hsource : cleared.disk.Steady (Location.walk disk.workDir config.out) config.source)
    (hassets : cleared.disk.Steady (Location.walk disk.workDir config.out) config.assets)
    (h : (cleared.buildTrees config).1 = .ok report) :
    let next := (cleared.buildTrees config).2.disk
    ∃ again, (start next).clearOutput config.out = (.ok (), again) ∧
      (again.buildTrees config).1 = .ok report ∧
      ∀ location, (again.buildTrees config).2.disk.file? location = next.file? location := by
  intro next
  have hwork := hready.clears.workDir
  have htop : Location.walk cleared.disk.workDir config.out =
      Location.walk disk.workDir config.out := by rw [hwork]
  have hfree : ∀ content, cleared.disk.kind? (Location.walk disk.workDir config.out) ≠
      some (.file content) := fun content hfile => by
    rw [hready.clears.kind?, if_pos (Disk.within_refl _)] at hfile
    cases hfile
  obtain ⟨-, hself⟩ :=
    (Alongside.grown hstraight cleared.disk next).buildTrees htop hsource hassets h
  obtain ⟨-, -, hgrown⟩ := hself cleared (.refl _)
    ⟨rfl, .refl _, hgrounded, fun _ _ => .inl rfl, hfree⟩
  obtain ⟨again, hagain, hclears, hbase⟩ := Disk.clearOutput_of_open hstraight hname hready.check
    (hgrown.base.grounded hgrounded) (by rw [hgrown.base.workDir, htop])
    (hready.open_of_grown hgrown) hnamed hshort
    (by rw [hgrown.base.workDir, hgrown.base.adrift]; exact hready.not_within_base)
  obtain ⟨-, hother⟩ :=
    (Alongside.leads hstraight next).buildTrees htop hsource hassets h
  obtain ⟨hreport, hleads⟩ := hother again (.refl _) (hready.leads hgrounded hgrown hclears hbase)
  exact ⟨again, hagain, hreport, hleads.file?_eq⟩

-- A build that has come to its end comes to the same report when it is done again on the disk that
-- it has left, and leaves every file as it is. The output directory must not lie in an input or
-- above one. Normal paths are straight; where the output is cleared, its directory is given by its
-- name, and no name on the way there is too long: such a name is only met after the directories
-- above it have been made, and there it cannot be looked up any more.
theorem buildAll_again (hsource : config.source.absolute disk.base? = .ok source)
    (hassets : config.assets.absolute disk.base? = .ok assets)
    (hout : config.out.absolute disk.base? = .ok out)
    (hapart : ∀ input ∈ [source, assets], ¬ input.startsWith out ∧ ¬ out.startsWith input)
    (hinputs : ∀ path ∈ [config.source, config.assets],
      path.Straight ∧ path.bare.toList.getLast? ≠ some '\\')
    (hcleared : config.clear = true → config.out.Straight ∧ config.out.EndsInName ∧
      ∀ name ∈ Location.walk disk.workDir config.out, name.utf8ByteSize ≤ Disk.longestName)
    (h : ((start disk).buildAll config).1 = .ok report) :
    let next := ((start disk).buildAll config).2.disk
    ((start next).buildAll config).1 = .ok report ∧
      ∀ location, ((start next).buildAll config).2.disk.file? location = next.file? location := by
  rw [List.forall_mem_cons, List.forall_mem_singleton] at hapart hinputs
  have hsourceApart := not_within_of_apart hsource hout hapart.1
  have hassetsApart := not_within_of_apart hassets hout hapart.2
  unfold buildAll at h ⊢
  by_cases hclear : config.clear = true
  · obtain ⟨hstraight, hname, hshort⟩ := hcleared hclear
    rw [if_pos hclear] at h ⊢
    split at h
    · cases h
    · next cleared hfirst =>
      have hready := Disk.readied_of_clearOutput hout hstraight hname hfirst
      have hwork := hready.clears.workDir
      obtain ⟨again, hagain, hreport, hfiles⟩ := buildTrees_cleared_again hready hstraight hname
        (hready.grounded hout hstraight (.inr ⟨rfl, hname⟩)) (Disk.eq_path_of_absolute hout).2
        hshort
        (steady_of_absolute hsource hwork
          (hready.grounded hsource hinputs.1.1 (.inl (hsourceApart _ (Disk.within_refl _))))
          hinputs.1.1 hinputs.1.2 hsourceApart)
        (steady_of_absolute hassets hwork
          (hready.grounded hassets hinputs.2.1 (.inl (hassetsApart _ (Disk.within_refl _))))
          hinputs.2.1 hinputs.2.2 hassetsApart) h
      dsimp only
      rw [if_pos hclear, hagain]
      exact ⟨hreport, hfiles⟩
  · rw [if_neg hclear] at h ⊢
    dsimp only
    rw [if_neg hclear]
    exact buildTrees_again rfl
      (steady_of_absolute hsource rfl (Disk.grounded_of_absolute hsource) hinputs.1.1 hinputs.1.2
        hsourceApart)
      (steady_of_absolute hassets rfl (Disk.grounded_of_absolute hassets) hinputs.2.1 hinputs.2.2
        hassetsApart) h

-- One asset lies below the place of a page, and where another one goes there is a directory.
def contested : Disk :=
  ((((project ["site"]).putDirectory "dist" ["site"]).putDirectory "s.css"
    ["dist", "site"]).putDirectory "a.html" ["static", "site"]).putFile "c.css"
    ["a.html", "static", "site"] "z".toUTF8

theorem buildAll_again_of_contested :
    (((start contested).buildAll default).1 = .ok ⟨1, 1, 0, 0, 1⟩ ∧
      ((start ((start contested).buildAll default).2.disk).buildAll default).1 =
        .ok ⟨1, 1, 0, 0, 1⟩) ∧
    ((start contested).buildAll { (default : Config) with clear := false }).1 =
        .ok ⟨1, 0, 0, 0, 2⟩ ∧
      ((start ((start contested).buildAll
          { (default : Config) with clear := false }).2.disk).buildAll
        { (default : Config) with clear := false }).1 = .ok ⟨1, 0, 0, 0, 2⟩ := by
  have hcleared : ((start contested).buildAll default).1 = .ok ⟨1, 1, 0, 0, 1⟩ := by decide +kernel
  have hkept : ((start contested).buildAll { (default : Config) with clear := false }).1 =
      .ok ⟨1, 0, 0, 0, 2⟩ := by decide +kernel
  have hinputs : ∀ path ∈ [(default : Config).source, (default : Config).assets],
      path.Straight ∧ path.bare.toList.getLast? ≠ some '\\' := by decide +kernel
  have hout : (default : Config).out.Straight ∧ (default : Config).out.EndsInName ∧
      ∀ name ∈ Location.walk contested.workDir (default : Config).out,
        name.utf8ByteSize ≤ Disk.longestName :=
    ⟨by decide +kernel, ⟨[], "dist", by decide +kernel, by decide⟩, by decide +kernel⟩
  exact ⟨⟨hcleared, (@buildAll_again contested default ⟨1, 1, 0, 0, 1⟩ ⟨"/site/src"⟩
      ⟨"/site/static"⟩ ⟨"/site/dist"⟩ (by decide +kernel) (by decide +kernel) (by decide +kernel)
      (by decide +kernel) hinputs (fun _ => hout) hcleared).1⟩,
    hkept, (@buildAll_again contested { (default : Config) with clear := false } ⟨1, 0, 0, 0, 2⟩
      ⟨"/site/src"⟩ ⟨"/site/static"⟩ ⟨"/site/dist"⟩ (by decide +kernel) (by decide +kernel)
      (by decide +kernel) (by decide +kernel) hinputs (fun _ => hout) hkept).1⟩

-- An asset only, and an output directory in one that is not there.
def strained (name : String) : Config :=
  ⟨Location.path ["pages", "site"], Location.path ["static", "site"],
    Location.path [name, "new", "site"], true⟩

section Strained

variable {name : String} (hname : IsName name)
  (hfollow : Location.Followable [name, "new", "site"])

include hname

theorem named_strained : Location.Named [name, "new", "site"] := by
  simpa [Location.Named, hname] using (show IsName "new" ∧ IsName "site" by decide)

theorem strained_normal :
    ∀ path ∈ [(strained name).source, (strained name).assets, (strained name).out],
      path.isAbsolute = true ∧ path.normalize = path := by
  have hpages : Location.Named ["pages", "site"] := by simp only [Location.Named]; decide
  have hstatic : Location.Named ["static", "site"] := by simp only [Location.Named]; decide
  rw [List.forall_mem_cons, List.forall_mem_cons, List.forall_mem_singleton]
  exact ⟨⟨Location.isAbsolute_path _, Location.normalize_path hpages⟩,
    ⟨Location.isAbsolute_path _, Location.normalize_path hstatic⟩,
    Location.isAbsolute_path _, Location.normalize_path (named_strained hname)⟩

theorem strained_apart :
    [(strained name).source, (strained name).assets, (strained name).out].Pairwise
      fun left right => ¬ left.startsWith right ∧ ¬ right.startsWith left := by
  have hpages : Location.Named ["pages", "site"] := by simp only [Location.Named]; decide
  have hstatic : Location.Named ["static", "site"] := by simp only [Location.Named]; decide
  have hnamed := named_strained hname
  simp only [strained, List.pairwise_cons, List.forall_mem_cons, List.Pairwise.nil, and_true,
    Location.startsWith_path_iff hpages hstatic, Location.startsWith_path_iff hstatic hpages,
    Location.startsWith_path_iff hpages hnamed, Location.startsWith_path_iff hnamed hpages,
    Location.startsWith_path_iff hstatic hnamed, Location.startsWith_path_iff hnamed hstatic]
  simp [within, List.suffix_cons_iff]

include hfollow

-- There is nothing to be cleared.
theorem clearOutput_strained {disk : Disk} (hnone : disk.kind? ["new", "site"] = none)
    (htop : disk.kind? ["site"] = some .directory) :
    (start disk).clearOutput (strained name).out = (.ok (), start disk) := by
  have hnamed := named_strained hname
  have hgrounded : disk.Grounded (strained name).out := .inl (Location.isAbsolute_path _)
  have hwithin : within ["new", "site"] ((strained name).out.steps.foldl Location.follow
      ((disk.origin (strained name).out).location disk)) := by
    rw [← Disk.walk_eq_foldl_steps, strained, Location.walk_path hnamed]
    exact Disk.within_append [name] ["new", "site"]
  have hlead : (strained name).out.steps.foldlM disk.enter (disk.origin (strained name).out) =
      .error .notFound :=
    (Disk.following_path (Location.descends_path hnamed).straight hgrounded).missing
      ["new", "site"] hwithin hnone ⟨.inr ⟨hnone, by decide, by decide⟩, .inl htop, trivial⟩
  have hremove : (start disk).disk.removeDirectory (strained name).out =
      (.error .notFound, disk) := by
    simp only [start, Disk.removeDirectory, Disk.emptyDirectory, Disk.find,
      show (strained name).out.check = .ok () from hfollow, hlead, bind, Except.bind]
  rw [clearOutput, hremove]
  rfl

-- So the asset is copied, or that fails.
theorem buildAll_strained :
    (start (project ["site"])).buildAll (strained name) =
      (.ok (Report.empty.record ((start (project ["site"])).copyOutput
          (Location.path ["s.css", "static", "site"])
          (Location.path ["s.css", name, "new", "site"])).1),
        ((start (project ["site"])).copyOutput (Location.path ["s.css", "static", "site"])
          (Location.path ["s.css", name, "new", "site"])).2) := by
  have hsource : (project ["site"]).scanSource (Location.path ["pages", "site"]) = .ok ⟨[]⟩ := by
    decide +kernel
  have hassets : (project ["site"]).scanAssets (Location.path ["static", "site"]) =
      .ok [soleAsset] := by decide +kernel
  have hfile : (start (project ["site"])).disk.isFile soleAsset.absolute = true := by decide +kernel
  have habsolute : soleAsset.absolute = Location.path ["s.css", "static", "site"] := by
    decide +kernel
  have hasset : (start (project ["site"])).buildAsset soleAsset (strained name).out =
      (start (project ["site"])).copyOutput (Location.path ["s.css", "static", "site"])
        (Location.path ["s.css", name, "new", "site"]) := by
    have hjoin := Location.join_name ((named_strained hname).cons (show IsName "s.css" by decide))
      (List.cons_ne_nil _ _)
    rw [← habsolute, ← hjoin, buildAsset]
    exact (if_neg (by decide)).trans (if_pos hfile)
  rw [buildAll, if_pos (show (strained name).clear = true from rfl),
    clearOutput_strained hname hfollow (by decide +kernel) (by decide +kernel)]
  dsimp only
  rw [buildTrees, show (start (project ["site"])).disk.scanSource (strained name).source = .ok ⟨[]⟩
    from hsource]
  dsimp only [buildPages]
  rw [show (start (project ["site"])).disk.scanAssets (strained name).assets = .ok [soleAsset]
    from hassets]
  dsimp only [buildAssets]
  rw [hasset]

-- With a name that is too long it is not copied, but the directory above is made for it.
theorem kind?_buildAll_strained {location : Location}
    (hne : location ≠ ["s.css", name, "new", "site"]) :
    ((start (project ["site"])).buildAll (strained name)).2.disk.kind? location =
      Scene.raise (project ["site"]).kind? [name, "new", "site"] location := by
  have hnamed := (named_strained hname).cons (show IsName "s.css" by decide)
  have hsource : Location.Followable ["s.css", "static", "site"] := by
    unfold Location.Followable
    decide +kernel
  have haims := @Disk.aims_path (start (project ["site"])).disk _ _ hnamed
  have hfile : (start (project ["site"])).disk.file? ["s.css", "static", "site"] =
      some "y".toUTF8 := by decide +kernel
  have hlands := copyOutput_lands haims hsource hfile (by simp)
  have hraises := hlands.raises haims (Path.near_path hnamed hfollow) hne
  rw [buildAll_strained hname hfollow]
  dsimp only
  rw [hraises, start]

-- It is there when the output directory is to be cleared again.
theorem buildAll_strained_again (hlong : Disk.longestName < name.utf8ByteSize) :
    ((start ((start (project ["site"])).buildAll (strained name)).2.disk).buildAll
      (strained name)).1 = .error (.clear (strained name).out .nameTooLong) := by
  have hnone : (project ["site"]).kind? ["new", "site"] = none := by decide +kernel
  have htop : (project ["site"]).kind? ["site"] = some .directory := by decide +kernel
  have hbelow : (project ["site"]).kind? [name, "new", "site"] = none :=
    @Disk.kind?_below_of_ne_directory _ ["new", "site"] (by simp [hnone]) [name] (by simp)
  have hmade := @kind?_buildAll_strained name hname hfollow ["new", "site"] (by simp)
  have hmissing := @kind?_buildAll_strained name hname hfollow [name, "new", "site"] (by simp)
  generalize ((start (project ["site"])).buildAll (strained name)).2.disk = next at hmade hmissing ⊢
  rw [Scene.raise, if_pos ⟨Disk.within_append [name] ["new", "site"], hnone,
    .inr ⟨hnone, by decide, by decide⟩, .inl htop, trivial⟩] at hmade
  rw [Scene.raise, if_neg, hbelow] at hmissing
  · have hfind : next.find (strained name).out = .error .nameTooLong :=
      Disk.find_of_long hfollow hname hmade hmissing hlong
    have hremove : (start next).disk.removeDirectory (strained name).out =
        (.error .nameTooLong, next) := by
      simp only [start, Disk.removeDirectory, Disk.emptyDirectory, hfind, bind, Except.bind]
    rw [buildAll, if_pos (show (strained name).clear = true from rfl), clearOutput, hremove]
  · rintro ⟨-, -, hpass, -⟩
    rw [hbelow] at hpass
    exact absurd (hpass.resolve_left (by simp)).2.2 (Nat.not_le.2 hlong)

end Strained

-- Such a build is refused when it is done again.
theorem buildAll_refuses_again :
    ¬ ∀ (disk : Disk) (config : Config) (report : Report),
      (∀ path ∈ [config.source, config.assets, config.out],
        path.isAbsolute = true ∧ path.normalize = path) →
      [config.source, config.assets, config.out].Pairwise (fun left right =>
        ¬ left.startsWith right ∧ ¬ right.startsWith left) →
      ((start disk).buildAll config).1 = .ok report →
      ((start ((start disk).buildAll config).2.disk).buildAll config).1 = .ok report := by
  intro h
  have hagain := h (project ["site"]) (strained longName) _ (strained_normal isName_longName)
    (strained_apart isName_longName)
    (congrArg Prod.fst (buildAll_strained isName_longName followable_overlong))
  rw [buildAll_strained_again isName_longName followable_overlong
    (by rw [utf8ByteSize_longName]; decide)] at hagain
  cases hagain

end Progress

end StaticSite
