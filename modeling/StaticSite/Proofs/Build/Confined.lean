import StaticSite.Proofs.Build.Frame
import StaticSite.Proofs.Path.Descent

-- Where the path of the output directory never goes up, a build makes and removes nothing outside
-- of there but the directories that lead to it.
namespace StaticSite

namespace Disk

-- Two disks differ at and below `top`, and in directories above it that were missing and have been
-- made.
def Confined (top : Location) (before after : Disk) : Prop :=
  before.Alters (fun location => within top location) (fun location => within location top) after

-- Only the way to a path is made, if the path never goes up.
theorem makeParent_grows_way {path : Path} (h : path.Descends) (hne : path.text ≠ "")
    (disk : Disk) : disk.Grows (fun location => within location (Location.walk disk.workDir path))
      (disk.makeParent path).2 := by
  unfold makeParent
  split
  · next parent hparent =>
    unfold makeDirectories
    split
    · exact .refl disk
    · next htext =>
      obtain ⟨front, hfrontNe, hfront, rfl⟩ := (Path.parent?_eq_some hparent).resolve_left htext
      refine makeWay_grows fun above habove hcheck name place hplace _ => ?_
      have habove : above.reverse <+: Path.segments (Path.ofSegments front).text := by
        simpa using List.reverse_prefix.2 habove
      have hnonempty : above.reverse ≠ [] := by
        rintro hnil
        rw [hnil] at hcheck
        cases hcheck
      rw [hplace]
      exact within_trans
        (Location.within_walk_ofSegments (h.ofSegments hfrontNe hfront) htext hnonempty habove _)
        (Location.within_walk_ofSegments h hne hfrontNe hfront _)
  · exact .refl disk

end Disk

namespace IsRelative

variable {relative : String} {out : Path}

theorem text_join (h : IsRelative relative) (out : Path) : (out.join ⟨relative⟩).text ≠ "" := by
  obtain ⟨below, hne, hnamed, rfl⟩ := h
  have hnames : "/".intercalate below.reverse ≠ "" := by
    intro hempty
    have hwalk := Location.walk_names hnamed []
    rw [hempty] at hwalk
    exact hne (List.self_eq_append_left.1 hwalk)
  rw [Path.join, if_neg (by simp [Location.isAbsolute_names hnamed])]
  split <;> simp [hnames]

theorem descends_join (h : IsRelative relative) (hout : out.Descends) :
    (out.join ⟨relative⟩).Descends := by
  obtain ⟨below, -, hnamed, rfl⟩ := h
  exact hout.join (Location.descends_names hnamed) (Location.isAbsolute_names hnamed)

-- The outputs of a directory whose path never goes up lie below it, and so does the way to them.
theorem target_confined (h : IsRelative relative) (hout : out.Descends) (start : Location) :
    Disk.Target (fun location => Disk.within (Location.walk start out) location)
      (fun location => Disk.within location (Location.walk start out)) start
      (out.join ⟨relative⟩) := by
  have htop := h.within_join start out
  refine ⟨htop, fun disk hwork => ?_⟩
  subst hwork
  have hgrows := Disk.makeParent_grows_way (h.descends_join hout) (h.text_join out) disk
  exact hgrows.alters.mono (fun _ => id) fun location hin => Disk.within_or_within htop hin

end IsRelative

-- Whatever a build returns, it has changed nothing outside of the output directory, but for making
-- the directories that lead there.
theorem Progress.buildAll_confined (progress : Progress) {config : Config}
    (h : config.out.Descends) :
    progress.disk.Confined (Location.walk progress.disk.workDir config.out)
      (progress.buildAll config).2.disk :=
  progress.buildAll_alters (fun _ => id) fun _ hrelative => hrelative.target_confined h _

end StaticSite
