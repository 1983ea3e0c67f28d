import StaticSite.Proofs.Build.Exact
import StaticSite.Watch.Session

-- The watchers build as a build does, file by file, as long as every page composes.
namespace StaticSite

-- The same result on the same disk. What has been noted on the way may differ.
def Progress.Alike {α : Type} (left right : α × Progress) : Prop :=
  left.1 = right.1 ∧ left.2.disk = right.2.disk

namespace Progress

variable {progress other : Progress} {tree : SourceTree} {out destination source : Path}

theorem place_alike (h : progress.disk = other.disk) (change : Disk → Except Fault Disk) :
    Alike (progress.place destination change) (other.place destination change) := by
  unfold place
  rw [h]
  split
  · exact ⟨rfl, rfl⟩
  · split
    · exact ⟨rfl, rfl⟩
    · exact ⟨rfl, rfl⟩

theorem writeOutput_alike (h : progress.disk = other.disk) (content : ByteArray) :
    Alike (progress.writeOutput destination content) (other.writeOutput destination content) := by
  have hplace : Alike (progress.place destination _) (other.place destination _) :=
    place_alike h (·.write destination content)
  unfold writeOutput
  generalize progress.place destination (·.write destination content) = left at hplace
  generalize other.place destination (·.write destination content) = right at hplace
  obtain ⟨result, left⟩ := left
  obtain ⟨_, right⟩ := right
  obtain ⟨rfl, hdisk⟩ := hplace
  cases result <;> exact ⟨rfl, hdisk⟩

theorem copyOutput_alike (h : progress.disk = other.disk) :
    Alike (progress.copyOutput source destination) (other.copyOutput source destination) := by
  have hplace : Alike (progress.place destination _) (other.place destination _) :=
    place_alike h (·.copy source destination)
  unfold copyOutput
  generalize progress.place destination (·.copy source destination) = left at hplace
  generalize other.place destination (·.copy source destination) = right at hplace
  obtain ⟨result, left⟩ := left
  obtain ⟨_, right⟩ := right
  obtain ⟨rfl, hdisk⟩ := hplace
  cases result <;> exact ⟨rfl, hdisk⟩

theorem removeOutput_alike (h : progress.disk = other.disk) :
    Alike (progress.removeOutput destination) (other.removeOutput destination) := by
  unfold removeOutput
  rw [h]
  split
  · exact ⟨rfl, rfl⟩
  · exact ⟨rfl, h⟩

theorem buildContent_alike (h : progress.disk = other.disk) (tree : SourceTree)
    (file : ContentFile) (out : Path) :
    Alike (progress.buildContent tree file out) (other.buildContent tree file out) := by
  have hremove := @removeOutput_alike progress other (out.join ⟨file.relative⟩) h
  unfold buildContent
  rw [h]
  split
  · exact ⟨rfl, h⟩
  · dsimp only
    split
    · generalize progress.removeOutput _ = left at hremove ⊢
      generalize other.removeOutput _ = right at hremove ⊢
      exact ⟨congrArg Except.ok hremove.1, hremove.2⟩
    · split
      · next page _ =>
        have hwrite := @writeOutput_alike progress other (out.join ⟨file.relative⟩) h
          (String.ofList page).toUTF8
        generalize progress.writeOutput _ _ = left at hwrite ⊢
        generalize other.writeOutput _ _ = right at hwrite ⊢
        exact ⟨congrArg Except.ok hwrite.1, hwrite.2⟩
      · exact ⟨rfl, h⟩
      · exact ⟨rfl, h⟩

theorem buildAsset_alike (h : progress.disk = other.disk) (file : StaticFile) (out : Path) :
    Alike (progress.buildAsset file out) (other.buildAsset file out) := by
  unfold buildAsset
  dsimp only
  rw [h]
  split
  · exact removeOutput_alike h
  · split
    · exact copyOutput_alike h
    · exact ⟨rfl, h⟩

end Progress

variable {progress other : Progress}

-- Where a build comes to the end of the pages, a watcher that builds them leaves the same disk.
theorem SourceWatcher.rebuildEach_of_buildPages (watcher : SourceWatcher) (reason : RebuildReason)
    {files : List ContentFile} {report last : Report} {built : Progress}
    (hdisk : progress.disk = other.disk)
    (h : Progress.buildPages watcher.files watcher.out files report progress = (.ok last, built)) :
    (watcher.rebuildEach reason none files other).2.disk = built.disk := by
  induction files generalizing report progress other with
  | nil =>
      cases h
      exact hdisk.symm
  | cons file rest ih =>
      rw [Progress.buildPages] at h
      have hstep := Progress.buildContent_alike hdisk watcher.files file watcher.out
      rw [rebuildEach]
      dsimp only [Progress.announceAs]
      generalize progress.buildContent watcher.files file watcher.out = left at h hstep
      obtain ⟨result, middle⟩ := left
      obtain ⟨hresult, hmiddle⟩ := hstep
      cases result with
      | error error => cases h
      | ok outcome =>
          have hrebuild : (watcher.rebuild reason file other).2.disk = middle.disk := by
            unfold rebuild
            split
            · next next heq =>
              rw [heq] at hmiddle
              exact hmiddle.symm
            · next heq =>
              rw [heq] at hresult
              cases hresult
          exact ih hrebuild.symm h

theorem StaticWatcher.rebuildEach_of_buildAssets (watcher : StaticWatcher) (reason : RebuildReason)
    (files : List StaticFile) (report : Report) (hdisk : progress.disk = other.disk) :
    (watcher.rebuildEach reason none files other).2.disk =
      (Progress.buildAssets watcher.out files report progress).2.disk := by
  induction files generalizing report progress other with
  | nil => exact hdisk.symm
  | cons file rest ih =>
      obtain ⟨-, hmiddle⟩ := Progress.buildAsset_alike hdisk file watcher.out
      rw [rebuildEach, Progress.buildAssets]
      exact ih _ hmiddle

end StaticSite
