import StaticSite.Proofs.Watch.Accepted
import StaticSite.Proofs.Watch.Confined
import StaticSite.Proofs.Watch.Sound

-- A watcher finds every file that it looks up: of a path that is gone in the list that it knows, and
-- of a path that has come in a new scan.
namespace StaticSite

-- The error of an event that names a file which is in no list.
def WatchError.IsUntracked : WatchError → Prop
  | .untracked _ _ => True
  | _ => False

-- Whatever has come of the event, it has not failed because of a file that is in no list.
def Reaction.Tracked {ω : Type} (reaction : Reaction ω) : Prop :=
  ∀ error, reaction.result = .error error → ¬ error.IsUntracked

theorem Reaction.tracked_of_ok {ω : Type} {reaction : Reaction ω} {rebuilds : List Rebuild}
    (h : reaction.result = .ok rebuilds) : reaction.Tracked := by
  intro error herror
  cases h.symm.trans herror

namespace Watcher

variable {ω : Type} [Watcher ω] {watcher : ω}

-- What holds of the root of each reaction to an event holds of the event.
theorem handle_root
    (hupdate : ∀ path progress, root (update watcher path progress).watcher = root watcher)
    (hadd : ∀ path progress, root (addDirectory watcher path progress).watcher = root watcher)
    (hunlink : ∀ paths progress, root (unlink watcher paths progress).watcher = root watcher)
    (event : Event) (progress : Progress) :
    root (handle watcher event progress).watcher = root watcher := by
  unfold handle
  dsimp only
  split
  · split
    · rfl
    · exact hunlink _ _
  · split
    · exact hadd _ _
    · split
      · rfl
      · split
        · rfl
        · exact hupdate _ _

theorem handle_tracked {event : Event} {progress : Progress}
    (hupdate : accepts watcher event.path.normalize = true →
      progress.disk.isFile event.path.normalize = true →
      (update watcher event.path.normalize progress).Tracked)
    (hadd : ∀ path, (addDirectory watcher path progress).Tracked)
    (hunlink : ∀ path, (unlink watcher (knownUnder watcher path) progress).Tracked) :
    (handle watcher event progress).Tracked := by
  unfold handle
  dsimp only
  split
  · split
    · exact Reaction.tracked_of_ok rfl
    · next heq => exact hunlink event.path.normalize
  · split
    · exact hadd _
    · split
      · exact Reaction.tracked_of_ok rfl
      · next haccepts =>
        split
        · exact Reaction.tracked_of_ok rfl
        · next hfile => exact hupdate (by simpa using haccepts) (by simpa using hfile)

end Watcher

namespace SourceWatcher

variable {watcher : SourceWatcher} {progress : Progress}

-- A scan that fails says so.
theorem rescan_eq_error {error : WatchError} {later : Progress}
    (h : watcher.rescan progress = (.error error, later)) : ¬ error.IsUntracked := by
  obtain ⟨hopen, -⟩ := Prod.mk.inj h
  unfold SourceWatcher.open? at hopen
  split at hopen
  · cases hopen
  · cases hopen
    exact id

theorem rescan_root {next : SourceWatcher} {later : Progress}
    (h : watcher.rescan progress = (.ok next, later)) : next.root = watcher.root := by
  obtain ⟨hopen, -⟩ := Prod.mk.inj h
  obtain ⟨_, -, rfl⟩ := Session.eq_of_open?_source hopen
  rfl

theorem update_root (path : Path) (progress : Progress) :
    (watcher.update path progress).watcher.root = watcher.root := by
  unfold update
  split
  · rfl
  · next heq =>
    split
    · exact rescan_root heq
    · exact rescan_root heq

theorem addDirectory_root (path : Path) (progress : Progress) :
    (watcher.addDirectory path progress).watcher.root = watcher.root := by
  unfold addDirectory
  split
  · rfl
  · next heq => exact rescan_root heq

theorem unlink_root (paths : List Path) (progress : Progress) :
    (watcher.unlink paths progress).watcher.root = watcher.root := by
  have hroot := @removeEach_root watcher paths progress
  unfold unlink
  split
  · next heq =>
    rw [heq] at hroot
    exact hroot
  · next heq =>
    rw [heq] at hroot
    split
    · exact hroot
    · next heq => exact (rescan_root heq).trans hroot

theorem addDirectory_tracked (path : Path) (progress : Progress) :
    (watcher.addDirectory path progress).Tracked := by
  unfold addDirectory
  split
  · next heq =>
    rintro error ⟨⟩
    exact rescan_eq_error heq
  · exact Reaction.tracked_of_ok rfl

-- A mark takes no file out of the list, so the next one is still found.
theorem removeEach_isOk {paths : List Path} (progress : Progress)
    (h : ∀ path ∈ paths, path ∈ watcher.files.files.map (·.absolute)) :
    ∃ removed, (watcher.removeEach progress paths).1.result = .ok removed := by
  induction paths generalizing watcher progress with
  | nil => exact ⟨[], rfl⟩
  | cons path rest ih =>
      rw [removeEach]
      split
      · next hnone =>
        obtain ⟨file, hmem, rfl⟩ := List.mem_map.1 (h path List.mem_cons_self)
        rw [SourceTree.findAbsolute?, List.findIdx?_eq_none_iff] at hnone
        simp [Path.same] at hnone
        exact absurd rfl (hnone file hmem)
      · next index hsome =>
        obtain ⟨removed, hremoved⟩ := @ih { watcher with files := watcher.files.markDeleted index } _
          fun other hother => by
            rw [SourceTree.map_markDeleted fun _ => rfl]
            exact h other (List.mem_cons_of_mem _ hother)
        dsimp only
        rw [hremoved]
        exact ⟨_, rfl⟩

theorem unlink_tracked {paths : List Path} (progress : Progress)
    (h : ∀ path ∈ paths, path ∈ watcher.files.files.map (·.absolute)) :
    (watcher.unlink paths progress).Tracked := by
  obtain ⟨removed, hremoved⟩ := removeEach_isOk progress h
  unfold unlink
  split
  · next heq =>
    rw [heq] at hremoved
    cases hremoved
  · split
    · next heq =>
      rintro error ⟨⟩
      exact rescan_eq_error heq
    · exact Reaction.tracked_of_ok rfl

-- What is accepted and is a file on the disk, a scan lists, unless it is the root itself.
theorem update_tracked {path : Path} (hroot : watcher.root.IsPlace)
    (hback : watcher.root.text.toList.getLast? ≠ some '\\')
    (hnofile : progress.disk.isFile watcher.root = false)
    (haccepts : watcher.accepts path.normalize = true)
    (hfile : progress.disk.isFile path.normalize = true) :
    (watcher.update path.normalize progress).Tracked := by
  obtain ⟨root, out, known⟩ := watcher
  obtain ⟨root, hnamed, rfl⟩ := hroot
  obtain ⟨place, hplace, hpath⟩ :=
    Path.exists_place hnamed (Bool.and_eq_true_iff.1 haccepts).1
  rw [hpath] at haccepts hfile ⊢
  have hne : place ≠ [] := by
    rintro rfl
    exact Bool.false_ne_true (hnofile.symm.trans hfile)
  obtain ⟨hmem, -⟩ := (accepts_path_iff _ rfl hne hplace hfile).1 haccepts
  obtain ⟨next, rebuilds, hupdate, -⟩ := update_of_listed hnamed
    (progress.disk.places_pagesBelow root) hmem (Disk.scanSource_place hnamed hback) out known
  rw [hupdate]
  exact Reaction.tracked_of_ok rfl

theorem handle_root (event : Event) (progress : Progress) :
    (Handler.handle watcher event progress).watcher.root = watcher.root :=
  @Watcher.handle_root SourceWatcher _ watcher update_root addDirectory_root unlink_root event
    progress

theorem handle_tracked (hroot : watcher.root.IsPlace)
    (hback : watcher.root.text.toList.getLast? ≠ some '\\')
    (hnofile : progress.disk.isFile watcher.root = false) (event : Event) :
    (Handler.handle watcher event progress).Tracked :=
  Watcher.handle_tracked (update_tracked hroot hback hnofile)
    (fun path => addDirectory_tracked path progress)
    fun _ => unlink_tracked progress fun _ hmem => List.mem_of_mem_filter hmem

end SourceWatcher

namespace StaticWatcher

variable {watcher : StaticWatcher} {progress : Progress}

theorem rescan_eq_error {error : WatchError} {later : Progress}
    (h : watcher.rescan progress = (.error error, later)) : ¬ error.IsUntracked := by
  obtain ⟨hopen, -⟩ := Prod.mk.inj h
  unfold StaticWatcher.open? at hopen
  split at hopen
  · cases hopen
  · cases hopen
    exact id

theorem rescan_root {next : StaticWatcher} {later : Progress}
    (h : watcher.rescan progress = (.ok next, later)) : next.root = watcher.root := by
  obtain ⟨hopen, -⟩ := Prod.mk.inj h
  obtain ⟨_, -, rfl⟩ := Session.eq_of_open?_assets hopen
  rfl

theorem update_root (path : Path) (progress : Progress) :
    (watcher.update path progress).watcher.root = watcher.root := by
  unfold update
  split
  · rfl
  · next heq =>
    split
    · exact rescan_root heq
    · exact rescan_root heq

theorem addDirectory_root (path : Path) (progress : Progress) :
    (watcher.addDirectory path progress).watcher.root = watcher.root := by
  unfold addDirectory
  split
  · rfl
  · next heq => exact rescan_root heq

theorem unlink_root (paths : List Path) (progress : Progress) :
    (watcher.unlink paths progress).watcher.root = watcher.root := by
  have hroot := @removeEach_root watcher paths progress
  unfold unlink
  split <;> next heq => rw [heq] at hroot; exact hroot

theorem addDirectory_tracked (path : Path) (progress : Progress) :
    (watcher.addDirectory path progress).Tracked := by
  unfold addDirectory
  split
  · next heq =>
    rintro error ⟨⟩
    exact rescan_eq_error heq
  · exact Reaction.tracked_of_ok rfl

theorem exists_of_find? {path : Path} (h : path ∈ watcher.files.map (·.absolute)) :
    ∃ index, watcher.find? path = some index := by
  obtain ⟨file, hmem, rfl⟩ := List.mem_map.1 h
  cases hfind : watcher.find? file.absolute with
  | some index => exact ⟨index, rfl⟩
  | none =>
      rw [find?, List.findIdx?_eq_none_iff] at hfind
      simpa [Path.same] using hfind file hmem

theorem removeEach_isOk {paths : List Path} (progress : Progress)
    (h : ∀ path ∈ paths, path ∈ watcher.files.map (·.absolute)) :
    ∃ removed, (watcher.removeEach progress paths).result = .ok removed := by
  induction paths generalizing watcher progress with
  | nil => exact ⟨[], rfl⟩
  | cons path rest ih =>
      obtain ⟨index, hindex⟩ := exists_of_find? (h path List.mem_cons_self)
      rw [removeEach, hindex]
      obtain ⟨removed, hremoved⟩ := @ih (watcher.markDeleted index) _ fun other hother => by
        rw [map_markDeleted fun _ => rfl]
        exact h other (List.mem_cons_of_mem _ hother)
      dsimp only
      rw [hremoved]
      exact ⟨_, rfl⟩

theorem unlink_tracked {paths : List Path} (progress : Progress)
    (h : ∀ path ∈ paths, path ∈ watcher.files.map (·.absolute)) :
    (watcher.unlink paths progress).Tracked := by
  obtain ⟨removed, hremoved⟩ := removeEach_isOk progress h
  unfold unlink
  split
  · next heq =>
    rw [heq] at hremoved
    cases hremoved
  · exact Reaction.tracked_of_ok rfl

theorem update_tracked {path : Path} (hroot : watcher.root.IsPlace)
    (hback : watcher.root.text.toList.getLast? ≠ some '\\')
    (hnofile : progress.disk.isFile watcher.root = false)
    (haccepts : watcher.accepts path.normalize = true)
    (hfile : progress.disk.isFile path.normalize = true) :
    (watcher.update path.normalize progress).Tracked := by
  obtain ⟨root, out, known⟩ := watcher
  obtain ⟨root, hnamed, rfl⟩ := hroot
  obtain ⟨place, hplace, hpath⟩ := Path.exists_place hnamed haccepts
  rw [hpath] at hfile ⊢
  have hne : place ≠ [] := by
    rintro rfl
    exact Bool.false_ne_true (hnofile.symm.trans hfile)
  have hlisted : place ∈ progress.disk.listed root :=
    Disk.mem_listed.2 ⟨hne, (Disk.isFile_path hplace).1 hfile⟩
  have hscan := (Disk.scans_of_scan (@Disk.scan_path progress.disk root hnamed hback)).2
  have hmem : Location.path (place ++ root) ∈
      ((progress.disk.listed root).map fun below =>
        StaticFile.ofFound (Disk.foundAt root below)).map (·.absolute) :=
    List.mem_map_of_mem (List.mem_map_of_mem hlisted)
  obtain ⟨index, hindex⟩ := @exists_of_find? ⟨root.path, out, _⟩ _ hmem
  unfold update rescan open?
  rw [hscan]
  dsimp only
  rw [hindex]
  exact Reaction.tracked_of_ok rfl

theorem handle_root (event : Event) (progress : Progress) :
    (Handler.handle watcher event progress).watcher.root = watcher.root :=
  @Watcher.handle_root StaticWatcher _ watcher update_root addDirectory_root unlink_root event
    progress

theorem handle_tracked (hroot : watcher.root.IsPlace)
    (hback : watcher.root.text.toList.getLast? ≠ some '\\')
    (hnofile : progress.disk.isFile watcher.root = false) (event : Event) :
    (Handler.handle watcher event progress).Tracked :=
  Watcher.handle_tracked (update_tracked hroot hback hnofile)
    (fun path => addDirectory_tracked path progress)
    fun _ => unlink_tracked progress fun _ hmem => List.mem_of_mem_filter hmem

end StaticWatcher

-- What holds of watchers whatever events they handle holds of them after a batch.
theorem dispatch_keeps {σ τ : Type} [Handler σ] [Handler τ] {good : σ → Prop} {fine : τ → Prop}
    (hgood : ∀ watcher event progress, good watcher →
      good (Handler.handle watcher event progress).watcher)
    (hfine : ∀ watcher event progress, fine watcher →
      fine (Handler.handle watcher event progress).watcher)
    {source : σ} {assets : τ} (hsource : good source) (hassets : fine assets)
    (events : List (Tree × Event)) (progress : Progress) :
    good (dispatch source assets progress events).source ∧
      fine (dispatch source assets progress events).assets := by
  have hreceive : ∀ {ω : Type} [Handler ω] (watcher : ω) (event : Event) (progress : Progress),
      (Handler.receive watcher event progress).1 =
        (Handler.handle watcher event progress).watcher := by
    intro ω _ watcher event progress
    unfold Handler.receive
    split <;> next heq => rw [heq]
  induction events generalizing source assets progress with
  | nil => exact ⟨hsource, hassets⟩
  | cons first rest ih =>
      obtain ⟨tree, event⟩ := first
      cases tree with
      | source =>
          have hnext := hreceive source event progress ▸ hgood source event progress hsource
          rw [dispatch]
          split
          · next heq =>
            rw [heq] at hnext
            exact ih hnext hassets _
          · next heq =>
            rw [heq] at hnext
            exact ⟨hnext, hassets⟩
      | static =>
          have hnext := hreceive assets event progress ▸ hfine assets event progress hassets
          rw [dispatch]
          split
          · next heq =>
            rw [heq] at hnext
            exact ih hsource hnext _
          · next heq =>
            rw [heq] at hnext
            exact ⟨hsource, hnext⟩

namespace Session

variable {config : Config} {workDir : Location} {session : Session} {progress : Progress}

-- The roots of a session stay those that it has been started with.
theorem Reached.roots (h : Reached config workDir session) :
    session.source.root.IsPlace ∧ session.assets.root.IsPlace := by
  have hsource : ∀ (watcher : SourceWatcher) (event : Event) (progress : Progress),
      watcher.root.IsPlace → (Handler.handle watcher event progress).watcher.root.IsPlace := by
    intro watcher event progress hroot
    rwa [SourceWatcher.handle_root]
  have hassets : ∀ (watcher : StaticWatcher) (event : Event) (progress : Progress),
      watcher.root.IsPlace → (Handler.handle watcher event progress).watcher.root.IsPlace := by
    intro watcher event progress hroot
    rwa [StaticWatcher.handle_root]
  induction h with
  | start _ hsession => exact ⟨(sound_of_start hsession).1.root, (sound_of_start hsession).2.root⟩
  | source _ event progress ih => exact ⟨hsource _ event progress ih.1, ih.2⟩
  | assets _ event progress ih => exact ⟨ih.1, hassets _ event progress ih.2⟩
  | dispatch _ events progress ih => exact dispatch_keeps hsource hassets ih.1 ih.2 events progress

end Session

end StaticSite
