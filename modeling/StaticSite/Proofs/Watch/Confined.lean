import StaticSite.Proofs.Build.Confined
import StaticSite.Proofs.Watch.Session

-- A session changes nothing outside of its output directory, whatever it is told.
namespace StaticSite

-- What a watcher has done, whether it has failed or not.
structure Reaction.Confined {ω : Type} (top : Location) (good : ω → Prop) (before : Disk)
    (reaction : Reaction ω) : Prop where
  watcher : good reaction.watcher
  disk : before.Confined top reaction.progress.disk

theorem SourceTree.relative_markDeleted {tree : SourceTree} {good : String → Prop}
    (h : ∀ file ∈ tree.files, good file.relative) (index : Nat) :
    ∀ file ∈ (tree.markDeleted index).files, good file.relative := by
  intro file hmem
  obtain ⟨place, hplace⟩ := List.getElem?_of_mem hmem
  rw [markDeleted, List.getElem?_modify] at hplace
  obtain ⟨origin, horigin, rfl⟩ := Option.map_eq_some_iff.1 hplace
  have hgood := h origin (List.mem_of_getElem? horigin)
  split <;> exact hgood

variable {top : Location}

namespace SourceWatcher

variable {watcher : SourceWatcher}

-- The watcher writes below `top`, to places that the names of its files lead to from there.
structure Places (top : Location) (watcher : SourceWatcher) : Prop where
  out : watcher.out = top.path
  relative : ∀ file ∈ watcher.files.files, IsRelative file.relative

theorem Places.relative_at (h : watcher.Places top) (index : Nat) :
    ∀ file ∈ (watcher.files.files[index]?).toList, IsRelative file.relative :=
  fun file hmem => h.relative file (List.mem_of_getElem? (Option.mem_toList.1 hmem))

theorem places_of_open? {disk : Disk} {root : Path}
    (h : SourceWatcher.open? disk root top.path = .ok watcher) : watcher.Places top := by
  unfold open? at h
  split at h
  · next files hscan =>
    cases h
    exact ⟨rfl, fun file hmem => (Disk.scanSource_places hscan hmem).1⟩
  · cases h

section Rebuilds

variable {touched made : Location → Prop} {progress : Progress}

theorem rebuild_alters {file : ContentFile}
    (h : Disk.Target touched made progress.disk.workDir (watcher.out.join ⟨file.relative⟩))
    (reason : RebuildReason) :
    progress.disk.Alters touched made (watcher.rebuild reason file progress).2.disk := by
  have hbuild := Progress.buildContent_alters watcher.files h
  unfold rebuild
  split <;> next heq => rw [heq] at hbuild; exact hbuild

theorem rebuildEach_alters {files : List ContentFile} (h : ∀ file ∈ files,
      Disk.Target touched made progress.disk.workDir (watcher.out.join ⟨file.relative⟩))
    (reason : RebuildReason) (activity : Option (String → Activity)) :
    progress.disk.Alters touched made
      (watcher.rebuildEach reason activity files progress).2.disk := by
  induction files generalizing progress with
  | nil => exact .refl _
  | cons file rest ih =>
      have hdisk := progress.disk_announceAs activity file.relative
      rw [rebuildEach]
      generalize progress.announceAs activity file.relative = announced at hdisk ⊢
      rw [← hdisk] at h ⊢
      have hfirst := rebuild_alters (h file List.mem_cons_self) reason
      dsimp only
      refine hfirst.trans (ih fun other hmem => ?_)
      rw [hfirst.workDir]
      exact h other (List.mem_cons_of_mem _ hmem)

end Rebuilds

theorem rebuildEach_confined (htop : top.Named) (h : watcher.Places top)
    {files : List ContentFile} (hfiles : ∀ file ∈ files, IsRelative file.relative)
    (reason : RebuildReason) (activity : Option (String → Activity)) (progress : Progress) :
    progress.disk.Confined top (watcher.rebuildEach reason activity files progress).2.disk := by
  refine rebuildEach_alters (fun file hmem => ?_) reason activity
  have htarget := (hfiles file hmem).target_confined (Location.descends_path htop)
    progress.disk.workDir
  rwa [Location.walk_path htop, ← h.out] at htarget

theorem rescan_confined (h : watcher.Places top) (progress : Progress) :
    (watcher.rescan progress).2.disk = progress.disk ∧
      ∀ next, (watcher.rescan progress).1 = .ok next → next.Places top := by
  refine ⟨rfl, fun next hnext => ?_⟩
  rw [rescan, h.out] at hnext
  exact places_of_open? hnext

theorem buildAll_confined (htop : top.Named) (h : watcher.Places top) (progress : Progress) :
    (watcher.buildAll progress).Confined top (Places top) progress.disk := by
  obtain ⟨hdisk, hplaces⟩ := rescan_confined h (progress.announce .building)
  unfold buildAll
  split
  · next heq =>
    rw [heq] at hdisk
    exact ⟨h, hdisk ▸ .refl _⟩
  · next next progress heq =>
    rw [heq] at hdisk hplaces
    have hnext := hplaces next rfl
    exact ⟨hnext, hdisk ▸ rebuildEach_confined htop hnext hnext.relative _ _ _⟩

theorem update_confined (htop : top.Named) (h : watcher.Places top) (path : Path)
    (progress : Progress) :
    (watcher.update path progress).Confined top (Places top) progress.disk := by
  obtain ⟨hdisk, hplaces⟩ := rescan_confined h progress
  unfold update
  split
  · next heq =>
    rw [heq] at hdisk
    exact ⟨h, hdisk ▸ .refl _⟩
  · next next progress heq =>
    rw [heq] at hdisk hplaces
    have hnext := hplaces next rfl
    rw [← hdisk]
    split
    · exact ⟨hnext, .refl _⟩
    · next index _ =>
      refine ⟨hnext, (rebuildEach_confined htop hnext (hnext.relative_at index) _ _ _).trans
        (rebuildEach_confined htop hnext (fun file hmem => ?_) _ _ _)⟩
      obtain ⟨other, -, hother⟩ := List.mem_filterMap.1 hmem
      exact hnext.relative file (List.mem_of_getElem? hother)

theorem addDirectory_confined (htop : top.Named) (h : watcher.Places top) (directory : Path)
    (progress : Progress) :
    (watcher.addDirectory directory progress).Confined top (Places top) progress.disk := by
  obtain ⟨hdisk, hplaces⟩ := rescan_confined h progress
  unfold addDirectory
  split
  · next heq =>
    rw [heq] at hdisk
    exact ⟨h, hdisk ▸ .refl _⟩
  · next next progress heq =>
    rw [heq] at hdisk hplaces
    have hnext := hplaces next rfl
    rw [← hdisk]
    exact ⟨hnext, rebuildEach_confined htop hnext
      (fun file hmem => hnext.relative file (List.mem_of_mem_filter hmem)) _ _ _⟩

theorem removeEach_confined (htop : top.Named) (h : watcher.Places top) (paths : List Path)
    (progress : Progress) :
    (watcher.removeEach progress paths).1.Confined top (Places top) progress.disk := by
  induction paths generalizing watcher progress with
  | nil => exact ⟨h, .refl _⟩
  | cons path rest ih =>
      rw [removeEach]
      split
      · exact ⟨h, .refl _⟩
      · next index _ =>
        have hmarked : Places top { watcher with files := watcher.files.markDeleted index } :=
          ⟨h.out, SourceTree.relative_markDeleted h.relative index⟩
        exact ⟨(ih hmarked _).watcher, (rebuildEach_confined htop hmarked
          (hmarked.relative_at index) _ _ _).trans (ih hmarked _).disk⟩

theorem unlink_confined (htop : top.Named) (h : watcher.Places top) (paths : List Path)
    (progress : Progress) :
    (watcher.unlink paths progress).Confined top (Places top) progress.disk := by
  have hremoved := removeEach_confined htop h paths progress
  unfold unlink
  split
  · next heq =>
    rw [heq] at hremoved
    exact ⟨hremoved.watcher, hremoved.disk⟩
  · next watcher progress removed dependents heq =>
    rw [heq] at hremoved
    obtain ⟨hdisk, hplaces⟩ := rescan_confined hremoved.watcher progress
    split
    · next heq =>
      rw [heq] at hdisk
      exact ⟨hremoved.watcher, hdisk ▸ hremoved.disk⟩
    · next next progress heq =>
      rw [heq] at hdisk hplaces
      have hnext := hplaces next rfl
      refine ⟨hnext, hremoved.disk.trans (hdisk ▸ rebuildEach_confined htop hnext ?_ _ _ _)⟩
      exact fun file hmem => hnext.relative file (List.mem_of_mem_filter hmem)

end SourceWatcher

namespace StaticWatcher

variable {watcher : StaticWatcher}

structure Places (top : Location) (watcher : StaticWatcher) : Prop where
  out : watcher.out = top.path
  relative : ∀ file ∈ watcher.files, IsRelative file.relative

theorem Places.relative_at (h : watcher.Places top) (index : Nat) :
    ∀ file ∈ (watcher.files[index]?).toList, IsRelative file.relative :=
  fun file hmem => h.relative file (List.mem_of_getElem? (Option.mem_toList.1 hmem))

theorem Places.markDeleted (h : watcher.Places top) (index : Nat) :
    (watcher.markDeleted index).Places top := by
  refine ⟨h.out, fun file hmem => ?_⟩
  obtain ⟨place, hplace⟩ := List.getElem?_of_mem hmem
  rw [StaticWatcher.markDeleted, List.getElem?_modify] at hplace
  obtain ⟨origin, horigin, rfl⟩ := Option.map_eq_some_iff.1 hplace
  have hrelative := h.relative origin (List.mem_of_getElem? horigin)
  split <;> exact hrelative

theorem places_of_open? {disk : Disk} {root : Path}
    (h : StaticWatcher.open? disk root top.path = .ok watcher) : watcher.Places top := by
  unfold open? at h
  split at h
  · next files hscan =>
    cases h
    exact ⟨rfl, fun file hmem => (Disk.scanAssets_places hscan hmem).1⟩
  · cases h

theorem rebuildEach_confined (htop : top.Named) (h : watcher.Places top)
    {files : List StaticFile} (hfiles : ∀ file ∈ files, IsRelative file.relative)
    (reason : RebuildReason) (activity : Option (String → Activity)) (progress : Progress) :
    progress.disk.Confined top (watcher.rebuildEach reason activity files progress).2.disk := by
  induction files generalizing progress with
  | nil => exact .refl _
  | cons file rest ih =>
      have htarget := (hfiles file List.mem_cons_self).target_confined
        (Location.descends_path htop) (progress.announceAs activity file.relative).disk.workDir
      rw [Location.walk_path htop, ← h.out] at htarget
      have hfirst := Progress.buildAsset_alters htarget
      rw [Progress.disk_announceAs] at hfirst
      exact hfirst.trans (ih (fun other hmem => hfiles other (List.mem_cons_of_mem _ hmem)) _)

theorem rescan_confined (h : watcher.Places top) (progress : Progress) :
    (watcher.rescan progress).2.disk = progress.disk ∧
      ∀ next, (watcher.rescan progress).1 = .ok next → next.Places top := by
  refine ⟨rfl, fun next hnext => ?_⟩
  rw [rescan, h.out] at hnext
  exact places_of_open? hnext

theorem buildAll_confined (htop : top.Named) (h : watcher.Places top) (progress : Progress) :
    (watcher.buildAll progress).Confined top (Places top) progress.disk := by
  obtain ⟨hdisk, hplaces⟩ := rescan_confined h progress
  unfold buildAll
  split
  · next heq =>
    rw [heq] at hdisk
    exact ⟨h, hdisk ▸ .refl _⟩
  · next next progress heq =>
    rw [heq] at hdisk hplaces
    have hnext := hplaces next rfl
    exact ⟨hnext, hdisk ▸ rebuildEach_confined htop hnext hnext.relative _ _ _⟩

theorem update_confined (htop : top.Named) (h : watcher.Places top) (path : Path)
    (progress : Progress) :
    (watcher.update path progress).Confined top (Places top) progress.disk := by
  obtain ⟨hdisk, hplaces⟩ := rescan_confined h progress
  unfold update
  split
  · next heq =>
    rw [heq] at hdisk
    exact ⟨h, hdisk ▸ .refl _⟩
  · next next progress heq =>
    rw [heq] at hdisk hplaces
    have hnext := hplaces next rfl
    rw [← hdisk]
    split
    · exact ⟨hnext, .refl _⟩
    · next index _ =>
      exact ⟨hnext, rebuildEach_confined htop hnext (hnext.relative_at index) _ _ _⟩

theorem addDirectory_confined (htop : top.Named) (h : watcher.Places top) (directory : Path)
    (progress : Progress) :
    (watcher.addDirectory directory progress).Confined top (Places top) progress.disk := by
  obtain ⟨hdisk, hplaces⟩ := rescan_confined h progress
  unfold addDirectory
  split
  · next heq =>
    rw [heq] at hdisk
    exact ⟨h, hdisk ▸ .refl _⟩
  · next next progress heq =>
    rw [heq] at hdisk hplaces
    have hnext := hplaces next rfl
    rw [← hdisk]
    exact ⟨hnext, rebuildEach_confined htop hnext
      (fun file hmem => hnext.relative file (List.mem_of_mem_filter hmem)) _ _ _⟩

theorem removeEach_confined (htop : top.Named) (h : watcher.Places top) (paths : List Path)
    (progress : Progress) :
    (watcher.removeEach progress paths).Confined top (Places top) progress.disk := by
  induction paths generalizing watcher progress with
  | nil => exact ⟨h, .refl _⟩
  | cons path rest ih =>
      rw [removeEach]
      split
      · exact ⟨h, .refl _⟩
      · next index _ =>
        have hmarked := h.markDeleted index
        exact ⟨(ih hmarked _).watcher, (rebuildEach_confined htop hmarked
          (hmarked.relative_at index) _ _ _).trans (ih hmarked _).disk⟩

theorem unlink_confined (htop : top.Named) (h : watcher.Places top) (paths : List Path)
    (progress : Progress) :
    (watcher.unlink paths progress).Confined top (Places top) progress.disk := by
  have hremoved := removeEach_confined htop h paths progress
  unfold unlink
  split
  · next heq =>
    rw [heq] at hremoved
    exact ⟨hremoved.watcher, hremoved.disk⟩
  · next heq =>
    rw [heq] at hremoved
    exact ⟨⟨hremoved.watcher.out, fun file hmem =>
      hremoved.watcher.relative file (List.mem_of_mem_filter hmem)⟩, hremoved.disk⟩

end StaticWatcher

-- What holds of each way to handle an event holds of handling it.
theorem Watcher.handle_confined {ω : Type} [Watcher ω] {good : ω → Prop}
    (hupdate : ∀ watcher path progress, good watcher →
      (Watcher.update watcher path progress).Confined top good progress.disk)
    (hadd : ∀ watcher path progress, good watcher →
      (Watcher.addDirectory watcher path progress).Confined top good progress.disk)
    (hunlink : ∀ watcher paths progress, good watcher →
      (Watcher.unlink watcher paths progress).Confined top good progress.disk)
    {watcher : ω} (h : good watcher) (event : Event) (progress : Progress) :
    (Watcher.handle watcher event progress).Confined top good progress.disk := by
  unfold Watcher.handle
  dsimp only
  split
  · split
    · exact ⟨h, .refl _⟩
    · exact hunlink _ _ _ h
  · split
    · exact hadd _ _ _ h
    · split
      · exact ⟨h, .refl _⟩
      · split
        · exact ⟨h, .refl _⟩
        · exact hupdate _ _ _ h

theorem SourceWatcher.handle_confined {watcher : SourceWatcher} (htop : top.Named)
    (h : watcher.Places top) (event : Event) (progress : Progress) :
    (Watcher.handle watcher event progress).Confined top (Places top) progress.disk :=
  Watcher.handle_confined (fun _ path progress h => update_confined htop h path progress)
    (fun _ path progress h => addDirectory_confined htop h path progress)
    (fun _ paths progress h => unlink_confined htop h paths progress) h event progress

theorem StaticWatcher.handle_confined {watcher : StaticWatcher} (htop : top.Named)
    (h : watcher.Places top) (event : Event) (progress : Progress) :
    (Watcher.handle watcher event progress).Confined top (Places top) progress.disk :=
  Watcher.handle_confined (fun _ path progress h => update_confined htop h path progress)
    (fun _ path progress h => addDirectory_confined htop h path progress)
    (fun _ paths progress h => unlink_confined htop h paths progress) h event progress

theorem Handler.receive_confined {ω : Type} [Handler ω] {good : ω → Prop}
    (hhandle : ∀ watcher event progress, good watcher →
      (Handler.handle watcher event progress).Confined top good progress.disk)
    {watcher : ω} (h : good watcher) (event : Event) (progress : Progress) :
    good (Handler.receive watcher event progress).1 ∧
      progress.disk.Confined top (Handler.receive watcher event progress).2.1.disk := by
  have hreaction := hhandle watcher event progress h
  unfold Handler.receive
  split <;> next heq => rw [heq] at hreaction; exact ⟨hreaction.watcher, hreaction.disk⟩

-- A batch of events is confined where each event is.
theorem dispatch_confined {σ τ : Type} [Handler σ] [Handler τ] {good : σ → Prop} {fine : τ → Prop}
    (hgood : ∀ watcher event progress, good watcher →
      (Handler.handle watcher event progress).Confined top good progress.disk)
    (hfine : ∀ watcher event progress, fine watcher →
      (Handler.handle watcher event progress).Confined top fine progress.disk)
    {source : σ} {assets : τ} (hsource : good source) (hassets : fine assets)
    (events : List (Tree × Event)) (progress : Progress) :
    good (dispatch source assets progress events).source ∧
      fine (dispatch source assets progress events).assets ∧
      progress.disk.Confined top (dispatch source assets progress events).progress.disk := by
  induction events generalizing source assets progress with
  | nil => exact ⟨hsource, hassets, .refl _⟩
  | cons first rest ih =>
      obtain ⟨tree, event⟩ := first
      cases tree with
      | source =>
          obtain ⟨hnext, hdisk⟩ := Handler.receive_confined hgood hsource event progress
          rw [dispatch]
          split
          · next heq =>
            rw [heq] at hnext hdisk
            obtain ⟨hsource, hassets, hrest⟩ := ih hnext hassets _
            exact ⟨hsource, hassets, hdisk.trans hrest⟩
          · next heq =>
            rw [heq] at hnext hdisk
            exact ⟨hnext, hassets, hdisk⟩
      | static =>
          obtain ⟨hnext, hdisk⟩ := Handler.receive_confined hfine hassets event progress
          rw [dispatch]
          split
          · next heq =>
            rw [heq] at hnext hdisk
            obtain ⟨hsource, hassets, hrest⟩ := ih hsource hnext _
            exact ⟨hsource, hassets, hdisk.trans hrest⟩
          · next heq =>
            rw [heq] at hnext hdisk
            exact ⟨hsource, hnext, hdisk⟩

namespace Session

variable {session : Session} {progress : Progress} {config : Config}

structure Places (top : Location) (session : Session) : Prop where
  source : session.source.Places top
  assets : session.assets.Places top

-- The directory that a session writes to is the one that the config names.
theorem out_of_watchRoots {disk : Disk} {source assets out : Path}
    (h : disk.watchRoots config = .ok (source, assets, out)) :
    out = (Location.walk disk.workDir config.out).path ∧
      (Location.walk disk.workDir config.out).Named := by
  rw [Disk.watchRoots] at h
  obtain ⟨_, _, h⟩ := bind_eq_ok.1 h
  obtain ⟨_, _, h⟩ := bind_eq_ok.1 h
  obtain ⟨found, hfound, h⟩ := bind_eq_ok.1 h
  cases h
  rw [Disk.watchRoot] at hfound
  cases habsolute : config.out.absolute disk.base? with
  | error fault =>
      rw [habsolute] at hfound
      cases hfound
  | ok target =>
      rw [habsolute] at hfound
      cases hfound
      exact Disk.eq_path_of_absolute habsolute

theorem clear_confined (htop : top.Named) (progress : Progress) (config : Config) :
    progress.disk.Confined top (clear progress config top.path).2.disk := by
  unfold clear
  split
  · exact progress.clearOutput_alters fun location hwithin => by
      rwa [Location.walk_path htop] at hwithin
  · exact .refl _

theorem places_of_open? {disk : Disk} {source assets : Path}
    (h : open? disk source assets top.path = .ok session) : session.Places top := by
  obtain ⟨_, hsource, h⟩ := bind_eq_ok.1 h
  obtain ⟨_, hassets, h⟩ := bind_eq_ok.1 h
  cases h
  exact ⟨SourceWatcher.places_of_open? hsource, StaticWatcher.places_of_open? hassets⟩

theorem build_confined (htop : top.Named) (h : session.Places top) (progress : Progress) :
    (∀ next, (session.build progress).1 = .ok next → next.Places top) ∧
      progress.disk.Confined top (session.build progress).2.disk := by
  have hsource := SourceWatcher.buildAll_confined htop h.source progress
  unfold build
  split
  · next heq =>
    rw [heq] at hsource
    exact ⟨fun _ hnext => (nomatch hnext), hsource.disk⟩
  · next source progress _ heq =>
    rw [heq] at hsource
    have hassets := StaticWatcher.buildAll_confined htop h.assets progress
    split
    · next heq =>
      rw [heq] at hassets
      exact ⟨fun _ hnext => (nomatch hnext), hsource.disk.trans hassets.disk⟩
    · next heq =>
      rw [heq] at hassets
      refine ⟨fun next hnext => ?_, hsource.disk.trans hassets.disk⟩
      cases hnext
      exact ⟨hsource.watcher, hassets.watcher⟩

-- Starting a session changes nothing elsewhere, and the session knows where to write.
theorem start_confined (progress : Progress) (config : Config) :
    (∀ session, (start progress config).1 = .ok session →
      (Location.walk progress.disk.workDir config.out).Named ∧
        session.Places (Location.walk progress.disk.workDir config.out)) ∧
      progress.disk.Confined (Location.walk progress.disk.workDir config.out)
        (start progress config).2.disk := by
  unfold start
  split
  · exact ⟨fun _ hsession => (nomatch hsession), .refl _⟩
  · next source assets out hroots =>
    obtain ⟨rfl, htop⟩ := out_of_watchRoots hroots
    have hclear := clear_confined htop progress config
    split
    · next heq =>
      rw [heq] at hclear
      exact ⟨fun _ hsession => (nomatch hsession), hclear⟩
    · next progress heq =>
      rw [heq] at hclear
      split
      · exact ⟨fun _ hsession => (nomatch hsession), hclear⟩
      · next session hopen =>
        obtain ⟨hplaces, hbuild⟩ := build_confined htop (places_of_open? hopen) progress
        exact ⟨fun next hnext => ⟨htop, hplaces next hnext⟩, hclear.trans hbuild⟩

-- What sessions come to that have been started in the directory `workDir`, whatever events they
-- are told of, and whatever else happens to the disk.
inductive Reached (config : Config) (workDir : Location) : Session → Prop
  | start {progress : Progress} {session : Session} (hwork : progress.disk.workDir = workDir)
      (hsession : (Session.start progress config).1 = .ok session) : Reached config workDir session
  | source {session : Session} (h : Reached config workDir session) (event : Event)
      (progress : Progress) : Reached config workDir
        { session with source := (Handler.handle session.source event progress).watcher }
  | assets {session : Session} (h : Reached config workDir session) (event : Event)
      (progress : Progress) : Reached config workDir
        { session with assets := (Handler.handle session.assets event progress).watcher }
  | dispatch {session : Session} (h : Reached config workDir session)
      (events : List (Tree × Event)) (progress : Progress) : Reached config workDir
        ⟨(StaticSite.dispatch session.source session.assets progress events).source,
          (StaticSite.dispatch session.source session.assets progress events).assets⟩

theorem Places.dispatch (htop : top.Named) (h : session.Places top)
    (events : List (Tree × Event)) (progress : Progress) :
    Places top ⟨(StaticSite.dispatch session.source session.assets progress events).source,
        (StaticSite.dispatch session.source session.assets progress events).assets⟩ ∧
      progress.disk.Confined top
        (StaticSite.dispatch session.source session.assets progress events).progress.disk := by
  obtain ⟨hsource, hassets, hdisk⟩ := dispatch_confined
    (fun _ event progress h => SourceWatcher.handle_confined htop h event progress)
    (fun _ event progress h => StaticWatcher.handle_confined htop h event progress)
    h.source h.assets events progress
  exact ⟨⟨hsource, hassets⟩, hdisk⟩

theorem Reached.places {workDir : Location} (h : Reached config workDir session) :
    (Location.walk workDir config.out).Named ∧
      session.Places (Location.walk workDir config.out) := by
  induction h with
  | start hwork hsession =>
      subst hwork
      exact (start_confined _ config).1 _ hsession
  | source _ event progress ih =>
      exact ⟨ih.1, (SourceWatcher.handle_confined ih.1 ih.2.source event progress).watcher,
        ih.2.assets⟩
  | assets _ event progress ih =>
      exact ⟨ih.1, ih.2.source,
        (StaticWatcher.handle_confined ih.1 ih.2.assets event progress).watcher⟩
  | dispatch _ events progress ih =>
      exact ⟨ih.1, (ih.2.dispatch ih.1 events progress).1⟩

-- A build, the start of a session, and each event and batch of events that the session is told of
-- change nothing but the output directory, what lies below it, and missing directories that lead
-- there.
theorem writes_confined (workDir : Location) (h : config.out.Descends) :
    (∀ progress : Progress, progress.disk.workDir = workDir →
      progress.disk.Confined (Location.walk workDir config.out)
          (progress.buildAll config).2.disk ∧
        progress.disk.Confined (Location.walk workDir config.out)
          (Session.start progress config).2.disk) ∧
    ∀ session : Session, Reached config workDir session → ∀ progress : Progress,
      (∀ event : Event,
        progress.disk.Confined (Location.walk workDir config.out)
            (Handler.handle session.source event progress).progress.disk ∧
          progress.disk.Confined (Location.walk workDir config.out)
            (Handler.handle session.assets event progress).progress.disk) ∧
      ∀ events : List (Tree × Event), progress.disk.Confined (Location.walk workDir config.out)
        (StaticSite.dispatch session.source session.assets progress events).progress.disk := by
  constructor
  · rintro progress rfl
    exact ⟨progress.buildAll_confined h, (start_confined progress config).2⟩
  · intro session hreached progress
    obtain ⟨htop, hplaces⟩ := hreached.places
    exact ⟨fun event => ⟨(SourceWatcher.handle_confined htop hplaces.source event progress).disk,
        (StaticWatcher.handle_confined htop hplaces.assets event progress).disk⟩,
      fun events => (hplaces.dispatch htop events progress).2⟩

-- The session of the project, told that its page is gone.
def told : Reaction SourceWatcher :=
  Handler.handle opened.source ⟨.unlink, ⟨"/src/a.html"⟩⟩ started.2

theorem writes_confined_of_unlink : site.out.Descends ∧
    (Progress.project []).Confined ["dist"] started.2.disk ∧
    started.2.disk.Confined ["dist"] told.progress.disk ∧
    started.2.disk.file? ["a.html", "dist"] = some "x".toUTF8 ∧
    told.progress.disk.file? ["a.html", "dist"] = none := by
  obtain ⟨hdescends, hwork, hout, hsession, hmade, hgone⟩ : ".." ∉ Path.segments site.out.text ∧
      (Progress.project []).workDir = [] ∧ Location.walk [] site.out = ["dist"] ∧
      started.1 = .ok opened ∧ started.2.disk.file? ["a.html", "dist"] = some "x".toUTF8 ∧
      told.progress.disk.file? ["a.html", "dist"] = none := by
    decide +kernel
  obtain ⟨hbuild, hevents⟩ := @writes_confined site [] hdescends
  have hstart := (hbuild (.start (Progress.project [])) hwork).2
  have htold := ((hevents opened (.start hwork hsession) started.2).1
    ⟨.unlink, ⟨"/src/a.html"⟩⟩).1
  rw [hout] at hstart htold
  exact ⟨hdescends, hstart, htold, hmade, hgone⟩

end Session

end StaticSite
