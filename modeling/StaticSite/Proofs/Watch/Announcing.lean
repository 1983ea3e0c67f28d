import StaticSite.Proofs.Watch.Unlinking

-- What is announced while an event is handled: the files that are built for it, and nothing else.
namespace StaticSite

-- How a file that is built is announced.
def Rebuild.activity (tree : Tree) (rebuild : Rebuild) : Activity :=
  match rebuild.reason, tree with
  | .changed, .source => .updatingSource rebuild.file
  | .changed, .static => .updatingStatic rebuild.file
  | .dependent, _ => .updatingDependent rebuild.file
  | .deleted, .source => .deletingSource rebuild.file
  | .deleted, .static => .deletingStatic rebuild.file

namespace Progress

-- What has been announced since: each of the files, in their order.
def Announces (before after : Progress) (tree : Tree) (rebuilds : List Rebuild) : Prop :=
  after.activities = before.activities ++ rebuilds.map (Rebuild.activity tree)

variable {before between after : Progress} {tree : Tree} {first second : List Rebuild}

theorem announces_nil (h : after.activities = before.activities) :
    before.Announces after tree [] := by
  rw [Announces, h, List.map_nil, List.append_nil]

theorem Announces.trans (hfirst : before.Announces between tree first)
    (hsecond : between.Announces after tree second) :
    before.Announces after tree (first ++ second) := by
  rw [Announces, hsecond, hfirst, List.map_append, List.append_assoc]

-- What has been done before the first announcement does not count.
theorem Announces.of_activities (hsame : between.activities = before.activities)
    (h : between.Announces after tree first) : before.Announces after tree first := by
  rw [Announces, ← hsame]
  exact h

-- Work on an output announces nothing by itself.
theorem activities_place (progress : Progress) (destination : Path)
    (change : Disk → Except Fault Disk) :
    (progress.place destination change).2.activities = progress.activities := by
  unfold place
  split
  · rfl
  · split <;> rfl

theorem activities_writeOutput (progress : Progress) (destination : Path) (content : ByteArray) :
    (progress.writeOutput destination content).2.activities = progress.activities := by
  have hplace := progress.activities_place destination (·.write destination content)
  unfold writeOutput
  split <;> next heq => rw [heq] at hplace; exact hplace

theorem activities_copyOutput (progress : Progress) (source destination : Path) :
    (progress.copyOutput source destination).2.activities = progress.activities := by
  have hplace := progress.activities_place destination (·.copy source destination)
  unfold copyOutput
  split <;> next heq => rw [heq] at hplace; exact hplace

theorem activities_removeOutput (progress : Progress) (destination : Path) :
    (progress.removeOutput destination).2.activities = progress.activities := by
  unfold removeOutput
  split <;> rfl

theorem activities_buildContent (progress : Progress) (tree : SourceTree) (file : ContentFile)
    (out : Path) : (progress.buildContent tree file out).2.activities = progress.activities := by
  unfold buildContent
  split
  · rfl
  · dsimp only
    split
    · exact progress.activities_removeOutput _
    · split
      · exact progress.activities_writeOutput _ _
      · rfl
      · rfl

theorem activities_buildAsset (progress : Progress) (file : StaticFile) (out : Path) :
    (progress.buildAsset file out).2.activities = progress.activities := by
  unfold buildAsset
  dsimp only
  split
  · exact progress.activities_removeOutput _
  · split
    · exact progress.activities_copyOutput _ _
    · rfl

end Progress

-- A watcher that has handled something announced what it has built for it.
def Reaction.Announces {ω : Type} (tree : Tree) (before : Progress) (reaction : Reaction ω) :
    Prop :=
  ∀ rebuilds, reaction.result = .ok rebuilds → before.Announces reaction.progress tree rebuilds

theorem Progress.announces_announceAs {tree : Tree} {activity : String → Activity} {file : String}
    {rebuild : Rebuild} (progress : Progress) (h : activity file = rebuild.activity tree) :
    progress.Announces (progress.announceAs (some activity) file) tree [rebuild] := by
  rw [Announces, announceAs, announce, h, List.map_singleton]

namespace SourceWatcher

variable {watcher next : SourceWatcher} {progress noted : Progress}

theorem activities_of_rescan (h : watcher.rescan progress = (.ok next, noted)) :
    noted.activities = progress.activities := by
  rw [← (Prod.mk.inj h).2]
  rfl

theorem activities_rebuild (watcher : SourceWatcher) (reason : RebuildReason) (file : ContentFile)
    (progress : Progress) :
    (watcher.rebuild reason file progress).2.activities = progress.activities := by
  have hbuild := progress.activities_buildContent watcher.files file watcher.out
  unfold rebuild
  split <;> next heq => rw [heq] at hbuild; exact hbuild

-- Each file is announced right before it is built.
theorem rebuildEach_announces {reason : RebuildReason} {activity : String → Activity}
    (h : ∀ file outcome, activity file = Rebuild.activity .source ⟨file, reason, outcome⟩)
    (files : List ContentFile) (progress : Progress) :
    progress.Announces (watcher.rebuildEach reason (some activity) files progress).2 .source
      (watcher.rebuildEach reason (some activity) files progress).1 := by
  induction files generalizing progress with
  | nil => exact Progress.announces_nil rfl
  | cons file rest ih =>
      have hfile : activity file.relative = (watcher.rebuild reason file
          (progress.announceAs (some activity) file.relative)).1.activity .source := by
        unfold rebuild
        split <;> exact h file.relative _
      have hfirst := progress.announces_announceAs hfile
      rw [Progress.Announces, ← watcher.activities_rebuild reason file] at hfirst
      exact Progress.Announces.trans hfirst (ih _)

theorem update_announces (path : Path) (progress : Progress) :
    (watcher.update path progress).Announces .source progress := by
  intro rebuilds hok
  unfold update at hok ⊢
  split at hok
  · cases hok
  · next next noted heq =>
    split at hok
    · cases hok
    · next index _ =>
      cases hok
      have hfirst := @rebuildEach_announces next .changed .updatingSource (fun _ _ => rfl)
        (next.files.files[index]?).toList noted
      have hrest := @rebuildEach_announces next .dependent .updatingDependent (fun _ _ => rfl)
        ((next.files.dependents index).filterMap (next.files.files[·]?))
      exact (hfirst.trans (hrest _)).of_activities (activities_of_rescan heq)

theorem addDirectory_announces (directory : Path) (progress : Progress) :
    (watcher.addDirectory directory progress).Announces .source progress := by
  intro rebuilds hok
  unfold addDirectory at hok ⊢
  split at hok
  · cases hok
  · next next noted heq =>
    cases hok
    exact (rebuildEach_announces (fun _ _ => rfl) _ noted).of_activities (activities_of_rescan heq)

theorem removeEach_announces (paths : List Path) (progress : Progress) :
    (watcher.removeEach progress paths).1.Announces .source progress := by
  induction paths generalizing watcher progress with
  | nil =>
      intro rebuilds hok
      cases hok
      exact Progress.announces_nil rfl
  | cons path rest ih =>
      intro rebuilds hok
      unfold removeEach at hok ⊢
      split at hok
      · cases hok
      · obtain ⟨others, hothers, rfl⟩ := map_eq_ok.1 hok
        exact (rebuildEach_announces (fun _ _ => rfl) _ progress).trans (ih _ others hothers)

theorem unlink_announces (paths : List Path) (progress : Progress) :
    (watcher.unlink paths progress).Announces .source progress := by
  intro rebuilds hok
  have hremoved := @removeEach_announces watcher paths progress
  unfold unlink at hok ⊢
  split at hok
  · cases hok
  · next marked middle removed dependents heq =>
    rw [heq] at hremoved
    split at hok
    · cases hok
    · next next noted hrescan =>
      cases hok
      exact (hremoved removed rfl).trans
        ((rebuildEach_announces (fun _ _ => rfl) _ noted).of_activities
          (activities_of_rescan hrescan))

end SourceWatcher

namespace StaticWatcher

variable {watcher next : StaticWatcher} {progress noted : Progress}

theorem activities_of_rescan (h : watcher.rescan progress = (.ok next, noted)) :
    noted.activities = progress.activities := by
  rw [← (Prod.mk.inj h).2]
  rfl

theorem rebuildEach_announces {reason : RebuildReason} {activity : String → Activity}
    (h : ∀ file outcome, activity file = Rebuild.activity .static ⟨file, reason, outcome⟩)
    (files : List StaticFile) (progress : Progress) :
    progress.Announces (watcher.rebuildEach reason (some activity) files progress).2 .static
      (watcher.rebuildEach reason (some activity) files progress).1 := by
  induction files generalizing progress with
  | nil => exact Progress.announces_nil rfl
  | cons file rest ih =>
      have hfirst := progress.announces_announceAs (h file.relative
        ((progress.announceAs (some activity) file.relative).buildAsset file watcher.out).1)
      rw [Progress.Announces, ← Progress.activities_buildAsset _ file watcher.out] at hfirst
      exact Progress.Announces.trans hfirst (ih _)

theorem update_announces (path : Path) (progress : Progress) :
    (watcher.update path progress).Announces .static progress := by
  intro rebuilds hok
  unfold update at hok ⊢
  split at hok
  · cases hok
  · next next noted heq =>
    split at hok
    · cases hok
    · cases hok
      exact (rebuildEach_announces (fun _ _ => rfl) _ noted).of_activities
        (activities_of_rescan heq)

theorem addDirectory_announces (directory : Path) (progress : Progress) :
    (watcher.addDirectory directory progress).Announces .static progress := by
  intro rebuilds hok
  unfold addDirectory at hok ⊢
  split at hok
  · cases hok
  · next next noted heq =>
    cases hok
    exact (rebuildEach_announces (fun _ _ => rfl) _ noted).of_activities (activities_of_rescan heq)

theorem removeEach_announces (paths : List Path) (progress : Progress) :
    (watcher.removeEach progress paths).Announces .static progress := by
  induction paths generalizing watcher progress with
  | nil =>
      intro rebuilds hok
      cases hok
      exact Progress.announces_nil rfl
  | cons path rest ih =>
      intro rebuilds hok
      unfold removeEach at hok ⊢
      split at hok
      · cases hok
      · obtain ⟨others, hothers, rfl⟩ := map_eq_ok.1 hok
        exact (rebuildEach_announces (fun _ _ => rfl) _ progress).trans (ih _ others hothers)

theorem unlink_announces (paths : List Path) (progress : Progress) :
    (watcher.unlink paths progress).Announces .static progress := by
  intro rebuilds hok
  have hremoved := @removeEach_announces watcher paths progress
  unfold unlink at hok ⊢
  split at hok
  · cases hok
  · next marked middle removed heq =>
    rw [heq] at hremoved
    cases hok
    exact hremoved _ rfl

end StaticWatcher

-- An event that is passed on to a handler is announced as the handler does it. One that is ignored
-- is not announced, and nothing is built for it.
theorem Watcher.handle_announces_of {ω : Type} [Watcher ω] {tree : Tree}
    (hupdate : ∀ (watcher : ω) path progress,
      (update watcher path progress).Announces tree progress)
    (hadd : ∀ (watcher : ω) path progress,
      (addDirectory watcher path progress).Announces tree progress)
    (hunlink : ∀ (watcher : ω) paths progress,
      (unlink watcher paths progress).Announces tree progress)
    (watcher : ω) (event : Event) (progress : Progress) :
    (handle watcher event progress).Announces tree progress := by
  have hidle : ∀ later : Progress, later.activities = progress.activities →
      (Reaction.mk watcher later (.ok [])).Announces tree progress := by
    intro later hlater rebuilds hok
    cases hok
    exact Progress.announces_nil hlater
  unfold handle
  dsimp only
  split
  · split
    · exact hidle _ rfl
    · exact hunlink watcher _ progress
  · split
    · exact hadd watcher _ progress
    · split
      · exact hidle _ rfl
      · split
        · exact hidle _ rfl
        · exact hupdate watcher _ progress

-- Whatever a watcher knows, whatever stands on the disk and whatever it is told: if it can handle
-- an event, the steps announced meanwhile are those of the files that it reports as built, in their
-- order, and no other.
theorem handle_announces (source : SourceWatcher) (assets : StaticWatcher) (event : Event)
    (progress : Progress) :
    (∀ rebuilds, (Watcher.handle source event progress).result = .ok rebuilds →
      (Watcher.handle source event progress).progress.activities =
        progress.activities ++ rebuilds.map (Rebuild.activity .source)) ∧
    ∀ rebuilds, (Watcher.handle assets event progress).result = .ok rebuilds →
      (Watcher.handle assets event progress).progress.activities =
        progress.activities ++ rebuilds.map (Rebuild.activity .static) :=
  ⟨Watcher.handle_announces_of (fun _ => SourceWatcher.update_announces)
      (fun _ => SourceWatcher.addDirectory_announces) (fun _ => SourceWatcher.unlink_announces)
      source event progress,
    Watcher.handle_announces_of (fun _ => StaticWatcher.update_announces)
      (fun _ => StaticWatcher.addDirectory_announces) (fun _ => StaticWatcher.unlink_announces)
      assets event progress⟩

-- The layout of a page is gone, and the directory of the assets has come.
theorem handle_announces_of_layout :
    let session := Session.openedWrapped
    let copied := Watcher.handle session.assets ⟨.add, ⟨"/static"⟩⟩ Session.unwrapped
    (∃ rebuilds, Session.unlinked.result = .ok rebuilds) ∧
      (∃ rebuilds, copied.result = .ok rebuilds) ∧
      Session.unlinked.progress.activities = Session.unwrapped.activities ++
        [.deletingSource "~layout.html", .updatingDependent "a.html"] ∧
      copied.progress.activities = Session.unwrapped.activities ++ [.updatingStatic "s.css"] := by
  intro session copied
  obtain ⟨hunlinked, hcopied, hsteps, hstep⟩ : Session.unlinked.result.toOption.isSome ∧
      copied.result.toOption.isSome ∧
      (Session.unlinked.result.toOption.getD []).map (Rebuild.activity .source) =
        [.deletingSource "~layout.html", .updatingDependent "a.html"] ∧
      (copied.result.toOption.getD []).map (Rebuild.activity .static) =
        [.updatingStatic "s.css"] := by
    decide +kernel
  have hsource := @eq_ok_getD _ _ _ [] hunlinked
  have hassets := @eq_ok_getD _ _ _ [] hcopied
  have htold := (handle_announces session.source session.assets ⟨.unlink, ⟨"/src/~layout.html"⟩⟩
    Session.unwrapped).1 _ hsource
  have htold' := (handle_announces session.source session.assets ⟨.add, ⟨"/static"⟩⟩
    Session.unwrapped).2 _ hassets
  rw [hsteps] at htold
  rw [hstep] at htold'
  exact ⟨⟨_, hsource⟩, ⟨_, hassets⟩, htold, htold'⟩

end StaticSite
