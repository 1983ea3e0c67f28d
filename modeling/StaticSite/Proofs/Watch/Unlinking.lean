import StaticSite.Proofs.Build.Alongside
import StaticSite.Proofs.Disk.Removing
import StaticSite.Proofs.Tree.Dependents
import StaticSite.Proofs.Tree.Reach
import StaticSite.Proofs.Watch.Confined
import StaticSite.Proofs.Watch.Jobs
import StaticSite.Proofs.Watch.Sound

-- What is gone takes the outputs of its files along, and what has depended on them is built again. No
-- other file of the disk changes.
namespace StaticSite

open Disk (within)

-- The place of the output of a file, among some that are told by name.
def Location.IsOutput (out : Path) (names : List String) (location : Location) : Prop :=
  ∃ name ∈ names, location.path = out.join ⟨name⟩

theorem Location.IsOutput.of_subset {out : Path} {names others : List String} {location : Location}
    (h : location.IsOutput out names) (hsubset : names ⊆ others) : location.IsOutput out others :=
  h.imp fun _ hname => hname.imp_left (hsubset ·)

-- Outputs lie below the output directory.
theorem Location.IsOutput.within {names : List String} {top location : Location}
    (h : location.IsOutput top.path names) (htop : top.Named) (hnamed : location.Named)
    (hnames : ∀ name ∈ names, IsRelative name) : within top location := by
  obtain ⟨name, hname, hpath⟩ := h
  obtain ⟨below, hne, hbelow, rfl⟩ := hnames name hname
  have houtput := hbelow.append htop
  rw [Location.join_names houtput hne] at hpath
  rw [Location.path_injective hnamed houtput hpath]
  exact Disk.within_append below top

theorem IsRelative.path_walk_join {relative : String} {top : Location} (h : IsRelative relative)
    (htop : top.Named) (start : Location) :
    (Location.walk start (top.path.join ⟨relative⟩)).path = top.path.join ⟨relative⟩ := by
  obtain ⟨below, hne, hnamed, rfl⟩ := h
  rw [Location.join_names (hnamed.append htop) hne, Location.walk_path (hnamed.append htop)]

namespace Disk

variable {lost lost' : Location → Prop} {before middle after : Disk}

-- Files are gone from some places, and nothing else has happened to a file.
structure Loses (lost : Location → Prop) (before after : Disk) : Prop where
  base : SameBase before after
  file? : ∀ location, after.file? location = before.file? location ∨
    lost location ∧ after.file? location = none

namespace Loses

theorem refl (lost : Location → Prop) (disk : Disk) : disk.Loses lost disk :=
  ⟨.refl disk, fun _ => .inl rfl⟩

theorem trans (h : before.Loses lost middle) (h' : middle.Loses lost after) :
    before.Loses lost after := by
  refine ⟨h.base.trans h'.base, fun location => ?_⟩
  rcases h'.file? location with heq | hgone
  · rw [heq]
    exact h.file? location
  · exact .inr hgone

theorem mono (h : before.Loses lost after) (hlost : ∀ location, lost location → lost' location) :
    before.Loses lost' after :=
  ⟨h.base, fun location => (h.file? location).imp_right (.imp_left (hlost location))⟩

-- What is there has been there.
theorem file?_of_some (h : before.Loses lost after) {location : Location} {content : ByteArray}
    (hfile : after.file? location = some content) : before.file? location = some content := by
  rcases h.file? location with heq | ⟨-, hnone⟩
  · rw [← heq, hfile]
  · rw [hnone] at hfile
    cases hfile

end Loses

-- The working directory is no file, and lies in none.
theorem loses_removeFile {path : Path} (h : before.removeFile path = .ok after) :
    before.Loses (· = Location.walk before.workDir path) after := by
  have hkind := kind?_removeFile h
  obtain ⟨content, hfile, rfl⟩ := removeFile_eq_ok h
  refine ⟨sameBase_erase fun hwithin => ?_, fun location => ?_⟩
  · obtain ⟨below, hbelow⟩ := within_iff.1 hwithin
    have hwork := before.kind?_workDir_drop
    rw [hbelow] at hwork
    by_cases hnil : below = []
    · rw [hnil, List.nil_append, hfile] at hwork
      cases hwork
    · rw [kind?_above hnil hwork] at hfile
      cases hfile
  · have hlocation := hkind location
    split at hlocation
    · next heq => exact .inr ⟨heq, by rw [file?, hlocation]⟩
    · exact .inl (file?_eq_of_kind?_eq hlocation)

end Disk

theorem Progress.removeOutput_loses (progress : Progress) (destination : Path) :
    progress.disk.Loses (· = Location.walk progress.disk.workDir destination)
      (progress.removeOutput destination).2.disk := by
  unfold removeOutput
  split
  · next hremove => exact Disk.loses_removeFile hremove
  · exact .refl _ _

theorem Progress.buildContent_loses (progress : Progress) {file : ContentFile}
    (h : file.deleted = true) (tree : SourceTree) (out : Path) :
    progress.disk.Loses (· = Location.walk progress.disk.workDir (out.join ⟨file.relative⟩))
      (progress.buildContent tree file out).2.disk := by
  unfold buildContent
  split
  · exact .refl _ _
  · exact progress.removeOutput_loses _

theorem Reaction.eq_of_ok {ω : Type} {reaction : Reaction ω} {rebuilds : List Rebuild}
    (h : reaction.result = .ok rebuilds) :
    reaction = ⟨reaction.watcher, reaction.progress, .ok rebuilds⟩ := by
  rw [← h]

-- Whether a name is that of a file that depends on one of those that are gone.
def SourceTree.dependsOnAny (tree : SourceTree) (gone : List ContentFile) (relative : String) : Bool :=
  tree.files.any fun page => page.relative == relative &&
    page.dependencies.any fun index => tree.files[index]?.any (gone.contains ·)

theorem SourceTree.Linked.dependsOnAny_iff {tree : SourceTree} (h : tree.Linked)
    (hplaces : (tree.files.map (·.absolute)).Pairwise fun one next => ¬ one.same next)
    {gone : List ContentFile} (hgone : ∀ file ∈ gone, file ∈ tree.files) {relative : String} :
    tree.dependsOnAny gone relative = true ↔
      ∃ file ∈ gone, relative ∈ tree.dependentPaths file.absolute := by
  simp only [dependsOnAny, List.any_eq_true, Bool.and_eq_true, beq_iff_eq, Option.any_eq_true,
    List.contains_iff_mem]
  constructor
  · rintro ⟨page, hpage, rfl, index, hindex, file, hfile, hmem⟩
    exact ⟨file, hmem, (h.mem_dependentPaths (findAbsolute?_of_getElem? hplaces hfile)).2
      ⟨page, hpage, hindex, rfl⟩⟩
  · rintro ⟨file, hmem, hdepends⟩
    obtain ⟨index, hfile⟩ := List.getElem?_of_mem (hgone file hmem)
    obtain ⟨page, hpage, hindex, rfl⟩ :=
      (h.mem_dependentPaths (findAbsolute?_of_getElem? hplaces hfile)).1 hdepends
    exact ⟨page, hpage, rfl, index, hindex, file, hfile, hmem⟩

namespace SourceWatcher

variable {watcher : SourceWatcher} {top : Location} {gone : List ContentFile}

theorem rebuild_loses {file : ContentFile} (h : file.deleted = true) (reason : RebuildReason)
    (progress : Progress) :
    progress.disk.Loses
      (· = Location.walk progress.disk.workDir (watcher.out.join ⟨file.relative⟩))
      (watcher.rebuild reason file progress).2.disk := by
  have hbuild := progress.buildContent_loses h watcher.files watcher.out
  unfold rebuild
  split <;> next heq => rw [heq] at hbuild; exact hbuild

-- Files are built to where their names lead from the output directory.
theorem rebuildEach_outputs (htop : top.Named) (hout : watcher.out = top.path)
    {files : List ContentFile} (hfiles : ∀ file ∈ files, IsRelative file.relative)
    (reason : RebuildReason) (activity : Option (String → Activity)) (progress : Progress) :
    progress.disk.Alters (Location.IsOutput watcher.out (files.map ContentFile.relative))
      (fun _ => True) (watcher.rebuildEach reason activity files progress).2.disk := by
  refine rebuildEach_alters (fun file hmem => ⟨?_, fun disk _ => ?_⟩) reason activity
  · refine ⟨file.relative, List.mem_map_of_mem hmem, ?_⟩
    rw [hout, (hfiles file hmem).path_walk_join htop]
  · exact (disk.makeParent_grows _).alters

-- What has come of removing files of a tree, one after another: no other file than their outputs is
-- gone, and it is remembered what depends on them.
structure Removal (watcher : SourceWatcher) (gone : List ContentFile) (before : Progress)
    (after : Reaction SourceWatcher × List String) : Prop where
  root : after.1.watcher.root = watcher.root
  out : after.1.watcher.out = watcher.out
  result : ∃ removed, after.1.result = .ok removed ∧
    removed.map Rebuild.entry = gone.map fun file => (file.relative, .deleted)
  dependents : ∀ name, name ∈ after.2 ↔
    ∃ file ∈ gone, name ∈ watcher.files.dependentPaths file.absolute
  disk : before.disk.Loses (Location.IsOutput watcher.out (gone.map ContentFile.relative))
    after.1.progress.disk

-- One file is marked and its output removed, and then come the others.
theorem removeEach_cons {path : Path} {paths : List Path} {index : Nat} {known : ContentFile}
    {progress : Progress} {marked : SourceWatcher} {first : Rebuild × Progress}
    {rest : Reaction SourceWatcher × List String}
    (hfind : watcher.files.findAbsolute? path = some index)
    (hknown : watcher.files.files[index]? = some known)
    (hmarked : marked = { watcher with files := watcher.files.markDeleted index })
    (hfirst : first = marked.rebuild .deleted { known with deleted := true }
      (progress.announce (.deletingSource known.relative)))
    (hrest : rest = marked.removeEach first.2 paths) :
    watcher.removeEach progress (path :: paths) =
      ({ rest.1 with result := rest.1.result.map (first.1 :: ·) },
        marked.files.dependentPaths path ++ rest.2) := by
  have hindex : (watcher.files.markDeleted index).files[index]? =
      some { known with deleted := true } := by
    simp [SourceTree.markDeleted, hknown]
  subst hmarked hfirst hrest
  rw [removeEach, hfind]
  dsimp only
  rw [hindex, Option.toList_some, rebuildEach_singleton]
  rfl

-- A file of the tree is found by its path, also when others have been marked before it.
theorem removeEach_removal (htop : top.Named) (hout : watcher.out = top.path)
    (hplaces : (watcher.files.unmarked.files.map (·.absolute)).Pairwise
      fun one next => ¬ one.same next)
    (hgone : ∀ file ∈ gone, file ∈ watcher.files.unmarked.files)
    (hrelative : ∀ file ∈ gone, IsRelative file.relative) (progress : Progress) :
    watcher.Removal gone progress (watcher.removeEach progress (gone.map (·.absolute))) := by
  induction gone generalizing watcher progress with
  | nil => exact ⟨rfl, rfl, ⟨[], rfl, rfl⟩, by simp [removeEach], .refl _ _⟩
  | cons file rest ih =>
      obtain ⟨index, hindex⟩ := List.getElem?_of_mem (hgone file List.mem_cons_self)
      have hfind := SourceTree.findAbsolute?_of_getElem? hplaces hindex
      rw [SourceTree.findAbsolute?_unmarked] at hfind
      obtain ⟨known, hknown, rfl⟩ := Option.map_eq_some_iff.1
        ((SourceTree.getElem?_unmarked ..).symm.trans hindex)
      generalize hmarked :
        ({ watcher with files := watcher.files.markDeleted index } : SourceWatcher) = marked
      generalize hfirst : marked.rebuild .deleted { known with deleted := true }
        (progress.announce (.deletingSource known.relative)) = first
      rw [List.map_cons, removeEach_cons hfind hknown hmarked.symm hfirst.symm rfl]
      have htree : marked.files.unmarked = watcher.files.unmarked :=
        hmarked ▸ watcher.files.unmarked_markDeleted index
      have hmarkedOut : marked.out = watcher.out := hmarked ▸ rfl
      have hpaths : ∀ path, marked.files.dependentPaths path = watcher.files.dependentPaths path :=
        hmarked ▸ watcher.files.dependentPaths_markDeleted index
      have hrest := @ih marked (hmarkedOut.trans hout) (htree ▸ hplaces)
        (fun other hmem => htree ▸ hgone other (List.mem_cons_of_mem _ hmem))
        (fun other hmem => hrelative other (List.mem_cons_of_mem _ hmem)) first.2
      obtain ⟨others, hothers, hentries⟩ := hrest.result
      refine ⟨hrest.root.trans (hmarked ▸ rfl), hrest.out.trans hmarkedOut,
        ⟨first.1 :: others, by rw [hothers]; rfl, ?_⟩, fun name => ?_, ?_⟩
      · rw [List.map_cons, List.map_cons, hentries, ← hfirst, entry_rebuild]
        rfl
      · rw [List.mem_append, hrest.dependents, List.exists_mem_cons_iff]
        simp only [hpaths]
      · have hloses := @rebuild_loses marked { known with deleted := true } rfl .deleted
          (progress.announce (.deletingSource known.relative))
        rw [hfirst] at hloses
        refine (hloses.mono fun location hlocation => ?_).trans (hrest.disk.mono fun location => ?_)
        · rw [hlocation, hmarkedOut, hout]
          exact ⟨known.relative, List.mem_cons_self,
            (hrelative _ List.mem_cons_self).path_walk_join htop _⟩
        · rw [hmarkedOut]
          exact fun hlocation => hlocation.of_subset (List.map_subset _ (List.subset_cons_self ..))

theorem Sound.pairwise_absolute (h : watcher.Sound) (hplaces : watcher.Places top) :
    (watcher.files.files.map (·.absolute)).Pairwise fun one next => ¬ one.same next := by
  obtain ⟨location, hnamed, hroot⟩ := h.root
  have habsolute : watcher.files.files.map (·.absolute) =
      (watcher.files.files.map ContentFile.relative).map fun name => location.path.join ⟨name⟩ := by
    rw [List.map_map]
    exact List.map_congr_left fun file hmem => hroot ▸ h.joined file hmem
  rw [habsolute]
  exact SourceTree.pairwise_join hnamed (List.forall_mem_map.2 hplaces.relative) h.distinct

-- The files of a scan that have depended on a file that is gone.
def bereft (watcher : SourceWatcher) (gone : List ContentFile) (fresh : SourceTree) :
    List ContentFile :=
  fresh.files.filter fun file => watcher.files.dependsOnAny gone file.relative

-- Handling that files are gone: they are removed, the tree is scanned again, and what has depended on
-- them is built.
structure Unlinking (watcher : SourceWatcher) (gone : List ContentFile)
    (before between after : Disk) (fresh : SourceTree) (rebuilds : List Rebuild) : Prop where
  lost : before.Loses (Location.IsOutput watcher.out (gone.map ContentFile.relative)) between
  scanned : between.scanSource watcher.root = .ok fresh
  entries : rebuilds.map Rebuild.entry = gone.map (fun file => (file.relative, .deleted)) ++
    (watcher.bereft gone fresh).map fun file => (file.relative, .dependent)
  built : between.Alters
    (Location.IsOutput watcher.out ((watcher.bereft gone fresh).map ContentFile.relative))
    (fun _ => True) after

-- The watcher knows of no mark before, and of none after the scan.
theorem unlink_unlinking (htop : top.Named) (h : watcher.Sound) (hplaces : watcher.Places top)
    (hgone : ∀ file ∈ gone, file ∈ watcher.files.files) {progress later : Progress}
    {next : SourceWatcher} {rebuilds : List Rebuild}
    (hok : watcher.unlink (gone.map (·.absolute)) progress = ⟨next, later, .ok rebuilds⟩) :
    next = { watcher with files := next.files } ∧
      ∃ between, watcher.Unlinking gone progress.disk between later.disk next.files rebuilds := by
  have habsolute := h.pairwise_absolute hplaces
  have hunmarked := SourceTree.unmarked_of_present h.present
  have hremoval := removeEach_removal htop hplaces.out (hunmarked.symm ▸ habsolute)
    (hunmarked.symm ▸ hgone) (fun file hmem => hplaces.relative file (hgone file hmem)) progress
  unfold unlink at hok
  split at hok
  · cases hok
  · next marked middle removed dependents heq =>
    rw [heq] at hremoval
    split at hok
    · cases hok
    · next fresh noted hrescan =>
      obtain ⟨_, ⟨⟩, hentries⟩ := hremoval.result
      obtain ⟨hopen, rfl⟩ := Prod.mk.inj hrescan
      obtain ⟨tree, hscan, rfl⟩ := Session.eq_of_open?_source hopen
      have hleft : (tree.files.filter fun file => dependents.contains file.relative) =
          watcher.bereft gone tree := by
        refine List.filter_congr fun file _ => ?_
        rw [Bool.eq_iff_iff, List.contains_iff_mem, h.linked.dependsOnAny_iff habsolute hgone]
        exact hremoval.dependents file.relative
      dsimp only at hok
      rw [hleft] at hok
      have hrelative : ∀ file ∈ watcher.bereft gone tree, IsRelative file.relative :=
        fun file hmem => (Disk.scanSource_places hscan (List.mem_of_mem_filter hmem)).1
      have hbuilt := @rebuildEach_outputs ⟨marked.root, marked.out, tree⟩ top htop
        (hremoval.out.trans hplaces.out) _ hrelative .dependent (some .updatingDependent)
        (middle.note (.rescanning marked.root))
      cases hok
      refine ⟨by rw [hremoval.root, hremoval.out], middle.disk, hremoval.disk, ?_, ?_, ?_⟩
      · rw [← hremoval.root]
        exact hscan
      · rw [List.map_append, hentries, rebuildEach_entries]
      · rw [← hremoval.out]
        exact hbuilt

-- The known files at and below a path.
def knownBelow (watcher : SourceWatcher) (path : Path) : List ContentFile :=
  watcher.files.files.filter fun file =>
    within (Location.walk [] path) (Location.walk [] file.absolute)

theorem Sound.exists_location (h : watcher.Sound) (hplaces : watcher.Places top)
    {file : ContentFile} (hmem : file ∈ watcher.files.files) :
    ∃ location : Location, location.Named ∧ file.absolute = location.path := by
  obtain ⟨root, hnamed, hroot⟩ := h.root
  obtain ⟨below, hne, hbelow, hrelative⟩ := hplaces.relative file hmem
  have hfile := hbelow.append hnamed
  exact ⟨below ++ root, hfile,
    by rw [h.joined file hmem, hroot, hrelative, Location.join_names hfile hne]⟩

theorem Sound.knownUnder_eq (h : watcher.Sound) (hplaces : watcher.Places top) {place : Location}
    (hnamed : place.Named) :
    watcher.knownUnder place.path = (watcher.knownBelow place.path).map (·.absolute) := by
  rw [knownUnder, knownBelow, List.filter_map]
  refine congrArg _ (List.filter_congr fun file hmem => ?_)
  obtain ⟨location, hlocation, habsolute⟩ := h.exists_location hplaces hmem
  rw [Bool.eq_iff_iff, Function.comp_apply, habsolute, Location.walk_path hnamed,
    Location.walk_path hlocation]
  exact Location.startsWith_path_iff hlocation hnamed

namespace Unlinking

variable {before between after : Disk} {fresh : SourceTree} {rebuilds : List Rebuild}

theorem files_eq (h : watcher.Unlinking gone before between after fresh rebuilds) :
    rebuilds.map Rebuild.file = gone.map ContentFile.relative ++
      (watcher.bereft gone fresh).map ContentFile.relative := by
  have hfiles := congrArg (List.map Prod.fst) h.entries
  simpa [List.map_map, Function.comp_def, Rebuild.entry] using hfiles

-- A file changes only where one of the files is built.
theorem isOutput (h : watcher.Unlinking gone before between after fresh rebuilds)
    {location : Location} (hchanged : after.file? location ≠ before.file? location) :
    location.IsOutput watcher.out (rebuilds.map Rebuild.file) := by
  rw [h.files_eq]
  by_contra hnot
  refine hchanged ((h.built.file?_eq fun hbuilt => hnot ?_).trans ?_)
  · exact hbuilt.of_subset (List.subset_append_right ..)
  · refine (h.lost.file? location).resolve_right fun ⟨hlost, _⟩ => hnot ?_
    exact hlost.of_subset (List.subset_append_left ..)

-- What is found by the scan is there, so it is none of what is gone.
theorem nodup (hsound : watcher.Sound)
    (h : watcher.Unlinking gone before between after fresh rebuilds)
    (hgone : gone.Sublist watcher.files.files)
    (hnone : ∀ file ∈ gone, before.file? (Location.walk [] file.absolute) = none) :
    (rebuilds.map Rebuild.file).Nodup := by
  have hfresh := sound_of_scan hsound.root h.scanned watcher.out
  rw [h.files_eq]
  refine List.nodup_append.2 ⟨hsound.distinct.sublist (hgone.map _),
    hfresh.distinct.sublist (List.filter_sublist.map _), ?_⟩
  rintro _ hlost _ hkept rfl
  obtain ⟨file, hfile, hname⟩ := List.mem_map.1 hlost
  obtain ⟨page, hpage, hsame⟩ := List.mem_map.1 hkept
  have hmem := List.mem_of_mem_filter hpage
  have habsolute : page.absolute = file.absolute := by
    rw [hfresh.joined page hmem, hsame, ← hname, hsound.joined file (hgone.subset hfile)]
  obtain ⟨found, hscan, htree⟩ := map_eq_ok.1 h.scanned
  rw [← htree] at hmem
  obtain ⟨location, content, hnamed, hplace, hcontent⟩ :=
    Disk.file?_of_mem_scan hscan (SourceTree.mem_files_ofFound hmem).2
  have hthere := h.lost.file?_of_some hcontent
  rw [← Location.walk_path hnamed [], ← hplace, habsolute, hnone file hfile] at hthere
  cases hthere

-- Where the output directory is apart from the source directory, the removals do not show in the
-- scan.
theorem scanSource_eq (h : watcher.Unlinking gone before between after fresh rebuilds)
    (htop : top.Named) (hout : watcher.out = top.path) (hroot : watcher.root.IsPlace)
    (hrelative : ∀ file ∈ gone, IsRelative file.relative)
    (hending : watcher.root.bare.toList.getLast? ≠ some '\\')
    (hapart : ∀ location, within (Location.walk [] watcher.root) location → ¬ within top location) :
    before.scanSource watcher.root = .ok fresh := by
  have htwins : before.Twins top between := by
    refine ⟨h.lost.base, fun location hnot => ?_⟩
    rcases h.lost.file? location with heq | ⟨hlost, hnone⟩
    · exact heq
    · rw [hnone]
      cases hfile : before.file? location with
      | none => rfl
      | some content =>
          have hnamed := Disk.named_of_kind? (Disk.file?_eq_some.1 hfile)
          exact absurd ((hout ▸ hlost).within htop hnamed (List.forall_mem_map.2 hrelative)) hnot
  obtain ⟨root, hnamed, heq⟩ := hroot
  rw [heq, Location.walk_path hnamed] at hapart
  have hsteady : before.Steady top watcher.root := by
    refine ⟨?_, hending, ?_, .inl ?_, ?_⟩
    · intro hempty
      have habsolute := Location.isAbsolute_path root
      rw [← heq, Path.isAbsolute, hempty] at habsolute
      exact absurd habsolute (by decide)
    · rw [heq]
      exact (Location.descends_path hnamed).straight
    · rw [heq]
      exact Location.isAbsolute_path root
    · rwa [heq, Location.walk_path hnamed]
  rw [← htwins.scanSource_eq hsteady, h.scanned]

end Unlinking

end SourceWatcher

namespace Session

variable {config : Config} {session : Session}

theorem Served.exists_reached (h : Served config session) :
    ∃ workDir, Reached config workDir session := by
  induction h with
  | start hsession => exact ⟨_, .start rfl hsession⟩
  | source _ _ ih => exact ih.imp fun _ hreached => .source hreached _ _
  | assets _ _ ih => exact ih.imp fun _ hreached => .assets hreached _ _

-- What a session is told to be gone, with no file left there, takes the known files at and below the
-- path along, in the order of the list. Of the next scan, the files are built that have depended on
-- one of them. No file is built twice, no file of the disk changes but their outputs, and where no
-- file has been known nothing happens. The scan sees the disk without the outputs that are gone,
-- which are none of its files where the output lies apart from the source.
theorem unlink_touches (h : Served config session) {path : Path} (habsolute : path.isAbsolute)
    (hnormal : path.normalize = path) {progress later : Progress}
    (hgone : ∀ location, within (Location.walk [] path) location →
      progress.disk.file? location = none)
    {watcher : SourceWatcher} {rebuilds : List Rebuild}
    (hok : Handler.handle session.source ⟨.unlink, path⟩ progress = ⟨watcher, later, .ok rebuilds⟩) :
    rebuilds.map Rebuild.entry =
        (session.source.knownBelow path).map (fun file => (file.relative, .deleted)) ++
        (session.source.bereft (session.source.knownBelow path) watcher.files).map
          (fun file => (file.relative, .dependent)) ∧
    (rebuilds.map Rebuild.file).Nodup ∧
    (∀ location, later.disk.file? location ≠ progress.disk.file? location →
      ∃ rebuild ∈ rebuilds, location.path = session.source.out.join ⟨rebuild.file⟩) ∧
    (session.source.knownBelow path = [] →
      watcher = session.source ∧ later = progress.note (.untracked path) ∧ rebuilds = []) ∧
    (session.source.knownBelow path ≠ [] →
      watcher = { session.source with files := watcher.files } ∧
      (∃ between : Disk, between.scanSource session.source.root = .ok watcher.files ∧
        ∀ location, between.file? location = progress.disk.file? location ∨
          between.file? location = none ∧ ∃ file ∈ session.source.knownBelow path,
            location.path = session.source.out.join ⟨file.relative⟩) ∧
      ((∀ location, within (Location.walk [] session.source.root) location →
          ¬ within (Location.walk [] session.source.out) location) →
        session.source.root.bare.toList.getLast? ≠ some '\\' →
        progress.disk.scanSource session.source.root = .ok watcher.files)) := by
  obtain ⟨workDir, hreached⟩ := h.exists_reached
  obtain ⟨htop, ⟨hplaces, -⟩⟩ := hreached.places
  have hsound := h.sound.1
  have hnamed := Path.named_walk_root path
  have hpath := Location.path_walk_of_normal habsolute hnormal
  have hknown := hsound.knownUnder_eq hplaces hnamed
  rw [hpath] at hknown
  have hhandle := Watcher.handle_unlink session.source progress hnamed
  rw [hpath, show Watcher.knownUnder session.source path = _ from hknown] at hhandle
  replace hok := hhandle.symm.trans hok
  by_cases hnil : session.source.knownBelow path = []
  · rw [hnil, List.map_nil, if_pos rfl] at hok
    cases hok
    have hnone : ∀ relative, session.source.files.dependsOnAny [] relative = false := by
      simp [SourceTree.dependsOnAny]
    refine ⟨by simp [hnil, SourceWatcher.bereft, hnone], List.nodup_nil, fun location hchanged => absurd rfl hchanged,
      fun _ => ⟨rfl, rfl, rfl⟩, fun hne => absurd hnil hne⟩
  · rw [if_neg (by simpa using hnil)] at hok
    have hmem : ∀ file ∈ session.source.knownBelow path, file ∈ session.source.files.files :=
      fun file hfile => List.mem_of_mem_filter hfile
    obtain ⟨hwatcher, between, hunlinking⟩ :=
      SourceWatcher.unlink_unlinking htop hsound hplaces hmem hok
    refine ⟨hunlinking.entries, ?_, fun location hchanged => ?_, fun heq => absurd heq hnil,
      fun _ => ⟨hwatcher, ⟨between, hunlinking.scanned, fun location => ?_⟩, fun hapart hending => ?_⟩⟩
    · refine hunlinking.nodup hsound List.filter_sublist fun file hfile => hgone _ ?_
      exact (List.mem_filter.1 hfile).2
    · obtain ⟨name, hname, hplace⟩ := hunlinking.isOutput hchanged
      obtain ⟨rebuild, hrebuild, rfl⟩ := List.mem_map.1 hname
      exact ⟨rebuild, hrebuild, hplace⟩
    · refine (hunlinking.lost.file? location).imp_right fun ⟨⟨name, hname, hplace⟩, hnone⟩ => ?_
      obtain ⟨file, hfile, rfl⟩ := List.mem_map.1 hname
      exact ⟨hnone, file, hfile, hplace⟩
    · rw [hplaces.out, Location.walk_path htop] at hapart
      exact hunlinking.scanSource_eq htop hplaces.out hsound.root
        (fun file hfile => hplaces.relative file (hmem file hfile)) hending hapart

-- The layout of a page has been removed.
def unwrapped : Progress :=
  wrapped.2.onDisk (wrapped.2.disk.erase ["~layout.html", "src"])

def unlinked : Reaction SourceWatcher :=
  Handler.handle openedWrapped.source ⟨.unlink, ⟨"/src/~layout.html"⟩⟩ unwrapped

theorem unlink_touches_of_layout :
    Served site openedWrapped ∧
    (unlinked.result.toOption.getD []).map Rebuild.entry =
      [("~layout.html", .deleted), ("a.html", .dependent)] ∧
    (∀ location, unlinked.progress.disk.file? location ≠ unwrapped.disk.file? location →
      location.path = ⟨"/dist/~layout.html"⟩ ∨ location.path = ⟨"/dist/a.html"⟩) ∧
    unwrapped.disk.scanSource ⟨"/src"⟩ = .ok ⟨[⟨"a.html", ⟨"/src/a.html"⟩, false, []⟩]⟩ := by
  obtain ⟨hstart, hok, hnone, hsource, hfresh⟩ : wrapped.1.toOption.isSome ∧
      unlinked.result.toOption.isSome ∧
      unwrapped.disk.kind? ["~layout.html", "src"] = none ∧
      openedWrapped.source = ⟨⟨"/src"⟩, ⟨"/dist"⟩, ⟨[⟨"a.html", ⟨"/src/a.html"⟩, false, [1]⟩,
        ⟨"~layout.html", ⟨"/src/~layout.html"⟩, false, []⟩]⟩⟩ ∧
      unlinked.watcher.files = ⟨[⟨"a.html", ⟨"/src/a.html"⟩, false, []⟩]⟩ := by
    decide +kernel
  have hgone : ∀ location, within (Location.walk [] ⟨"/src/~layout.html"⟩) location →
      unwrapped.disk.file? location = none := by
    intro location hwithin
    rw [show Location.walk [] ⟨"/src/~layout.html"⟩ = ["~layout.html", "src"] by decide] at hwithin
    rw [Disk.file?, Disk.kind?_within_of_none hnone hwithin]
  have hresult := Reaction.eq_of_ok (@eq_ok_getD _ _ _ [] hok)
  have hserved : Served site openedWrapped := .start (eq_ok_getD hstart)
  obtain ⟨hentries, -, hframe, -, hscan⟩ :=
    unlink_touches hserved (by decide) (by decide) hgone hresult
  rw [hsource] at hentries hframe hscan
  rw [hfresh] at hentries hscan
  have hknown : SourceWatcher.knownBelow ⟨⟨"/src"⟩, ⟨"/dist"⟩,
      ⟨[⟨"a.html", ⟨"/src/a.html"⟩, false, [1]⟩,
        ⟨"~layout.html", ⟨"/src/~layout.html"⟩, false, []⟩]⟩⟩ ⟨"/src/~layout.html"⟩ =
      [⟨"~layout.html", ⟨"/src/~layout.html"⟩, false, []⟩] := by
    decide
  rw [hknown] at hentries hscan
  have hbuilt := hentries.trans (show _ =
    [("~layout.html", RebuildReason.deleted), ("a.html", RebuildReason.dependent)] by decide)
  refine ⟨hserved, hbuilt, fun location hchanged => ?_, ?_⟩
  · obtain ⟨rebuild, hrebuild, hplace⟩ := hframe location hchanged
    have hentry : rebuild.entry ∈ _ := hbuilt ▸ List.mem_map_of_mem hrebuild
    rw [hplace]
    simp only [Rebuild.entry, List.mem_cons, Prod.mk.injEq, List.not_mem_nil, or_false] at hentry
    rcases hentry with ⟨hfile, -⟩ | ⟨hfile, -⟩ <;> rw [hfile]
    · exact .inl (by decide)
    · exact .inr (by decide)
  · refine (hscan (by simp)).2.2 (fun location hsource hout => ?_) (by decide)
    rcases Disk.within_or_within hsource hout with hin | hin
    · exact absurd hin (by decide)
    · exact absurd hin (by decide)

end Session

end StaticSite
