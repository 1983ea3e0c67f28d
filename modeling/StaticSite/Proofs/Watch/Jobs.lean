import StaticSite.Proofs.Build.Performed
import StaticSite.Proofs.Watch.Shift
import StaticSite.Proofs.Watch.Source
import StaticSite.Proofs.Watch.Static

-- What the watchers build for files of their trees, and what they remove, as jobs.
namespace StaticSite

open Disk (within)

-- Jobs in the output change nothing in the trees.
theorem Job.run_tree (roots : Roots) (jobs : List Job) (scene : Scene) (tree : Tree)
    (below : Location) :
    run roots.out jobs scene (below ++ roots.tree tree) = scene (below ++ roots.tree tree) := by
  refine run_of_not_within fun job _ hwithin => ?_
  have hapart : ¬ within (roots.tree tree) roots.out ∧ ¬ within roots.out (roots.tree tree) := by
    cases tree with
    | source => exact roots.out_apart _ (by simp)
    | static => exact roots.out_apart _ (by simp)
  exact Roots.not_within_of_apart hapart.1 hapart.2 job.place
    (Disk.within_trans (Disk.within_append below _) hwithin)

namespace Disk

variable {roots : Roots} {disk other next : Disk} {tree : Tree} {place : Location}

-- What is put into the output for a file of a tree. A hidden page has no output, and one that
-- cannot be read or does not compose leaves it as it is.
def makes (disk : Disk) (roots : Roots) (tree : Tree) (place : Location) : List Job :=
  match tree with
  | .source =>
    if place.isHidden then []
    else match disk.pageAt roots.source (disk.pagesBelow roots.source) place with
      | .ok text => [.put place (String.ofList text).toUTF8]
      | .error _ => []
  | .static => [.put place ((disk.file? (place ++ roots.assets)).getD .empty)]

-- What is removed from the output when a file of a tree is gone.
def takes (tree : Tree) (place : Location) : List Job :=
  match tree with
  | .source => if place.isHidden then [] else [.take place]
  | .static => [.take place]

theorem place_of_mem_makes {job : Job} (h : job ∈ disk.makes roots tree place) :
    ∃ content, job = .put place content := by
  cases tree with
  | source =>
      rw [makes] at h
      split at h
      · cases h
      · split at h
        · exact ⟨_, List.mem_singleton.1 h⟩
        · cases h
  | static => exact ⟨_, List.mem_singleton.1 h⟩

theorem eq_of_mem_takes {job : Job} (h : job ∈ takes tree place) : job = .take place := by
  cases tree with
  | source =>
      rw [takes] at h
      split at h
      · cases h
      · exact List.mem_singleton.1 h
  | static => exact List.mem_singleton.1 h

-- At most one file is put for each place, always the same one.
theorem eq_of_mem_makes {left right : Job} (h : left ∈ disk.makes roots tree place)
    (h' : right ∈ disk.makes roots tree place) : left = right := by
  cases tree with
  | source =>
      rw [makes] at h h'
      split at h
      · cases h
      · next hhidden =>
        rw [if_neg hhidden] at h'
        split at h
        · next heq =>
          rw [heq] at h'
          exact (List.mem_singleton.1 h).trans (List.mem_singleton.1 h').symm
        · cases h
  | static => exact (List.mem_singleton.1 h).trans (List.mem_singleton.1 h').symm

-- Two disks with the same trees.
def SameTrees (roots : Roots) (disk other : Disk) : Prop :=
  ∀ tree below, other.kind? (below ++ roots.tree tree) = disk.kind? (below ++ roots.tree tree)

namespace SameTrees

theorem refl (roots : Roots) (disk : Disk) : SameTrees roots disk disk :=
  fun _ _ => rfl

theorem of_run {jobs : List Job} (h : SameTrees roots disk other)
    (hnext : next.kind? = Job.run roots.out jobs other.kind?) : SameTrees roots disk next := by
  intro tree below
  rw [hnext, Job.run_tree, h]

theorem agree (h : SameTrees roots disk other) : Agree roots disk other :=
  ⟨fun below => file?_eq_of_kind?_eq (h .source below).symm,
    fun below => file?_eq_of_kind?_eq (h .static below).symm⟩

theorem isDirectory_eq (h : SameTrees roots disk other)
    (hnamed : Location.Named (place ++ roots.tree tree)) :
    other.isDirectory (Location.path (place ++ roots.tree tree)) =
      disk.isDirectory (Location.path (place ++ roots.tree tree)) := by
  rw [Bool.eq_iff_iff, isDirectory_path hnamed, isDirectory_path hnamed, h]

theorem isFile_eq (h : SameTrees roots disk other)
    (hnamed : Location.Named (place ++ roots.tree tree)) :
    other.isFile (Location.path (place ++ roots.tree tree)) =
      disk.isFile (Location.path (place ++ roots.tree tree)) := by
  rw [Bool.eq_iff_iff, isFile_path hnamed, isFile_path hnamed, file?_eq_of_kind?_eq (h _ _)]

end SameTrees

end Disk

-- How the files of a tree are called: by the names that lead to them.
def Location.relative (place : Location) : String :=
  "/".intercalate place.reverse

-- The place of a file below the root of its tree.
def ContentFile.place (content : ContentFile) : Location :=
  Location.walk [] ⟨content.relative⟩

namespace SourceTree

variable {root page : Location} {files : List Location} {index : Nat}

theorem place_linked (hnamed : page.Named) (index : Nat) :
    (linked root files index page).place = page :=
  (Location.walk_names hnamed []).trans (List.append_nil page)

theorem map_place_below (root : Location) (hfiles : Places files) :
    (below root files).files.map ContentFile.place = files := by
  refine List.ext_getElem? fun index => ?_
  rw [List.getElem?_map, getElem?_below, Option.map_map]
  cases hindex : files[index]? with
  | none => rfl
  | some page =>
      exact congrArg some (place_linked (hfiles.2 page (List.mem_of_getElem? hindex)).2 index)

theorem map_relative_place (root : Location) {contents : List ContentFile} (hfiles : Places files)
    (h : ∀ content ∈ contents, content ∈ (below root files).files) :
    (contents.map ContentFile.place).map Location.relative =
      contents.map ContentFile.relative := by
  rw [List.map_map]
  refine List.map_congr_left fun content hmem => ?_
  obtain ⟨index, page, hindex, rfl⟩ := mem_files_below.1 (h content hmem)
  rw [Function.comp_apply, place_linked (hfiles.2 page (List.mem_of_getElem? hindex)).2]
  rfl

theorem map_place_filter {chosen : ContentFile → Bool} {wanted : Location → Bool}
    (hfiles : Places files) (h : ∀ index page, files[index]? = some page →
      chosen (linked root files index page) = wanted page) :
    ((below root files).files.filter chosen).map ContentFile.place = files.filter wanted := by
  conv_rhs => rw [← map_place_below root hfiles, List.filter_map]
  congr 1
  refine List.filter_congr fun content hmem => ?_
  obtain ⟨index, page, hindex, rfl⟩ := mem_files_below.1 hmem
  rw [h index page hindex, Function.comp_apply,
    place_linked (hfiles.2 page (List.mem_of_getElem? hindex)).2]

-- The files that depend on one are those that it wraps, in the order of the list.
theorem map_place_dependents (root : Location) (hfiles : Places files)
    (hindex : files[index]? = some page) :
    (((below root files).dependents index).filterMap ((below root files).files[·]?)).map ContentFile.place =
      files.filter (page.wraps ·) := by
  have hmarked := marked_below root files
  have hget : ∀ other : Nat,
      ((below root files).files[other]?).map ContentFile.place = files[other]? := by
    intro other
    rw [← List.getElem?_map, map_place_below root hfiles]
  rw [List.map_filterMap]
  simp only [hget]
  conv_rhs => rw [← filterMap_range files]
  rw [dependents, size, hmarked.length_eq]
  refine filterMap_filter_of_agree fun other hother image himage => ?_
  have hmem := hmarked.mem_dependents hfiles hindex himage
  rw [dependents, size, hmarked.length_eq, List.mem_filter, and_iff_right hother] at hmem
  exact Bool.eq_iff_iff.2 hmem

end SourceTree

-- What has been built, and why.
def Rebuild.entry (rebuild : Rebuild) : String × RebuildReason :=
  (rebuild.file, rebuild.reason)

namespace SourceWatcher

open SourceTree (linked)

variable {roots : Roots} {disk : Disk} {progress : Progress} {files : List Location}
  {page : Location}

theorem rebuild_exact (hsame : Disk.SameTrees roots disk progress.disk)
    (hfiles : files = disk.pagesBelow roots.source) {index : Nat}
    (hindex : files[index]? = some page) (reason : RebuildReason) :
    ((knowing roots files).rebuild reason (linked roots.source files index page)
        progress).2.disk.kind? =
      Job.run roots.out (disk.makes roots .source page) progress.disk.kind? := by
  have hplaces : SourceTree.Places files := hfiles ▸ disk.places_pagesBelow roots.source
  have hmem := List.mem_of_getElem? hindex
  obtain ⟨hne, hnamed⟩ := hplaces.2 page hmem
  have hbuild := Progress.buildContent_linked roots progress hplaces hindex
  have hover : progress.buildContent (knowing roots files).files
      (linked roots.source files index page) (knowing roots files).out = _ := hbuild
  have hpage := hsame.agree.pageAt_eq (hfiles ▸ hmem)
  rw [← hsame.agree.pagesBelow_eq, ← hfiles] at hpage
  unfold rebuild
  rw [hover, Disk.makes, ← hfiles, hpage]
  by_cases hhidden : page.isHidden
  · simp only [if_pos hhidden, Job.run_nil]
  · rw [if_neg hhidden, if_neg hhidden]
    cases htext : progress.disk.pageAt roots.source files page with
    | ok text =>
        simp only [Job.run_cons, Job.run_nil, Job.act]
        exact Progress.writeOutput_put hne roots.out_ne_nil (hnamed.append roots.out_named)
    | error error => cases error <;> simp only [Job.run_nil, Progress.disk_note]

theorem entry_rebuild (watcher : SourceWatcher) (reason : RebuildReason) (content : ContentFile)
    (progress : Progress) :
    (watcher.rebuild reason content progress).1.entry = (content.relative, reason) := by
  unfold rebuild
  split <;> rfl

theorem file_rebuild (watcher : SourceWatcher) (reason : RebuildReason) (content : ContentFile)
    (progress : Progress) : (watcher.rebuild reason content progress).1.file = content.relative :=
  congrArg Prod.fst (watcher.entry_rebuild reason content progress)

theorem rebuildEach_entries (watcher : SourceWatcher) (reason : RebuildReason)
    (activity : Option (String → Activity)) (contents : List ContentFile) (progress : Progress) :
    (watcher.rebuildEach reason activity contents progress).1.map Rebuild.entry =
      contents.map fun content => (content.relative, reason) := by
  induction contents generalizing progress with
  | nil => rfl
  | cons content rest ih => rw [rebuildEach, List.map_cons, List.map_cons, ih, entry_rebuild]

theorem rebuildEach_files (watcher : SourceWatcher) (reason : RebuildReason)
    (activity : Option (String → Activity)) (contents : List ContentFile) (progress : Progress) :
    (watcher.rebuildEach reason activity contents progress).1.map Rebuild.file =
      contents.map ContentFile.relative := by
  have hentries := watcher.rebuildEach_entries reason activity contents progress
  simpa [Rebuild.entry, Function.comp_def] using congrArg (List.map Prod.fst) hentries

theorem rebuildEach_run {contents : List ContentFile}
    (hsame : Disk.SameTrees roots disk progress.disk)
    (hfiles : files = disk.pagesBelow roots.source) (reason : RebuildReason)
    (activity : Option (String → Activity))
    (hcontents : ∀ content ∈ contents, content ∈ (SourceTree.below roots.source files).files) :
    ((knowing roots files).rebuildEach reason activity contents progress).2.disk.kind? =
      Job.run roots.out ((contents.map ContentFile.place).flatMap (disk.makes roots .source))
        progress.disk.kind? := by
  induction contents generalizing progress with
  | nil => rfl
  | cons content rest ih =>
      obtain ⟨index, page, hindex, rfl⟩ :=
        SourceTree.mem_files_below.1 (hcontents content List.mem_cons_self)
      have hplaces : SourceTree.Places files := hfiles ▸ disk.places_pagesBelow roots.source
      have hnamed := (hplaces.2 page (List.mem_of_getElem? hindex)).2
      have hdisk := progress.disk_announceAs activity
        (linked roots.source files index page).relative
      rw [rebuildEach, List.map_cons, List.flatMap_cons, SourceTree.place_linked hnamed,
        Job.run_append]
      generalize progress.announceAs activity (linked roots.source files index page).relative =
        announced at hdisk ⊢
      rw [← hdisk] at hsame ⊢
      have hfirst := rebuild_exact hsame hfiles hindex reason
      dsimp only
      rw [ih (hsame.of_run hfirst) fun other hmem => hcontents other (List.mem_cons_of_mem _ hmem),
        hfirst]

-- Files of the tree, built one after another.
theorem rebuildEach_exact {contents : List ContentFile}
    (hsame : Disk.SameTrees roots disk progress.disk)
    (hfiles : files = disk.pagesBelow roots.source) (reason : RebuildReason)
    (activity : Option (String → Activity))
    (hcontents : ∀ content ∈ contents, content ∈ (SourceTree.below roots.source files).files) :
    ((knowing roots files).rebuildEach reason activity contents progress).1.map Rebuild.file =
        (contents.map ContentFile.place).map Location.relative ∧
      ((knowing roots files).rebuildEach reason activity contents progress).2.disk.kind? =
        Job.run roots.out ((contents.map ContentFile.place).flatMap (disk.makes roots .source))
          progress.disk.kind? := by
  have hplaces : SourceTree.Places files := hfiles ▸ disk.places_pagesBelow roots.source
  exact ⟨(rebuildEach_files _ reason activity contents progress).trans
    (SourceTree.map_relative_place _ hplaces hcontents).symm,
      rebuildEach_run hsame hfiles reason activity hcontents⟩

end SourceWatcher

namespace StaticWatcher

open Disk (assetAt)

variable {roots : Roots} {disk : Disk} {progress : Progress} {places : List Location}

theorem rebuildEach_files (watcher : StaticWatcher) (reason : RebuildReason)
    (activity : Option (String → Activity)) (files : List StaticFile) (progress : Progress) :
    (watcher.rebuildEach reason activity files progress).1.map Rebuild.file =
      files.map StaticFile.relative := by
  induction files generalizing progress with
  | nil => rfl
  | cons file rest ih => rw [rebuildEach, List.map_cons, List.map_cons, ih]

theorem rebuildEach_run {watcher : StaticWatcher} (hout : watcher.out = roots.out.path)
    (hsame : Disk.SameTrees roots disk progress.disk) (reason : RebuildReason)
    (activity : Option (String → Activity))
    (hplaces : ∀ file ∈ places, file ∈ disk.listed roots.assets) :
    (watcher.rebuildEach reason activity (places.map (assetAt roots.assets)) progress).2.disk.kind? =
      Job.run roots.out (places.flatMap (disk.makes roots .static)) progress.disk.kind? := by
  induction places generalizing progress with
  | nil => rfl
  | cons file rest ih =>
      have hmem := hplaces file List.mem_cons_self
      obtain ⟨hne, hfollow, hsome⟩ := Disk.mem_listed.1 hmem
      obtain ⟨content, hcontent⟩ := Option.isSome_iff_exists.1 hsome
      have hnamed := Disk.named_of_mem_listed hmem
      have hdisk := progress.disk_announceAs activity (assetAt roots.assets file).relative
      rw [List.map_cons, rebuildEach, List.flatMap_cons, Job.run_append]
      generalize progress.announceAs activity (assetAt roots.assets file).relative = announced
        at hdisk ⊢
      rw [← hdisk] at hsame ⊢
      have hthere : announced.disk.file? (file ++ roots.assets) = some content := by
        rw [← hsame.agree.assets, hcontent]
      have hfirst : (announced.buildAsset (assetAt roots.assets file) watcher.out).2.disk.kind? =
          Job.run roots.out (disk.makes roots .static file) announced.disk.kind? := by
        have hisFile : announced.disk.isFile (Location.path (file ++ roots.assets)) = true :=
          (Disk.isFile_path hnamed).2 ⟨hfollow, by rw [hthere]; rfl⟩
        have hapart : file ++ roots.assets ≠ file ++ roots.out := fun heq =>
          roots.not_within_out_assets file (heq ▸ Disk.within_append _ _)
        rw [hout, Progress.buildAsset_assetAt roots announced hne hnamed.of_append_left,
          if_pos hisFile, Disk.makes, hcontent]
        exact Progress.copyOutput_put hne roots.out_ne_nil
          (hnamed.of_append_left.append roots.out_named) hfollow hthere hapart
      dsimp only
      rw [ih (hsame.of_run hfirst) fun other hother => hplaces other (List.mem_cons_of_mem _ hother),
        hfirst]

-- Assets, copied one after another.
theorem rebuildEach_exact {watcher : StaticWatcher} (hout : watcher.out = roots.out.path)
    (hsame : Disk.SameTrees roots disk progress.disk) (reason : RebuildReason)
    (activity : Option (String → Activity))
    (hplaces : ∀ file ∈ places, file ∈ disk.listed roots.assets) :
    (watcher.rebuildEach reason activity (places.map (assetAt roots.assets)) progress).1.map
        Rebuild.file = places.map Location.relative ∧
      (watcher.rebuildEach reason activity (places.map (assetAt roots.assets))
        progress).2.disk.kind? =
          Job.run roots.out (places.flatMap (disk.makes roots .static)) progress.disk.kind? := by
  refine ⟨?_, rebuildEach_run hout hsame reason activity hplaces⟩
  rw [rebuildEach_files, List.map_map]
  rfl

end StaticWatcher

end StaticSite
