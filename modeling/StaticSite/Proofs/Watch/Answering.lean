import StaticSite.Proofs.Watch.Answer

-- The watchers do what the answers to their events say.
namespace StaticSite

-- A watcher has done what an answer says: it knows the files, it has built in this order what it
-- had to build, and the output is as after the jobs.
def Answer.Gives {ω : Type} (disk : Disk) (roots : Roots) (tree : Tree) (answer : Answer)
    (progress : Progress) (watcher : ω) (reaction : Reaction ω) : Prop :=
  ∃ next rebuilds, reaction = ⟨watcher, next, (answer.result tree).map fun _ => rebuilds⟩ ∧
    rebuilds.map Rebuild.file = (answer.gone ++ answer.built).map Location.relative ∧
    next.disk.kind? = Job.run roots.out (answer.jobs disk roots tree) progress.disk.kind?

theorem Answer.Gives.idle {ω : Type} {roots : Roots} {progress next : Progress} (disk : Disk)
    (tree : Tree) (known : List Location) (watcher : ω) (hnext : next.disk = progress.disk) :
    (Answer.idle known).Gives disk roots tree progress watcher ⟨watcher, next, .ok []⟩ :=
  ⟨next, [], rfl, rfl, by rw [hnext]; rfl⟩

theorem Answer.Gives.receive {ω : Type} [Handler ω] {disk : Disk} {roots : Roots} {tree : Tree}
    {answer : Answer} {progress : Progress} {watcher next : ω} {event : Event}
    (h : answer.Gives disk roots tree progress next (Handler.handle watcher event progress)) :
    ∃ later, Handler.receive watcher event progress = (next, later, answer.result tree) ∧
      later.disk.kind? = Job.run roots.out (answer.jobs disk roots tree) progress.disk.kind? := by
  obtain ⟨later, rebuilds, hhandle, -, hdisk⟩ := h
  refine ⟨later, ?_, hdisk⟩
  rw [Handler.receive, hhandle, Answer.result]
  cases answer.untracked <;> rfl

-- What a watcher does with what has come.
theorem Watcher.handle_of_ne {ω : Type} [Watcher ω] (watcher : ω) {event : Event}
    (hkind : event.kind ≠ .unlink) (progress : Progress) :
    handle watcher event progress =
      if event.kind = .add ∧ progress.disk.isDirectory event.path.normalize ∧
          event.path.normalize.startsWith (root watcher) then
        addDirectory watcher event.path.normalize progress
      else if !accepts watcher event.path.normalize then ⟨watcher, progress, .ok []⟩
      else if !progress.disk.isFile event.path.normalize then
        ⟨watcher, progress.note (.vanished event.path.normalize), .ok []⟩
      else update watcher event.path.normalize progress := by
  unfold handle
  cases hchange : event.kind with
  | unlink => exact absurd hchange hkind
  | add | change => simp only [Bool.and_eq_true, decide_eq_true_iff]

-- A watcher that has done so for what is gone, for a directory and for a file, has done so for
-- every event.
theorem Watcher.handle_gives {ω : Type} [Watcher ω] (knowing : List Location → ω) {roots : Roots}
    {disk : Disk} {tree : Tree} {progress : Progress} {known : List Location}
    (hsame : Disk.SameTrees roots disk progress.disk)
    (hroot : root (knowing known) = (roots.tree tree).path)
    (haccepts : ∀ path, accepts (knowing known) path = roots.takesIn tree path)
    (hunder : ∀ path, knownUnder (knowing known) path = (known.filter
      (Disk.Covered roots tree path)).map fun file => Location.path (file ++ roots.tree tree))
    (hunlink : ∀ gone, (∀ file ∈ gone, file ∈ known) →
      (disk.answerGone roots tree known gone).Gives disk roots tree progress
        (knowing (disk.answerGone roots tree known gone).known) (unlink (knowing known)
          (gone.map fun file => Location.path (file ++ roots.tree tree)) progress))
    (hdirectory : ∀ path, (disk.answerDirectory roots tree path).Gives disk roots tree progress
      (knowing (disk.present roots tree)) (addDirectory (knowing known) path progress))
    (hfile : ∀ path, (disk.answerFile roots tree path).Gives disk roots tree progress
      (knowing (disk.answerFile roots tree path).known) (update (knowing known) path progress))
    (event : Event) :
    (disk.answer roots tree known event).Gives disk roots tree progress
      (knowing (disk.answer roots tree known event).known)
      (Handler.handle (knowing known) event progress) := by
  have hover : Handler.handle (knowing known) event progress =
    Watcher.handle (knowing known) event progress := rfl
  rw [hover]
  by_cases hkind : event.kind = .unlink
  · unfold handle Disk.answer
    dsimp only
    rw [hkind, if_pos rfl]
    dsimp only
    rw [hunder]
    split
    · next heq =>
      rw [heq]
      exact .idle disk tree known _ rfl
    · next hnone =>
      split
      · next heq => exact absurd (List.map_eq_nil_iff.1 heq) hnone
      · exact hunlink _ fun file hmem => List.mem_of_mem_filter hmem
  · rw [Watcher.handle_of_ne _ hkind, hroot, haccepts, Disk.answer_of_ne known hkind, Disk.answerCome]
    by_cases hstarts : event.path.normalize.startsWith (roots.tree tree).path = true
    · obtain ⟨place, hnamed, hpath⟩ := Path.exists_place (roots.tree_keeps tree).2.1 hstarts
      rw [hpath, hsame.isDirectory_eq hnamed, hsame.isFile_eq hnamed]
      split
      · exact hdirectory _
      · cases htakes : roots.takesIn tree (Location.path (place ++ roots.tree tree)) <;>
          cases hisFile : disk.isFile (Location.path (place ++ roots.tree tree))
        · exact .idle disk tree known _ rfl
        · exact .idle disk tree known _ rfl
        · exact .idle disk tree known _ rfl
        · exact hfile _
    · have htakes : roots.takesIn tree event.path.normalize = false := by
        cases tree <;> simp_all [Roots.takesIn]
      rw [htakes, if_neg fun h => hstarts h.2.2, if_neg fun h => Bool.false_ne_true h.1,
        if_neg fun h => hstarts h.2.2]
      exact .idle disk tree known _ rfl

theorem SourceTree.map_absolute_below (root : Location) (files : List Location) :
    (below root files).files.map (·.absolute) = files.map fun file => Location.path (file ++ root) := by
  refine List.ext_getElem? fun index => ?_
  rw [List.getElem?_map, getElem?_below, Option.map_map, List.getElem?_map]
  rfl

theorem SourceTree.findAbsolute?_below (root : Location) (files : List Location) (path : Path) :
    (below root files).findAbsolute? path =
      files.findIdx? fun file => (Location.path (file ++ root)).same path := by
  have hmap := congrArg (List.findIdx? (·.same path)) (map_absolute_below root files)
  rw [List.findIdx?_map, List.findIdx?_map] at hmap
  exact hmap

theorem SourceTree.mem_of_mem_filterMap {contents : List ContentFile} {indices : List Nat}
    {content : ContentFile} (h : content ∈ indices.filterMap (contents[·]?)) :
    content ∈ contents := by
  obtain ⟨index, -, hindex⟩ := List.mem_filterMap.1 h
  exact List.mem_of_getElem? hindex

namespace SourceWatcher

open SourceTree (linked)

variable {roots : Roots} {disk : Disk} {progress : Progress} {files : List Location}
  {page : Location} {path : Path}

theorem knownUnder_eq (roots : Roots) (files : List Location) (path : Path) :
    (knowing roots files).knownUnder path = (files.filter (Disk.Covered roots .source path)).map
      fun file => Location.path (file ++ roots.source) := by
  rw [knownUnder, files_knowing, SourceTree.map_absolute_below, List.filter_map]
  rfl

theorem rebuild_deleted_exact {watcher : SourceWatcher} (hout : watcher.out = roots.out.path)
    (hne : page ≠ []) (hnamed : page.Named) (reason : RebuildReason) (index : Nat) :
    (watcher.rebuild reason ((linked roots.source files index page).flagged true)
        progress).2.disk.kind? =
      Job.run roots.out (Disk.takes .source page) progress.disk.kind? := by
  have hbuild := @Progress.buildContent_deleted page files roots progress watcher.files hne hnamed
    index
  unfold rebuild
  rw [hout, hbuild, Disk.takes]
  by_cases hhidden : page.isHidden
  · simp only [if_pos hhidden, Job.run_nil]
  · rw [if_neg hhidden, if_neg hhidden]
    exact Progress.removeOutput_take hne (hnamed.append roots.out_named)

-- Known files lose their outputs, and the files that depend on them are remembered.
theorem removeEach_exact {watcher : SourceWatcher} (hplaces : SourceTree.Places files)
    (hmarked : watcher.files.Marked roots.source files) (hroot : watcher.root = roots.source.path)
    (hout : watcher.out = roots.out.path) {gone : List Location}
    (hgone : ∀ file ∈ gone, file ∈ files) :
    ∃ last next rebuilds dependents, watcher.removeEach progress
        (gone.map fun file => Location.path (file ++ roots.source)) =
          (⟨last, next, .ok rebuilds⟩, dependents) ∧
      last.root = roots.source.path ∧ last.out = roots.out.path ∧
      rebuilds.map Rebuild.file = gone.map Location.relative ∧
      next.disk.kind? = Job.run roots.out (gone.flatMap (Disk.takes .source)) progress.disk.kind? ∧
      ∀ relative, relative ∈ dependents ↔ ∃ file ∈ gone, ∃ page ∈ files,
        file.wraps page = true ∧ relative = page.relative := by
  induction gone generalizing watcher progress with
  | nil => exact ⟨watcher, progress, [], [], rfl, hroot, hout, rfl, rfl, by simp⟩
  | cons file rest ih =>
      have hmem := hgone file List.mem_cons_self
      obtain ⟨hne, hnamed⟩ := hplaces.2 file hmem
      obtain ⟨index, hfind, hindex⟩ :=
        hmarked.findAbsolute?_path hplaces roots.source_keeps.2.1 hmem
      have hget := hmarked.getElem?_markDeleted hindex
      have hnext := hmarked.markDeleted index
      rw [List.map_cons, removeEach, hfind]
      dsimp only
      rw [hget, Option.toList_some, rebuildEach_singleton]
      dsimp only
      have hfirst := @rebuild_deleted_exact roots
        (progress.announceAs (some .deletingSource)
          ((linked roots.source files index file).flagged true).relative) files file
        { watcher with files := watcher.files.markDeleted index } hout hne hnamed .deleted index
      rw [Progress.disk_announceAs] at hfirst
      obtain ⟨last, next, rebuilds, dependents, hremove, hlastRoot, hlastOut, hfiles, hdisk,
        hdependents⟩ := @ih _ { watcher with files := watcher.files.markDeleted index } hnext hroot
          hout fun other hother => hgone other (List.mem_cons_of_mem _ hother)
      rw [hremove]
      refine ⟨last, next, _, _, rfl, hlastRoot, hlastOut, ?_, ?_, fun relative => ?_⟩
      · rw [List.map_append, hfiles, List.map_cons, List.map_cons, List.map_nil, file_rebuild]
        rfl
      · rw [hdisk, hfirst, List.flatMap_cons, Job.run_append]
      · rw [List.mem_append, hdependents,
          hnext.mem_dependentPaths hplaces roots.source_keeps.2.1 hmem, List.exists_mem_cons_iff]
        rfl

-- What is gone loses its outputs, and what depended on it is built without it.
theorem unlink_gives (hplaces : SourceTree.Places files)
    (hsame : Disk.SameTrees roots disk progress.disk) {gone : List Location}
    (hgone : ∀ file ∈ gone, file ∈ files) :
    (disk.answerGone roots .source files gone).Gives disk roots .source progress
      (knowing roots (disk.present roots .source))
      ((knowing roots files).unlink (gone.map fun file => Location.path (file ++ roots.source))
        progress) := by
  obtain ⟨last, next, removed, dependents, hremove, hroot, hout, hfiles, hdisk, hdependents⟩ :=
    @removeEach_exact roots progress files (knowing roots files) hplaces
      (SourceTree.marked_below roots.source files) rfl rfl gone hgone
  have hnext : Disk.SameTrees roots disk next.disk := hsame.of_run hdisk
  obtain ⟨known, hknown⟩ : ∃ known, known = disk.present roots .source := ⟨_, rfl⟩
  have hthere : known = next.disk.pagesBelow roots.source := hknown.trans hnext.agree.pagesBelow_eq
  have hrescan : last.rescan next = (.ok (knowing roots known),
      next.note (.rescanning roots.source.path)) := by
    have hover := rescan_knowing roots [] next
    rw [← hthere] at hover
    rw [← hover, rescan, rescan, hroot, hout]
    rfl
  have hknownPlaces : SourceTree.Places known := hthere ▸ next.disk.places_pagesBelow roots.source
  have hleft : ((SourceTree.below roots.source known).files.filter
      fun file => dependents.contains file.relative).map ContentFile.place =
        known.filter fun page => files.contains page && gone.any (·.wraps page) := by
    refine SourceTree.map_place_filter hknownPlaces fun index page hindex => ?_
    have hnamed := (hknownPlaces.2 page (List.mem_of_getElem? hindex)).2
    rw [Bool.eq_iff_iff, List.contains_iff_mem, hdependents, Bool.and_eq_true, List.contains_iff_mem,
      List.any_eq_true]
    constructor
    · rintro ⟨file, hfile, other, hother, hwraps, hrelative⟩
      obtain rfl := Location.names_injective hnamed (hplaces.2 other hother).2 hrelative
      exact ⟨hother, file, hfile, hwraps⟩
    · rintro ⟨hmem, file, hfile, hwraps⟩
      exact ⟨file, hfile, page, hmem, hwraps, rfl⟩
  rw [Disk.answerGone, ← hknown, unlink, hremove]
  dsimp only
  rw [hrescan]
  dsimp only
  rw [files_knowing]
  generalize hchosen : (SourceTree.below roots.source known).files.filter
    (fun file => dependents.contains file.relative) = chosen at hleft ⊢
  have hbelow : ∀ content ∈ chosen, content ∈ (SourceTree.below roots.source known).files :=
    fun content hcontent => List.mem_of_mem_filter (hchosen ▸ hcontent)
  have hbuilt := @rebuildEach_exact roots disk (next.note (.rescanning roots.source.path)) known
    chosen hnext hknown .dependent (some .updatingDependent) hbelow
  refine ⟨_, _, rfl, ?_, ?_⟩
  · rw [List.map_append, hfiles, hbuilt.1, hleft, List.map_append]
  · rw [hbuilt.2, hleft, Progress.disk_note, hdisk, Answer.jobs, Job.run_append]

-- A file that has come is built, and then those that depend on it.
theorem update_gives (files : List Location) (hsame : Disk.SameTrees roots disk progress.disk)
    (path : Path) :
    (disk.answerFile roots .source path).Gives disk roots .source progress
      (knowing roots (disk.present roots .source)) ((knowing roots files).update path progress) := by
  obtain ⟨known, hknown⟩ : ∃ known, known = disk.present roots .source := ⟨_, rfl⟩
  have hthere : known = progress.disk.pagesBelow roots.source := hknown.trans hsame.agree.pagesBelow_eq
  have hplaces : SourceTree.Places known := hthere ▸ progress.disk.places_pagesBelow roots.source
  rw [update, rescan_knowing, ← hthere, Disk.answerFile, ← hknown, List.find?_eq_bind_findIdx?_getElem?]
  dsimp only [Roots.tree_source]
  rw [files_knowing, SourceTree.findAbsolute?_below]
  cases hindex : known.findIdx? fun file => (Location.path (file ++ roots.source)).same path with
  | none => exact ⟨_, [], rfl, rfl, rfl⟩
  | some index =>
      obtain ⟨hlt, -, -⟩ := List.findIdx?_eq_some_iff_getElem.1 hindex
      obtain ⟨place, hget⟩ : ∃ place, known[index]? = some place :=
        ⟨_, List.getElem?_eq_getElem hlt⟩
      have hfile := SourceTree.getElem?_below roots.source known index
      rw [hget, Option.map_some] at hfile
      have hsingle := List.forall_mem_singleton.2 (List.mem_of_getElem? hfile)
      have hdependents : ∀ content ∈ ((SourceTree.below roots.source known).dependents
          index).filterMap ((SourceTree.below roots.source known).files[·]?),
            content ∈ (SourceTree.below roots.source known).files :=
        fun content => SourceTree.mem_of_mem_filterMap
      have hwraps := SourceTree.map_place_dependents roots.source hplaces hget
      dsimp only
      rw [hfile, Option.toList_some]
      generalize ((SourceTree.below roots.source known).dependents index).filterMap
        ((SourceTree.below roots.source known).files[·]?) = chosen at hdependents hwraps ⊢
      have hfirst := @rebuildEach_exact roots disk (progress.note (.rescanning roots.source.path))
        known _ hsame hknown .changed (some .updatingSource) hsingle
      generalize (knowing roots known).rebuildEach .changed (some .updatingSource)
        [linked roots.source known index place]
          (progress.note (.rescanning roots.source.path)) = built at hfirst ⊢
      obtain ⟨hfiles, hdisk⟩ := hfirst
      obtain ⟨hfiles', hdisk'⟩ := @rebuildEach_exact roots disk built.2 known _
        (hsame.of_run hdisk) hknown .dependent (some .updatingDependent) hdependents
      rw [List.map_singleton,
        SourceTree.place_linked (hplaces.2 _ (List.mem_of_getElem? hget)).2] at hfiles hdisk
      rw [hwraps] at hfiles' hdisk'
      rw [Option.bind_some, hget]
      dsimp only
      rw [Disk.dependents, ← hknown]
      refine ⟨_, _, rfl, ?_, ?_⟩
      · rw [List.map_append, hfiles, hfiles', ← List.map_append]
        rfl
      · rw [hdisk', hdisk, ← Job.run_append, ← List.flatMap_append]
        rfl

-- What lies below a directory that has come is built.
theorem addDirectory_gives (files : List Location) (hsame : Disk.SameTrees roots disk progress.disk)
    (path : Path) :
    (disk.answerDirectory roots .source path).Gives disk roots .source progress
      (knowing roots (disk.present roots .source))
      ((knowing roots files).addDirectory path progress) := by
  obtain ⟨known, hknown⟩ : ∃ known, known = disk.present roots .source := ⟨_, rfl⟩
  have hthere : known = progress.disk.pagesBelow roots.source := hknown.trans hsame.agree.pagesBelow_eq
  have hplaces : SourceTree.Places known := hthere ▸ progress.disk.places_pagesBelow roots.source
  have hadded : ((SourceTree.below roots.source known).files.filter
      (·.absolute.startsWith path)).map ContentFile.place =
        known.filter (Disk.Covered roots .source path) :=
    SourceTree.map_place_filter hplaces fun _ _ _ => rfl
  rw [addDirectory, rescan_knowing, ← hthere, Disk.answerDirectory, ← hknown]
  dsimp only
  rw [files_knowing]
  obtain ⟨hfiles, hdisk⟩ := @rebuildEach_exact roots disk
    (progress.note (.rescanning roots.source.path)) known _ hsame hknown .changed
    (some .updatingSource) fun content hcontent => List.mem_of_mem_filter hcontent
  rw [hadded] at hfiles hdisk
  exact ⟨_, _, rfl, hfiles, hdisk⟩

-- What the source watcher does with an event.
theorem handle_gives (hplaces : SourceTree.Places files)
    (hsame : Disk.SameTrees roots disk progress.disk) (event : Event) :
    (disk.answer roots .source files event).Gives disk roots .source progress
      (knowing roots (disk.answer roots .source files event).known)
      (Handler.handle (knowing roots files) event progress) := by
  refine Watcher.handle_gives (knowing roots) hsame rfl (fun _ => rfl)
    (knownUnder_eq roots files) (fun gone hgone => unlink_gives hplaces hsame hgone)
    (addDirectory_gives files hsame) (fun path => ?_) event
  rw [(disk.answerFile_eq roots _ path).1]
  exact update_gives files hsame path

end SourceWatcher

namespace StaticWatcher

open Disk (assetAt)

variable {roots : Roots} {disk : Disk} {progress : Progress} {places gone lost : List Location}
  {path : Path}

theorem knownUnder_eq (roots : Roots) (places : List Location) (path : Path) :
    (knowing roots places).knownUnder path =
      (places.filter (Disk.Covered roots .static path)).map
        fun file => Location.path (file ++ roots.assets) := by
  have habsolute : (knowing roots places).files.map (·.absolute) =
      places.map fun file => Location.path (file ++ roots.assets) := by
    rw [knowing, List.map_map]
    rfl
  rw [knownUnder, habsolute, List.filter_map]
  rfl

-- Known assets lose their copies, and stay marked in the list.
theorem removeEach_exact (hnodup : places.Nodup)
    (hplaces : ∀ file ∈ places, file ≠ [] ∧ Location.Named (file ++ roots.assets))
    (hlost : ∀ file ∈ lost, file ∈ places) :
    ∃ next rebuilds, (marking roots places gone).removeEach progress
        (lost.map fun file => Location.path (file ++ roots.assets)) =
          ⟨marking roots places (lost.reverse ++ gone), next, .ok rebuilds⟩ ∧
      rebuilds.map Rebuild.file = lost.map Location.relative ∧
      next.disk.kind? = Job.run roots.out (lost.flatMap (Disk.takes .static)) progress.disk.kind? := by
  induction lost generalizing gone progress with
  | nil => exact ⟨progress, [], rfl, rfl, rfl⟩
  | cons file rest ih =>
      have hmem := hlost file List.mem_cons_self
      obtain ⟨hne, hnamed⟩ := hplaces file hmem
      obtain ⟨index, hfind, hindex⟩ :=
        @find?_marking roots places gone file (fun other hother => (hplaces other hother).2) hmem
      have hget : (marking roots places (file :: gone)).files[index]? =
          some ((assetAt roots.assets file).flagged true) := by
        rw [marking, List.getElem?_map, hindex]
        simp
      rw [List.map_cons, removeEach, hfind]
      dsimp only
      rw [markDeleted_marking hnodup hindex, hget, Option.toList_some, rebuildEach_singleton]
      dsimp only
      have hdisk := progress.disk_announceAs (some .deletingStatic)
        ((assetAt roots.assets file).flagged true).relative
      generalize progress.announceAs (some .deletingStatic)
        ((assetAt roots.assets file).flagged true).relative = announced at hdisk ⊢
      have hbuild := Progress.buildAsset_deleted roots announced hne hnamed.of_append_left
      rw [show (marking roots places (file :: gone)).out = roots.out.path from rfl, hbuild]
      have hfirst := @Progress.removeOutput_take announced _ roots.out hne
        (hnamed.of_append_left.append roots.out_named)
      obtain ⟨next, rebuilds, hremove, hfiles, hlast⟩ := @ih _ (file :: gone)
        fun other hother => hlost other (List.mem_cons_of_mem _ hother)
      rw [hremove]
      refine ⟨next, _, by rw [List.reverse_cons, List.append_assoc]; rfl, ?_, ?_⟩
      · rw [List.map_append, hfiles]
        rfl
      · rw [hlast, hfirst, hdisk]
        rfl

-- What is gone loses its copies, and nothing else is known of it.
theorem unlink_gives (hnodup : places.Nodup)
    (hplaces : ∀ file ∈ places, file ≠ [] ∧ Location.Named (file ++ roots.assets))
    (hlost : ∀ file ∈ lost, file ∈ places) :
    (disk.answerGone roots .static places lost).Gives disk roots .static progress
      (knowing roots (places.filter (!lost.contains ·)))
      ((knowing roots places).unlink (lost.map fun file => Location.path (file ++ roots.assets))
        progress) := by
  obtain ⟨next, rebuilds, hremove, hfiles, hdisk⟩ :=
    @removeEach_exact roots progress places [] lost hnodup hplaces hlost
  rw [marking_nil, List.append_nil] at hremove
  rw [unlink, hremove]
  dsimp only
  rw [filter_marking, show places.filter (· ∉ lost) = places.filter (!lost.contains ·) by simp]
  refine ⟨next, rebuilds, rfl, ?_, ?_⟩
  · rw [hfiles, Disk.answerGone, List.append_nil]
  · rw [hdisk, Answer.jobs, Disk.answerGone, List.flatMap_nil, List.append_nil]

-- A file that has come is copied.
theorem update_gives (places : List Location) (hsame : Disk.SameTrees roots disk progress.disk)
    (path : Path) :
    (disk.answerFile roots .static path).Gives disk roots .static progress
      (knowing roots (disk.present roots .static)) ((knowing roots places).update path progress) := by
  obtain ⟨known, hknown⟩ : ∃ known, known = disk.present roots .static := ⟨_, rfl⟩
  have hthere : known = progress.disk.listed roots.assets := hknown.trans hsame.agree.listed_eq
  have hfind : (knowing roots known).find? path =
      known.findIdx? fun file => (Location.path (file ++ roots.assets)).same path := by
    rw [find?, knowing, List.findIdx?_map]
    rfl
  rw [update, rescan_knowing _ rfl rfl, ← hthere, Disk.answerFile, ← hknown,
    List.find?_eq_bind_findIdx?_getElem?]
  dsimp only [Roots.tree_static]
  rw [hfind]
  cases hindex : known.findIdx? fun file => (Location.path (file ++ roots.assets)).same path with
  | none => exact ⟨_, [], rfl, rfl, rfl⟩
  | some index =>
      obtain ⟨hlt, -, -⟩ := List.findIdx?_eq_some_iff_getElem.1 hindex
      obtain ⟨place, hget⟩ : ∃ place, known[index]? = some place :=
        ⟨_, List.getElem?_eq_getElem hlt⟩
      have hfile : (knowing roots known).files[index]?.toList = [place].map (assetAt roots.assets) := by
        rw [knowing, List.getElem?_map, hget]
        rfl
      have hmem : place ∈ disk.listed roots.assets := by
        have hplace := List.mem_of_getElem? hget
        rw [hknown] at hplace
        exact hplace
      obtain ⟨hfiles, hdisk⟩ := @rebuildEach_exact roots disk
        (progress.note (.rescanning roots.assets.path)) [place] (knowing roots known) rfl hsame
        .changed (some .updatingStatic) fun file hfile => List.mem_singleton.1 hfile ▸ hmem
      rw [Option.bind_some, hget]
      dsimp only
      rw [hfile]
      exact ⟨_, _, rfl, hfiles, hdisk⟩

-- What lies below a directory that has come is copied.
theorem addDirectory_gives (places : List Location)
    (hsame : Disk.SameTrees roots disk progress.disk) (path : Path) :
    (disk.answerDirectory roots .static path).Gives disk roots .static progress
      (knowing roots (disk.present roots .static))
      ((knowing roots places).addDirectory path progress) := by
  obtain ⟨known, hknown⟩ : ∃ known, known = disk.present roots .static := ⟨_, rfl⟩
  have hthere : known = progress.disk.listed roots.assets := hknown.trans hsame.agree.listed_eq
  have hadded : (knowing roots known).files.filter (·.absolute.startsWith path) =
      (known.filter (Disk.Covered roots .static path)).map (assetAt roots.assets) := by
    rw [knowing, List.filter_map]
    rfl
  rw [addDirectory, rescan_knowing _ rfl rfl, ← hthere, Disk.answerDirectory, ← hknown]
  dsimp only
  rw [hadded]
  have hlisted : ∀ file ∈ known.filter (Disk.Covered roots .static path),
      file ∈ disk.listed roots.assets := fun file hfile => by
    have hmem := List.mem_of_mem_filter hfile
    rw [hknown] at hmem
    exact hmem
  obtain ⟨hfiles, hdisk⟩ := @rebuildEach_exact roots disk
    (progress.note (.rescanning roots.assets.path)) _ (knowing roots known) rfl hsame .changed
    (some .updatingStatic) hlisted
  exact ⟨_, _, rfl, hfiles, hdisk⟩

-- What the static watcher does with an event.
theorem handle_gives (hplaces : SourceTree.Places places)
    (hsame : Disk.SameTrees roots disk progress.disk) (event : Event) :
    (disk.answer roots .static places event).Gives disk roots .static progress
      (knowing roots (disk.answer roots .static places event).known)
      (Handler.handle (knowing roots places) event progress) := by
  have hnamed : ∀ file ∈ places, file ≠ [] ∧ Location.Named (file ++ roots.assets) :=
    fun file hmem => ⟨(hplaces.2 file hmem).1, (hplaces.2 file hmem).2.append roots.assets_keeps.2.1⟩
  refine Watcher.handle_gives (knowing roots) hsame rfl (fun _ => rfl)
    (knownUnder_eq roots places) (fun gone hgone => unlink_gives hplaces.1 hnamed hgone)
    (addDirectory_gives places hsame) (fun path => ?_) event
  rw [(disk.answerFile_eq roots _ path).1]
  exact update_gives places hsame path

end StaticWatcher

end StaticSite
