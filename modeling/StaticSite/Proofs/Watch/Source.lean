import StaticSite.Proofs.Build.Works
import StaticSite.Proofs.Tree.Dependents
import StaticSite.Watch.Source

-- What the source watcher does to the output when it handles an event.
namespace StaticSite.SourceWatcher

open Disk (within Works)
open SourceTree (linked)

variable {roots : Roots} {progress : Progress} {files : List Location} {page : Location}

-- The watcher that knows the files at places below the root.
def knowing (roots : Roots) (files : List Location) : SourceWatcher :=
  ⟨roots.source.path, roots.out.path, .below roots.source files⟩

theorem files_knowing (roots : Roots) (files : List Location) :
    (knowing roots files).files = .below roots.source files := rfl

-- The places of some of the files that have a page.
def placesOf (roots : Roots) (files : List Location) (contents : List ContentFile)
    (place : Location) : Prop :=
  place.isHidden = false ∧ ∃ index, files[index]? = some place ∧
    linked roots.source files index place ∈ contents

theorem rebuild_works (hfiles : files = progress.disk.pagesBelow roots.source)
    (hdistinct : progress.disk.Distinct roots) {index : Nat} (hindex : files[index]? = some page)
    (reason : RebuildReason)
    (hok : ((knowing roots files).rebuild reason (linked roots.source files index page)
      progress).1.outcome.isFailed = false) :
    Works roots (fun place => place.isHidden = false ∧ place = page) (fun _ => False) progress.disk
      ((knowing roots files).rebuild reason (linked roots.source files index page) progress).2.disk := by
  have hplaces : SourceTree.Places files := hfiles ▸ progress.disk.places_pagesBelow roots.source
  have hmem := List.mem_of_getElem? hindex
  obtain ⟨hne, hnamed⟩ := hplaces.2 page hmem
  have hbuild := Progress.buildContent_linked roots progress hplaces hindex
  have hover : progress.buildContent (knowing roots files).files
      (linked roots.source files index page) (knowing roots files).out = _ := hbuild
  unfold rebuild at hok ⊢
  rw [hover] at hok ⊢
  by_cases hhidden : page.isHidden
  · rw [if_pos hhidden]
    refine (Works.refl roots progress.disk).congr (fun place => ?_) fun _ => Iff.rfl
    constructor
    · exact False.elim
    · rintro ⟨hshown, rfl⟩
      simp [hhidden] at hshown
  · have hhidden := Bool.eq_false_iff.2 hhidden
    rw [if_neg (by simp [hhidden])] at hok ⊢
    cases hpage : progress.disk.pageAt roots.source files page with
    | error error =>
        rw [hpage] at hok
        cases error <;> cases hok
    | ok text =>
        rw [hpage] at hok
        dsimp only at hok ⊢
        have hsets := Progress.writeOutput_sets hne roots.out_ne_nil
          (hnamed.append roots.out_named) hok
        generalize (progress.writeOutput (Location.path (page ++ roots.out))
          (String.ofList text).toUTF8).2.disk = next at hsets ⊢
        have hagree := hsets.agree
        have hshows : next.Shows roots page := by
          refine ⟨text, ?_, by rw [hsets.file?, if_pos rfl]⟩
          rw [← hagree.pageAt_eq (hfiles ▸ hmem), ← hfiles, hpage]
        have hfresh := Disk.fresh_of_shows (hagree.distinct hdistinct)
          (hagree.public_iff.1 ⟨hfiles ▸ hmem, hhidden⟩) hshows
        refine (hsets.works_made hfresh).congr (fun place => ?_) fun _ => Iff.rfl
        constructor
        · rintro rfl
          exact ⟨hhidden, rfl⟩
        · exact And.right

-- Files of the tree, built one after another.
theorem rebuildEach_works {contents : List ContentFile}
    (hfiles : files = progress.disk.pagesBelow roots.source)
    (hdistinct : progress.disk.Distinct roots) (reason : RebuildReason)
    (activity : Option (String → Activity))
    (hcontents : ∀ content ∈ contents, content ∈ (SourceTree.below roots.source files).files)
    (hok : ∀ rebuild ∈ ((knowing roots files).rebuildEach reason activity contents progress).1,
      rebuild.outcome.isFailed = false) :
    Works roots (placesOf roots files contents) (fun _ => False) progress.disk
      ((knowing roots files).rebuildEach reason activity contents progress).2.disk := by
  induction contents generalizing progress with
  | nil =>
      rw [rebuildEach]
      refine (Works.refl roots progress.disk).congr (fun place => ?_) fun _ => Iff.rfl
      simp [placesOf]
  | cons content rest ih =>
      obtain ⟨index, page, hindex, rfl⟩ :=
        SourceTree.mem_files_below.1 (hcontents content List.mem_cons_self)
      rw [rebuildEach] at hok ⊢
      dsimp only at hok ⊢
      have hdisk := progress.disk_announceAs activity
        (linked roots.source files index page).relative
      generalize progress.announceAs activity (linked roots.source files index page).relative =
        announced at hdisk hok ⊢
      rw [← hdisk] at hfiles hdistinct ⊢
      have hfirst := rebuild_works hfiles hdistinct hindex reason
        (hok _ List.mem_cons_self)
      have hrest := ih (hfiles.trans hfirst.agree.pagesBelow_eq) (hfirst.agree.distinct hdistinct)
        (fun other hmem => hcontents other (List.mem_cons_of_mem _ hmem))
        fun rebuild hmem => hok rebuild (List.mem_cons_of_mem _ hmem)
      refine (hfirst.trans hrest).congr (fun place => ?_) fun _ => Iff.rfl
      constructor
      · rintro (⟨hshown, rfl⟩ | ⟨hshown, other, hother, hmem⟩)
        · exact ⟨hshown, index, hindex, List.mem_cons_self⟩
        · exact ⟨hshown, other, hother, List.mem_cons_of_mem _ hmem⟩
      · rintro ⟨hshown, other, hother, hmem⟩
        rcases List.mem_cons.1 hmem with heq | hmem
        · exact .inl ⟨hshown, SourceTree.eq_of_linked_eq
            (hfiles ▸ announced.disk.places_pagesBelow roots.source)
            (List.mem_of_getElem? hother) (List.mem_of_getElem? hindex) heq⟩
        · exact .inr ⟨hshown, other, hother, hmem⟩

theorem placesOf_iff {contents : List ContentFile} {chosen : Location → Prop}
    (h : ∀ index place, files[index]? = some place →
      (linked roots.source files index place ∈ contents ↔ chosen place)) (place : Location) :
    placesOf roots files contents place ↔
      (place ∈ files ∧ place.isHidden = false) ∧ chosen place := by
  constructor
  · rintro ⟨hshown, index, hindex, hmem⟩
    exact ⟨⟨List.mem_of_getElem? hindex, hshown⟩, (h index place hindex).1 hmem⟩
  · rintro ⟨⟨hmem, hshown⟩, hchosen⟩
    obtain ⟨index, hindex⟩ := List.getElem?_of_mem hmem
    exact ⟨hshown, index, hindex, (h index place hindex).2 hchosen⟩

theorem mem_dependents_below (hplaces : SourceTree.Places files) {index : Nat}
    (hindex : files[index]? = some page) {other : Nat} {place : Location}
    (hother : files[other]? = some place) :
    linked roots.source files other place ∈
        ((SourceTree.below roots.source files).dependents index).filterMap
          ((SourceTree.below roots.source files).files[·]?) ↔ page.wraps place = true := by
  have hmarked := SourceTree.marked_below roots.source files
  rw [List.mem_filterMap]
  constructor
  · rintro ⟨found, hfound, heq⟩
    obtain ⟨file, hfile⟩ := hmarked.lt_of_mem_dependents hfound
    rw [SourceTree.getElem?_below, hfile, Option.map_some, Option.some.injEq] at heq
    have hsame := SourceTree.eq_of_linked_eq hplaces (List.mem_of_getElem? hfile)
      (List.mem_of_getElem? hother) heq
    subst hsame
    exact (hmarked.mem_dependents hplaces hindex hfile).1 hfound
  · intro hwraps
    exact ⟨other, (hmarked.mem_dependents hplaces hindex hother).2 hwraps, by
      rw [SourceTree.getElem?_below, hother, Option.map_some]⟩

theorem rescan_knowing (roots : Roots) (files : List Location) (progress : Progress) :
    (knowing roots files).rescan progress =
      (.ok (knowing roots (progress.disk.pagesBelow roots.source)),
        progress.note (.rescanning roots.source.path)) := by
  have hscan : progress.disk.scanSource (knowing roots files).root =
      .ok (.below roots.source (progress.disk.pagesBelow roots.source)) :=
    Disk.scanSource_path roots.source_keeps
  rw [rescan, open?, hscan]
  rfl

-- The files that two runs of builds make.
theorem rebuildEach_append {first second : List ContentFile}
    (hfiles : files = progress.disk.pagesBelow roots.source)
    (hdistinct : progress.disk.Distinct roots) {reason reason' : RebuildReason}
    {activity activity' : Option (String → Activity)}
    (hfirst : ∀ content ∈ first, content ∈ (SourceTree.below roots.source files).files)
    (hsecond : ∀ content ∈ second, content ∈ (SourceTree.below roots.source files).files)
    {middle last : List Rebuild × Progress}
    (hmiddle : (knowing roots files).rebuildEach reason activity first progress = middle)
    (hlast : (knowing roots files).rebuildEach reason' activity' second middle.2 = last)
    (hok : ∀ rebuild ∈ middle.1 ++ last.1, rebuild.outcome.isFailed = false) :
    Works roots (fun place => placesOf roots files first place ∨ placesOf roots files second place)
      (fun _ => False) progress.disk last.2.disk := by
  subst hmiddle hlast
  have hworks := rebuildEach_works hfiles hdistinct reason activity hfirst
    fun rebuild hmem => hok rebuild (List.mem_append_left _ hmem)
  exact hworks.trans (rebuildEach_works (hfiles.trans hworks.agree.pagesBelow_eq)
    (hworks.agree.distinct hdistinct) reason' activity' hsecond
    fun rebuild hmem => hok rebuild (List.mem_append_right _ hmem))

-- A changed file is built, with those that depend on it.
theorem update_knowing (files : List Location) (hdistinct : progress.disk.Distinct roots)
    (hmem : page ∈ progress.disk.pagesBelow roots.source) :
    ∃ rebuilds next, (knowing roots files).update (Location.path (page ++ roots.source)) progress =
        ⟨knowing roots (progress.disk.pagesBelow roots.source), next, .ok rebuilds⟩ ∧
      ((∀ rebuild ∈ rebuilds, rebuild.outcome.isFailed = false) →
        Works roots (fun place => progress.disk.Public roots place ∧
            (place = page ∨ page.wraps place = true)) (fun _ => False)
          progress.disk next.disk) := by
  obtain ⟨known, hknown⟩ : ∃ known, known = progress.disk.pagesBelow roots.source := ⟨_, rfl⟩
  have hplaces := progress.disk.places_pagesBelow roots.source
  rw [← hknown] at hplaces hmem
  obtain ⟨index, hfind, hindex⟩ := (SourceTree.marked_below roots.source known).findAbsolute?_path
    hplaces roots.source_keeps.2.1 hmem
  have hget := SourceTree.getElem?_below roots.source known index
  rw [hindex, Option.map_some] at hget
  unfold update
  rw [rescan_knowing, ← hknown]
  dsimp only
  rw [files_knowing, hfind]
  dsimp only
  refine ⟨_, _, rfl, fun hok => ?_⟩
  have hfirst : ∀ content ∈ (SourceTree.below roots.source known).files[index]?.toList,
      content ∈ (SourceTree.below roots.source known).files :=
    fun content hcontent => List.mem_of_getElem? (Option.mem_toList.1 hcontent)
  have hsecond : ∀ content ∈ ((SourceTree.below roots.source known).dependents index).filterMap
      ((SourceTree.below roots.source known).files[·]?),
        content ∈ (SourceTree.below roots.source known).files := by
    intro content hcontent
    obtain ⟨other, -, hother⟩ := List.mem_filterMap.1 hcontent
    exact List.mem_of_getElem? hother
  have hnoted : known =
      (progress.note (.rescanning roots.source.path)).disk.pagesBelow roots.source := hknown
  have hworks := rebuildEach_append hnoted hdistinct hfirst hsecond rfl rfl hok
  have hsingle : ∀ (other : Nat) (place : Location), known[other]? = some place →
      (linked roots.source known other place ∈
        (SourceTree.below roots.source known).files[index]?.toList ↔ place = page) := by
    intro other place hother
    rw [hget, Option.toList_some, List.mem_singleton]
    constructor
    · exact SourceTree.eq_of_linked_eq hplaces (List.mem_of_getElem? hother) hmem
    · rintro rfl
      obtain ⟨hlt, heq⟩ := List.getElem?_eq_some_iff.1 hother
      obtain ⟨hlt', heq'⟩ := List.getElem?_eq_some_iff.1 hindex
      rw [hplaces.1.getElem_inj_iff.1 (heq.trans heq'.symm)]
  refine hworks.congr (fun place => ?_) fun _ => Iff.rfl
  rw [placesOf_iff hsingle, placesOf_iff fun other place hother =>
    mem_dependents_below hplaces hindex hother, ← and_or_left, Disk.Public, hknown]

-- The files below a directory are built.
theorem addDirectory_knowing (files : List Location) (hdistinct : progress.disk.Distinct roots)
    {directory : Location} (hdirectory : Location.Named (directory ++ roots.source)) :
    ∃ rebuilds next, (knowing roots files).addDirectory
        (Location.path (directory ++ roots.source)) progress =
          ⟨knowing roots (progress.disk.pagesBelow roots.source), next, .ok rebuilds⟩ ∧
      ((∀ rebuild ∈ rebuilds, rebuild.outcome.isFailed = false) →
        Works roots (fun place => progress.disk.Public roots place ∧
            within directory place = true) (fun _ => False)
          progress.disk next.disk) := by
  obtain ⟨known, hknown⟩ : ∃ known, known = progress.disk.pagesBelow roots.source := ⟨_, rfl⟩
  have hplaces := progress.disk.places_pagesBelow roots.source
  rw [← hknown] at hplaces
  unfold addDirectory
  rw [rescan_knowing, ← hknown]
  dsimp only
  rw [files_knowing]
  refine ⟨_, _, rfl, fun hok => ?_⟩
  have hnoted : known =
      (progress.note (.rescanning roots.source.path)).disk.pagesBelow roots.source := hknown
  have hworks := rebuildEach_works hnoted hdistinct .changed (some .updatingSource)
    (fun content hcontent => List.mem_of_mem_filter hcontent) hok
  refine hworks.congr (fun place => ?_) fun _ => Iff.rfl
  have hbelow : ∀ (other : Nat) (place : Location), known[other]? = some place →
      (linked roots.source known other place ∈
        (SourceTree.below roots.source known).files.filter
          (·.absolute.startsWith (Location.path (directory ++ roots.source))) ↔
        within directory place = true) := by
    intro other place hother
    have hnamed := (hplaces.2 place (List.mem_of_getElem? hother)).2.append roots.source_keeps.2.1
    rw [List.mem_filter, and_iff_right (SourceTree.mem_files_below.2 ⟨other, place, hother, rfl⟩)]
    exact (Location.startsWith_path_iff hnamed hdirectory).trans Disk.within_append_right_iff
  rw [placesOf_iff hbelow, Disk.Public, hknown]

theorem knownUnder_knowing (hplaces : SourceTree.Places files) {directory : Location}
    (hdirectory : Location.Named (directory ++ roots.source)) :
    (knowing roots files).knownUnder (Location.path (directory ++ roots.source)) =
      (files.filter (within directory ·)).map fun file => Location.path (file ++ roots.source) := by
  have habsolute : (SourceTree.below roots.source files).files.map (·.absolute) =
      files.map fun file => Location.path (file ++ roots.source) := by
    refine List.ext_getElem? fun index => ?_
    rw [List.getElem?_map, SourceTree.getElem?_below, Option.map_map, List.getElem?_map]
    rfl
  rw [knownUnder, files_knowing, habsolute, List.filter_map]
  congr 1
  refine List.filter_congr fun file hmem => ?_
  have hnamed := (hplaces.2 file hmem).2.append roots.source_keeps.2.1
  rw [Bool.eq_iff_iff]
  exact (Location.startsWith_path_iff hnamed hdirectory).trans Disk.within_append_right_iff

-- A file that is marked as deleted loses its page.
theorem rebuild_deleted_works {watcher : SourceWatcher} (hout : watcher.out = roots.out.path)
    (hne : page ≠ []) (hnamed : page.Named) (htidy : progress.disk.Tidy roots.out)
    (reason : RebuildReason) (index : Nat) :
    Works roots (fun _ => False) (fun place => place.isHidden = false ∧ place = page)
      progress.disk (watcher.rebuild reason
        ((linked roots.source files index page).flagged true) progress).2.disk := by
  have hbuild := @Progress.buildContent_deleted page files roots progress watcher.files hne hnamed
    index
  unfold rebuild
  rw [hout, hbuild]
  by_cases hhidden : page.isHidden
  · rw [if_pos hhidden]
    refine (Works.refl roots progress.disk).congr (fun _ => Iff.rfl) fun place => ?_
    constructor
    · exact False.elim
    · rintro ⟨hshown, rfl⟩
      simp [hhidden] at hshown
  · rw [if_neg hhidden]
    refine (Progress.removeOutput_works hne hnamed htidy).congr (fun _ => Iff.rfl) fun place => ?_
    constructor
    · rintro rfl
      exact ⟨Bool.eq_false_iff.2 hhidden, rfl⟩
    · exact And.right

theorem rebuildEach_singleton (watcher : SourceWatcher) (reason : RebuildReason)
    (activity : Option (String → Activity)) (content : ContentFile) (progress : Progress) :
    watcher.rebuildEach reason activity [content] progress =
      ([(watcher.rebuild reason content (progress.announceAs activity content.relative)).1],
        (watcher.rebuild reason content (progress.announceAs activity content.relative)).2) :=
  rfl

-- Known files lose their pages, and the files that depend on them are remembered.
theorem removeEach_works {watcher : SourceWatcher} (hplaces : SourceTree.Places files)
    (hmarked : watcher.files.Marked roots.source files) (hroot : watcher.root = roots.source.path)
    (hout : watcher.out = roots.out.path) (htidy : progress.disk.Tidy roots.out)
    {gone : List Location} (hgone : ∀ file ∈ gone, file ∈ files) :
    ∃ last next rebuilds dependents, watcher.removeEach progress
        (gone.map fun file => Location.path (file ++ roots.source)) =
          (⟨last, next, .ok rebuilds⟩, dependents) ∧
      last.root = roots.source.path ∧ last.out = roots.out.path ∧
      Works roots (fun _ => False) (fun place => place.isHidden = false ∧ place ∈ gone)
        progress.disk next.disk ∧
      ∀ relative, relative ∈ dependents ↔ ∃ file ∈ gone, ∃ page ∈ files,
        file.wraps page = true ∧ relative = (Disk.foundAt roots.source page).relative := by
  induction gone generalizing watcher progress with
  | nil =>
      refine ⟨watcher, progress, [], [], rfl, hroot, hout, ?_, by simp⟩
      exact (Works.refl roots progress.disk).congr (fun _ => Iff.rfl) (by simp)
  | cons file rest ih =>
      have hmem := hgone file List.mem_cons_self
      obtain ⟨hne, hnamed⟩ := hplaces.2 file hmem
      obtain ⟨index, hfind, hindex⟩ :=
        hmarked.findAbsolute?_path hplaces roots.source_keeps.2.1 hmem
      have hget := hmarked.getElem?_markDeleted hindex
      have hnext := hmarked.markDeleted index
      rw [List.map_cons, removeEach, hfind]
      dsimp only
      rw [hget, Option.toList_some, rebuildEach_singleton]
      dsimp only
      have hfirst := @rebuild_deleted_works roots
        (progress.announceAs (some .deletingSource)
          ((linked roots.source files index file).flagged true).relative) files file
        { watcher with files := watcher.files.markDeleted index } hout hne hnamed
        (by simpa using htidy) .deleted index
      rw [Progress.disk_announceAs] at hfirst
      have hsmaller := @ih _ { watcher with files := watcher.files.markDeleted index } hnext hroot
        hout (hfirst.tidy htidy) fun other hother => hgone other (List.mem_cons_of_mem _ hother)
      obtain ⟨last, next, rebuilds, dependents, hremove, hlastRoot, hlastOut, hworks,
        hdependents⟩ := hsmaller
      rw [hremove]
      refine ⟨last, next, _, _, rfl, hlastRoot, hlastOut, ?_, fun relative => ?_⟩
      · refine (hfirst.trans_gone hworks).congr (fun _ => Iff.rfl) fun place => ?_
        rw [List.mem_cons, ← and_or_left]
      · rw [List.mem_append, hdependents,
          hnext.mem_dependentPaths hplaces roots.source_keeps.2.1 hmem, List.exists_mem_cons_iff]

-- The pages below a path that is gone are removed, and what depended on the files below it is
-- built without them.
theorem unlink_knowing (hplaces : SourceTree.Places files) (htidy : progress.disk.Tidy roots.out)
    (hdistinct : progress.disk.Distinct roots) {gone : List Location}
    (hgone : ∀ file ∈ gone, file ∈ files) :
    ∃ rebuilds next, (knowing roots files).unlink
        (gone.map fun file => Location.path (file ++ roots.source)) progress =
          ⟨knowing roots (progress.disk.pagesBelow roots.source), next, .ok rebuilds⟩ ∧
      ((∀ rebuild ∈ rebuilds, rebuild.outcome.isFailed = false) →
        Works roots (fun place => progress.disk.Public roots place ∧ place ∈ files ∧
            ∃ file ∈ gone, file.wraps place = true)
          (fun place => place.isHidden = false ∧ place ∈ gone) progress.disk next.disk) := by
  have hmarked := SourceTree.marked_below roots.source files
  obtain ⟨last, next, rebuilds, dependents, hremove, hroot, hout, hremoved, hdependents⟩ :=
    @removeEach_works roots progress files (knowing roots files) hplaces hmarked rfl rfl htidy gone
      hgone
  obtain ⟨known, hknown⟩ : ∃ known, known = next.disk.pagesBelow roots.source := ⟨_, rfl⟩
  have hsame := hremoved.agree.pagesBelow_eq
  rw [← hknown] at hsame
  have hrescan : last.rescan next = (.ok (knowing roots known),
      next.note (.rescanning roots.source.path)) := by
    have hover := rescan_knowing roots [] next
    rw [← hknown] at hover
    rw [← hover, rescan, rescan, hroot, hout]
    rfl
  unfold unlink
  rw [hremove]
  dsimp only
  rw [hrescan]
  dsimp only
  rw [files_knowing, hsame]
  refine ⟨_, _, rfl, fun hok => ?_⟩
  have hnoted : known = (next.note (.rescanning roots.source.path)).disk.pagesBelow
      roots.source := hknown
  have hmade := rebuildEach_works hnoted (hremoved.agree.distinct hdistinct) .dependent
    (some .updatingDependent) (fun content hcontent => List.mem_of_mem_filter hcontent)
    fun rebuild hmem => hok rebuild (List.mem_append_right _ hmem)
  have hleft : ∀ (index : Nat) (place : Location), known[index]? = some place →
      (linked roots.source known index place ∈ (SourceTree.below roots.source known).files.filter
        (fun file => dependents.contains file.relative) ↔
          place ∈ files ∧ ∃ file ∈ gone, file.wraps place = true) := by
    intro index place hindex
    obtain ⟨hne, hnamed⟩ := (hknown ▸ next.disk.places_pagesBelow roots.source).2 place
      (List.mem_of_getElem? hindex)
    rw [List.mem_filter, and_iff_right (SourceTree.mem_files_below.2 ⟨index, place, hindex, rfl⟩),
      List.contains_iff_mem, hdependents]
    constructor
    · rintro ⟨file, hfile, page, hpage, hwraps, hrelative⟩
      have hrelative : (Disk.foundAt roots.source place).relative =
          (Disk.foundAt roots.source page).relative := hrelative
      have heq :=
        (Disk.relative_foundAt_inj roots.source hnamed (hplaces.2 page hpage).2).1 hrelative
      exact heq ▸ ⟨hpage, file, hfile, hwraps⟩
    · rintro ⟨hmem, file, hfile, hwraps⟩
      exact ⟨file, hfile, place, hmem, hwraps, rfl⟩
  refine (hremoved.trans hmade).congr (fun place => ?_) fun _ => Iff.rfl
  rw [false_or, placesOf_iff hleft, Disk.Public, hsame]

end StaticSite.SourceWatcher
