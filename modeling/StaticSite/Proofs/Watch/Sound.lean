import StaticSite.Proofs.Scan.Names
import StaticSite.Proofs.Tree.Dependencies
import StaticSite.Proofs.Watch.Recall

-- What a watcher knows of its files stays in order, whatever it is told and whatever happens to
-- the disk, as long as it can handle what it is told.
namespace StaticSite

-- An output that is removed is that of a file which has been told to be gone.
def Rebuild.Founded (gone : String → Prop) (rebuild : Rebuild) : Prop :=
  ∀ path, rebuild.outcome = .removed path → rebuild.reason = .deleted ∧ gone rebuild.file

-- What a watcher has come to by handling something, if it has been able to.
def Reaction.Sound {ω : Type} (good : ω → Prop) (gone : String → Prop) (reaction : Reaction ω) :
    Prop :=
  ∀ rebuilds, reaction.result = .ok rebuilds →
    good reaction.watcher ∧ ∀ rebuild ∈ rebuilds, rebuild.Founded gone

theorem Reaction.Sound.mono {ω : Type} {good : ω → Prop} {gone gone' : String → Prop}
    {reaction : Reaction ω} (h : reaction.Sound good gone) (hgone : ∀ file, gone file → gone' file) :
    reaction.Sound good gone' :=
  fun rebuilds hok => ⟨(h rebuilds hok).1, fun rebuild hmem path hpath =>
    ((h rebuilds hok).2 rebuild hmem path hpath).imp_right (hgone _)⟩

-- What is found in a list is in it, also if the list is read after a change that leaves the column.
theorem exists_of_findIdx? {α β : Type} {entries changed : List α} {column : α → β}
    {test : α → Bool} {index : Nat} {entry : α} (hsame : changed.map column = entries.map column)
    (hfind : entries.findIdx? test = some index) (hentry : changed[index]? = some entry) :
    ∃ origin ∈ entries, test origin = true ∧ column origin = column entry := by
  obtain ⟨hbound, htest, -⟩ := List.findIdx?_eq_some_iff_getElem.1 hfind
  have hcolumn := congrArg (·[index]?) hsame
  simp only [List.getElem?_map, hentry, List.getElem?_eq_getElem hbound, Option.map_some,
    Option.some.injEq] at hcolumn
  exact ⟨_, List.getElem_mem hbound, htest, hcolumn.symm⟩

theorem Path.startsWith_of_same {path other base : Path} (hsame : path.same other = true)
    (h : other.startsWith base = true) : path.startsWith base = true := by
  rw [Path.startsWith, of_decide_eq_true hsame]
  exact h

-- The root of a watcher is the path of a place, whatever is there.
def Path.IsPlace (path : Path) : Prop :=
  ∃ location : Location, location.Named ∧ path = location.path

namespace Progress

variable {progress : Progress}

theorem writeOutput_ne_removed (destination path : Path) (content : ByteArray) :
    (progress.writeOutput destination content).1 ≠ .removed path := by
  unfold writeOutput
  split <;> exact Outcome.noConfusion

theorem copyOutput_ne_removed (source destination path : Path) :
    (progress.copyOutput source destination).1 ≠ .removed path := by
  unfold copyOutput
  split <;> exact Outcome.noConfusion

-- Only the output of a file that is marked as deleted is removed.
theorem buildContent_ne_removed {file : ContentFile} (h : file.deleted = false) (tree : SourceTree)
    (out path : Path) : (progress.buildContent tree file out).1 ≠ .ok (.removed path) := by
  unfold buildContent
  simp only [h, Bool.false_eq_true, if_false]
  split
  · exact fun heq => nomatch heq
  · split
    · exact fun heq => writeOutput_ne_removed _ path _ (Except.ok.inj heq)
    · exact fun heq => nomatch heq
    · exact fun heq => nomatch heq

theorem buildAsset_ne_removed {file : StaticFile} (h : file.deleted = false) (out path : Path) :
    (progress.buildAsset file out).1 ≠ .removed path := by
  simp only [buildAsset, h, Bool.false_eq_true, if_false]
  split
  · exact copyOutput_ne_removed _ _ path
  · exact Outcome.noConfusion

end Progress

namespace Disk

variable {disk : Disk} {root : Path} {files : List FoundFile}

-- A file is read at the root followed by its name.
theorem absolute_eq_join (hroot : root.IsPlace) {pattern : String}
    (h : disk.scan root pattern = .ok files) :
    ∀ file ∈ files, file.absolute = root.join ⟨file.relative⟩ := by
  obtain ⟨location, hnamed, rfl⟩ := hroot
  intro file hmem
  obtain ⟨below, hbelow, -, hrelative, habsolute, hplace⟩ := scan_spec h hmem
  rw [Location.walk_path hnamed] at habsolute hplace
  rw [habsolute, hrelative, Location.join_names hplace hbelow]

theorem nodup_of_isPlace (hroot : root.IsPlace) {pattern : Glob.NamePattern}
    (h : disk.scan root pattern.text = .ok files) : (files.map FoundFile.relative).Nodup := by
  obtain ⟨location, -, rfl⟩ := hroot
  exact nodup_relatives (Location.isAbsolute_path location) h

end Disk

namespace SourceTree

theorem map_relative_ofFound (found : List FoundFile) :
    (ofFound found).files.map ContentFile.relative = found.map FoundFile.relative := by
  refine List.ext_getElem? fun index => ?_
  rw [List.getElem?_map, getElem?_ofFound, List.getElem?_map, Option.map_map]
  rfl

end SourceTree

namespace SourceWatcher

variable {watcher : SourceWatcher}

-- Files are known by different names, are read where their names lead from the root, and are still
-- there. What they depend on are other files of the tree.
structure Sound (watcher : SourceWatcher) : Prop where
  root : watcher.root.IsPlace
  distinct : (watcher.files.files.map ContentFile.relative).Nodup
  joined : ∀ file ∈ watcher.files.files, file.absolute = watcher.root.join ⟨file.relative⟩
  present : ∀ file ∈ watcher.files.files, file.deleted = false
  linked : watcher.files.Linked

-- A known file that is at one of the paths.
def KnowsAt (watcher : SourceWatcher) (paths : List Path) (relative : String) : Prop :=
  ∃ file ∈ watcher.files.files, file.relative = relative ∧
    ∃ path ∈ paths, file.absolute.same path = true

-- A known file that lies at or below a path.
def Knows (watcher : SourceWatcher) (path : Path) (relative : String) : Prop :=
  ∃ file ∈ watcher.files.files, file.relative = relative ∧ file.absolute.startsWith path = true

theorem sound_of_scan {disk : Disk} {root : Path} {tree : SourceTree} (hroot : root.IsPlace)
    (h : disk.scanSource root = .ok tree) (out : Path) : Sound ⟨root, out, tree⟩ := by
  obtain ⟨found, hscan, rfl⟩ := map_eq_ok.1 h
  refine ⟨hroot, ?_, fun file hmem => ?_, fun file hmem => ?_, SourceTree.linked_ofFound found⟩
  · rw [SourceTree.map_relative_ofFound]
    rw [show Disk.sourcePattern = Glob.NamePattern.pages.text by decide] at hscan
    exact Disk.nodup_of_isPlace hroot hscan
  · exact Disk.absolute_eq_join hroot hscan _ (SourceTree.mem_files_ofFound hmem).2
  · exact (SourceTree.mem_files_ofFound hmem).1

theorem sound_of_rescan (hroot : watcher.root.IsPlace) {progress later : Progress}
    {next : SourceWatcher} (h : watcher.rescan progress = (.ok next, later)) : next.Sound := by
  obtain ⟨hopen, -⟩ := Prod.mk.inj h
  obtain ⟨tree, hscan, rfl⟩ := Session.eq_of_open?_source hopen
  exact sound_of_scan hroot hscan watcher.out

theorem rebuild_founded {reason : RebuildReason} {file : ContentFile} {gone : String → Prop}
    (h : file.deleted = true → reason = .deleted ∧ gone file.relative) (progress : Progress) :
    (watcher.rebuild reason file progress).1.Founded gone := by
  intro path hpath
  obtain ⟨hfile, hreason⟩ := Prod.mk.inj (watcher.entry_rebuild reason file progress)
  rw [hfile, hreason]
  refine h ?_
  by_contra hpresent
  have hne := @Progress.buildContent_ne_removed progress file (Bool.eq_false_iff.2 hpresent)
    watcher.files watcher.out path
  unfold rebuild at hpath
  split at hpath
  · next heq =>
    rw [heq] at hne
    exact hne (congrArg Except.ok hpath)
  · cases hpath

theorem rebuildEach_founded {reason : RebuildReason} {files : List ContentFile}
    {gone : String → Prop}
    (h : ∀ file ∈ files, file.deleted = true → reason = .deleted ∧ gone file.relative)
    (activity : Option (String → Activity)) (progress : Progress) :
    ∀ rebuild ∈ (watcher.rebuildEach reason activity files progress).1, rebuild.Founded gone := by
  induction files generalizing progress with
  | nil => exact List.forall_mem_nil _
  | cons file rest ih =>
      rw [rebuildEach]
      exact List.forall_mem_cons.2 ⟨rebuild_founded (h file List.mem_cons_self) _,
        ih (fun other hother => h other (List.mem_cons_of_mem _ hother)) _⟩

-- Nothing is removed for files that are not marked.
theorem rebuildEach_of_present {reason : RebuildReason} {files : List ContentFile}
    (h : ∀ file ∈ files, file.deleted = false) (gone : String → Prop)
    (activity : Option (String → Activity)) (progress : Progress) :
    ∀ rebuild ∈ (watcher.rebuildEach reason activity files progress).1, rebuild.Founded gone :=
  rebuildEach_founded (fun file hmem hdeleted => nomatch (h file hmem).symm.trans hdeleted) _ _

theorem update_sound (h : watcher.Sound) (gone : String → Prop) (path : Path)
    (progress : Progress) : (watcher.update path progress).Sound Sound gone := by
  intro rebuilds hok
  unfold update at hok ⊢
  split at hok
  · cases hok
  · next next later heq =>
    have hnext := sound_of_rescan h.root heq
    split at hok
    · cases hok
    · next index _ =>
      cases hok
      refine ⟨hnext, fun rebuild hmem => ?_⟩
      rcases List.mem_append.1 hmem with hmem | hmem
      · refine rebuildEach_of_present (fun file hfile => ?_) gone _ _ rebuild hmem
        exact hnext.present file (List.mem_of_getElem? (Option.mem_toList.1 hfile))
      · refine rebuildEach_of_present (fun file hfile => ?_) gone _ _ rebuild hmem
        obtain ⟨other, -, hother⟩ := List.mem_filterMap.1 hfile
        exact hnext.present file (List.mem_of_getElem? hother)

theorem addDirectory_sound (h : watcher.Sound) (gone : String → Prop) (directory : Path)
    (progress : Progress) : (watcher.addDirectory directory progress).Sound Sound gone := by
  intro rebuilds hok
  unfold addDirectory at hok ⊢
  split at hok
  · cases hok
  · next next later heq =>
    have hnext := sound_of_rescan h.root heq
    cases hok
    exact ⟨hnext, rebuildEach_of_present (fun file hfile =>
      hnext.present file (List.mem_of_mem_filter hfile)) gone _ _⟩

-- Taking files out of the tree marks them, and nothing else.
theorem removeEach_root (paths : List Path) (progress : Progress) :
    (watcher.removeEach progress paths).1.watcher.root = watcher.root := by
  induction paths generalizing watcher progress with
  | nil => rfl
  | cons path rest ih =>
      rw [removeEach]
      split
      · rfl
      · exact ih _

-- The files that are removed are those at the paths.
theorem removeEach_founded {paths : List Path} {progress : Progress} {removed : List Rebuild}
    {gone : String → Prop}
    (hgone : ∀ entry ∈ watcher.files.files.map fun file => (file.relative, file.absolute),
      ∀ path ∈ paths, entry.2.same path = true → gone entry.1)
    (h : (watcher.removeEach progress paths).1.result = .ok removed) :
    ∀ rebuild ∈ removed, rebuild.Founded gone := by
  induction paths generalizing watcher progress removed with
  | nil =>
      cases h
      exact List.forall_mem_nil _
  | cons path rest ih =>
      rw [removeEach] at h
      split at h
      · cases h
      · next index hfind =>
        obtain ⟨others, hothers, rfl⟩ := map_eq_ok.1 h
        have hsame := @SourceTree.map_markDeleted _ (fun file => (file.relative, file.absolute))
          (fun _ => rfl) watcher.files index
        refine List.forall_mem_append.2 ⟨rebuildEach_founded (fun file hfile _ => ⟨rfl, ?_⟩) _ _,
          ih (fun entry hentry other hother => ?_) hothers⟩
        · obtain ⟨origin, horigin, hplace, hentry⟩ :=
            exists_of_findIdx? hsame hfind (Option.mem_toList.1 hfile)
          obtain ⟨hname, -⟩ := Prod.mk.inj hentry
          rw [← hname]
          exact hgone _ (List.mem_map_of_mem horigin) path List.mem_cons_self hplace
        · exact hgone entry (hsame ▸ hentry) other (List.mem_cons_of_mem _ hother)

theorem unlink_sound (h : watcher.Sound) (paths : List Path) (progress : Progress) :
    (watcher.unlink paths progress).Sound Sound (watcher.KnowsAt paths) := by
  have hroot := @removeEach_root watcher paths progress
  have hgone : ∀ entry ∈ watcher.files.files.map fun file => (file.relative, file.absolute),
      ∀ path ∈ paths, entry.2.same path = true → watcher.KnowsAt paths entry.1 := by
    intro entry hentry path hpath hsame
    obtain ⟨file, hfile, rfl⟩ := List.mem_map.1 hentry
    exact ⟨file, hfile, rfl, path, hpath, hsame⟩
  intro rebuilds hok
  unfold unlink at hok ⊢
  split at hok
  · cases hok
  · next marked later removed dependents heq =>
    have hremoved := removeEach_founded hgone (congrArg (·.1.result) heq)
    rw [heq] at hroot
    dsimp only at hroot
    split at hok
    · cases hok
    · next next last hscan =>
      have hnext := sound_of_rescan (hroot ▸ h.root) hscan
      cases hok
      exact ⟨hnext, List.forall_mem_append.2 ⟨hremoved, rebuildEach_of_present (fun file hfile =>
        hnext.present file (List.mem_of_mem_filter hfile)) _ _ _⟩⟩

end SourceWatcher

namespace StaticWatcher

variable {watcher : StaticWatcher}

structure Sound (watcher : StaticWatcher) : Prop where
  root : watcher.root.IsPlace
  distinct : (watcher.files.map StaticFile.relative).Nodup
  joined : ∀ file ∈ watcher.files, file.absolute = watcher.root.join ⟨file.relative⟩
  present : ∀ file ∈ watcher.files, file.deleted = false

def KnowsAt (watcher : StaticWatcher) (paths : List Path) (relative : String) : Prop :=
  ∃ file ∈ watcher.files, file.relative = relative ∧ ∃ path ∈ paths, file.absolute.same path = true

def Knows (watcher : StaticWatcher) (path : Path) (relative : String) : Prop :=
  ∃ file ∈ watcher.files, file.relative = relative ∧ file.absolute.startsWith path = true

theorem sound_of_scan {disk : Disk} {root : Path} {files : List StaticFile} (hroot : root.IsPlace)
    (h : disk.scanAssets root = .ok files) (out : Path) : Sound ⟨root, out, files⟩ := by
  obtain ⟨found, hscan, rfl⟩ := map_eq_ok.1 h
  refine ⟨hroot, ?_, fun file hmem => ?_, fun file hmem => ?_⟩
  · rw [List.map_map, show StaticFile.relative ∘ StaticFile.ofFound = FoundFile.relative from rfl]
    rw [show Disk.assetPattern = Glob.NamePattern.everything.text by decide] at hscan
    exact Disk.nodup_of_isPlace hroot hscan
  · obtain ⟨origin, horigin, rfl⟩ := List.mem_map.1 hmem
    exact Disk.absolute_eq_join hroot hscan origin horigin
  · obtain ⟨origin, -, rfl⟩ := List.mem_map.1 hmem
    rfl

theorem sound_of_rescan (hroot : watcher.root.IsPlace) {progress later : Progress}
    {next : StaticWatcher} (h : watcher.rescan progress = (.ok next, later)) : next.Sound := by
  obtain ⟨hopen, -⟩ := Prod.mk.inj h
  obtain ⟨files, hscan, rfl⟩ := Session.eq_of_open?_assets hopen
  exact sound_of_scan hroot hscan watcher.out

theorem rebuildEach_founded {reason : RebuildReason} {files : List StaticFile}
    {gone : String → Prop}
    (h : ∀ file ∈ files, file.deleted = true → reason = .deleted ∧ gone file.relative)
    (activity : Option (String → Activity)) (progress : Progress) :
    ∀ rebuild ∈ (watcher.rebuildEach reason activity files progress).1, rebuild.Founded gone := by
  induction files generalizing progress with
  | nil => exact List.forall_mem_nil _
  | cons file rest ih =>
      refine List.forall_mem_cons.2 ⟨fun path hpath => h file List.mem_cons_self ?_,
        ih (fun other hother => h other (List.mem_cons_of_mem _ hother)) _⟩
      by_contra hpresent
      exact Progress.buildAsset_ne_removed (Bool.eq_false_iff.2 hpresent) watcher.out path hpath

theorem rebuildEach_of_present {reason : RebuildReason} {files : List StaticFile}
    (h : ∀ file ∈ files, file.deleted = false) (gone : String → Prop)
    (activity : Option (String → Activity)) (progress : Progress) :
    ∀ rebuild ∈ (watcher.rebuildEach reason activity files progress).1, rebuild.Founded gone :=
  rebuildEach_founded (fun file hmem hdeleted => nomatch (h file hmem).symm.trans hdeleted) _ _

theorem update_sound (h : watcher.Sound) (gone : String → Prop) (path : Path)
    (progress : Progress) : (watcher.update path progress).Sound Sound gone := by
  intro rebuilds hok
  unfold update at hok ⊢
  split at hok
  · cases hok
  · next next later heq =>
    have hnext := sound_of_rescan h.root heq
    split at hok
    · cases hok
    · next index _ =>
      cases hok
      exact ⟨hnext, rebuildEach_of_present (fun file hfile =>
        hnext.present file (List.mem_of_getElem? (Option.mem_toList.1 hfile))) gone _ _⟩

theorem addDirectory_sound (h : watcher.Sound) (gone : String → Prop) (directory : Path)
    (progress : Progress) : (watcher.addDirectory directory progress).Sound Sound gone := by
  intro rebuilds hok
  unfold addDirectory at hok ⊢
  split at hok
  · cases hok
  · next next later heq =>
    have hnext := sound_of_rescan h.root heq
    cases hok
    exact ⟨hnext, rebuildEach_of_present (fun file hfile =>
      hnext.present file (List.mem_of_mem_filter hfile)) gone _ _⟩

theorem map_markDeleted {β : Type} {column : StaticFile → β}
    (hcolumn : ∀ file : StaticFile, column { file with deleted := true } = column file)
    (index : Nat) : (watcher.markDeleted index).files.map column = watcher.files.map column :=
  map_modify hcolumn watcher.files index

theorem removeEach_root (paths : List Path) (progress : Progress) :
    (watcher.removeEach progress paths).watcher.root = watcher.root := by
  induction paths generalizing watcher progress with
  | nil => rfl
  | cons path rest ih =>
      rw [removeEach]
      split
      · rfl
      · exact ih _

theorem removeEach_map {β : Type} {column : StaticFile → β}
    (hcolumn : ∀ file : StaticFile, column { file with deleted := true } = column file)
    (paths : List Path) (progress : Progress) :
    (watcher.removeEach progress paths).watcher.files.map column = watcher.files.map column := by
  induction paths generalizing watcher progress with
  | nil => rfl
  | cons path rest ih =>
      rw [removeEach]
      split
      · rfl
      · exact (ih _).trans (map_markDeleted hcolumn _)

theorem removeEach_founded {paths : List Path} {progress : Progress} {removed : List Rebuild}
    {gone : String → Prop}
    (hgone : ∀ entry ∈ watcher.files.map fun file => (file.relative, file.absolute),
      ∀ path ∈ paths, entry.2.same path = true → gone entry.1)
    (h : (watcher.removeEach progress paths).result = .ok removed) :
    ∀ rebuild ∈ removed, rebuild.Founded gone := by
  induction paths generalizing watcher progress removed with
  | nil =>
      cases h
      exact List.forall_mem_nil _
  | cons path rest ih =>
      rw [removeEach] at h
      split at h
      · cases h
      · next index hfind =>
        obtain ⟨others, hothers, rfl⟩ := map_eq_ok.1 h
        have hsame := @map_markDeleted watcher _ (fun file => (file.relative, file.absolute))
          (fun _ => rfl) index
        refine List.forall_mem_append.2 ⟨rebuildEach_founded (fun file hfile _ => ⟨rfl, ?_⟩) _ _,
          ih (fun entry hentry other hother => ?_) hothers⟩
        · obtain ⟨origin, horigin, hplace, hentry⟩ :=
            exists_of_findIdx? hsame hfind (Option.mem_toList.1 hfile)
          obtain ⟨hname, -⟩ := Prod.mk.inj hentry
          rw [← hname]
          exact hgone _ (List.mem_map_of_mem horigin) path List.mem_cons_self hplace
        · exact hgone entry (hsame ▸ hentry) other (List.mem_cons_of_mem _ hother)

-- The files that have been marked are dropped, and the others are what they were.
theorem unlink_sound (h : watcher.Sound) (paths : List Path) (progress : Progress) :
    (watcher.unlink paths progress).Sound Sound (watcher.KnowsAt paths) := by
  have hroot := @removeEach_root watcher paths progress
  have hnames := @removeEach_map watcher _ StaticFile.relative (fun _ => rfl) paths progress
  have hplaces := @removeEach_map watcher _ (fun file => (file.relative, file.absolute))
    (fun _ => rfl) paths progress
  have hgone : ∀ entry ∈ watcher.files.map fun file => (file.relative, file.absolute),
      ∀ path ∈ paths, entry.2.same path = true → watcher.KnowsAt paths entry.1 := by
    intro entry hentry path hpath hsame
    obtain ⟨file, hfile, rfl⟩ := List.mem_map.1 hentry
    exact ⟨file, hfile, rfl, path, hpath, hsame⟩
  intro rebuilds hok
  unfold unlink at hok ⊢
  split at hok
  · cases hok
  · next marked later removed heq =>
    have hremoved := removeEach_founded hgone (congrArg (·.result) heq)
    rw [heq] at hroot hnames hplaces
    dsimp only at hroot hnames hplaces
    cases hok
    refine ⟨⟨hroot ▸ h.root, ?_, fun file hmem => ?_, fun file hmem => ?_⟩, hremoved⟩
    · exact (hnames ▸ h.distinct).sublist (List.filter_sublist.map _)
    · have hpair : (file.relative, file.absolute) ∈
          watcher.files.map fun file => (file.relative, file.absolute) :=
        hplaces ▸ List.mem_map_of_mem (List.mem_of_mem_filter hmem)
      obtain ⟨origin, horigin, heq⟩ := List.mem_map.1 hpair
      obtain ⟨hname, habsolute⟩ := Prod.mk.inj heq
      rw [← hname, ← habsolute, hroot]
      exact h.joined origin horigin
    · simpa using (List.mem_filter.1 hmem).2

end StaticWatcher

-- What holds of each way to handle an event holds of handling it. Outputs are removed only for
-- events of what is gone.
theorem Watcher.handle_sound {ω : Type} [Watcher ω] {good : ω → Prop}
    {gone : List Path → String → Prop} {watcher : ω}
    (hupdate : ∀ gone path progress, (Watcher.update watcher path progress).Sound good gone)
    (hadd : ∀ gone path progress, (Watcher.addDirectory watcher path progress).Sound good gone)
    (hunlink : ∀ paths progress, (Watcher.unlink watcher paths progress).Sound good (gone paths))
    (h : good watcher) (event : Event) (progress : Progress) :
    (Watcher.handle watcher event progress).Sound good fun relative =>
      event.kind = .unlink ∧ gone (Watcher.knownUnder watcher event.path.normalize) relative := by
  have hidle : ∀ (gone : String → Prop) (later : Progress),
      (Reaction.mk watcher later (.ok [])).Sound good gone := by
    rintro gone later rebuilds hok
    cases hok
    exact ⟨h, List.forall_mem_nil _⟩
  unfold Watcher.handle
  dsimp only
  split
  · next hkind =>
    split
    · exact hidle _ _
    · exact (hunlink _ _).mono fun _ hgone => ⟨hkind, hgone⟩
  · split
    · exact hadd _ _ _
    · split
      · exact hidle _ _
      · split
        · exact hidle _ _
        · exact hupdate _ _ _

theorem SourceWatcher.Sound.handle {watcher : SourceWatcher} (h : watcher.Sound) (event : Event)
    (progress : Progress) : (Handler.handle watcher event progress).Sound Sound fun relative =>
      event.kind = .unlink ∧ watcher.Knows event.path.normalize relative := by
  refine Reaction.Sound.mono (Watcher.handle_sound (update_sound h) (addDirectory_sound h)
    (unlink_sound h) h event progress) fun relative => And.imp_right ?_
  rintro ⟨file, hfile, hname, path, hpath, hsame⟩
  exact ⟨file, hfile, hname, Path.startsWith_of_same hsame (List.mem_filter.1 hpath).2⟩

theorem StaticWatcher.Sound.handle {watcher : StaticWatcher} (h : watcher.Sound) (event : Event)
    (progress : Progress) : (Handler.handle watcher event progress).Sound Sound fun relative =>
      event.kind = .unlink ∧ watcher.Knows event.path.normalize relative := by
  refine Reaction.Sound.mono (Watcher.handle_sound (update_sound h) (addDirectory_sound h)
    (unlink_sound h) h event progress) fun relative => And.imp_right ?_
  rintro ⟨file, hfile, hname, path, hpath, hsame⟩
  exact ⟨file, hfile, hname, Path.startsWith_of_same hsame (List.mem_filter.1 hpath).2⟩

namespace Session

variable {progress : Progress} {config : Config} {session : Session}

-- What sessions come to that have been started and have then handled events, each on a disk that
-- may be any other.
inductive Served (config : Config) : Session → Prop
  | start {progress : Progress} {session : Session}
      (hsession : (Session.start progress config).1 = .ok session) : Served config session
  | source {session : Session} {event : Event} {progress : Progress} {rebuilds : List Rebuild}
      (h : Served config session)
      (hok : (Handler.handle session.source event progress).result = .ok rebuilds) :
      Served config
        { session with source := (Handler.handle session.source event progress).watcher }
  | assets {session : Session} {event : Event} {progress : Progress} {rebuilds : List Rebuild}
      (h : Served config session)
      (hok : (Handler.handle session.assets event progress).result = .ok rebuilds) :
      Served config
        { session with assets := (Handler.handle session.assets event progress).watcher }

theorem sound_of_start (h : (start progress config).1 = .ok session) :
    session.source.Sound ∧ session.assets.Sound := by
  obtain ⟨source, assets, out, tree, files, rfl, hpaths, ⟨_, htree⟩, ⟨_, hfiles⟩⟩ := start_eq_ok h
  exact ⟨SourceWatcher.sound_of_scan (hpaths source (by simp)) htree out,
    StaticWatcher.sound_of_scan (hpaths assets (by simp)) hfiles out⟩

theorem Served.sound (h : Served config session) :
    session.source.Sound ∧ session.assets.Sound := by
  induction h with
  | start hsession => exact sound_of_start hsession
  | source _ hok ih => exact ⟨(ih.1.handle _ _ _ hok).1, ih.2⟩
  | assets _ hok ih => exact ⟨ih.1, (ih.2.handle _ _ _ hok).1⟩

-- A page in a layout, of which the layout is written again.
def wrapped : Except WatchError Session × Progress :=
  start (.start ((Progress.project []).putFile "~layout.html" ["src"] "%\x7bcontent\x7d".toUTF8)) site

def openedWrapped : Session :=
  wrapped.1.toOption.getD opened

end Session

end StaticSite
