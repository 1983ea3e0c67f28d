import StaticSite.Build.Batch
import StaticSite.Proofs.Disk.Effects
import StaticSite.Proofs.Scan.Containment

-- A build changes what is at its outputs only, and makes the directories that lead there, whatever
-- it returns.
namespace StaticSite

namespace Disk

-- Two disks differ in places that are touched, and in directories that have been made in places
-- where there was nothing.
structure Alters (touched made : Location → Prop) (before after : Disk) : Prop where
  workDir : after.workDir = before.workDir
  kind? : ∀ location, after.kind? location = before.kind? location ∨ touched location ∨
    made location ∧ before.kind? location = none ∧ after.kind? location = some .directory

namespace Alters

variable {touched made : Location → Prop} {before middle after : Disk}

theorem refl (disk : Disk) : disk.Alters touched made disk :=
  ⟨rfl, fun _ => .inl rfl⟩

theorem trans (h : before.Alters touched made middle) (h' : middle.Alters touched made after) :
    before.Alters touched made after := by
  refine ⟨h'.workDir.trans h.workDir, fun location => ?_⟩
  rcases h.kind? location with heq | htouched | ⟨hmade, hnone, hdirectory⟩
  · rw [← heq]
    exact h'.kind? location
  · exact .inr (.inl htouched)
  · rcases h'.kind? location with heq' | htouched | ⟨-, hnone', -⟩
    · exact .inr (.inr ⟨hmade, hnone, heq'.trans hdirectory⟩)
    · exact .inr (.inl htouched)
    · rw [hdirectory] at hnone'
      cases hnone'

theorem mono {touched' made' : Location → Prop} (h : before.Alters touched made after)
    (htouched : ∀ location, touched location → touched' location)
    (hmade : ∀ location, made location → touched' location ∨ made' location) :
    before.Alters touched' made' after := by
  refine ⟨h.workDir, fun location => ?_⟩
  rcases h.kind? location with heq | hin | ⟨hin, hkind⟩
  · exact .inl heq
  · exact .inr (.inl (htouched location hin))
  · rcases hmade location hin with hin | hin
    · exact .inr (.inl hin)
    · exact .inr (.inr ⟨hin, hkind⟩)

end Alters

theorem Grows.alters {touched made : Location → Prop} {before after : Disk}
    (h : before.Grows made after) : before.Alters touched made after :=
  ⟨h.workDir, fun location => (h.kind? location).imp_right .inr⟩

-- The files of two disks differ at and below `top` only.
structure Spares (top : Location) (before after : Disk) : Prop where
  workDir : after.workDir = before.workDir
  file? : ∀ location, ¬ within top location → after.file? location = before.file? location

-- Making a directory takes no file away.
theorem Alters.file?_eq {touched made : Location → Prop} {before after : Disk} {location : Location}
    (h : before.Alters touched made after) (hnot : ¬ touched location) :
    after.file? location = before.file? location := by
  rcases h.kind? location with heq | htouched | ⟨-, hnone, hdirectory⟩
  · exact file?_eq_of_kind?_eq heq
  · exact absurd htouched hnot
  · rw [file?, file?, hnone, hdirectory]

theorem Alters.spares {made : Location → Prop} {top : Location} {before after : Disk}
    (h : before.Alters (fun location => within top location) made after) :
    before.Spares top after :=
  ⟨h.workDir, fun _ hnot => h.file?_eq hnot⟩

theorem makeParent_grows (disk : Disk) (path : Path) :
    disk.Grows (fun _ => True) (disk.makeParent path).2 := by
  unfold makeParent
  split
  · exact makeDirectories_grows disk _
  · exact .refl disk

-- A path to an output: its place is touched, and the directories that lead there can be made.
structure Target (touched made : Location → Prop) (workDir : Location) (path : Path) : Prop where
  place : touched (Location.walk workDir path)
  parent : ∀ disk : Disk, disk.workDir = workDir →
    disk.Alters touched made (disk.makeParent path).2

end Disk

namespace Progress

variable {progress : Progress} {touched made : Location → Prop}

theorem place_alters {destination : Path} {change : Disk → Except Fault Disk}
    (h : Disk.Target touched made progress.disk.workDir destination)
    (hchange : ∀ disk next : Disk, disk.workDir = progress.disk.workDir → change disk = .ok next →
      disk.Alters touched made next) :
    progress.disk.Alters touched made (progress.place destination change).2.disk := by
  have hparent := h.parent progress.disk rfl
  unfold place
  split
  · next fault disk hmake =>
    rw [hmake] at hparent
    exact hparent
  · next disk hmake =>
    rw [hmake] at hparent
    split
    · next next hnext => exact hparent.trans (hchange disk next hparent.workDir hnext)
    · exact hparent

theorem writeOutput_alters {destination : Path} {content : ByteArray}
    (h : Disk.Target touched made progress.disk.workDir destination) :
    progress.disk.Alters touched made (progress.writeOutput destination content).2.disk := by
  have hplace : progress.disk.Alters touched made
      (progress.place destination (·.write destination content)).2.disk := by
    refine place_alters h fun disk next hwork hwrite =>
      ⟨Disk.workDir_write hwrite, fun location => ?_⟩
    rw [Disk.kind?_write hwrite]
    by_cases heq : location = Location.walk disk.workDir destination
    · rw [heq, hwork]
      exact .inr (.inl h.place)
    · exact .inl (if_neg heq)
  unfold writeOutput
  split <;> next heq => rw [heq] at hplace; exact hplace

theorem copyOutput_alters {source destination : Path}
    (h : Disk.Target touched made progress.disk.workDir destination) :
    progress.disk.Alters touched made (progress.copyOutput source destination).2.disk := by
  have hplace : progress.disk.Alters touched made
      (progress.place destination (·.copy source destination)).2.disk := by
    refine place_alters h fun disk next hwork hcopy =>
      ⟨Disk.workDir_copy hcopy, fun location => ?_⟩
    by_cases heq : location = Location.walk disk.workDir destination
    · rw [heq, hwork]
      exact .inr (.inl h.place)
    · exact .inl (Disk.kind?_copy_of_ne hcopy heq)
  unfold copyOutput
  split <;> next heq => rw [heq] at hplace; exact hplace

theorem removeOutput_alters {destination : Path}
    (h : touched (Location.walk progress.disk.workDir destination)) :
    progress.disk.Alters touched made (progress.removeOutput destination).2.disk := by
  unfold removeOutput
  split
  · next disk hremove =>
    refine ⟨Disk.workDir_removeFile hremove, fun location => ?_⟩
    have hkind := Disk.kind?_removeFile hremove location
    by_cases heq : location = Location.walk progress.disk.workDir destination
    · exact .inr (.inl (heq ▸ h))
    · exact .inl (hkind.trans (if_neg heq))
  · exact .refl _

theorem buildContent_alters (tree : SourceTree) {file : ContentFile} {out : Path}
    (h : Disk.Target touched made progress.disk.workDir (out.join ⟨file.relative⟩)) :
    progress.disk.Alters touched made (progress.buildContent tree file out).2.disk := by
  unfold buildContent
  split
  · exact .refl _
  · dsimp only
    split
    · exact removeOutput_alters h.place
    · split
      · exact writeOutput_alters h
      · exact .refl _
      · exact .refl _

theorem buildAsset_alters {file : StaticFile} {out : Path}
    (h : Disk.Target touched made progress.disk.workDir (out.join ⟨file.relative⟩)) :
    progress.disk.Alters touched made (progress.buildAsset file out).2.disk := by
  unfold buildAsset
  dsimp only
  split
  · exact removeOutput_alters h.place
  · split
    · exact copyOutput_alters h
    · exact .refl _

theorem buildPages_alters (tree : SourceTree) (report : Report) {out : Path}
    {files : List ContentFile} (h : ∀ file ∈ files,
      Disk.Target touched made progress.disk.workDir (out.join ⟨file.relative⟩)) :
    progress.disk.Alters touched made (buildPages tree out files report progress).2.disk := by
  induction files generalizing report progress with
  | nil => exact .refl _
  | cons file rest ih =>
      have hfirst := buildContent_alters tree (h file List.mem_cons_self)
      rw [buildPages]
      split
      · next error progress heq =>
        rw [heq] at hfirst
        exact hfirst
      · next outcome progress heq =>
        rw [heq] at hfirst
        refine hfirst.trans (ih _ fun other hmem => ?_)
        rw [hfirst.workDir]
        exact h other (List.mem_cons_of_mem _ hmem)

theorem buildAssets_alters (report : Report) {out : Path} {files : List StaticFile}
    (h : ∀ file ∈ files,
      Disk.Target touched made progress.disk.workDir (out.join ⟨file.relative⟩)) :
    progress.disk.Alters touched made (buildAssets out files report progress).2.disk := by
  induction files generalizing report progress with
  | nil => exact .refl _
  | cons file rest ih =>
      have hfirst := buildAsset_alters (h file List.mem_cons_self)
      rw [buildAssets]
      refine hfirst.trans (ih _ fun other hmem => ?_)
      rw [hfirst.workDir]
      exact h other (List.mem_cons_of_mem _ hmem)

theorem clearOutput_alters (progress : Progress) {out : Path}
    (h : ∀ location, Disk.within (Location.walk progress.disk.workDir out) location →
      touched location) :
    progress.disk.Alters touched made (progress.clearOutput out).2.disk := by
  obtain ⟨hwork, hkind⟩ := progress.disk.removeDirectory_frame out
  have halters : progress.disk.Alters touched made (progress.disk.removeDirectory out).2 := by
    refine ⟨hwork, fun location => ?_⟩
    by_cases hwithin : Disk.within (Location.walk progress.disk.workDir out) location
    · exact .inr (.inl (h location hwithin))
    · exact .inl (hkind location hwithin)
  unfold clearOutput
  split <;> next heq => rw [heq] at halters; exact halters

end Progress

theorem SourceTree.mem_files_ofFound {found : List FoundFile} {file : ContentFile}
    (h : file ∈ (SourceTree.ofFound found).files) :
    file.deleted = false ∧ ⟨file.relative, file.absolute⟩ ∈ found := by
  simp only [ofFound, link, List.mem_mapIdx] at h
  obtain ⟨index, hindex, rfl⟩ := h
  simp only [List.getElem_map, ContentFile.ofFound, true_and]
  exact List.getElem_mem _

namespace Disk

variable {disk : Disk} {root : Path}

-- A found file lies below the root, and is known by the names that lead there.
theorem scan_places {pattern : String} {files : List FoundFile} {file : FoundFile}
    (h : disk.scan root pattern = .ok files) (hmem : file ∈ files) :
    IsRelative file.relative ∧
      within (Location.walk disk.workDir root) (Location.walk disk.workDir file.absolute) := by
  obtain ⟨below, hne, hnamed, hrelative, habsolute, hplace⟩ := scan_spec h hmem
  refine ⟨⟨below, hne, hnamed, hrelative⟩, ?_⟩
  rw [habsolute, Location.walk_path hplace]
  exact within_append _ _

theorem scanSource_places {tree : SourceTree} {file : ContentFile}
    (h : disk.scanSource root = .ok tree) (hmem : file ∈ tree.files) :
    IsRelative file.relative ∧
      within (Location.walk disk.workDir root) (Location.walk disk.workDir file.absolute) := by
  rw [scanSource] at h
  obtain ⟨found, hfound, heq⟩ := map_eq_ok.1 h
  rw [← heq] at hmem
  have hplaces := scan_places hfound (SourceTree.mem_files_ofFound hmem).2
  dsimp only at hplaces
  exact hplaces

theorem scanAssets_places {files : List StaticFile} {file : StaticFile}
    (h : disk.scanAssets root = .ok files) (hmem : file ∈ files) :
    IsRelative file.relative ∧
      within (Location.walk disk.workDir root) (Location.walk disk.workDir file.absolute) := by
  obtain ⟨found, hfound, rfl⟩ := map_eq_ok.1 h
  obtain ⟨origin, horigin, rfl⟩ := List.mem_map.1 hmem
  exact scan_places hfound horigin

end Disk

namespace IsRelative

-- An output lies below the output directory.
theorem within_join {relative : String} (h : IsRelative relative) (start : Location)
    (out : Path) :
    Disk.within (Location.walk start out) (Location.walk start (out.join ⟨relative⟩)) := by
  obtain ⟨below, -, hnamed, rfl⟩ := h
  rw [Location.walk_join_names hnamed]
  exact Disk.within_append _ _

theorem target_spares {relative : String} (h : IsRelative relative) (start : Location)
    (out : Path) : Disk.Target (fun location => Disk.within (Location.walk start out) location)
      (fun _ => True) start (out.join ⟨relative⟩) :=
  ⟨h.within_join start out, fun disk _ => (disk.makeParent_grows _).alters⟩

end IsRelative

namespace Progress

variable {progress : Progress} {touched made : Location → Prop}

theorem buildTrees_alters (progress : Progress) {config : Config}
    (h : ∀ relative, IsRelative relative →
      Disk.Target touched made progress.disk.workDir (config.out.join ⟨relative⟩)) :
    progress.disk.Alters touched made (progress.buildTrees config).2.disk := by
  unfold buildTrees
  split
  · exact .refl _
  · next tree hscan =>
    have hpages := buildPages_alters tree .empty fun file hmem =>
      h _ (Disk.scanSource_places hscan hmem).1
    split
    · next heq =>
      rw [heq] at hpages
      exact hpages
    · next report progress heq =>
      rw [heq] at hpages
      split
      · exact hpages
      · next files hassets =>
        rw [← hpages.workDir] at h
        exact hpages.trans (buildAssets_alters _ fun file hmem =>
          h _ (Disk.scanAssets_places hassets hmem).1)

-- Whatever a build returns, it has changed its outputs and what is in the output directory.
theorem buildAll_alters (progress : Progress) {config : Config}
    (hout : ∀ location, Disk.within (Location.walk progress.disk.workDir config.out) location →
      touched location)
    (h : ∀ relative, IsRelative relative →
      Disk.Target touched made progress.disk.workDir (config.out.join ⟨relative⟩)) :
    progress.disk.Alters touched made (progress.buildAll config).2.disk := by
  have hclear : progress.disk.Alters touched made (progress.clearOutput config.out).2.disk :=
    progress.clearOutput_alters hout
  unfold buildAll
  split
  · split
    · next heq =>
      rw [heq] at hclear
      exact hclear
    · next progress heq =>
      rw [heq] at hclear
      rw [← hclear.workDir] at h
      exact hclear.trans (progress.buildTrees_alters h)
  · exact progress.buildTrees_alters h

theorem clearOutput_spares (progress : Progress) (out : Path) :
    progress.disk.Spares (Location.walk progress.disk.workDir out)
      (progress.clearOutput out).2.disk := by
  have halters : progress.disk.Alters
      (fun location => Disk.within (Location.walk progress.disk.workDir out) location)
      (fun _ => True) (progress.clearOutput out).2.disk := progress.clearOutput_alters fun _ => id
  exact halters.spares

theorem buildPages_spares (progress : Progress) (tree : SourceTree) (report : Report) (out : Path)
    {files : List ContentFile} (h : ∀ file ∈ files, IsRelative file.relative) :
    progress.disk.Spares (Location.walk progress.disk.workDir out)
      (buildPages tree out files report progress).2.disk :=
  (buildPages_alters tree report fun file hmem => (h file hmem).target_spares _ out).spares

-- Whatever a build returns, it has changed no file outside of the output directory.
theorem buildAll_spares (progress : Progress) (config : Config) :
    progress.disk.Spares (Location.walk progress.disk.workDir config.out)
      (progress.buildAll config).2.disk :=
  (progress.buildAll_alters (fun _ => id) fun _ h => h.target_spares _ config.out).spares

end Progress

end StaticSite
