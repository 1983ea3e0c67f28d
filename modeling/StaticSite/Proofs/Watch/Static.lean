import StaticSite.Proofs.Build.Works
import StaticSite.Watch.Static

-- What the static watcher does to the output when it handles an event.
namespace StaticSite.StaticWatcher

open Disk (within Works assetAt)

variable {roots : Roots} {progress : Progress} {places gone : List Location} {file : Location}

-- The watcher that knows the assets at some places, of which those of `gone` are marked as
-- deleted.
def marking (roots : Roots) (places gone : List Location) : StaticWatcher :=
  ⟨roots.assets.path, roots.out.path, places.map fun file =>
    (assetAt roots.assets file).flagged (decide (file ∈ gone))⟩

def knowing (roots : Roots) (places : List Location) : StaticWatcher :=
  ⟨roots.assets.path, roots.out.path, places.map (assetAt roots.assets)⟩

theorem marking_nil (roots : Roots) (places : List Location) :
    marking roots places [] = knowing roots places := by
  rw [marking, knowing]
  simp only [List.not_mem_nil, decide_false]
  rfl

theorem nodup_listed (disk : Disk) (root : Location) : (disk.listed root).Nodup := by
  refine (disk.pairwise_listed root).imp ?_
  rintro left right hbefore rfl
  exact Std.Irrefl.irrefl left hbefore

-- Assets, copied one after another.
theorem rebuildEach_works {watcher : StaticWatcher} (hout : watcher.out = roots.out.path)
    (hdistinct : progress.disk.Distinct roots) (reason : RebuildReason)
    (activity : Option (String → Activity))
    (hplaces : ∀ file ∈ places, file ∈ progress.disk.listed roots.assets)
    (hok : ∀ rebuild ∈ (watcher.rebuildEach reason activity
      (places.map (assetAt roots.assets)) progress).1, rebuild.outcome.isFailed = false) :
    Works roots (· ∈ places) (fun _ => False) progress.disk
      (watcher.rebuildEach reason activity (places.map (assetAt roots.assets)) progress).2.disk := by
  induction places generalizing progress with
  | nil =>
      rw [List.map_nil, rebuildEach]
      exact (Works.refl roots progress.disk).congr (by simp) fun _ => Iff.rfl
  | cons file rest ih =>
      rw [List.map_cons, rebuildEach] at hok ⊢
      dsimp only at hok ⊢
      have hdisk := progress.disk_announceAs activity (assetAt roots.assets file).relative
      generalize progress.announceAs activity (assetAt roots.assets file).relative = announced
        at hdisk hok ⊢
      rw [← hdisk] at hplaces hdistinct ⊢
      have hmem := hplaces file List.mem_cons_self
      obtain ⟨hne, hfollow, hsome⟩ := Disk.mem_listed.1 hmem
      obtain ⟨content, hcontent⟩ := Option.isSome_iff_exists.1 hsome
      have hnamed := Disk.named_of_mem_listed hmem
      have hfirst : Works roots (· = file) (fun _ => False) announced.disk
          (announced.buildAsset (assetAt roots.assets file) watcher.out).2.disk := by
        have hok := hok _ List.mem_cons_self
        have hisFile : announced.disk.isFile (Location.path (file ++ roots.assets)) = true :=
          (Disk.isFile_path hnamed).2 ⟨hfollow, hsome⟩
        rw [hout, Progress.buildAsset_assetAt roots announced hne hnamed.of_append_left,
          if_pos hisFile] at hok ⊢
        have hapart : file ++ roots.assets ≠ file ++ roots.out := by
          intro heq
          refine roots.not_within_out_assets file ?_
          rw [heq]
          exact Disk.within_append _ _
        have hsets := Progress.copyOutput_sets hne roots.out_ne_nil
          (hnamed.of_append_left.append roots.out_named) hnamed hapart hcontent hok
        have hagree := hsets.agree
        refine hsets.works_made (Disk.fresh_of_copied (hagree.distinct hdistinct)
          (hagree.listed_eq ▸ hmem) ?_)
        rw [hsets.file?, if_pos rfl, ← hagree.assets, hcontent]
      have hrest := ih (hfirst.agree.distinct hdistinct)
        (fun other hother => hfirst.agree.listed_eq ▸ hplaces other (List.mem_cons_of_mem _ hother))
        fun rebuild hmem => hok rebuild (List.mem_cons_of_mem _ hmem)
      exact (hfirst.trans hrest).congr (fun place => List.mem_cons.symm) fun _ => Iff.rfl

theorem rescan_knowing (watcher : StaticWatcher) (hroot : watcher.root = roots.assets.path)
    (hout : watcher.out = roots.out.path) (progress : Progress) :
    watcher.rescan progress =
      (.ok (knowing roots (progress.disk.listed roots.assets)),
        progress.note (.rescanning roots.assets.path)) := by
  have hscan : progress.disk.scanAssets roots.assets.path =
      .ok ((progress.disk.listed roots.assets).map (assetAt roots.assets)) :=
    Disk.scanAssets_path roots.assets_keeps
  rw [rescan, open?, hroot, hout, hscan]
  rfl

theorem find?_marking (hplaces : ∀ file ∈ places, Location.Named (file ++ roots.assets))
    (hmem : file ∈ places) : ∃ index,
      (marking roots places gone).find? (Location.path (file ++ roots.assets)) = some index ∧
        places[index]? = some file := by
  have hfind : (marking roots places gone).find? (Location.path (file ++ roots.assets)) =
      places.findIdx? fun other => (Location.path (other ++ roots.assets)).same
        (Location.path (file ++ roots.assets)) := by
    rw [find?, marking, List.findIdx?_map]
    rfl
  have hself : (Location.path (file ++ roots.assets)).same
      (Location.path (file ++ roots.assets)) = true := by
    rw [Path.same, decide_eq_true_iff]
  rw [hfind]
  cases hindex : places.findIdx? fun other => (Location.path (other ++ roots.assets)).same
      (Location.path (file ++ roots.assets)) with
  | none =>
      rw [List.findIdx?_eq_none_iff] at hindex
      exact absurd (hself.symm.trans (hindex file hmem)) (by simp)
  | some index =>
      obtain ⟨hlt, hsame, -⟩ := List.findIdx?_eq_some_iff_getElem.1 hindex
      have heq := (Location.same_path_iff (hplaces _ (List.getElem_mem hlt))
        (hplaces file hmem)).1 hsame
      exact ⟨index, rfl, by rw [List.getElem?_eq_getElem hlt, List.append_cancel_right heq]⟩

-- A changed asset is copied.
theorem update_knowing (places : List Location) (hdistinct : progress.disk.Distinct roots)
    (hmem : file ∈ progress.disk.listed roots.assets) :
    ∃ rebuilds next, (knowing roots places).update (Location.path (file ++ roots.assets)) progress =
        ⟨knowing roots (progress.disk.listed roots.assets), next, .ok rebuilds⟩ ∧
      ((∀ rebuild ∈ rebuilds, rebuild.outcome.isFailed = false) →
        Works roots (· = file) (fun _ => False) progress.disk next.disk) := by
  obtain ⟨index, hfind, hindex⟩ := @find?_marking roots (progress.disk.listed roots.assets) [] file
    (fun other hother => Disk.named_of_mem_listed hother) hmem
  rw [marking_nil] at hfind
  have hget : (knowing roots (progress.disk.listed roots.assets)).files[index]?.toList =
      [file].map (assetAt roots.assets) := by
    rw [knowing, List.getElem?_map, hindex]
    rfl
  unfold update
  rw [rescan_knowing _ rfl rfl]
  dsimp only
  rw [hfind]
  dsimp only
  rw [hget]
  refine ⟨_, _, rfl, fun hok => ?_⟩
  have hworks := @rebuildEach_works roots (progress.note (.rescanning roots.assets.path)) [file]
    (knowing roots (progress.disk.listed roots.assets)) rfl hdistinct .changed (some .updatingStatic)
    (by simpa using hmem) hok
  exact hworks.congr (by simp) fun _ => Iff.rfl

-- The assets below a directory are copied.
theorem addDirectory_knowing (places : List Location) (hdistinct : progress.disk.Distinct roots)
    {directory : Location} (hdirectory : Location.Named (directory ++ roots.assets)) :
    ∃ rebuilds next, (knowing roots places).addDirectory
        (Location.path (directory ++ roots.assets)) progress =
          ⟨knowing roots (progress.disk.listed roots.assets), next, .ok rebuilds⟩ ∧
      ((∀ rebuild ∈ rebuilds, rebuild.outcome.isFailed = false) →
        Works roots (fun place => place ∈ progress.disk.listed roots.assets ∧
          within directory place = true) (fun _ => False) progress.disk next.disk) := by
  have hadded : (knowing roots (progress.disk.listed roots.assets)).files.filter
      (·.absolute.startsWith (Location.path (directory ++ roots.assets))) =
        ((progress.disk.listed roots.assets).filter (within directory ·)).map
          (assetAt roots.assets) := by
    rw [knowing, List.filter_map]
    congr 1
    refine List.filter_congr fun file hmem => ?_
    rw [Bool.eq_iff_iff]
    exact (Location.startsWith_path_iff (Disk.named_of_mem_listed hmem) hdirectory).trans
      Disk.within_append_right_iff
  unfold addDirectory
  rw [rescan_knowing _ rfl rfl]
  dsimp only
  rw [hadded]
  refine ⟨_, _, rfl, fun hok => ?_⟩
  have hworks := @rebuildEach_works roots (progress.note (.rescanning roots.assets.path)) _
    (knowing roots (progress.disk.listed roots.assets)) rfl hdistinct .changed (some .updatingStatic)
    (fun other hother => List.mem_of_mem_filter hother) hok
  exact hworks.congr (fun place => List.mem_filter) fun _ => Iff.rfl

theorem knownUnder_knowing (hplaces : ∀ file ∈ places, Location.Named (file ++ roots.assets))
    {directory : Location} (hdirectory : Location.Named (directory ++ roots.assets)) :
    (knowing roots places).knownUnder (Location.path (directory ++ roots.assets)) =
      (places.filter (within directory ·)).map fun file => Location.path (file ++ roots.assets) := by
  have habsolute : (knowing roots places).files.map (·.absolute) =
      places.map fun file => Location.path (file ++ roots.assets) := by
    rw [knowing, List.map_map]
    rfl
  rw [knownUnder, habsolute, List.filter_map]
  congr 1
  refine List.filter_congr fun file hmem => ?_
  rw [Bool.eq_iff_iff]
  exact (Location.startsWith_path_iff (hplaces file hmem) hdirectory).trans
    Disk.within_append_right_iff

theorem markDeleted_marking (hnodup : places.Nodup) {index : Nat}
    (hindex : places[index]? = some file) :
    (marking roots places gone).markDeleted index = marking roots places (file :: gone) := by
  rw [markDeleted, marking, marking]
  congr 1
  refine List.ext_getElem? fun other => ?_
  rw [List.getElem?_modify, List.getElem?_map, List.getElem?_map]
  cases hother : places[other]? with
  | none => simp
  | some place =>
      by_cases heq : index = other
      · subst heq
        obtain rfl : file = place := Option.some.inj (hindex.symm.trans hother)
        simp [StaticFile.flagged]
      · have hne : place ≠ file := by
          rintro rfl
          obtain ⟨hlt, hget⟩ := List.getElem?_eq_some_iff.1 hindex
          obtain ⟨hlt', hget'⟩ := List.getElem?_eq_some_iff.1 hother
          exact heq (hnodup.getElem_inj_iff.1 (hget.trans hget'.symm))
        simp [heq, hne]

theorem rebuildEach_singleton (watcher : StaticWatcher) (reason : RebuildReason)
    (activity : Option (String → Activity)) (asset : StaticFile) (progress : Progress) :
    watcher.rebuildEach reason activity [asset] progress =
      ([⟨asset.relative, reason, ((progress.announceAs activity asset.relative).buildAsset asset
          watcher.out).1⟩],
        ((progress.announceAs activity asset.relative).buildAsset asset watcher.out).2) :=
  rfl

-- Known assets lose their copies, and stay marked in the list.
theorem removeEach_works (hnodup : places.Nodup)
    (hplaces : ∀ file ∈ places, file ≠ [] ∧ Location.Named (file ++ roots.assets))
    (htidy : progress.disk.Tidy roots.out) {lost : List Location}
    (hlost : ∀ file ∈ lost, file ∈ places) :
    ∃ next rebuilds, (marking roots places gone).removeEach progress
        (lost.map fun file => Location.path (file ++ roots.assets)) =
          ⟨marking roots places (lost.reverse ++ gone), next, .ok rebuilds⟩ ∧
      Works roots (fun _ => False) (· ∈ lost) progress.disk next.disk := by
  induction lost generalizing gone progress with
  | nil => exact ⟨progress, [], rfl, (Works.refl roots progress.disk).congr (fun _ => Iff.rfl) (by simp)⟩
  | cons file rest ih =>
      have hmem := hlost file List.mem_cons_self
      obtain ⟨hne, hnamed⟩ := hplaces file hmem
      obtain ⟨index, hfind, hindex⟩ :=
        @find?_marking roots places gone file (fun other hother => (hplaces other hother).2) hmem
      have hget : (marking roots places (file :: gone)).files[index]? =
          some ((assetAt roots.assets file).flagged true) := by
        rw [marking, List.getElem?_map, hindex]
        simp
      rw [List.map_cons, removeEach, hfind]
      dsimp only
      rw [markDeleted_marking hnodup hindex, hget, Option.toList_some, rebuildEach_singleton]
      dsimp only
      have hdisk := progress.disk_announceAs (some .deletingStatic)
        ((assetAt roots.assets file).flagged true).relative
      generalize progress.announceAs (some .deletingStatic)
        ((assetAt roots.assets file).flagged true).relative = announced at hdisk ⊢
      have hbuild := Progress.buildAsset_deleted roots announced hne hnamed.of_append_left
      rw [show (marking roots places (file :: gone)).out = roots.out.path from rfl, hbuild]
      rw [← hdisk] at htidy ⊢
      have hfirst := Progress.removeOutput_works hne hnamed.of_append_left htidy
      obtain ⟨next, rebuilds, hremove, hworks⟩ := @ih _ (file :: gone) (hfirst.tidy htidy)
        fun other hother => hlost other (List.mem_cons_of_mem _ hother)
      rw [hremove]
      refine ⟨next, _, by rw [List.reverse_cons, List.append_assoc]; rfl, ?_⟩
      exact (hfirst.trans_gone hworks).congr (fun _ => Iff.rfl) fun place => List.mem_cons.symm

-- What is left of the list without those that are marked.
theorem filter_marking (roots : Roots) (places lost : List Location) :
    (marking roots places lost.reverse).files.filter (!·.deleted) =
      (knowing roots (places.filter (· ∉ lost))).files := by
  have hfilter : places.filter ((fun file : StaticFile => !file.deleted) ∘ fun file =>
      (assetAt roots.assets file).flagged (decide (file ∈ lost.reverse))) =
        places.filter (· ∉ lost) :=
    List.filter_congr fun file _ => by simp [StaticFile.flagged]
  rw [marking, knowing, List.filter_map, hfilter]
  refine List.map_congr_left fun file hmem => ?_
  have hstays : file ∉ lost := by simpa using (List.mem_filter.1 hmem).2
  rw [decide_eq_false (by simpa using hstays)]
  rfl

-- The copies below a path that is gone are removed, and nothing else is known of it.
theorem unlink_knowing (hnodup : places.Nodup)
    (hplaces : ∀ file ∈ places, file ≠ [] ∧ Location.Named (file ++ roots.assets))
    (htidy : progress.disk.Tidy roots.out) {lost : List Location}
    (hlost : ∀ file ∈ lost, file ∈ places) :
    ∃ rebuilds next, (knowing roots places).unlink
        (lost.map fun file => Location.path (file ++ roots.assets)) progress =
          ⟨knowing roots (places.filter (· ∉ lost)), next, .ok rebuilds⟩ ∧
      Works roots (fun _ => False) (· ∈ lost) progress.disk next.disk := by
  obtain ⟨next, rebuilds, hremove, hworks⟩ :=
    @removeEach_works roots progress places [] hnodup hplaces htidy lost hlost
  rw [marking_nil, List.append_nil] at hremove
  refine ⟨rebuilds, next, ?_, hworks⟩
  rw [unlink, hremove]
  dsimp only
  rw [filter_marking]
  rfl

end StaticSite.StaticWatcher
