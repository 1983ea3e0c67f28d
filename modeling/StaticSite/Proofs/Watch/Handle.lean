import StaticSite.Proofs.Watch.Shift
import StaticSite.Proofs.Watch.Source
import StaticSite.Proofs.Watch.Static

-- Which of its operations a watcher answers an event with.
namespace StaticSite

open Disk (within Works)

-- Pages are the files whose extension is that of pages. A name that is nothing but the extension
-- has none.
theorem Location.extension?_path {name : String} {parent : Location}
    (h : Location.Named (name :: parent)) :
    (Location.path (name :: parent)).extension? = some "html" ↔
      Disk.isPageName name = true ∧ name ≠ ".html" := by
  have hchars : (Location.path (name :: parent)).extension? =
      if (name.toList.reverse.takeWhile (· ≠ '.')).length + 1 < name.toList.length then
        some (String.ofList (name.toList.reverse.takeWhile (· ≠ '.')).reverse) else none := by
    unfold Path.extension?
    rw [Location.fileName?_path h]
    simp
  rw [hchars, Disk.isPageName, List.isSuffixOf_iff_suffix]
  have hne : name ≠ ".html" ↔ name.toList ≠ ".html".toList := not_congr String.toList_inj.symm
  rw [hne]
  generalize name.toList = chars
  constructor
  · intro h
    split at h
    · next hlength =>
      have hafter : (chars.reverse.takeWhile (· ≠ '.')).reverse = "html".toList := by
        simpa using congrArg String.toList (Option.some.inj h)
      have hwhile : chars.reverse.takeWhile (· ≠ '.') = "lmth".toList := by
        simpa using congrArg List.reverse hafter
      have hsplit := List.takeWhile_append_dropWhile (p := fun c => decide (c ≠ '.'))
        (l := chars.reverse)
      rw [hwhile] at hsplit hlength
      cases hrest : chars.reverse.dropWhile (· ≠ '.') with
      | nil =>
          rw [hrest] at hsplit
          have := congrArg List.length hsplit
          simp at this hlength
          omega
      | cons c rest =>
          have hdot : c = '.' := by
            have hhead := List.head?_dropWhile_not (fun c : Char => decide (c ≠ '.')) chars.reverse
            rw [hrest] at hhead
            simpa using hhead
          rw [hrest, hdot] at hsplit
          have hchars : chars = rest.reverse ++ ".html".toList := by
            have := congrArg List.reverse hsplit
            simpa using this.symm
          refine ⟨⟨rest.reverse, hchars.symm⟩, fun heq => ?_⟩
          rw [heq] at hlength
          simp at hlength
    · cases h
  · rintro ⟨⟨front, rfl⟩, hmore⟩
    have hfront : front ≠ [] := by
      rintro rfl
      exact hmore rfl
    have hreverse : (front ++ ".html".toList).reverse = "lmth.".toList ++ front.reverse := by
      simp
    rw [hreverse]
    have htake : ("lmth.".toList ++ front.reverse).takeWhile (· ≠ '.') = "lmth".toList := by
      simp
    rw [htake, if_pos]
    · rfl
    · have := List.length_pos_iff.2 hfront
      simp
      omega

namespace Watcher

variable {ω : Type} [Watcher ω] {watcher : ω} {progress : Progress} {location : Location}

theorem handle_unlink (watcher : ω) (progress : Progress) (hnamed : location.Named) :
    handle watcher ⟨.unlink, location.path⟩ progress =
      if knownUnder watcher location.path = [] then
        ⟨watcher, progress.note (.untracked location.path), .ok []⟩
      else unlink watcher (knownUnder watcher location.path) progress := by
  unfold handle
  simp only [Location.normalize_path hnamed]
  split
  · next heq => rw [if_pos heq]
  · next heq => rw [if_neg heq]

-- A directory that has been added.
theorem handle_directory (hnamed : location.Named)
    (hdirectory : progress.disk.isDirectory location.path = true)
    (hroot : location.path.startsWith (root watcher) = true) :
    handle watcher ⟨.add, location.path⟩ progress = addDirectory watcher location.path progress := by
  unfold handle
  simp only [Location.normalize_path hnamed, hdirectory, hroot, Bool.and_self, decide_true,
    ↓reduceIte]

-- A file that has been added or changed.
theorem handle_file {kind : Change} (hkind : kind ≠ .unlink) (hnamed : location.Named)
    (hfile : progress.disk.isFile location.path = true) :
    handle watcher ⟨kind, location.path⟩ progress =
      if accepts watcher location.path then update watcher location.path progress
      else ⟨watcher, progress, .ok []⟩ := by
  have hdirectory : progress.disk.isDirectory location.path = false := by
    rw [Disk.isFile] at hfile
    rw [Disk.isDirectory]
    cases hentry : progress.disk.entry? location.path with
    | none => rfl
    | some entry => simpa [hentry] using hfile
  unfold handle
  cases kind with
  | unlink => exact absurd rfl hkind
  | add | change =>
      simp only [Location.normalize_path hnamed, hdirectory, hfile, Bool.false_and, Bool.and_false,
        Bool.false_eq_true, ↓reduceIte, Bool.not_true]
      cases accepts watcher location.path <;> rfl

end Watcher

namespace Disk

variable {disk : Disk} {root place file page : Location}

-- Nothing lies below a file.
theorem eq_of_within_file (hplace : (disk.file? (place ++ root)).isSome)
    (hmem : file ∈ disk.listed root) (hwithin : within place file) : file = place := by
  exact (List.append_cancel_right (eq_of_within_of_file? hplace (mem_listed.1 hmem).2.2
    (within_append_right_iff.2 hwithin))).symm

-- The layouts below a directory wrap files below it only.
theorem within_of_wraps (hplace : disk.kind? (place ++ root) = some .directory)
    (hmem : file ∈ disk.listed root) (hwithin : within place file) (hwraps : file.wraps page) :
    within place page := by
  obtain ⟨below, rfl⟩ := within_iff.1 hwithin
  have htail : within (below ++ place).tail page = true :=
    (Bool.and_eq_true_iff.1 (Bool.and_eq_true_iff.1 hwraps).2).2
  cases below with
  | nil =>
      have hsome := (mem_listed.1 hmem).2.2
      rw [List.nil_append, file?, hplace] at hsome
      cases hsome
  | cons name rest => exact within_trans (within_append rest place) htail

end Disk

namespace SourceWatcher

variable {roots : Roots} {progress : Progress} {files : List Location} {place : Location}

-- What the source watcher does when a path is gone. The files are those it knew before.
theorem handle_unlink (hplaces : SourceTree.Places files)
    (htidy : progress.disk.Tidy roots.out) (hdistinct : progress.disk.Distinct roots)
    (hnamed : Location.Named (place ++ roots.source)) :
    ∃ known rebuilds next, Watcher.handle (knowing roots files)
        ⟨.unlink, Location.path (place ++ roots.source)⟩ progress =
          ⟨knowing roots known, next, .ok rebuilds⟩ ∧
      (known = progress.disk.pagesBelow roots.source ∨
        known = files ∧ ∀ file ∈ files, ¬ within place file) ∧
      ((∀ rebuild ∈ rebuilds, rebuild.outcome.isFailed = false) →
        Works roots (fun page => progress.disk.Public roots page ∧ page ∈ files ∧
            ∃ file ∈ files, within place file ∧ file.wraps page = true)
          (fun page => (page ∈ files ∧ page.isHidden = false) ∧ within place page)
          progress.disk next.disk) := by
  rw [Watcher.handle_unlink _ _ hnamed,
    show Watcher.knownUnder (knowing roots files) _ = _ from knownUnder_knowing hplaces hnamed]
  by_cases hnone : files.filter (within place ·) = []
  · rw [hnone, List.map_nil, if_pos rfl]
    have hnot : ∀ file ∈ files, ¬ within place file := by
      simpa [List.filter_eq_nil_iff] using hnone
    refine ⟨files, [], _, rfl, .inr ⟨rfl, hnot⟩, fun _ => ?_⟩
    refine (Works.refl roots progress.disk).congr (fun page => ?_) fun page => ?_
    · simp only [false_iff]
      rintro ⟨-, -, file, hfile, hwithin, -⟩
      exact hnot file hfile hwithin
    · simp only [false_iff]
      rintro ⟨⟨hmem, -⟩, hwithin⟩
      exact hnot page hmem hwithin
  · rw [if_neg (by simpa using hnone)]
    obtain ⟨rebuilds, next, hunlink, hworks⟩ := @unlink_knowing roots progress files hplaces htidy
      hdistinct (files.filter (within place ·)) fun file hmem => List.mem_of_mem_filter hmem
    refine ⟨_, rebuilds, next, hunlink, .inl rfl, fun hok => ?_⟩
    refine (hworks hok).congr (fun page => ?_) fun page => ?_
    · simp only [List.mem_filter, and_assoc]
    · rw [List.mem_filter]
      tauto

-- Of a file on the disk the pattern of a scan and the extension say the same, but for a name that
-- is nothing else than the extension.
theorem accepts_path_iff {disk : Disk} {root : Location} (watcher : SourceWatcher)
    (hroot : watcher.root = root.path) (hne : place ≠ []) (hnamed : Location.Named (place ++ root))
    (hfile : disk.isFile (Location.path (place ++ root)) = true) :
    watcher.accepts (Location.path (place ++ root)) = true ↔
      place ∈ disk.pagesBelow root ∧ place.headD "" ≠ ".html" := by
  have hlisted : place ∈ disk.listed root := Disk.mem_listed.2 ⟨hne, (Disk.isFile_path hnamed).1 hfile⟩
  have hbelow : (Location.path (place ++ root)).startsWith root.path = true :=
    (Location.startsWith_path_iff hnamed hnamed.of_append_right).2 (Disk.within_append _ root)
  obtain ⟨name, above, rfl⟩ := List.exists_cons_of_ne_nil hne
  rw [List.cons_append] at hnamed hbelow ⊢
  rw [accepts, hroot, hbelow, Bool.true_and, decide_eq_true_iff, Location.extension?_path hnamed,
    Disk.mem_pagesBelow, and_iff_right hlisted]
  rfl

-- What it does when a file or a directory has come.
theorem handle_come (hdistinct : progress.disk.Distinct roots) {kind : Change}
    (hkind : kind ≠ .unlink) (hfollow : Location.Followable (place ++ roots.source))
    (hthere : (progress.disk.file? (place ++ roots.source)).isSome ∨ kind = .add ∧
      progress.disk.kind? (place ++ roots.source) = some .directory)
    (hne : place ≠ []) (hname : ∀ page ∈ progress.disk.pagesBelow roots.source,
      page.headD "" ≠ ".html") :
    ∃ known rebuilds next, Watcher.handle (knowing roots files)
        ⟨kind, Location.path (place ++ roots.source)⟩ progress =
          ⟨knowing roots known, next, .ok rebuilds⟩ ∧
      (known = progress.disk.pagesBelow roots.source ∨
        known = files ∧ ∀ page ∈ progress.disk.pagesBelow roots.source, ¬ within place page) ∧
      ((∀ rebuild ∈ rebuilds, rebuild.outcome.isFailed = false) →
        Works roots (Disk.Renewed roots (within place ·) progress.disk) (fun _ => False)
          progress.disk next.disk) := by
  rcases hthere with hfile | ⟨rfl, hdirectory⟩
  · obtain ⟨content, hcontent⟩ := Option.isSome_iff_exists.1 hfile
    have hnamed := Disk.named_of_kind? (Disk.file?_eq_some.1 hcontent)
    have hself : ∀ file ∈ progress.disk.pagesBelow roots.source, within place file →
        file = place := fun file hmem hwithin =>
      Disk.eq_of_within_file hfile (Disk.mem_pagesBelow.1 hmem).1 hwithin
    have hisFile := (Disk.isFile_path hnamed).2 ⟨hfollow, hfile⟩
    have haccepts : Watcher.accepts (knowing roots files) (Location.path (place ++ roots.source)) =
        true ↔ place ∈ progress.disk.pagesBelow roots.source :=
      (accepts_path_iff (knowing roots files) rfl hne hnamed hisFile).trans
        (and_iff_left_of_imp (hname place))
    rw [Watcher.handle_file hkind hnamed hisFile]
    by_cases hmem : place ∈ progress.disk.pagesBelow roots.source
    · rw [if_pos (haccepts.2 hmem)]
      obtain ⟨rebuilds, next, hupdate, hworks⟩ := update_knowing files hdistinct hmem
      refine ⟨_, rebuilds, next, hupdate, .inl rfl, fun hok => ?_⟩
      refine (hworks hok).congr (fun page => ?_) fun _ => Iff.rfl
      refine and_congr_right fun hpublic => ?_
      constructor
      · rintro (rfl | hwraps)
        · exact .inl (Disk.within_refl _)
        · exact .inr ⟨place, hmem, Disk.within_refl _, hwraps⟩
      · rintro (hwithin | ⟨file, hfile, hwithin, hwraps⟩)
        · exact .inl (hself page hpublic.1 hwithin)
        · rw [hself file hfile hwithin] at hwraps
          exact .inr hwraps
    · rw [if_neg (mt haccepts.1 hmem)]
      have hnot : ∀ page ∈ progress.disk.pagesBelow roots.source, ¬ within place page :=
        fun page hpage hwithin => hmem (hself page hpage hwithin ▸ hpage)
      refine ⟨files, [], progress, rfl, .inr ⟨rfl, hnot⟩, fun _ => ?_⟩
      refine (Works.refl roots progress.disk).congr (fun page => ?_) fun _ => Iff.rfl
      simp only [false_iff]
      rintro ⟨hpublic, hwithin | ⟨file, hfile, hwithin, -⟩⟩
      · exact hnot page hpublic.1 hwithin
      · exact hnot file hfile hwithin
  · have hnamed := Disk.named_of_kind? hdirectory
    have hstarts : (Location.path (place ++ roots.source)).startsWith
        (Watcher.root (knowing roots files)) = true :=
      (Location.startsWith_path_iff hnamed roots.source_keeps.2.1).2 (Disk.within_append _ _)
    rw [Watcher.handle_directory hnamed
      ((Disk.isDirectory_path hnamed).2 ⟨hfollow, hdirectory⟩) hstarts]
    obtain ⟨rebuilds, next, hadd, hworks⟩ := addDirectory_knowing files hdistinct hnamed
    refine ⟨_, rebuilds, next, hadd, .inl rfl, fun hok => ?_⟩
    refine (hworks hok).congr (fun page => ?_) fun _ => Iff.rfl
    refine and_congr_right fun _ => (or_iff_left_of_imp ?_).symm
    rintro ⟨file, hfile, hwithin, hwraps⟩
    exact Disk.within_of_wraps hdirectory (Disk.mem_pagesBelow.1 hfile).1 hwithin hwraps

end SourceWatcher

namespace StaticWatcher

variable {roots : Roots} {progress : Progress} {places : List Location} {place : Location}

-- What the static watcher does when a path is gone.
theorem handle_unlink (hnodup : places.Nodup)
    (hplaces : ∀ file ∈ places, file ≠ [] ∧ Location.Named (file ++ roots.assets))
    (htidy : progress.disk.Tidy roots.out) (hnamed : Location.Named (place ++ roots.assets)) :
    ∃ rebuilds next, Watcher.handle (knowing roots places)
        ⟨.unlink, Location.path (place ++ roots.assets)⟩ progress =
          ⟨knowing roots (places.filter (¬ within place ·)), next, .ok rebuilds⟩ ∧
      Works roots (fun _ => False) (fun file => file ∈ places ∧ within place file)
        progress.disk next.disk := by
  rw [Watcher.handle_unlink _ _ hnamed, show Watcher.knownUnder (knowing roots places) _ = _ from
    knownUnder_knowing (fun file hmem => (hplaces file hmem).2) hnamed]
  by_cases hnone : places.filter (within place ·) = []
  · rw [hnone, List.map_nil, if_pos rfl]
    have hnot : ∀ file ∈ places, ¬ within place file := by
      simpa [List.filter_eq_nil_iff] using hnone
    have hall : places.filter (¬ within place ·) = places := by
      simpa [List.filter_eq_self] using hnot
    refine ⟨[], _, by rw [hall], ?_⟩
    refine (Works.refl roots progress.disk).congr (fun _ => Iff.rfl) fun file => ?_
    simp only [false_iff]
    exact fun h => hnot file h.1 h.2
  · rw [if_neg (by simpa using hnone)]
    obtain ⟨rebuilds, next, hunlink, hworks⟩ := @unlink_knowing roots progress places hnodup hplaces
      htidy (places.filter (within place ·)) fun file hmem => List.mem_of_mem_filter hmem
    have hleft : places.filter (· ∉ places.filter (within place ·)) =
        places.filter (¬ within place ·) :=
      List.filter_congr fun file hmem => by simp [hmem]
    rw [hleft] at hunlink
    exact ⟨rebuilds, next, hunlink, hworks.congr (fun _ => Iff.rfl) fun file => by
      simp [List.mem_filter]⟩

-- What it does when a file or a directory has come.
theorem handle_come (hdistinct : progress.disk.Distinct roots) {kind : Change}
    (hkind : kind ≠ .unlink) (hfollow : Location.Followable (place ++ roots.assets))
    (hthere : (progress.disk.file? (place ++ roots.assets)).isSome ∨ kind = .add ∧
      progress.disk.kind? (place ++ roots.assets) = some .directory) (hne : place ≠ []) :
    ∃ rebuilds next, Watcher.handle (knowing roots places)
        ⟨kind, Location.path (place ++ roots.assets)⟩ progress =
          ⟨knowing roots (progress.disk.listed roots.assets), next, .ok rebuilds⟩ ∧
      ((∀ rebuild ∈ rebuilds, rebuild.outcome.isFailed = false) →
        Works roots (fun file => file ∈ progress.disk.listed roots.assets ∧ within place file)
          (fun _ => False) progress.disk next.disk) := by
  rcases hthere with hfile | ⟨rfl, hdirectory⟩
  · obtain ⟨content, hcontent⟩ := Option.isSome_iff_exists.1 hfile
    have hnamed := Disk.named_of_kind? (Disk.file?_eq_some.1 hcontent)
    have hlisted : place ∈ progress.disk.listed roots.assets :=
      Disk.mem_listed.2 ⟨hne, hfollow, hfile⟩
    have haccepts : Watcher.accepts (knowing roots places) (Location.path (place ++ roots.assets)) =
        true :=
      (Location.startsWith_path_iff hnamed roots.assets_keeps.2.1).2 (Disk.within_append _ _)
    rw [Watcher.handle_file hkind hnamed ((Disk.isFile_path hnamed).2 ⟨hfollow, hfile⟩),
      if_pos haccepts]
    obtain ⟨rebuilds, next, hupdate, hworks⟩ := update_knowing places hdistinct hlisted
    refine ⟨rebuilds, next, hupdate, fun hok => (hworks hok).congr (fun file => ?_)
      fun _ => Iff.rfl⟩
    constructor
    · rintro rfl
      exact ⟨hlisted, Disk.within_refl _⟩
    · exact fun h => Disk.eq_of_within_file hfile h.1 h.2
  · have hnamed := Disk.named_of_kind? hdirectory
    have hstarts : (Location.path (place ++ roots.assets)).startsWith
        (Watcher.root (knowing roots places)) = true :=
      (Location.startsWith_path_iff hnamed roots.assets_keeps.2.1).2 (Disk.within_append _ _)
    rw [Watcher.handle_directory hnamed
      ((Disk.isDirectory_path hnamed).2 ⟨hfollow, hdirectory⟩) hstarts]
    exact addDirectory_knowing places hdistinct hnamed

end StaticWatcher

end StaticSite
