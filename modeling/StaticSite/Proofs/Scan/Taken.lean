import Mathlib.Data.List.Forall2
import StaticSite.Proofs.Path.Descent
import StaticSite.Proofs.Path.Relative
import StaticSite.Proofs.Scan.Containment

-- Which matches a scan takes. A match is written below the root as the root is written, and this
-- has to agree with where both are found from the working directory.
namespace StaticSite

variable {disk : Disk} {root path : Path} {file : FoundFile}

-- The directory that is meant by a root. No text at all means the working directory.
def Path.orHere (root : Path) : Path :=
  if root.text = "" then ⟨"."⟩ else root

theorem Path.orHere_ne_empty (root : Path) : root.orHere.text ≠ "" := by
  unfold orHere
  split
  · decide
  · assumption

namespace Disk

-- A match that is taken as the file: plain names lead to it from the root, by the path as it is
-- written and by the absolute one.
structure TakenAs (disk : Disk) (root path : Path) (file : FoundFile) : Prop where
  nonempty : file.relative ≠ ""
  unrooted : file.relative.toList.head? ≠ some '/'
  plain : ∀ name ∈ Path.segments file.relative, IsName name
  written : path.normalComponents =
    root.normalComponents ++ (Path.segments file.relative).map .name
  placed : path.absolute disk.base? = .ok file.absolute
  below : ∃ top, root.absolute disk.base? = .ok top ∧ file.absolute = top.join ⟨file.relative⟩

-- What is written below a relative path is relative itself.
theorem isAbsolute_of_written {names : List String} (hroot : root.isAbsolute = false)
    (hrelative : root.normalComponents = [] → path.isAbsolute = false)
    (h : path.normalComponents = root.normalComponents ++ names.map .name) :
    path.isAbsolute = false := by
  cases hparts : root.normalComponents with
  | nil => exact hrelative hparts
  | cons first rest =>
      rw [Bool.eq_false_iff]
      intro hpath
      rw [Path.normalComponents_of_isAbsolute hpath, hparts, List.cons_append] at h
      have hplain := Path.isPlain_of_mem_normalComponents hroot first
        (hparts ▸ List.mem_cons_self)
      exact hplain.ne_root (List.cons.inj h).1.symm

-- Where a match is found, its root is found too.
theorem exists_absolute_root (hne : root.text ≠ "")
    (hroot : root.isAbsolute = false → path.isAbsolute = false) {place : Path}
    (h : path.absolute disk.base? = .ok place) : ∃ top, root.absolute disk.base? = .ok top := by
  cases habsolute : root.isAbsolute with
  | true => exact ⟨_, Path.absolute_of_isAbsolute habsolute _⟩
  | false =>
      cases hbase : disk.base? with
      | none =>
          rw [hbase] at h
          have := Path.absolute_none_eq_ok h
          rw [hroot habsolute] at this
          cases this
      | some start => exact ⟨_, by rw [Path.absolute, if_neg hne, if_neg (by simp [habsolute])]⟩

theorem TakenAs.of_placeBelow (hne : root.text ≠ "")
    (hrelative : root.normalComponents = [] → path.isAbsolute = false)
    (h : placeBelow disk.base? root.normalize path = .ok file) : disk.TakenAs root path file := by
  obtain ⟨below, hbelow, hnamed, hwritten, hname, hplaced⟩ :=
    placeBelow_eq_ok (by rwa [Path.components_normalize]) h
  rw [Path.components_normalize] at hwritten
  have hsegments : Path.segments file.relative = below.reverse := by
    rw [hname, Location.segments_names hbelow hnamed]
  have hplain : ∀ name ∈ Path.segments file.relative, IsName name := by
    intro name hmem
    exact hnamed name (List.mem_reverse.1 (hsegments ▸ hmem))
  refine ⟨?_, ?_, hplain, by rwa [hsegments], hplaced, ?_⟩
  · intro hempty
    rw [hempty] at hplain
    exact (hplain "" (by decide)).1 rfl
  · have hunrooted := Location.isAbsolute_names hnamed
    rw [← hname] at hunrooted
    simpa [Path.isAbsolute] using hunrooted
  · obtain ⟨top, htop⟩ := exists_absolute_root hne
      (fun hroot => isAbsolute_of_written hroot hrelative hwritten) hplaced
    refine ⟨top, htop, ?_⟩
    have hwalk : Location.walk disk.workDir path =
        below ++ Location.walk disk.workDir root := by
      rw [← Path.foldl_step_normalComponents, hwritten, List.foldl_append,
        Path.foldl_step_normalComponents, Location.foldl_step_names, List.reverse_reverse]
    obtain ⟨hfile, hfound⟩ := eq_path_of_absolute hplaced
    rw [hfile, (eq_path_of_absolute htop).1, hname]
    rw [hwalk] at hfound ⊢
    exact (Location.join_names hfound hbelow).symm

theorem TakenAs.placeBelow (h : disk.TakenAs root path file) :
    Disk.placeBelow disk.base? root.normalize path = .ok file := by
  have hnamed : Location.Named (Path.segments file.relative).reverse :=
    fun name hmem => h.plain name (List.mem_reverse.1 hmem)
  have hplain := hnamed.isPlain
  rw [List.reverse_reverse] at hplain
  have hunder : path.normalize.under? root.normalize =
      some ((Path.segments file.relative).map .name) :=
    under?_of_components (by rw [Path.components_normalize, Path.components_normalize, h.written])
  have hslash : (Path.ofComponents ((Path.segments file.relative).map .name)).toSlash =
      file.relative := by
    rw [Path.toSlash_ofComponents hplain, ← Location.path_names, Path.intercalate_segments]
  unfold Disk.placeBelow
  simp only [hunder]
  rw [if_neg (by simp [Path.segments_ne_nil]), h.placed, hslash]
  rfl

-- A scan takes all matches that are files, or none.
theorem mapM_placeBelow {paths : List Path} {files : List FoundFile} (hne : root.text ≠ "")
    (hrelative : root.normalComponents = [] → ∀ path ∈ paths, path.isAbsolute = false) :
    paths.mapM (placeBelow disk.base? root.normalize) = .ok files ↔
      List.Forall₂ (disk.TakenAs root) paths files := by
  induction paths generalizing files with
  | nil =>
      rw [List.forall₂_nil_left_iff, List.mapM_nil]
      exact ⟨fun h => (Except.ok.inj h).symm, fun h => h ▸ rfl⟩
  | cons path rest ih =>
      have hrest := fun {files} => @ih files
        fun hnil other hmem => hrelative hnil other (List.mem_cons_of_mem _ hmem)
      rw [mapM_cons_eq_ok, List.forall₂_cons_left_iff]
      constructor
      · rintro ⟨file, others, hfile, hothers, rfl⟩
        exact ⟨file, others, .of_placeBelow hne (fun hnil => hrelative hnil path List.mem_cons_self)
          hfile, hrest.1 hothers, rfl⟩
      · rintro ⟨file, others, hfile, hothers, rfl⟩
        exact ⟨file, others, hfile.placeBelow, hrest.2 hothers, rfl⟩

theorem scan_eq_ok_iff {pattern : String} {files : List FoundFile} :
    disk.scan root pattern = .ok files ↔
      ∃ paths, Glob.find disk (patternBelow root.orHere pattern) = .ok paths ∧
        List.Forall₂ (disk.TakenAs root.orHere) (paths.filter disk.isFile) files := by
  have hscan : disk.scan root pattern = (do
      let paths ← (Glob.find disk (patternBelow root.orHere pattern)).mapError .pattern
      (paths.filter disk.isFile).mapM (placeBelow disk.base? root.orHere.normalize)) := rfl
  rw [hscan]
  cases hfind : Glob.find disk (patternBelow root.orHere pattern) with
  | error error => simp [Except.mapError, bind, Except.bind]
  | ok paths =>
      have hrelative : root.orHere.normalComponents = [] →
          ∀ path ∈ paths.filter disk.isFile, path.isAbsolute = false := by
        intro hnil path hmem
        exact Glob.isAbsolute_of_mem_find (head?_patternBelow root.orHere_ne_empty hnil) hfind
          (List.mem_of_mem_filter hmem)
      simp only [Except.ok.injEq, exists_eq_left', ← mapM_placeBelow root.orHere_ne_empty hrelative]
      rfl

-- A scan returns the files that its matches are taken as, in their order. One match that is taken
-- as no file makes the whole scan fail.
theorem scan_taken (disk : Disk) (root : Path) (pattern : String) :
    (∀ files, disk.scan root pattern = .ok files ↔
      ∃ paths, Glob.find disk (patternBelow root.orHere pattern) = .ok paths ∧
        List.Forall₂ (disk.TakenAs root.orHere) (paths.filter disk.isFile) files) ∧
    ∀ paths, Glob.find disk (patternBelow root.orHere pattern) = .ok paths →
      ∀ path ∈ paths, disk.isFile path = true → (∀ file, ¬ disk.TakenAs root.orHere path file) →
        ∃ error, disk.scan root pattern = .error error := by
  refine ⟨fun files => scan_eq_ok_iff, fun paths hpaths path hmem hfile hmisfit => ?_⟩
  cases hscan : disk.scan root pattern with
  | error error => exact ⟨error, rfl⟩
  | ok files =>
      obtain ⟨others, hothers, htaken⟩ := scan_eq_ok_iff.1 hscan
      cases hpaths.symm.trans hothers
      obtain ⟨index, hindex, rfl⟩ := List.getElem_of_mem (List.mem_filter.2 ⟨hmem, hfile⟩)
      exact absurd (htaken.get hindex (htaken.length_eq ▸ hindex)) (hmisfit _)

-- A match that is a directory is passed over, also where it lies outside of the root.
def neighbours : Disk :=
  (Disk.blank.putDirectory "src" []).putDirectory "other" []

theorem scan_passes_over_directory :
    Glob.find neighbours (patternBelow ⟨"src"⟩ "../other") = .ok [⟨"src/../other"⟩] ∧
      (∀ file, ¬ neighbours.TakenAs ⟨"src"⟩ ⟨"src/../other"⟩ file) ∧
      neighbours.scan ⟨"src"⟩ "../other" = .ok [] := by
  obtain ⟨hfind, hscan, hpath, hroot⟩ :
      Glob.find neighbours (patternBelow ⟨"src"⟩ "../other") = .ok [⟨"src/../other"⟩] ∧
        neighbours.scan ⟨"src"⟩ "../other" = .ok [] ∧
        Path.normalComponents ⟨"src/../other"⟩ = [.name "other"] ∧
        Path.normalComponents ⟨"src"⟩ = [.name "src"] := by
    decide +kernel
  refine ⟨hfind, fun file htaken => ?_, hscan⟩
  have hwritten := htaken.written
  rw [hpath, hroot] at hwritten
  exact absurd (List.head_eq_of_cons_eq hwritten) (by decide)

end Disk

end StaticSite
