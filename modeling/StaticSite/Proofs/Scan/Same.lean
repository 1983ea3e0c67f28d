import StaticSite.Proofs.Disk.Same
import StaticSite.Proofs.Scan.Anywhere

-- Two scans of a directory find the same, where the directory holds the same files, also if it is
-- written in two ways.
namespace StaticSite

namespace Path

variable {root : Path}

-- The levels of a root that a search gets lost in: dots, an empty level, and more.
theorem levels_of_not_passing {count : Nat} {rest : List String}
    (hsegments : segments root.text = List.replicate (count + 1) "." ++ "" :: rest)
    (hrest : ¬ ∀ segment ∈ rest, segment = "") :
    root.isAbsolute = false ∧
      ∃ more, root.levels = List.replicate (count + 1) "." ++ "" :: more := by
  have hrelative : root.isAbsolute = false := by
    rw [Bool.eq_false_iff]
    intro habsolute
    obtain ⟨others, -, heq⟩ := isAbsolute_iff.1 habsolute
    rw [hsegments, List.replicate_succ, List.cons_append, List.cons.injEq] at heq
    exact absurd heq.1 (by decide)
  refine ⟨hrelative, ?_⟩
  obtain ⟨slashes, hbare⟩ := root.segments_eq_bare_append
  rw [levels_relative hrelative]
  rw [hsegments] at hbare
  have hslashes : ∀ others : List String, others ++ "" :: rest ≠ List.replicate slashes "" :=
    fun others heq => hrest fun segment hmem =>
      List.eq_of_mem_replicate (heq ▸ List.mem_append_right _ (List.mem_cons_of_mem _ hmem))
  rcases List.append_eq_append_iff.1 hbare with ⟨more, hlevels, hmore⟩ | ⟨others, -, heq⟩
  · cases more with
    | nil => exact absurd hmore (hslashes [])
    | cons first more =>
        rw [List.cons_append, List.cons.injEq] at hmore
        exact ⟨more, hmore.1 ▸ hlevels⟩
  · exact absurd heq.symm (hslashes others)

end Path

namespace Glob

-- A search gets lost at an empty level after nothing but dots.
theorem search_lost (disk : Disk) (count : Nat) (rest : List Step) :
    search disk false ((List.replicate count ".").map exactStep ++ exactStep "" :: rest) ⟨"."⟩ =
      [] := by
  induction count with
  | zero =>
      have hempty : disk.has (extend ⟨"."⟩ "") = false := by
        rw [extend_dot, Disk.has, Disk.entry?]
        rfl
      rw [List.replicate_zero, List.map_nil, List.nil_append,
        show exactStep "" = .literal "" by decide, search]
      simp [hempty]
  | succ count ih =>
      rw [List.replicate_succ, List.map_cons, List.cons_append,
        show exactStep "." = .literal "." by decide, search, extend_dot, ih, ite_self]

end Glob

namespace Disk

variable {disk other : Disk} {root : Path}

theorem scan_of_not_passing (hne : root.text ≠ "") (hending : root.bare.toList.getLast? ≠ some '\\')
    {count : Nat} {rest : List String}
    (hsegments : Path.segments root.text = List.replicate (count + 1) "." ++ "" :: rest)
    (hrest : ¬ ∀ segment ∈ rest, segment = "") (pattern : Glob.NamePattern) :
    disk.scan root pattern.text = .ok [] := by
  obtain ⟨hrelative, more, hlevels⟩ := Path.levels_of_not_passing hsegments hrest
  have horigin : Glob.origin root = ⟨"."⟩ := by
    rw [Glob.origin, hrelative, if_neg (by decide)]
  unfold scan
  simp only [if_neg hne]
  rw [find_patternBelow_levels hne hending, hlevels, horigin, List.map_append, List.map_cons,
    List.append_assoc, List.cons_append, Glob.search_lost]
  rfl

-- The files below a directory that a search from there can follow a path to, each as the way that
-- leads there from the directory.
def searched (disk : Disk) (root : Path) : List Location :=
  match disk.get? (Location.walk disk.workDir root) with
  | some (.directory inside) => reached (Glob.opened root) inside
  | _ => []

theorem mem_searched {below : Location} : below ∈ disk.searched root ↔
    below ≠ [] ∧ (Glob.way (Glob.opened root) below).check = .ok () ∧
      (disk.file? (below ++ Location.walk disk.workDir root)).isSome := by
  unfold searched
  split
  · next inside hget =>
    have hordered : inside.Ordered := Folder.ordered_of_get? disk.ordered hget
    rw [mem_reached hordered, file?, kind?, get?_append, hget,
      Option.bind_some, Entry.get?_directory]
    refine and_congr_right fun _ => and_congr_right fun _ => ?_
    cases inside.get? below.reverse with
    | none => simp
    | some entry => cases entry <;> simp [Entry.kind]
  · next hnot =>
    have hroot : disk.kind? (Location.walk disk.workDir root) ≠ some .directory := by
      intro hkind
      obtain ⟨inside, hget⟩ := kind?_eq_directory.1 hkind
      exact hnot inside hget
    simp only [List.not_mem_nil, false_iff, not_and]
    intro hne _
    rw [file?, kind?_below_of_ne_directory hroot hne]
    simp

theorem pairwise_searched (disk : Disk) (root : Path) :
    (disk.searched root).Pairwise Location.Before := by
  unfold searched
  split
  · next inside hget => exact pairwise_reached (Folder.ordered_of_get? disk.ordered hget) _
  · exact .nil

-- What a search finds depends on the files below its root only.
theorem searched_congr (hbase : SameBase disk other)
    (h : ∀ location, within (Location.walk disk.workDir root) location →
      other.file? location = disk.file? location) : other.searched root = disk.searched root := by
  refine (pairwise_searched other root).eq_of_mem_iff (pairwise_searched disk root) fun below => ?_
  rw [mem_searched, mem_searched, hbase.workDir, h _ (within_append _ _)]

theorem filter_isFile_search (h : root.Searchable) (hstraight : root.Straight)
    (hgrounded : disk.Grounded root) (pattern : Glob.NamePattern) :
    (Glob.search disk false [.deep, .ofTokens pattern.tokens] (Glob.opened root)).filter
        disk.isFile =
      ((disk.searched root).filter fun below =>
        (Glob.Step.ofTokens pattern.tokens).accepts (below.headD "")).map
          (Glob.way (Glob.opened root)) := by
  have hfollowing := following_path hstraight hgrounded
  unfold searched
  split
  · next inside hget =>
    have hkind := kind?_of_get? hget
    rw [walk_eq_foldl_steps] at hkind
    obtain ⟨trail, hlead⟩ := hfollowing.directory hkind
    obtain ⟨hvalid, hlocation, -⟩ :=
      foldlM_enter_valid (not_mem_steps root) (disk.origin_valid root).1 hlead
    have hinside := Trail.get?_location hvalid
    rw [show trail.location = _ from hlocation, ← walk_eq_foldl_steps, hget, Option.some.injEq,
      Entry.directory.injEq] at hinside
    subst hinside
    exact filter_isFile_search_deep pattern.shallow (Glob.isSpelled_opened h)
      ((Glob.lead_opened h).trans hlead) (Folder.ordered_of_get? disk.ordered hget)
  · next hnot =>
    have hdirectory : disk.isDirectory (Glob.opened root) = false := by
      rw [Bool.eq_false_iff]
      intro hdirectory
      obtain ⟨-, spot, hlead, hspot⟩ := isDirectory_iff.1 hdirectory
      rw [Glob.lead_opened h] at hlead
      obtain ⟨hvalid, hlocation, -⟩ :=
        foldlM_enter_valid (not_mem_steps root) (disk.origin_valid root).1 hlead
      have hget := Spot.get?_location hvalid (hfollowing.stands spot hlead)
      rw [hlocation, ← walk_eq_foldl_steps] at hget
      cases spot with
      | directory trail => exact hnot _ hget
      | file trail name content => cases hspot
      | removed above => exact hfollowing.stands _ hlead
    rw [Glob.search_deep pattern.shallow, inside_of_isDirectory_eq_false hdirectory]
    rfl

-- The scan of a straight root depends on the files below it, and on where relative paths start.
theorem scan_congr (hne : root.text ≠ "") (hending : root.bare.toList.getLast? ≠ some '\\')
    (hstraight : root.Straight) (hgrounded : disk.Grounded root) (hbase : SameBase disk other)
    (h : ∀ location, within (Location.walk disk.workDir root) location →
      other.file? location = disk.file? location) (pattern : Glob.NamePattern) :
    other.scan root pattern.text = disk.scan root pattern.text := by
  by_cases hpassing : ∀ count rest, Path.segments root.text =
      List.replicate (count + 1) "." ++ "" :: rest → ∀ segment ∈ rest, segment = ""
  · have hsearchable : root.Searchable := ⟨hne, hending, hpassing⟩
    rw [scan_eq hsearchable, scan_eq hsearchable,
      filter_isFile_search hsearchable hstraight hgrounded,
      filter_isFile_search hsearchable hstraight (hbase.grounded hgrounded),
      searched_congr hbase h, hbase.base?_eq]
  · simp only [not_forall] at hpassing
    obtain ⟨count, rest, hsegments, hrest⟩ := hpassing
    rw [scan_of_not_passing hne hending hsegments (by simpa using hrest),
      scan_of_not_passing hne hending hsegments (by simpa using hrest)]

section Scans

variable (hne : root.text ≠ "") (hending : root.bare.toList.getLast? ≠ some '\\')
  (hstraight : root.Straight) (hgrounded : disk.Grounded root) (hbase : SameBase disk other)
  (h : ∀ location, within (Location.walk disk.workDir root) location →
    other.file? location = disk.file? location)

include hne hending hstraight hgrounded hbase h

theorem scanSource_congr : other.scanSource root = disk.scanSource root := by
  rw [scanSource, scanSource, show sourcePattern = Glob.NamePattern.pages.text by decide,
    scan_congr hne hending hstraight hgrounded hbase h]

theorem scanAssets_congr : other.scanAssets root = disk.scanAssets root := by
  rw [scanAssets, scanAssets, show assetPattern = Glob.NamePattern.everything.text by decide,
    scan_congr hne hending hstraight hgrounded hbase h]

end Scans

-- A file that has been found is there.
theorem file?_of_mem_scan {pattern : String} {files : List FoundFile} {file : FoundFile}
    (h : disk.scan root pattern = .ok files) (hmem : file ∈ files) :
    ∃ location content, Location.Named location ∧ file.absolute = location.path ∧
      disk.file? location = some content := by
  obtain ⟨paths, -, h⟩ := bind_eq_ok.1 h
  obtain ⟨path, hpath, hplace⟩ := exists_of_mem_mapM h hmem
  obtain ⟨content, hread⟩ := exists_read_of_isFile (List.mem_filter.1 hpath).2
  unfold placeBelow at hplace
  dsimp only at hplace
  split at hplace
  · cases hplace
  · split at hplace
    · cases hplace
    · obtain ⟨absolute, hmapped, hplace⟩ := bind_eq_ok.1 hplace
      cases hplace
      cases htarget : path.absolute disk.base? with
      | error fault =>
          rw [htarget] at hmapped
          cases hmapped
      | ok target =>
          rw [htarget] at hmapped
          cases hmapped
          obtain ⟨htarget, hnamed⟩ := eq_path_of_absolute htarget
          exact ⟨_, content, hnamed, htarget, file?_of_read hread⟩

-- It is below the root of the scan, and there too.
theorem hasFile_of_mem_scan {pattern : String} {files : List FoundFile} {file : FoundFile}
    (h : disk.scan root pattern = .ok files) (hmem : file ∈ files) :
    ∃ below, disk.HasFile root below ∧ file.relative = "/".intercalate below.reverse := by
  obtain ⟨below, hne, hnamed, hrelative, habsolute, hplace⟩ := scan_spec h hmem
  obtain ⟨location, content, hlocation, habsolute', hcontent⟩ := file?_of_mem_scan h hmem
  refine ⟨below, ⟨hne, ?_⟩, hrelative⟩
  rw [Location.path_injective hplace hlocation (habsolute.symm.trans habsolute'), hcontent]
  rfl

section Spellings

variable {next : Disk} {path target : Path}

theorem grounded_of_based (h : path.isAbsolute = true ∨ disk.adrift = 0) : disk.Grounded path :=
  h.imp_right fun hzero => by simp [hzero]

-- Two straight ways to one place, each from a directory that stands.
structure Meets (disk : Disk) (path target : Path) : Prop where
  straight : path.Straight ∧ target.Straight
  based : ∀ way ∈ [path, target], way.isAbsolute = true ∨ disk.adrift = 0
  walk : Location.walk disk.workDir target = Location.walk disk.workDir path

theorem Meets.sameBase (h : disk.Meets path target) (hsame : SameBase disk next) :
    next.Meets path target := by
  refine ⟨h.straight, ?_, ?_⟩
  · rw [hsame.adrift]
    exact h.based
  · rw [hsame.workDir]
    exact h.walk

-- A scan finds the files below its root that it can follow a path to.
theorem scan_searched (h : root.Searchable) (hstraight : root.Straight)
    (hbased : root.isAbsolute = true ∨ disk.adrift = 0) (pattern : Glob.NamePattern) :
    disk.scan root pattern.text =
      .ok (((disk.searched root).filter fun below => pattern.accepts (below.headD "")).map
        (foundAt (Location.walk disk.workDir root))) := by
  have hplace : ∀ below ∈ (disk.searched root).filter fun below => pattern.accepts (below.headD ""),
      (placeBelow disk.base? root.normalize ∘ Glob.way (Glob.opened root)) below =
        .ok (foundAt (Location.walk disk.workDir root) below) := by
    intro below hmem
    obtain ⟨hne, -, hfile⟩ := mem_searched.1 (List.mem_of_mem_filter hmem)
    rw [Function.comp_apply]
    exact placeBelow_way h hbased hne (hasFile_named ⟨hne, hfile⟩)
  rw [scan_eq h, filter_isFile_search h hstraight (grounded_of_based hbased), List.mapM_map]
  exact mapM_eq_ok_map hplace

theorem exists_scanAssets (h : root.Searchable) (hstraight : root.Straight)
    (hbased : root.isAbsolute = true ∨ disk.adrift = 0) :
    ∃ files, disk.scanAssets root = .ok files := by
  rw [scanAssets, show assetPattern = Glob.NamePattern.everything.text by decide,
    scan_searched h hstraight hbased]
  exact ⟨_, rfl⟩

-- If these are all files, it does not matter how the root is written.
theorem searched_eq (h : root.Searchable) (htarget : target.Searchable)
    (hwalk : Location.walk disk.workDir target = Location.walk disk.workDir root)
    (hfollows : ∀ below, disk.HasFile root below → Follows root below ∧ Follows target below) :
    disk.searched target = disk.searched root := by
  refine (pairwise_searched disk target).eq_of_mem_iff (pairwise_searched disk root) fun below => ?_
  rw [mem_searched, mem_searched, hwalk]
  refine and_congr_right fun hne => and_congr_left fun hfile => ?_
  have hthere : disk.HasFile root below := ⟨hne, hfile⟩
  have hnamed := hasFile_named hthere
  exact iff_of_true (Glob.check_way_opened htarget hne hnamed (hfollows below hthere).2)
    (Glob.check_way_opened h hne hnamed (hfollows below hthere).1)

theorem scans_eq (h : root.Searchable) (htarget : target.Searchable) (hmeets : disk.Meets root target)
    (hfollows : ∀ below, disk.HasFile root below → Follows root below ∧ Follows target below) :
    disk.scanSource target = disk.scanSource root ∧ disk.scanAssets target = disk.scanAssets root := by
  have hscan : ∀ pattern : Glob.NamePattern,
      disk.scan target pattern.text = disk.scan root pattern.text := fun pattern => by
    rw [scan_searched h hmeets.straight.1 (hmeets.based _ (by simp)),
      scan_searched htarget hmeets.straight.2 (hmeets.based _ (by simp)),
      searched_eq h htarget hmeets.walk hfollows, hmeets.walk]
  constructor
  · rw [scanSource, scanSource, show sourcePattern = Glob.NamePattern.pages.text by decide, hscan]
  · rw [scanAssets, scanAssets, show assetPattern = Glob.NamePattern.everything.text by decide,
      hscan]

end Spellings

end Disk

end StaticSite
