import StaticSite.Proofs.Scan.Found

-- Scans list what there is, however the root of the scan is written and wherever it lies.
namespace StaticSite

namespace Disk

variable {disk : Disk} {root : Path} {below : Location}

-- A file below the directory that a path leads to, by the names that lead there from it.
def HasFile (disk : Disk) (root : Path) (below : Location) : Prop :=
  below ≠ [] ∧ (disk.file? (below ++ Location.walk disk.workDir root)).isSome

-- The disk follows the path that leads to a file through the root as it is written.
def Follows (root : Path) (below : Location) : Prop :=
  (root.join ⟨"/".intercalate below.reverse⟩).check = .ok ()

instance (root : Path) (below : Location) : Decidable (Follows root below) := by
  unfold Follows
  infer_instance

-- The files below a root whose names are wanted, each once, by the names that lead to them.
structure Lists (disk : Disk) (root : Path) (wanted : String → Prop) (relatives : List String) :
    Prop where
  once : relatives.Nodup
  sound : ∀ relative ∈ relatives, ∃ below, disk.HasFile root below ∧ wanted (below.headD "") ∧
    relative = "/".intercalate below.reverse
  complete : ∀ below, disk.HasFile root below → wanted (below.headD "") → Follows root below →
    "/".intercalate below.reverse ∈ relatives

-- A directory that a scan can be asked for. A relative path needs a working directory.
structure Opens (disk : Disk) (root : Path) : Prop where
  searchable : root.Searchable
  isDirectory : disk.isDirectory root = true
  grounded : root.isAbsolute = true ∨ disk.adrift = 0

theorem hasFile_iff {inside : Folder} (hne : below ≠ [])
    (hget : disk.get? (Location.walk disk.workDir root) = some (.directory inside)) :
    disk.HasFile root below ↔ ∃ content, inside.get? below.reverse = some (.file content) := by
  rw [HasFile, and_iff_right hne, Option.isSome_iff_exists]
  refine exists_congr fun content => ?_
  rw [file?_eq_some, kind?_eq_file, get?_append, hget, Option.bind_some, Entry.get?_directory]

theorem hasFile_named (h : disk.HasFile root below) : below.Named := by
  obtain ⟨content, hcontent⟩ := Option.isSome_iff_exists.1 h.2
  exact (named_of_kind? (file?_eq_some.1 hcontent)).of_append_left

theorem lists_reached (h : root.Searchable) {inside : Folder}
    (hget : disk.get? (Location.walk disk.workDir root) = some (.directory inside))
    (wanted : String → Bool) : disk.Lists root (fun name => wanted name = true)
      (((reached (Glob.opened root) inside).filter fun below => wanted (below.headD "")).map
        fun below => "/".intercalate below.reverse) := by
  have hordered : inside.Ordered := Folder.ordered_of_get? disk.ordered hget
  refine ⟨?_, ?_, ?_⟩
  · have hpairwise : ((reached (Glob.opened root) inside).filter
        fun below => wanted (below.headD "")).Pairwise Location.Before :=
      (pairwise_reached hordered _).filter _
    rw [List.Nodup, List.pairwise_map]
    refine hpairwise.imp_of_mem fun {left right} hleft hright hbefore heq => ?_
    have hleft := List.mem_of_mem_filter hleft
    have hright := List.mem_of_mem_filter hright
    have hsame := Location.names_injective (named_of_mem_reached hordered hleft)
      (named_of_mem_reached hordered hright) heq
    rw [hsame] at hbefore
    exact Std.Irrefl.irrefl right hbefore
  · intro relative hmem
    obtain ⟨below, hbelow, rfl⟩ := List.mem_map.1 hmem
    obtain ⟨hreached, hwanted⟩ := List.mem_filter.1 hbelow
    obtain ⟨hne, -, hfile⟩ := (mem_reached hordered).1 hreached
    exact ⟨below, (hasFile_iff hne hget).2 hfile, hwanted, rfl⟩
  · intro below hfile hwanted hfollows
    refine List.mem_map.2 ⟨below, List.mem_filter.2 ⟨(mem_reached hordered).2 ⟨hfile.1, ?_, ?_⟩,
      hwanted⟩, rfl⟩
    · exact Glob.check_way_opened h hfile.1 (hasFile_named hfile) hfollows
    · exact (hasFile_iff hfile.1 hget).1 hfile

-- Where every file can be followed to, what is reached depends on what the directory holds only.
theorem reached_opened (h : root.Searchable) {inside : Folder}
    (hget : disk.get? (Location.walk disk.workDir root) = some (.directory inside))
    (hfollows : ∀ below, disk.HasFile root below → Follows root below) :
    reached (Glob.opened root) inside =
      ((inside.entries []).filter fun pair => !pair.2.isDirectory).map (·.1) := by
  have hordered : inside.Ordered := Folder.ordered_of_get? disk.ordered hget
  rw [reached]
  refine congrArg (List.map fun pair : Location × Entry => pair.1) (List.filter_congr ?_)
  rintro ⟨below, entry⟩ hmem
  obtain ⟨hne, hentry⟩ := (Folder.mem_entries hordered).1 hmem
  cases entry with
  | directory inner => rfl
  | file content =>
      have hfile := (hasFile_iff hne hget).2 ⟨content, hentry⟩
      have hcheck := Glob.check_way_opened h hne (hasFile_named hfile) (hfollows below hfile)
      simp [Entry.isDirectory, hcheck]

theorem scans_opens (h : disk.Opens root) {inside : Folder}
    (hget : disk.get? (Location.walk disk.workDir root) = some (.directory inside)) :
    disk.scanSource root = .ok (.ofFound (((reached (Glob.opened root) inside).filter
        fun below => isPageName (below.headD "")).map
          (foundAt (Location.walk disk.workDir root)))) ∧
      disk.scanAssets root = .ok ((reached (Glob.opened root) inside).map
        fun below => .ofFound (foundAt (Location.walk disk.workDir root) below)) := by
  obtain ⟨trail, hlead, htrail⟩ := exists_trail_of_isDirectory h.grounded h.isDirectory
  rw [hget, Option.some.injEq, Entry.directory.injEq] at htrail
  subst htrail
  exact scans_of_scan (scan_of_lead h.searchable h.grounded hlead
    (Folder.ordered_of_get? disk.ordered hget))

theorem relatives_ofFound (location : Location) (files : List Location) :
    (SourceTree.ofFound (files.map (foundAt location))).files.map ContentFile.relative =
      files.map fun below => "/".intercalate below.reverse := by
  refine List.ext_getElem? fun index => ?_
  rw [SourceTree.ofFound, SourceTree.link]
  simp only [List.getElem?_map, List.getElem?_mapIdx, Option.map_map]
  rfl

theorem relatives_assets (location : Location) (files : List Location) :
    (files.map fun below => StaticFile.ofFound (foundAt location below)).map StaticFile.relative =
      files.map fun below => "/".intercalate below.reverse := by
  rw [List.map_map]
  rfl

theorem scan_exact (h : disk.Opens root) : ∃ tree assets,
    disk.scanSource root = .ok tree ∧ disk.scanAssets root = .ok assets ∧
    disk.Lists root (fun name => ".html".toList <:+ name.toList)
      (tree.files.map ContentFile.relative) ∧
    disk.Lists root (fun _ => True) (assets.map StaticFile.relative) ∧
    ∀ (other : Disk) (otherRoot : Path) (otherTree : SourceTree) (otherAssets : List StaticFile),
      other.Opens otherRoot →
      other.get? (Location.walk other.workDir otherRoot) =
        disk.get? (Location.walk disk.workDir root) →
      (∀ below, disk.HasFile root below → Follows root below) →
      (∀ below, other.HasFile otherRoot below → Follows otherRoot below) →
      other.scanSource otherRoot = .ok otherTree → other.scanAssets otherRoot = .ok otherAssets →
        otherTree.files.map ContentFile.relative = tree.files.map ContentFile.relative ∧
        otherAssets.map StaticFile.relative = assets.map StaticFile.relative := by
  obtain ⟨trail, -, hget⟩ := exists_trail_of_isDirectory h.grounded h.isDirectory
  obtain ⟨hsource, hassets⟩ := scans_opens h hget
  refine ⟨_, _, hsource, hassets, ?_, ?_, ?_⟩
  · have hlists := lists_reached h.searchable hget isPageName
    rw [relatives_ofFound]
    simpa only [isPageName, List.isSuffixOf_iff_suffix] using hlists
  · have hlists := lists_reached h.searchable hget fun _ => true
    rw [relatives_assets]
    simpa only [List.filter_true] using hlists
  · intro other otherRoot otherTree otherAssets hother hsame hfollows hotherFollows hotherSource
      hotherAssets
    rw [hget] at hsame
    obtain ⟨hsource', hassets'⟩ := scans_opens hother hsame
    rw [hotherSource, Except.ok.injEq] at hsource'
    rw [hotherAssets, Except.ok.injEq] at hassets'
    subst hsource' hassets'
    rw [reached_opened h.searchable hget hfollows,
      reached_opened hother.searchable hsame hotherFollows, relatives_ofFound, relatives_ofFound,
      relatives_assets, relatives_assets]
    exact ⟨rfl, rfl⟩

-- A page and an asset in a directory of the working directory.
def holding (name : String) : Disk :=
  let disk := ((Disk.blank.putDirectory "site" []).putDirectory name ["site"]).workIn ["site"]
  (disk.putFile "a.html" [name, "site"] "x".toUTF8).putFile "b.css" [name, "site"] "y".toUTF8

theorem scan_exact_of_brackets :
    ∃ tree assets, (holding "src[1]*").scanSource ⟨"./src[1]*//"⟩ = .ok tree ∧
      (holding "src[1]*").scanAssets ⟨"./src[1]*//"⟩ = .ok assets ∧
      "a.html" ∈ tree.files.map ContentFile.relative ∧
      "b.css" ∉ tree.files.map ContentFile.relative ∧
      "b.css" ∈ assets.map StaticFile.relative := by
  have hsegments : Path.segments "./src[1]*//" = [".", "src[1]*", "", ""] := by decide
  have hopens : (holding "src[1]*").Opens ⟨"./src[1]*//"⟩ := by
    refine ⟨⟨by decide, by decide +kernel, fun count rest heq => ?_⟩, by decide +kernel,
      .inr (by decide +kernel)⟩
    rw [hsegments] at heq
    cases count with
    | zero => simp at heq
    | succ count => simp [List.replicate_succ] at heq
  obtain ⟨tree, assets, htree, hassets, hpages, hall, -⟩ := scan_exact hopens
  have hpage : (holding "src[1]*").HasFile ⟨"./src[1]*//"⟩ ["a.html"] :=
    ⟨by decide, by decide +kernel⟩
  have hasset : (holding "src[1]*").HasFile ⟨"./src[1]*//"⟩ ["b.css"] :=
    ⟨by decide, by decide +kernel⟩
  refine ⟨tree, assets, htree, hassets, ?_, fun hmem => ?_, ?_⟩
  · exact hpages.complete ["a.html"] hpage (by decide +kernel) (by decide +kernel)
  · obtain ⟨below, hfile, hwanted, heq⟩ := hpages.sound "b.css" hmem
    have hbelow : ["b.css"] = below :=
      Location.names_injective (hasFile_named hasset) (hasFile_named hfile) heq
    subst hbelow
    exact absurd hwanted (by decide)
  · exact hall.complete ["b.css"] hasset trivial (by decide +kernel)

-- A directory whose name ends in a backslash: the scan looks in another one.
theorem scan_misses_backslash :
    ¬ ∀ (disk : Disk) (root : Path), disk.isDirectory root = true → disk.adrift = 0 →
      ∀ tree, disk.scanSource root = .ok tree →
        ∀ below, disk.HasFile root below → ".html".toList <:+ (below.headD "").toList →
          "/".intercalate below.reverse ∈ tree.files.map ContentFile.relative := by
  intro h
  have hmem := h (holding "src\\") ⟨"src\\"⟩ (by decide +kernel) (by decide +kernel) ⟨[]⟩
    (by decide +kernel) ["a.html"] ⟨by decide, by decide +kernel⟩ (by decide +kernel)
  cases hmem

end Disk

end StaticSite
