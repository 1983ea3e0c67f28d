import StaticSite.Proofs.Scan.Exact

-- What the scans of a directory find.
namespace StaticSite

namespace Glob

-- A pattern for names at any depth, and how the level for the names is read.
structure NamePattern where
  last : String
  tokens : List Token
  nonempty : last ≠ ""
  single : '/' ∉ last.toList
  reads : parse last = .ok tokens
  shallow : Step.ofTokens tokens ≠ .deep
  whole : ∀ position, ∃ all, parseFrom position '/' ("**/" ++ last).toList = .ok all

namespace NamePattern

def text (pattern : NamePattern) : String :=
  "**/" ++ pattern.last

def accepts (pattern : NamePattern) (name : String) : Bool :=
  (Step.ofTokens pattern.tokens).accepts name

def pages : NamePattern where
  last := "*.html"
  tokens := .many :: ".html".toList.map exactToken
  nonempty := by decide
  single := by decide
  reads := by
    rw [show ".html".toList.map exactToken =
      [.char '.', .char 'h', .char 't', .char 'm', .char 'l'] by decide]
    simp [parse, parseFrom]
  shallow := by decide
  whole position := by simp [parseFrom]

def everything : NamePattern where
  last := "*"
  tokens := [.many]
  nonempty := by decide
  single := by decide
  reads := by simp [parse, parseFrom]
  shallow := by decide
  whole position := by simp [parseFrom]

theorem accepts_pages (name : String) :
    pages.accepts name = ".html".toList.isSuffixOf name.toList := by
  have hstep : Step.ofTokens pages.tokens = .names (.many :: ".html".toList.map exactToken) := by
    decide
  rw [accepts, hstep, Bool.eq_iff_iff, List.isSuffixOf_iff_suffix]
  refine (matchesName_many _ _).trans ?_
  simp only [matchesName_exactTokens, exists_eq_right]

theorem accepts_everything (name : String) : everything.accepts name = true := by
  have hstep : Step.ofTokens everything.tokens = .names [.many] := by decide
  rw [accepts, hstep]
  exact (matchesName_many _ _).2 ⟨[], List.nil_suffix, rfl⟩

end NamePattern

end Glob

namespace Disk

variable {disk : Disk} {root : Path} {below : Location}

-- The pattern spells the root without the slashes and backslashes at its end.
theorem toList_patternBelow_kept (root : Path) (pattern : String) :
    (patternBelow root pattern).toList =
      root.kept.flatMap Glob.escapeChar ++ '/' :: pattern.toList := by
  obtain ⟨ending, htext, hending⟩ := root.toList_eq_kept_append
  have hsame : ∀ {chars : List Char}, (∀ c ∈ chars, c = '/' ∨ c = '\\') →
      chars.flatMap Glob.escapeChar = chars := by
    intro chars h
    rw [List.flatMap_def, List.map_congr_left fun c hmem => show Glob.escapeChar c = [c] by
      rcases h c hmem with rfl | rfl <;> decide, ← List.flatMap_def, List.flatMap_singleton']
  have hkept : (Path.mk (Glob.escape root.text)).kept = root.kept.flatMap Glob.escapeChar := by
    refine Path.kept_eq ?_ hending fun c hlast => ?_
    · rw [Glob.toList_escape, htext, List.flatMap_append, hsame hending]
    · rcases List.eq_nil_or_concat' root.kept with hnil | ⟨chars, last, hconcat⟩
      · rw [hnil] at hlast
        cases hlast
      · obtain ⟨hslash, hback⟩ := Path.getLast?_kept (hconcat ▸ List.getLast?_concat)
        obtain ⟨front, other, hother, hnoslash, hnoback⟩ := Glob.getLast?_escapeChar hslash hback
        rw [hconcat, List.flatMap_append, List.flatMap_singleton, hother, ← List.append_assoc,
          List.getLast?_concat, Option.some.injEq] at hlast
        exact hlast ▸ ⟨hnoslash, hnoback⟩
  rw [← hkept]
  unfold patternBelow Path.kept
  simp

theorem toList_patternBelow (h : root.bare.toList.getLast? ≠ some '\\') (pattern : String) :
    (patternBelow root pattern).toList =
      root.bare.toList.flatMap Glob.escapeChar ++ '/' :: pattern.toList := by
  rw [toList_patternBelow_kept, Path.kept_of_ending h]

-- The pattern begins where the search does, and goes on with the levels of the root.
theorem exists_body (hne : root.text ≠ "") (pattern : Glob.NamePattern) :
    ∃ body, body ≠ [] ∧ Glob.levels body = root.levels.map Glob.escape ++ ["**", pattern.last] ∧
      (let chars := root.bare.toList.flatMap Glob.escapeChar ++ '/' :: pattern.text.toList
        if chars.head? = some '/' then (Path.mk "/", chars.tail) else (⟨"."⟩, chars)) =
          (Glob.origin root, body) := by
  obtain ⟨hpattern, hbelow⟩ := Glob.levels_below pattern.nonempty pattern.single
  rw [← Glob.NamePattern.text] at hpattern hbelow
  cases hchars : root.bare.toList with
  | nil =>
      obtain ⟨habsolute, hlevels⟩ := Path.levels_of_bare_nil hne hchars
      refine ⟨pattern.text.toList, by simp [Glob.NamePattern.text], ?_, ?_⟩
      · rw [hpattern, hlevels]
        rfl
      · rw [Glob.origin, if_pos habsolute]
        rfl
  | cons c rest =>
      by_cases hc : c = '/'
      · subst hc
        obtain ⟨habsolute, hlevels⟩ := Path.levels_of_bare_slash hchars
        refine ⟨rest.flatMap Glob.escapeChar ++ '/' :: pattern.text.toList, by simp,
          by rw [hbelow, hlevels], ?_⟩
        rw [Glob.origin, if_pos habsolute, List.flatMap_cons,
          show Glob.escapeChar '/' = ['/'] by decide]
        rfl
      · obtain ⟨habsolute, hlevels⟩ := Path.levels_of_bare_cons hc hchars
        refine ⟨(c :: rest).flatMap Glob.escapeChar ++ '/' :: pattern.text.toList, by simp,
          by rw [hbelow, hlevels], ?_⟩
        have hfirst : ((c :: rest).flatMap Glob.escapeChar ++
            '/' :: pattern.text.toList).head? ≠ some '/' := by
          rw [List.flatMap_cons, Glob.escapeChar]
          split <;> simp [hc]
        dsimp only
        rw [if_neg hfirst, Glob.origin, habsolute, if_neg (by decide)]

theorem exists_parse_patternBelow (h : root.bare.toList.getLast? ≠ some '\\')
    (pattern : Glob.NamePattern) :
    ∃ tokens, Glob.parse (patternBelow root pattern.text) = .ok tokens := by
  obtain ⟨position, previous, hescape⟩ :=
    Glob.parseFrom_escape root.bare.toList ('/' :: pattern.text.toList) 0 '/'
  obtain ⟨more, hmore⟩ := pattern.whole (position + 1)
  refine ⟨root.bare.toList.map Glob.exactToken ++ .char '/' :: more, ?_⟩
  rw [Glob.parse, toList_patternBelow h, hescape, Glob.parseFrom, Glob.NamePattern.text, hmore]
  · rfl
  · decide
  · exact fun _ heq => absurd heq (by decide)
  · exact fun _ heq => absurd heq (by decide)
  · decide
  · decide

-- The levels of the pattern are those of the root, any number of directories, and `last`.
theorem mapM_parse_levels (levels : List String) (pattern : Glob.NamePattern) :
    (levels.map Glob.escape ++ ["**", pattern.last]).mapM
        (fun level => return Glob.Step.ofTokens (← Glob.parse level)) =
      .ok (levels.map Glob.exactStep ++ [.deep, .ofTokens pattern.tokens]) := by
  refine mapM_append_eq_ok ?_ ?_
  · rw [List.mapM_map]
    refine mapM_eq_ok_map fun name _ => ?_
    simp only [Function.comp_apply, Glob.parse_escape]
    rfl
  · have hdeep : Glob.parse "**" = .ok [.deep] := by
      simp [Glob.parse, Glob.parseFrom]
    refine mapM_cons_eq_ok.2 ⟨.deep, [.ofTokens pattern.tokens], ?_, mapM_cons_eq_ok.2
      ⟨.ofTokens pattern.tokens, [], ?_, rfl, rfl⟩, rfl⟩
    · rw [hdeep]
      rfl
    · rw [pattern.reads]
      rfl

theorem getLast?_patternBelow (h : root.bare.toList.getLast? ≠ some '\\')
    (pattern : Glob.NamePattern) :
    (patternBelow root pattern.text).toList.getLast? ≠ some '/' := by
  obtain ⟨front, c, hc, hne⟩ := Path.exists_last pattern.nonempty pattern.single
  rw [toList_patternBelow h, Glob.NamePattern.text, String.toList_append, hc, ← List.append_assoc,
    ← List.cons_append, ← List.append_assoc, List.getLast?_concat]
  simpa using hne

-- The search goes through the levels of the root first.
theorem find_patternBelow_levels (hne : root.text ≠ "")
    (h : root.bare.toList.getLast? ≠ some '\\') (pattern : Glob.NamePattern) :
    Glob.find disk (patternBelow root pattern.text) = .ok (Glob.search disk false
      (root.levels.map Glob.exactStep ++ [.deep, .ofTokens pattern.tokens]) (Glob.origin root)) := by
  obtain ⟨tokens, htokens⟩ := exists_parse_patternBelow h pattern
  obtain ⟨body, hbody, hlevels, hbegin⟩ := exists_body hne pattern
  have hsteps := mapM_parse_levels root.levels pattern
  rw [← toList_patternBelow h] at hbegin
  rw [Glob.find, htokens]
  simp only [bind, Except.bind] at hsteps ⊢
  dsimp only at hbegin
  rw [hbegin]
  dsimp only
  rw [hlevels, hsteps]
  dsimp only
  rw [if_neg hbody, decide_eq_false (getLast?_patternBelow h pattern)]
  rfl

theorem find_patternBelow (h : root.Searchable) (pattern : Glob.NamePattern) :
    Glob.find disk (patternBelow root pattern.text) =
      .ok (Glob.search disk false [.deep, .ofTokens pattern.tokens] (Glob.opened root)) := by
  rw [find_patternBelow_levels h.nonempty h.ending pattern]
  exact congrArg Except.ok (Glob.search_exactSteps pattern.shallow (Glob.spells_levels h))

-- A place that a path leads to, as a path of its own.
theorem absolute_base? {path : Path} (hne : path.text ≠ "")
    (hstart : path.isAbsolute = true ∨ disk.adrift = 0) :
    path.absolute disk.base? = .ok (Location.walk disk.workDir path).path := by
  obtain ⟨target, htarget⟩ : ∃ target, path.absolute disk.base? = .ok target := by
    rcases hstart with habsolute | hadrift
    · exact ⟨_, Path.absolute_of_isAbsolute habsolute _⟩
    · rw [base?, if_pos hadrift, Path.absolute, if_neg hne]
      split
      · exact ⟨_, rfl⟩
      · exact ⟨_, rfl⟩
  rw [htarget, (eq_path_of_absolute htarget).1]

-- Where a directory stands that a path leads to.
theorem exists_trail_of_isDirectory {path : Path}
    (hstart : path.isAbsolute = true ∨ disk.adrift = 0) (h : disk.isDirectory path = true) :
    ∃ trail, disk.lead path = .ok (.directory trail) ∧
      disk.get? (Location.walk disk.workDir path) = some (.directory (trail.inside disk)) := by
  obtain ⟨-, spot, hlead, hdirectory⟩ := isDirectory_iff.1 h
  have horigin : (disk.origin path).Stands := by
    rw [origin]
    rcases hstart with habsolute | hadrift
    · rw [if_pos habsolute]
      trivial
    · rw [hadrift]
      split <;> trivial
  obtain ⟨hvalid, hlocation, hstands⟩ :=
    foldlM_enter_valid (not_mem_steps path) (disk.origin_valid path).1 hlead
  have hget := Spot.get?_location hvalid (hstands horigin)
  rw [hlocation, ← walk_eq_foldl_steps] at hget
  cases spot with
  | file trail name content => cases hdirectory
  | removed above => exact (hstands horigin).elim
  | directory trail => exact ⟨trail, hlead, hget⟩

-- How a file below a directory is known.
def foundAt (root below : Location) : FoundFile :=
  ⟨"/".intercalate below.reverse, Location.path (below ++ root)⟩

-- The names of a file are what its normal form adds to that of the root, however the root is
-- written.
theorem placeBelow_way (h : root.Searchable) (hstart : root.isAbsolute = true ∨ disk.adrift = 0)
    (hne : below ≠ []) (hnamed : below.Named) :
    placeBelow disk.base? root.normalize (Glob.way (Glob.opened root) below) =
      .ok (foundAt (Location.walk disk.workDir root) below) := by
  have hopened := Glob.isSpelled_opened h
  have hnormal := Glob.normalComponents_way hopened hnamed
  rw [Glob.normalComponents_opened h] at hnormal
  have hunder : (Glob.way (Glob.opened root) below).normalize.under? root.normalize =
      some (below.reverse.map .name) :=
    under?_of_components (by rw [Path.components_normalize, Path.components_normalize, hnormal])
  have hwalk : Location.walk disk.workDir (Glob.way (Glob.opened root) below) =
      below ++ Location.walk disk.workDir root := by
    rw [← Path.foldl_step_normalComponents, hnormal, List.foldl_append,
      Path.foldl_step_normalComponents, Location.foldl_step_names, List.reverse_reverse]
  have habsolute : (Glob.way (Glob.opened root) below).isAbsolute = true ∨ disk.adrift = 0 := by
    rwa [Glob.way, (Glob.spells_way hopened hnamed).isAbsolute, Glob.isAbsolute_opened h]
  have hslash : (Path.ofComponents (below.reverse.map .name)).toSlash =
      "/".intercalate below.reverse := by
    rw [Path.toSlash, Path.components_ofComponents hnamed.isPlain, List.filterMap_map]
    exact congrArg _ List.filterMap_some
  unfold placeBelow
  simp only [hunder]
  rw [if_neg (by simp [hne]), absolute_base? (Glob.isSpelled_way hopened hnamed).1 habsolute,
    hwalk, hslash]
  rfl

-- A file of the source tree, by its name.
def isPageName (name : String) : Bool :=
  ".html".toList.isSuffixOf name.toList

-- What is found of a directory, as far as a pattern accepts it.
theorem scan_eq (h : root.Searchable) (pattern : Glob.NamePattern) : disk.scan root pattern.text =
    ((Glob.search disk false [.deep, .ofTokens pattern.tokens] (Glob.opened root)).filter
      disk.isFile).mapM (placeBelow disk.base? root.normalize) := by
  unfold scan
  simp only [if_neg h.nonempty]
  rw [find_patternBelow h pattern]
  rfl

theorem scan_of_lead (h : root.Searchable) (hstart : root.isAbsolute = true ∨ disk.adrift = 0)
    {trail : Trail} (hlead : disk.lead root = .ok (.directory trail))
    (hordered : (trail.inside disk).Ordered) (pattern : Glob.NamePattern) :
    disk.scan root pattern.text = .ok (((reached (Glob.opened root) (trail.inside disk)).filter
      fun below => pattern.accepts (below.headD "")).map
        (foundAt (Location.walk disk.workDir root))) := by
  have hplace : ∀ below ∈ (reached (Glob.opened root) (trail.inside disk)).filter
      fun below => pattern.accepts (below.headD ""),
      (placeBelow disk.base? root.normalize ∘ Glob.way (Glob.opened root)) below =
        .ok (foundAt (Location.walk disk.workDir root) below) := by
    intro below hmem
    have hreached := List.mem_of_mem_filter hmem
    rw [Function.comp_apply]
    exact placeBelow_way h hstart ((mem_reached hordered).1 hreached).1
      (named_of_mem_reached hordered hreached)
  rw [scan_eq h, filter_isFile_search_deep pattern.shallow (Glob.isSpelled_opened h)
    ((Glob.lead_opened h).trans hlead) hordered, List.mapM_map]
  exact mapM_eq_ok_map hplace

theorem scan_of_not_directory (h : root.Searchable)
    (hnot : disk.isDirectory (Glob.opened root) = false) (pattern : Glob.NamePattern) :
    disk.scan root pattern.text = .ok [] := by
  rw [scan_eq h, Glob.search_deep pattern.shallow, inside_of_isDirectory_eq_false hnot]
  rfl

-- The two scans of a directory differ in the names that they accept.
theorem scans_of_scan {location : Location} {files : List Location}
    (h : ∀ pattern : Glob.NamePattern, disk.scan root pattern.text =
      .ok ((files.filter fun below => pattern.accepts (below.headD "")).map (foundAt location))) :
    disk.scanSource root =
        .ok (.ofFound ((files.filter fun below => isPageName (below.headD "")).map
          (foundAt location))) ∧
      disk.scanAssets root = .ok (files.map fun below => .ofFound (foundAt location below)) := by
  constructor
  · rw [scanSource, show sourcePattern = Glob.NamePattern.pages.text by decide, h]
    simp only [Glob.NamePattern.accepts_pages]
    rfl
  · rw [scanAssets, show assetPattern = Glob.NamePattern.everything.text by decide, h]
    simp only [Glob.NamePattern.accepts_everything, List.filter_true]
    change Except.ok _ = Except.ok _
    rw [List.map_map]
    rfl

end Disk

-- The scans of a directory that is given by the path of its place.
namespace Disk

variable {disk : Disk} {root : Location}

theorem listed_eq_reached {inside : Folder} (hget : disk.get? root = some (.directory inside)) :
    disk.listed root = reached root.path inside := by
  have hordered : inside.Ordered := Folder.ordered_of_get? disk.ordered hget
  have hnamed : root.Named := named_of_kind? (kind?_of_get? hget)
  rw [listed, hget, reached]
  dsimp only
  refine congrArg (List.map fun pair : Location × Entry => pair.1) (List.filter_congr ?_)
  rintro ⟨below, entry⟩ hmem
  have hbelow := (Folder.named_of_mem_entries hordered hmem).append hnamed
  dsimp only
  rw [Glob.way_path hbelow]
  rfl

theorem listed_of_isDirectory_eq_false (hnamed : root.Named)
    (h : disk.isDirectory root.path = false) : disk.listed root = [] := by
  rw [List.eq_nil_iff_forall_not_mem]
  intro below hmem
  obtain ⟨hne, hfollow, hfile⟩ := mem_listed.1 hmem
  obtain ⟨content, hcontent⟩ := Option.isSome_iff_exists.1 hfile
  rw [Bool.eq_false_iff] at h
  exact h ((isDirectory_path hnamed).2
    ⟨hfollow.above, kind?_above hne (file?_eq_some.1 hcontent)⟩)

theorem scan_path (hnamed : root.Named) (hback : root.path.text.toList.getLast? ≠ some '\\')
    (pattern : Glob.NamePattern) : disk.scan root.path pattern.text =
      .ok (((disk.listed root).filter fun below => pattern.accepts (below.headD "")).map
        (foundAt root)) := by
  have hsearchable := Location.searchable_path hnamed hback
  have hopened := Glob.opened_path hnamed
  have hwalk := Location.walk_path hnamed disk.workDir
  by_cases hdirectory : disk.isDirectory root.path = true
  · have hstart := Or.inl (b := disk.adrift = 0) (Location.isAbsolute_path root)
    obtain ⟨trail, hlead, hget⟩ := exists_trail_of_isDirectory hstart hdirectory
    rw [hwalk] at hget
    rw [scan_of_lead hsearchable hstart hlead (Folder.ordered_of_get? disk.ordered hget), hopened,
      hwalk, listed_eq_reached hget]
  · rw [Bool.not_eq_true] at hdirectory
    rw [scan_of_not_directory hsearchable (by rwa [hopened]),
      listed_of_isDirectory_eq_false hnamed hdirectory]
    rfl

def pagesBelow (disk : Disk) (root : Location) : List Location :=
  (disk.listed root).filter fun below => isPageName (below.headD "")

theorem scanSource_place (hnamed : root.Named)
    (hback : root.path.text.toList.getLast? ≠ some '\\') : disk.scanSource root.path =
    .ok (.ofFound ((disk.pagesBelow root).map (foundAt root))) :=
  (scans_of_scan (scan_path hnamed hback)).1

theorem scanSource_path (h : root.Keeps) : disk.scanSource root.path =
    .ok (.ofFound ((disk.pagesBelow root).map (foundAt root))) :=
  scanSource_place h.2.1 h.2.2

theorem scanAssets_path (h : root.Keeps) : disk.scanAssets root.path =
    .ok ((disk.listed root).map fun below => .ofFound (foundAt root below)) :=
  (scans_of_scan (scan_path h.2.1 h.2.2)).2

end Disk

end StaticSite
