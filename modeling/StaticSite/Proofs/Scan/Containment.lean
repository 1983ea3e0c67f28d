import Mathlib.Data.List.TakeWhile
import StaticSite.Proofs.Disk.Following
import StaticSite.Proofs.Path.Characters
import StaticSite.Scan

-- A scan finds files below its root only, known by the names that lead to them from there.
namespace StaticSite

namespace Glob

theorem class?_suffix {chars after : List Char} {token : Token}
    (h : class? chars = some (token, after)) : after <:+ chars := by
  have hcut : ∀ {rest inside other : List Char}, Text.cut? ']' rest = some (inside, other) →
      other <:+ rest := by
    intro rest inside other hinside
    rw [Text.cut?_eq_some hinside]
    exact (List.suffix_cons _ _).trans (List.suffix_append _ _)
  unfold class? at h
  split at h
  · obtain ⟨⟨inside, other⟩, hinside, heq⟩ := Option.map_eq_some_iff.1 h
    cases heq
    exact (hcut hinside).trans ((List.suffix_cons _ _).trans (List.suffix_cons _ _))
  · split at h
    · cases h
    · obtain ⟨⟨inside, other⟩, hinside, heq⟩ := Option.map_eq_some_iff.1 h
      cases heq
      exact (hcut hinside).trans (List.suffix_cons _ _)
  · cases h

theorem ne_char_of_class? {chars after : List Char} {c : Char} :
    class? chars ≠ some (.char c, after) := by
  intro h
  unfold class? at h
  split at h
  · simp at h
  · split at h <;> simp at h
  · cases h

-- The characters of a pattern's tokens are characters of the pattern.
theorem mem_of_parseFrom {position : Nat} {previous c : Char} {chars : List Char}
    {tokens : List Token} (h : parseFrom position previous chars = .ok tokens)
    (hmem : .char c ∈ tokens) : c ∈ chars := by
  have hnext : ∀ {token : Token} {rest : Except PatternError (List Token)} {tokens : List Token},
      (do return token :: (← rest)) = Except.ok tokens → .char c ∈ tokens →
        .char c = token ∨ ∃ others, rest = .ok others ∧ .char c ∈ others := by
    intro token rest tokens hrest htokens
    cases rest with
    | error error => cases hrest
    | ok others =>
        cases hrest
        exact (List.mem_cons.1 htokens).imp id fun hothers => ⟨others, rfl, hothers⟩
  induction position, previous, chars using parseFrom.induct generalizing tokens with
  | case1 => rw [parseFrom] at h; cases h; cases hmem
  | case2 position previous rest ih =>
      rw [parseFrom] at h
      rcases hnext h hmem with heq | ⟨others, hothers, hmem⟩
      · cases heq
      · exact List.mem_cons_of_mem _ (ih hothers hmem)
  | case3 => rw [parseFrom] at h; cases h
  | case4 position previous rest hstar hprevious =>
      cases rest with
      | nil => rw [parseFrom, if_pos hprevious] at h; cases h
      | cons first more =>
          rw [parseFrom, if_pos hprevious] at h
          · cases h
          · exact hstar
  | case5 position previous hprevious hstar =>
      rw [parseFrom, if_neg hprevious] at h
      cases h
      simp at hmem
  | case6 position previous hprevious after hstar ih =>
      rw [parseFrom, if_neg hprevious] at h
      · simp only [↓reduceIte] at h
        rcases hnext h hmem with heq | ⟨others, hothers, hmem⟩
        · cases heq
        · exact List.mem_cons_of_mem _ (List.mem_cons_of_mem _ (List.mem_cons_of_mem _
            (ih hothers hmem)))
      · exact hstar
  | case7 position previous hprevious other after hother hstar =>
      rw [parseFrom, if_neg hprevious] at h
      · simp [hother] at h
      · exact hstar
  | case8 position previous rest hthree htwo ih =>
      rw [parseFrom] at h
      · rcases hnext h hmem with heq | ⟨others, hothers, hmem⟩
        · cases heq
        · exact List.mem_cons_of_mem _ (ih hothers hmem)
      · exact hthree
      · exact htwo
  | case9 position previous rest hclass =>
      rw [parseFrom] at h
      split at h
      · cases h
      · next hsome => rw [hclass] at hsome; cases hsome
  | case10 position previous rest token after hclass hlength ih =>
      rw [parseFrom] at h
      split at h
      · cases h
      · next other more hsome =>
        rw [hclass] at hsome
        cases hsome
        rcases hnext h hmem with heq | ⟨others, hothers, hmem⟩
        · exact absurd (heq ▸ hclass) ne_char_of_class?
        · exact List.mem_cons_of_mem _ ((class?_suffix hclass).subset (ih hothers hmem))
  | case11 position previous first rest hany hthree htwo hone hclass ih =>
      rw [parseFrom] at h
      · rcases hnext h hmem with heq | ⟨others, hothers, hmem⟩
        · cases heq
          exact List.mem_cons_self
        · exact List.mem_cons_of_mem _ (ih hothers hmem)
      · exact hany
      · exact hthree
      · exact htwo
      · exact hone
      · exact hclass

theorem not_mem_of_ofTokens {name level : String} {tokens : List Token}
    (hlevel : '/' ∉ level.toList) (hparse : parse level = .ok tokens)
    (h : Step.ofTokens tokens = .literal name) : '/' ∉ name.toList := by
  unfold Step.ofTokens at h
  split at h
  · cases h
  · dsimp only at h
    split at h
    · cases h
      rw [String.toList_ofList]
      intro hmem
      obtain ⟨token, htoken, hchar⟩ := List.mem_filterMap.1 hmem
      split at hchar
      · cases hchar
        exact hlevel (mem_of_parseFrom hparse htoken)
      · cases hchar
    · cases h

end Glob

namespace Folder

theorem isName_of_mem_names {name : String} {folder : Folder} (h : folder.Ordered)
    (hmem : name ∈ folder.names) : IsName name := by
  induction folder with
  | empty => cases hmem
  | file other content rest ih =>
      rcases List.mem_cons.1 hmem with rfl | hmem
      · exact h.1
      · exact ih h.2.2 hmem
  | directory other inside rest _ ih =>
      rcases List.mem_cons.1 hmem with rfl | hmem
      · exact h.1
      · exact ih h.2.2.2 hmem

end Folder

theorem Disk.ordered_inside (disk : Disk) (path : Path) : (disk.inside path).Ordered := by
  unfold Disk.inside Disk.entry?
  cases hfind : disk.find path with
  | error fault => exact trivial
  | ok spot =>
      change (spot.entry disk).inside.Ordered
      cases spot with
      | removed above => exact trivial
      | file trail name content => exact trivial
      | directory trail =>
          exact Folder.ordered_of_get? disk.ordered (Spot.get?_location (find_valid hfind).1 trivial)

namespace Glob

theorem isAbsolute_mk_of_not_mem {name : String} (h : '/' ∉ name.toList) :
    (Path.mk name).isAbsolute = false := by
  rw [Path.isAbsolute, decide_eq_false_iff_not]
  intro hhead
  exact h (List.mem_of_head? hhead)

theorem isAbsolute_extend {path : Path} {name : String} (hpath : path.isAbsolute = false)
    (hname : '/' ∉ name.toList) : (extend path name).isAbsolute = false := by
  unfold extend
  split
  · exact isAbsolute_mk_of_not_mem hname
  · exact Path.isAbsolute_join_eq_false hpath (isAbsolute_mk_of_not_mem hname)

theorem isAbsolute_of_mem_below {path found : Path} {folder : Folder} {name : String}
    (hpath : path.isAbsolute = false) (hfolder : folder.Ordered)
    (h : (name, found) ∈ below path folder) : found.isAbsolute = false := by
  induction folder generalizing path with
  | empty => cases h
  | file other content rest ih =>
      rcases List.mem_cons.1 h with heq | h
      · cases heq
        exact isAbsolute_extend hpath hfolder.1.2.2.2
      · exact ih hpath hfolder.2.2 h
  | directory other inside rest ihinside ihrest =>
      have hchild := isAbsolute_extend hpath hfolder.1.2.2.2
      rw [below] at h
      rcases List.mem_cons.1 h with heq | h
      · cases heq
        exact hchild
      · rcases List.mem_append.1 h with h | h
        · split at h
          · cases h
          · exact ihinside hchild hfolder.2.2.1 h
        · exact ihrest hpath hfolder.2.2.2 h

-- A search that starts at a relative path finds relative paths.
theorem isAbsolute_of_mem_search {disk : Disk} {directories : Bool} {steps : List Step}
    {path found : Path} (hsteps : ∀ name, .literal name ∈ steps → '/' ∉ name.toList)
    (hpath : path.isAbsolute = false) (h : found ∈ search disk directories steps path) :
    found.isAbsolute = false := by
  have hdisk := disk.ordered_inside
  induction steps, path using search.induct disk directories generalizing found with
  | case1 path hno =>
      rw [search, if_pos hno] at h
      cases h
  | case2 path hyes =>
      rw [search, if_neg hyes, List.mem_singleton] at h
      rw [h]
      exact hpath
  | case3 name rest path next test htest =>
      rename_i ih
      have hname := hsteps name List.mem_cons_self
      rw [search, if_pos htest] at h
      exact ih (fun other hmem => hsteps other (List.mem_cons_of_mem _ hmem))
        (isAbsolute_extend hpath hname) h
  | case4 name rest path next test =>
      rename_i htest
      rw [search, if_neg htest] at h
      cases h
  | case5 tokens rest path hdirectory =>
      rw [search, if_pos hdirectory] at h
      cases h
  | case6 tokens rest path hdirectory ihdots ihentries =>
      have hrest : ∀ name, .literal name ∈ rest → '/' ∉ name.toList :=
        fun other hmem => hsteps other (List.mem_cons_of_mem _ hmem)
      rw [search, if_neg hdirectory] at h
      rcases List.mem_append.1 h with h | h
      · obtain ⟨name, hname, h⟩ := List.mem_flatMap.1 h
        have hdots : '/' ∉ name.toList := by
          unfold dots at hname
          split at hname
          · have := List.mem_of_mem_filter hname
            simp only [List.mem_cons, List.not_mem_nil, or_false] at this
            rcases this with rfl | rfl <;> decide
          · cases hname
        exact ihdots name hrest
          (Path.isAbsolute_join_eq_false hpath (isAbsolute_mk_of_not_mem hdots)) h
      · obtain ⟨⟨name, child⟩, hchild, h⟩ := List.mem_flatMap.1 h
        obtain ⟨other, hother, heq⟩ := List.mem_map.1 hchild
        cases heq
        dsimp only at h
        split at h
        · exact ihentries _ hrest
            (isAbsolute_extend hpath (Folder.isName_of_mem_names (hdisk path) hother).2.2.2) h
        · cases h
  | case7 rest path ih =>
      rw [search] at h
      exact ih (fun other hmem => hsteps other (List.mem_cons_of_mem _ hmem)) hpath h
  | case8 path =>
      rw [search] at h
      obtain ⟨⟨name, child⟩, hchild, rfl⟩ := List.mem_map.1 h
      exact isAbsolute_of_mem_below hpath (hdisk path) (List.mem_of_mem_filter hchild)
  | case9 step rest path hstep ih =>
      rw [search] at h
      · obtain ⟨⟨name, child⟩, hchild, h⟩ := List.mem_flatMap.1 h
        dsimp only at h
        split at h
        · exact ih child (fun other hmem => hsteps other (List.mem_cons_of_mem _
            (List.mem_cons_of_mem _ hmem))) (isAbsolute_of_mem_below hpath (hdisk path) hchild) h
        · cases h
      · exact hstep

-- What a pattern that does not begin with a slash finds.
theorem isAbsolute_of_mem_find {disk : Disk} {pattern : String} {paths : List Path} {found : Path}
    (hpattern : pattern.toList.head? ≠ some '/') (h : find disk pattern = .ok paths)
    (hmem : found ∈ paths) : found.isAbsolute = false := by
  obtain ⟨tokens, -, h⟩ := bind_eq_ok.1 h
  simp only [if_neg hpattern] at h
  obtain ⟨steps, hsteps, h⟩ := bind_eq_ok.1 h
  cases h
  refine isAbsolute_of_mem_search ?_ rfl hmem
  intro name hname
  split at hname
  · cases List.mem_singleton.1 hname
    decide
  · obtain ⟨level, hlevel, hstep⟩ := exists_of_mem_mapM hsteps hname
    obtain ⟨parsed, hparsed, hstep⟩ := bind_eq_ok.1 hstep
    have hsegment : level ∈ Path.segments (String.ofList pattern.toList) := by
      unfold levels at hlevel
      dsimp only at hlevel
      split at hlevel
      · exact List.dropLast_subset _ hlevel
      · exact hlevel
    exact not_mem_of_ofTokens (Path.not_mem_of_mem_segments hsegment) hparsed
      (Except.ok.inj hstep)

theorem mem_escape {c : Char} {text : String} (h : c ∈ text.toList) : c ∈ (escape text).toList := by
  rw [escape, String.toList_ofList]
  refine List.mem_flatMap.2 ⟨c, h, ?_⟩
  split <;> simp

theorem head?_escape {text : String} (h : (escape text).toList.head? = some '/') :
    text.toList.head? = some '/' := by
  rw [escape, String.toList_ofList] at h
  cases hchars : text.toList with
  | nil => simp [hchars] at h
  | cons c rest =>
      rw [hchars, List.flatMap_cons] at h
      split at h
      · simp at h
      · simpa using h

end Glob

namespace Disk

variable {disk : Disk}

-- Names that are no dots lead down.
theorem foldl_follow_ne_nil {segments : List String} {start : Location}
    (h : ∀ segment ∈ segments, segment ≠ "..") (hstart : start ≠ []) :
    segments.foldl Location.follow start ≠ [] := by
  induction segments generalizing start with
  | nil => exact hstart
  | cons segment rest ih =>
      refine ih (fun other hmem => h other (List.mem_cons_of_mem _ hmem)) ?_
      rw [Location.follow, if_neg (h segment List.mem_cons_self)]
      split
      · exact hstart
      · simp

theorem walk_backslashes {root : Path} (hne : root.text ≠ "") (hrelative : root.isAbsolute = false)
    (h : ∀ c ∈ root.text.toList, c = '/' ∨ c = '\\') : Location.walk [] root ≠ [] := by
  obtain ⟨c, chars, hchars⟩ := List.exists_cons_of_ne_nil
    (show root.text.toList ≠ [] by simpa using hne)
  have hc : c = '\\' := by
    refine (h c (by simp [hchars])).resolve_left fun hslash => ?_
    simp [Path.isAbsolute, hchars, hslash] at hrelative
  obtain ⟨first, rest, hsegments, hfirst⟩ : ∃ first rest,
      Path.segments root.text = first :: rest ∧ c ∈ first.toList := by
    rw [Path.segments, hchars, Path.pieces, if_neg (by rw [hc]; decide)]
    split
    · exact ⟨_, _, rfl, by simp⟩
    · exact ⟨_, _, rfl, by simp⟩
  have hsegment : ∀ segment ∈ Path.segments root.text, '.' ∉ segment.toList := by
    intro segment hmem hdot
    rcases h '.' (Path.mem_of_mem_segments hmem hdot) with heq | heq <;> cases heq
  rw [Location.walk_eq_foldl_follow, hsegments, List.foldl_cons]
  refine foldl_follow_ne_nil (fun segment hmem heq => ?_) ?_
  · exact hsegment segment (hsegments ▸ List.mem_cons_of_mem _ hmem) (by rw [heq]; decide)
  · have hdot := hsegment first (hsegments ▸ List.mem_cons_self)
    rw [Location.follow, if_neg, if_neg]
    · simp
    · rintro rfl
      exact hdot (by decide)
    · rintro (rfl | rfl)
      · cases hfirst
      · exact hdot (by decide)

theorem head?_patternBelow {root : Path} {pattern : String} (hne : root.text ≠ "")
    (h : root.normalComponents = []) : (patternBelow root pattern).toList.head? ≠ some '/' := by
  have hrelative : root.isAbsolute = false := by
    rw [Bool.eq_false_iff]
    intro habsolute
    rw [Path.normalComponents_of_isAbsolute habsolute] at h
    cases h
  let trimmed := ((Glob.escape root.text).toList.reverse.dropWhile
    fun c => decide (c = '/' ∨ c = '\\')).reverse
  have hpattern : (patternBelow root pattern).toList = trimmed ++ '/' :: pattern.toList := by
    simp [patternBelow, trimmed]
  have hprefix : trimmed <+: (Glob.escape root.text).toList := by
    rw [← List.reverse_suffix, List.reverse_reverse]
    exact List.dropWhile_suffix _
  rw [hpattern]
  cases htrimmed : trimmed with
  | nil =>
      have hall : ∀ c ∈ root.text.toList, c = '/' ∨ c = '\\' := by
        intro c hmem
        have hdrop := List.dropWhile_eq_nil_iff.1 (List.reverse_eq_nil_iff.1 htrimmed) c
          (List.mem_reverse.2 (Glob.mem_escape hmem))
        simpa using hdrop
      have hwalk := Path.foldl_step_normalComponents root []
      rw [h] at hwalk
      exact absurd hwalk.symm (walk_backslashes hne hrelative hall)
  | cons c rest =>
      intro hhead
      rw [htrimmed] at hprefix
      obtain ⟨more, hmore⟩ := hprefix
      have hescape : (Glob.escape root.text).toList.head? = some '/' := by
        rw [← hmore]
        simpa using hhead
      simp [Path.isAbsolute, Glob.head?_escape hescape] at hrelative

theorem under?_eq_some {path base : Path} {names : List Component}
    (h : path.under? base = some names) : path.components = base.components ++ names := by
  have hsplit : ∀ {front whole rest : List Component},
      Path.remainder? front whole = some rest → whole = front ++ rest := by
    intro front
    induction front with
    | nil =>
        intro whole rest hrest
        cases hrest
        rfl
    | cons first more ih =>
        intro whole rest hrest
        cases whole with
        | nil => cases hrest
        | cons other others =>
            rw [Path.remainder?] at hrest
            split at hrest
            · next heq => rw [heq, ih hrest, List.cons_append]
            · cases hrest
  exact hsplit h

theorem under?_of_components {path base : Path} {names : List Component}
    (h : path.components = base.components ++ names) : path.under? base = some names := by
  rw [Path.under?, h]
  induction base.components with
  | nil => rfl
  | cons part rest ih => rw [List.cons_append, Path.remainder?, if_pos rfl, ih]

theorem placeBelow_eq_ok {start : Option Location} {root path : Path} {file : FoundFile}
    (hrelative : root.components = [] → path.isAbsolute = false)
    (h : placeBelow start root path = .ok file) :
    ∃ below : Location, below ≠ [] ∧ below.Named ∧
      path.normalComponents = root.components ++ below.reverse.map .name ∧
      file.relative = "/".intercalate below.reverse ∧ path.absolute start = .ok file.absolute := by
  unfold placeBelow at h
  dsimp only at h
  split at h
  · cases h
  · next names hunder =>
    have hcomponents := under?_eq_some hunder
    rw [Path.components_normalize] at hcomponents
    split at h
    · cases h
    · next hnames =>
      rw [not_or] at hnames
      obtain ⟨absolute, habsolute, h⟩ := bind_eq_ok.1 h
      cases h
      -- Only a first component can be the root, and nothing is left to go up.
      have hplain : ∀ part ∈ names, part.IsPlain := by
        intro part hmem
        cases hpath : path.isAbsolute with
        | false =>
            refine Path.isPlain_of_mem_normalComponents hpath part ?_
            rw [hcomponents]
            exact List.mem_append_right _ hmem
        | true =>
            rw [Path.normalComponents_of_isAbsolute hpath] at hcomponents
            cases hroot : root.components with
            | nil =>
                rw [hrelative hroot] at hpath
                cases hpath
            | cons first rest =>
                rw [hroot, List.cons_append] at hcomponents
                injection hcomponents with _ hrest
                refine (Path.named_walk_root path).isPlain part ?_
                rw [hrest]
                exact List.mem_append_right _ hmem
      obtain ⟨texts, rfl⟩ : ∃ texts : List String, names = texts.map .name := by
        refine ⟨names.map Component.text, ?_⟩
        rw [List.map_map, eq_comm]
        refine (List.map_congr_left fun part hmem => ?_).trans (List.map_id names)
        cases hplain part hmem with
        | up => exact absurd hmem hnames.2
        | name htext => rfl
      have hnamed : Location.Named texts.reverse := by
        intro name hmem
        cases hplain (.name name) (List.mem_map.2 ⟨name, List.mem_reverse.1 hmem, rfl⟩) with
        | name htext => exact htext
      refine ⟨texts.reverse, by simpa using hnames.1, hnamed, by simpa using hcomponents, ?_, ?_⟩
      · rw [List.reverse_reverse]
        dsimp only
        rw [Path.toSlash, Path.components_ofComponents hplain, List.filterMap_map]
        exact congrArg _ List.filterMap_some
      · revert habsolute
        cases path.absolute start with
        | error fault => exact fun h => nomatch h
        | ok other => exact fun h => by cases h; rfl

-- Each file of a scan lies below the root of the scan.
theorem scan_spec {root : Path} {pattern : String} {files : List FoundFile} {file : FoundFile}
    (h : disk.scan root pattern = .ok files) (hmem : file ∈ files) :
    ∃ below : Location, below ≠ [] ∧ below.Named ∧ file.relative = "/".intercalate below.reverse ∧
      file.absolute = (below ++ Location.walk disk.workDir root).path ∧
      (below ++ Location.walk disk.workDir root).Named := by
  let start : Path := if root.text = "" then ⟨"."⟩ else root
  have hstart : Location.walk disk.workDir start = Location.walk disk.workDir root ∧
      start.text ≠ "" := by
    by_cases hempty : root.text = ""
    · have : root = ⟨""⟩ := by cases root; simp_all
      subst this
      exact ⟨by simp only [start, ↓reduceIte]; rfl, by simp [start]⟩
    · simp [start, hempty]
  obtain ⟨paths, hpaths, h⟩ := bind_eq_ok.1 h
  obtain ⟨path, hpath, hplace⟩ := exists_of_mem_mapM h hmem
  replace hpaths : Glob.find disk (patternBelow start pattern) = .ok paths := by
    revert hpaths
    cases Glob.find disk (patternBelow start pattern) with
    | error error => exact fun h => nomatch h
    | ok other => exact fun h => by cases h; rfl
  have hrelative : start.normalize.components = [] → path.isAbsolute = false := by
    intro hnil
    rw [Path.components_normalize] at hnil
    exact Glob.isAbsolute_of_mem_find (head?_patternBelow hstart.2 hnil) hpaths
      (List.mem_of_mem_filter hpath)
  obtain ⟨below, hbelow, hnamed, hnormal, hname, habsolute⟩ := placeBelow_eq_ok hrelative hplace
  have hwalk : Location.walk disk.workDir path = below ++ Location.walk disk.workDir root := by
    rw [← Path.foldl_step_normalComponents, hnormal, List.foldl_append,
      Location.foldl_step_names, Path.components_normalize, Path.foldl_step_normalComponents,
      hstart.1, List.reverse_reverse]
  refine ⟨below, hbelow, hnamed, hname, ?_⟩
  rw [← hwalk]
  exact eq_path_of_absolute habsolute

end Disk

end StaticSite
