import StaticSite.Disk.Basic
import StaticSite.Proofs.Path.Walk

-- Places on a disk and the paths that name them.
namespace StaticSite

namespace Location

-- One segment of a path, followed from a place. It may be empty.
def follow (location : Location) (segment : String) : Location :=
  if segment = "" ∨ segment = "." then location
  else if segment = ".." then location.tail
  else segment :: location

theorem foldl_step_filterMap (segments : List String) (location : Location) :
    (segments.filterMap Component.ofSegment?).foldl step location =
      segments.foldl follow location := by
  induction segments generalizing location with
  | nil => rfl
  | cons segment rest ih =>
      rw [List.filterMap_cons, List.foldl_cons]
      by_cases hnone : segment = "" ∨ segment = "."
      · simp only [Component.ofSegment?, if_pos hnone, follow]
        exact ih location
      · by_cases hup : segment = ".."
        · simp only [Component.ofSegment?, follow, hup, ↓reduceIte]
          exact ih location.tail
        · simp only [Component.ofSegment?, if_neg hnone, follow, hup, ↓reduceIte]
          exact ih (segment :: location)

theorem walk_eq_foldl_follow (start : Location) (path : Path) :
    walk start path =
      (Path.segments path.text).foldl follow (if path.isAbsolute then [] else start) := by
  obtain ⟨first, rest, heq⟩ := List.exists_cons_of_ne_nil (Path.segments_ne_nil path.text)
  have hcomponents : path.components =
      if first = "" then
        if rest = [] then [] else .root :: rest.filterMap Component.ofSegment?
      else if first = "." then .here :: rest.filterMap Component.ofSegment?
      else (Component.ofSegment? first).toList ++ rest.filterMap Component.ofSegment? := by
    rw [Path.components, heq]
  have habsolute : path.isAbsolute = true ↔ first = "" ∧ rest ≠ [] := by
    rcases Path.components_cases path with ⟨parts, hparts, htrue, -⟩ | ⟨hfalse, parts, hplain, hparts⟩
    · rw [hcomponents] at hparts
      simp only [htrue, true_iff]
      by_cases hfirst : first = ""
      · refine ⟨hfirst, fun hnil => ?_⟩
        simp [hfirst, hnil] at hparts
      · exfalso
        rw [if_neg hfirst] at hparts
        split at hparts
        · cases hparts
        · next hdot =>
          unfold Component.ofSegment? at hparts
          split at hparts
          · next h => exact h.elim hfirst hdot
          · split at hparts <;> cases hparts
    · simp only [hfalse, Bool.false_eq_true, false_iff, not_and, Decidable.not_not]
      intro hfirst
      by_contra hnil
      rw [hcomponents, if_pos hfirst, if_neg hnil] at hparts
      rcases hparts with hparts | hparts
      · exact Path.not_root_mem_of_isPlain hplain (hparts ▸ List.mem_cons_self)
      · cases hparts
  rw [walk, hcomponents, heq, List.foldl_cons]
  by_cases hfirst : first = ""
  · by_cases hnil : rest = []
    · have hfalse : path.isAbsolute = false := by simp [Bool.eq_false_iff, habsolute, hnil]
      simp [hfirst, hnil, hfalse, follow]
    · have htrue : path.isAbsolute = true := habsolute.2 ⟨hfirst, hnil⟩
      simp only [hfirst, hnil, htrue, ↓reduceIte, List.foldl_cons, foldl_step_filterMap]
      rfl
  · have hfalse : path.isAbsolute = false := by simp [Bool.eq_false_iff, habsolute, hfirst]
    simp only [if_neg hfirst, hfalse]
    by_cases hdot : first = "."
    · simp only [hdot, ↓reduceIte, List.foldl_cons, foldl_step_filterMap]
      rfl
    · simp only [if_neg hdot, List.foldl_append, foldl_step_filterMap]
      have hone := foldl_step_filterMap [first] start
      simp only [List.filterMap_cons, List.filterMap_nil, List.foldl_cons, List.foldl_nil] at hone
      cases hof : Component.ofSegment? first with
      | none => rw [hof] at hone; simp [← hone]
      | some part => rw [hof] at hone; simp [← hone]

end Location

namespace Path

-- Following a joined path is to follow its two parts one after the other.
theorem walk_join (start : Location) {path rest : Path} (h : rest.isAbsolute = false) :
    Location.walk start (path.join rest) = Location.walk (Location.walk start path) rest := by
  have hcase : path.text = "" ∨ path.text.toList ≠ [] := by
    by_cases hempty : path.text = ""
    · exact .inl hempty
    · exact .inr (by simpa using hempty)
  unfold join
  rw [if_neg (by simp [h])]
  rcases hcase with hempty | hne
  · rw [if_pos (.inl hempty), hempty]
    have hwalk : Location.walk start path = start := by
      have : path = ⟨""⟩ := by cases path; simp_all
      subst this; rfl
    rw [hwalk]
    congr 1
  · have habs : ∀ more : List Char, (Path.mk (String.ofList (path.text.toList ++ more))).isAbsolute
        = path.isAbsolute := by
      intro more
      rw [isAbsolute, isAbsolute, String.toList_ofList]
      cases hchars : path.text.toList with
      | nil => exact absurd hchars hne
      | cons c others => rfl
    split
    · next hslash =>
      have hslash : path.text.toList.getLast? = some '/' := by
        rcases hslash with hempty | hslash
        · simp [hempty] at hne
        · exact hslash
      obtain ⟨front, hfront⟩ := List.getLast?_eq_some_iff.1 hslash
      have htext : path.text ++ rest.text =
          String.ofList (path.text.toList ++ rest.text.toList) := by simp
      have hpath : segments path.text = segments (String.ofList front) ++ [""] := by
        conv_lhs => rw [← String.ofList_toList (s := path.text), hfront]
        exact segments_ofList_append front []
      have hboth : segments (path.text ++ rest.text) =
          segments (String.ofList front) ++ segments rest.text := by
        rw [htext, hfront, List.append_assoc, List.singleton_append, segments_ofList_append,
          String.ofList_toList]
      rw [Location.walk_eq_foldl_follow, Location.walk_eq_foldl_follow,
        Location.walk_eq_foldl_follow start, h]
      simp only [hboth, hpath, List.foldl_append]
      rw [htext, habs]
      simp [Location.follow]
    · have htext : path.text ++ "/" ++ rest.text =
          String.ofList (path.text.toList ++ '/' :: rest.text.toList) := by
        apply String.toList_inj.1; simp
      have hboth : segments (path.text ++ "/" ++ rest.text) =
          segments path.text ++ segments rest.text := by
        rw [htext, segments_ofList_append, String.ofList_toList, String.ofList_toList]
      rw [Location.walk_eq_foldl_follow, Location.walk_eq_foldl_follow,
        Location.walk_eq_foldl_follow start, h]
      simp only [hboth, List.foldl_append]
      rw [htext, habs]
      simp

theorem isAbsolute_join {path rest : Path} (h : path.isAbsolute) :
    (path.join rest).isAbsolute := by
  unfold join
  split
  · assumption
  · rw [isAbsolute] at h
    obtain ⟨chars, hchars⟩ : ∃ chars, path.text.toList = '/' :: chars := by
      cases hlist : path.text.toList with
      | nil => simp [hlist] at h
      | cons c others =>
        have : c = '/' := by simpa [hlist] using h
        exact ⟨others, by rw [this]⟩
    split <;> simp [isAbsolute, hchars]

theorem isAbsolute_join_eq_false {path rest : Path} (h : path.isAbsolute = false)
    (hrest : rest.isAbsolute = false) : (path.join rest).isAbsolute = false := by
  rw [join, if_neg (by simp [hrest])]
  by_cases hempty : path.text = ""
  · simpa [hempty] using hrest
  · have happend : ∀ more : String, (Path.mk (path.text ++ more)).isAbsolute = false := by
      intro more
      obtain ⟨c, chars, hchars⟩ := List.exists_cons_of_ne_nil
        (show path.text.toList ≠ [] by simpa using hempty)
      rw [isAbsolute, hchars] at h
      simpa [isAbsolute, hchars] using h
    split
    · exact happend rest.text
    · rw [String.append_assoc]
      exact happend _

theorem absolute_of_isAbsolute {path : Path} (h : path.isAbsolute) (start : Option Location) :
    path.absolute start = .ok (Location.walk [] path).path := by
  have hne : path.text ≠ "" := by
    rintro hempty
    simp [isAbsolute, hempty] at h
  unfold absolute
  rw [if_neg hne, if_pos h, normalize_of_isAbsolute h]

theorem absolute_of_normal {path : Path} (h : path.isAbsolute) (hnormal : path.normalize = path)
    (start : Option Location) : path.absolute start = .ok path := by
  rw [absolute_of_isAbsolute h, ← normalize_of_isAbsolute h, hnormal]

-- Where a path leads from a directory, as a path of its own.
theorem absolute_eq_ok {path target : Path} {start : Location} (hstart : start.Named)
    (h : path.absolute (some start) = .ok target) : target = (Location.walk start path).path := by
  unfold absolute at h
  split at h
  · cases h
  · split at h
    · next habs =>
      rw [Except.ok.injEq] at h
      rw [← h, normalize_of_isAbsolute habs, walk_of_isAbsolute habs start]
    · next habs =>
      rw [Except.ok.injEq] at h
      have hrel : path.isAbsolute = false := Bool.eq_false_iff.2 habs
      rw [← h, normalize_of_isAbsolute (isAbsolute_join (Location.isAbsolute_path start)),
        walk_join [] hrel, Location.walk_path hstart]

theorem absolute_none_eq_ok {path target : Path} (h : path.absolute none = .ok target) :
    path.isAbsolute := by
  unfold absolute at h
  split at h
  · cases h
  · split at h
    · assumption
    · cases h

theorem spell_names (names : List String) :
    spell (names.map .name) = (['/'] : List Char).intercalate (names.map String.toList) := by
  induction names with
  | nil => rfl
  | cons name rest ih =>
      cases rest with
      | nil => simp [spell, Component.text]
      | cons next others =>
          rw [List.map_cons, List.map_cons, spell, ← List.map_cons, ih]
          · simp [List.intercalate_cons_cons, Component.text]
          · simp
          · simp

end Path

namespace Location

variable {location base : Location} {name : String}

theorem text_path (h : location ≠ []) :
    location.path.text = "/" ++ "/".intercalate location.reverse := by
  apply String.toList_inj.1
  obtain ⟨first, rest, heq⟩ := List.exists_cons_of_ne_nil (List.reverse_ne_nil_iff.2 h)
  rw [path, Path.ofComponents, String.toList_ofList, String.toList_append,
    String.toList_intercalate, heq, List.map_cons, Path.spell]
  · rw [← List.map_cons, Path.spell_names]
    rfl
  · simp

theorem text_path_eq_intercalate (h : location ≠ []) :
    location.path.text = "/".intercalate ("" :: location.reverse) := by
  obtain ⟨first, rest, heq⟩ := List.exists_cons_of_ne_nil (List.reverse_ne_nil_iff.2 h)
  rw [text_path h, heq]
  apply String.toList_inj.1
  simp [String.toList_intercalate]

theorem intercalate_append {front back : List String} (hfront : front ≠ []) (hback : back ≠ []) :
    "/".intercalate (front ++ back) = "/".intercalate front ++ "/" ++ "/".intercalate back := by
  obtain ⟨next, others, rfl⟩ := List.exists_cons_of_ne_nil hback
  have hjoin : ∀ front : List String, front ≠ [] →
      ("/".intercalate (front ++ next :: others)).toList =
        ("/".intercalate front ++ "/" ++ "/".intercalate (next :: others)).toList := by
    intro front hfront
    induction front with
    | nil => exact absurd rfl hfront
    | cons first rest ih =>
        cases rest with
        | nil => simp [String.toList_intercalate]
        | cons second more =>
            have hmore := ih (by simp)
            simp only [String.toList_append, String.toList_intercalate, List.cons_append,
              List.map_cons, List.intercalate_cons_cons] at hmore ⊢
            rw [hmore]
            simp
  exact String.toList_inj.1 (hjoin front hfront)

-- What lies below a place is named by the path of the place and the names that lead on from it.
theorem text_path_append {below : Location} (hbelow : below ≠ []) (h : location ≠ []) :
    (path (below ++ location)).text = location.path.text ++ "/" ++ "/".intercalate below.reverse := by
  rw [text_path (by simp [h]), text_path h, List.reverse_append,
    intercalate_append (by simpa using h) (by simpa using hbelow)]
  simp [String.append_assoc]

theorem segments_path (hnamed : location.Named) (h : location ≠ []) :
    Path.segments location.path.text = "" :: location.reverse := by
  have hparts : location.reverse.map Component.name ≠ [] := by simpa using h
  rw [path, Path.ofComponents, Path.segments_spell_root hnamed.isPlain hparts, List.map_map]
  simp [Function.comp_def, Component.text]

theorem getLast?_text_path (hname : IsName name) :
    (path (name :: location)).text.toList.getLast? ≠ some '/' := by
  obtain ⟨chars, c, hchars, hc⟩ := Path.exists_last hname.1 hname.2.2.2
  have hlast : ∃ front, (path (name :: location)).text.toList = front ++ [c] := by
    by_cases h : location = []
    · subst h
      rw [text_path (by simp)]
      exact ⟨'/' :: chars, by simp [hchars]⟩
    · rw [show name :: location = [name] ++ location from rfl, text_path_append (by simp) h]
      exact ⟨location.path.text.toList ++ '/' :: chars, by simp [hchars]⟩
  obtain ⟨front, hfront⟩ := hlast
  simp [hfront, hc]

theorem same_path_iff (h : location.Named) (hbase : base.Named) :
    location.path.same base.path = true ↔ location = base := by
  rw [Path.same, components_path h, components_path hbase]
  constructor
  · intro heq
    have heq : location.reverse.map Component.name = base.reverse.map Component.name := by
      simpa using heq
    have hinj : Function.Injective Component.name := fun _ _ h => Component.name.inj h
    exact List.reverse_injective (List.map_injective_iff.2 hinj heq)
  · rintro rfl
    simp

theorem path_injective (h : location.Named) (hbase : base.Named) (heq : location.path = base.path) :
    location = base := by
  refine (same_path_iff h hbase).1 ?_
  rw [heq]
  simp [Path.same]

theorem startsWith_path_iff (h : location.Named) (hbase : base.Named) :
    location.path.startsWith base.path = true ↔ Disk.within base location := by
  rw [Path.startsWith, components_path h, components_path hbase, Disk.within,
    List.isPrefixOf_iff_prefix, List.isSuffixOf_iff_suffix, List.cons_prefix_cons]
  have hinj : Function.Injective Component.name := fun _ _ h => Component.name.inj h
  rw [and_iff_right rfl, List.prefix_map_iff_of_injective hinj, List.reverse_prefix]

theorem fileName?_path (h : Named (name :: location)) :
    (path (name :: location)).fileName? = some name := by
  unfold Path.fileName?
  rw [components_path h, List.reverse_cons, List.map_append, ← List.cons_append,
    List.map_singleton, List.getLast?_concat]

theorem trimEnd_of_named (h : location.Named) : Path.trimEnd (location ++ [""]) = location ++ [""] := by
  cases location with
  | nil => rfl
  | cons name rest =>
      have hname := h name List.mem_cons_self
      obtain ⟨next, others, heq⟩ := List.exists_cons_of_ne_nil
        (show rest ++ [""] ≠ [] by simp)
      rw [List.cons_append, heq, Path.trimEnd, if_neg (by simp [hname.1, hname.2.1])]
      simp

theorem ofSegments_root (location : Location) :
    Path.ofSegments ("" :: location.reverse) = location.path := by
  rw [Path.ofSegments]
  by_cases h : location = []
  · subst h; rfl
  · rw [if_neg (by simpa using h), ← text_path_eq_intercalate h]

theorem parent?_path (h : Named (name :: location)) :
    (path (name :: location)).parent? = some location.path := by
  obtain ⟨next, others, heq⟩ := List.exists_cons_of_ne_nil
    (show location ++ [""] ≠ [] by simp)
  have htrim := trimEnd_of_named h
  rw [List.cons_append] at htrim
  unfold Path.parent?
  rw [segments_path h (by simp), List.reverse_cons, List.reverse_reverse, List.cons_append, htrim,
    heq]
  dsimp only
  rw [← heq, trimEnd_of_named h.tail, List.reverse_append, List.reverse_singleton,
    List.singleton_append, ofSegments_root]

-- The names that lead on from a place, with slashes between them, are a relative path.
theorem path_names (names : List String) :
    Path.mk ("/".intercalate names) = Path.ofComponents (names.map .name) := by
  rw [Path.ofComponents, Path.spell_names]
  congr 1
  apply String.toList_inj.1
  simp only [String.toList_intercalate, String.toList_ofList]
  rfl

section Names

variable {below : Location}

theorem components_names (h : below.Named) :
    (Path.mk ("/".intercalate below.reverse)).components = below.reverse.map .name := by
  rw [path_names]
  exact Path.components_ofComponents h.isPlain

theorem startsWith_names_iff {other : Location} (h : below.Named) (hother : other.Named) :
    Path.startsWith ⟨"/".intercalate below.reverse⟩ ⟨"/".intercalate other.reverse⟩ = true ↔
      Disk.within other below := by
  rw [Path.startsWith, components_names h, components_names hother, Disk.within,
    List.isPrefixOf_iff_prefix, List.isSuffixOf_iff_suffix]
  have hinj : Function.Injective Component.name := fun _ _ h => Component.name.inj h
  rw [List.prefix_map_iff_of_injective hinj, List.reverse_prefix]

theorem segments_names (hne : below ≠ []) (h : below.Named) :
    Path.segments ("/".intercalate below.reverse) = below.reverse := by
  have hparts : below.reverse.map Component.name ≠ [] := by simpa using hne
  have htext : "/".intercalate below.reverse =
      (Path.ofComponents (below.reverse.map .name)).text := by rw [← path_names]
  rw [htext, Path.ofComponents, Path.segments_spell h.isPlain hparts, List.map_map]
  simp [Function.comp_def, Component.text]

theorem isAbsolute_names (h : below.Named) :
    (Path.mk ("/".intercalate below.reverse)).isAbsolute = false := by
  rcases Path.components_cases ⟨"/".intercalate below.reverse⟩ with ⟨parts, hparts, -, -⟩ | ⟨hfalse, -⟩
  · rw [components_names h] at hparts
    have hmem : Component.root ∈ below.reverse.map Component.name := by simp [hparts]
    simp at hmem
  · exact hfalse

theorem walk_names (h : below.Named) (start : Location) :
    walk start ⟨"/".intercalate below.reverse⟩ = below ++ start := by
  rw [walk, components_names h, foldl_step_names, List.reverse_reverse]

theorem names_injective {left right : Location} (hleft : left.Named)
    (hright : right.Named) (heq : "/".intercalate left.reverse = "/".intercalate right.reverse) :
    left = right := by
  have hwalk := walk_names hleft []
  rw [heq, walk_names hright, List.append_nil, List.append_nil] at hwalk
  exact hwalk.symm

theorem walk_join_names (h : below.Named) (start : Location) (path : Path) :
    walk start (path.join ⟨"/".intercalate below.reverse⟩) = below ++ walk start path := by
  rw [Path.walk_join start (isAbsolute_names h), walk_names h]

theorem join_path (hbase : base ≠ []) (hnamed : base.Named) (hbelow : below ≠ [])
    (h : below.Named) :
    base.path.join ⟨"/".intercalate below.reverse⟩ = path (below ++ base) := by
  obtain ⟨name, parent, rfl⟩ := List.exists_cons_of_ne_nil hbase
  have hne : (path (name :: parent)).text ≠ "" := by
    rw [text_path (by simp)]
    simp
  rw [Path.join, if_neg (by simp [isAbsolute_names h]), if_neg (not_or.2 ⟨hne,
    getLast?_text_path (hnamed name List.mem_cons_self)⟩), ← text_path_append hbelow hbase]

-- The root directory has its slash already.
theorem join_names (hnamed : (below ++ base).Named) (hbelow : below ≠ []) :
    base.path.join ⟨"/".intercalate below.reverse⟩ = path (below ++ base) := by
  have h := hnamed.of_append_left
  by_cases hbase : base = []
  · subst hbase
    have htext : (path below).text = (path []).text ++ "/".intercalate below.reverse := by
      rw [text_path hbelow, show (path []).text = "/" by decide]
    rw [List.append_nil, Path.join, if_neg (by simp [isAbsolute_names h]), if_pos (by decide),
      ← htext]
  · exact join_path hbase hnamed.of_append_right hbelow h

end Names

end Location

-- The names that lead down from a directory, with slashes between them.
def IsRelative (text : String) : Prop :=
  ∃ below : Location, below ≠ [] ∧ below.Named ∧ text = "/".intercalate below.reverse

end StaticSite
