import StaticSite.Proofs.Path.Place

-- Paths that never go up: each of their beginnings leads to a place above the one they lead to.
namespace StaticSite

namespace Path

theorem isAbsolute_iff {path : Path} :
    path.isAbsolute = true ↔ ∃ rest, rest ≠ [] ∧ segments path.text = "" :: rest := by
  unfold isAbsolute segments
  cases path.text.toList with
  | nil => simp [pieces]
  | cons c others =>
      by_cases hc : c = '/'
      · simp [hc, pieces, pieces_ne_nil]
      · have hpiece := pieces_ne_nil others
        rw [pieces, if_neg hc]
        split <;> simp [hc]

-- A text is what its segments spell.
theorem intercalate_segments (text : String) : "/".intercalate (segments text) = text := by
  have hpieces : ∀ chars : List Char, (['/'] : List Char).intercalate (pieces chars) = chars := by
    intro chars
    induction chars with
    | nil => rfl
    | cons c rest ih =>
        obtain ⟨piece, others, heq⟩ := List.exists_cons_of_ne_nil (pieces_ne_nil rest)
        rw [pieces]
        rw [heq] at ih ⊢
        split
        · next hc => rw [List.intercalate_cons_cons, ih, hc]; rfl
        · conv_rhs => rw [← ih]
          cases others <;> simp [List.intercalate_cons_cons]
  apply String.toList_inj.1
  rw [String.toList_intercalate, segments, List.map_map]
  simpa [Function.comp_def] using hpieces text.toList

theorem segments_ofSegments {front : List String} (hne : front ≠ []) (hroot : front ≠ [""])
    (hslash : ∀ segment ∈ front, '/' ∉ segment.toList) :
    segments (ofSegments front).text = front := by
  have hjoin : ∀ front : List String, front ≠ [] → (∀ segment ∈ front, '/' ∉ segment.toList) →
      segments ("/".intercalate front) = front := by
    intro front hne hslash
    induction front with
    | nil => exact absurd rfl hne
    | cons first rest ih =>
        have hfirst := segments_of_not_mem (hslash first List.mem_cons_self)
        by_cases hrest : rest = []
        · rw [hrest, String.intercalate_singleton, hfirst]
        · have happend := Location.intercalate_append (List.cons_ne_nil first []) hrest
          have htext : "/".intercalate [first] ++ "/" ++ "/".intercalate rest =
              String.ofList (first.toList ++ '/' :: ("/".intercalate rest).toList) := by
            apply String.toList_inj.1
            simp
          rw [← List.singleton_append, happend, htext, segments_ofList_append, String.ofList_toList,
            String.ofList_toList, hfirst,
            ih hrest fun other hmem => hslash other (List.mem_cons_of_mem _ hmem)]
  rw [ofSegments, if_neg hroot]
  exact hjoin front hne hslash

-- A joined path has the segments of its two parts, without the empty one that a slash at the end
-- of the first leaves.
theorem segments_join {path rest : Path} (h : rest.isAbsolute = false) :
    segments (path.join rest).text =
      (if path.text = "" then []
        else if path.text.toList.getLast? = some '/' then (segments path.text).dropLast
        else segments path.text) ++ segments rest.text := by
  rw [join, if_neg (by simp [h])]
  by_cases hempty : path.text = ""
  · rw [if_pos (.inl hempty), if_pos hempty]
    simp [hempty]
  · by_cases hslash : path.text.toList.getLast? = some '/'
    · rw [if_pos (.inr hslash), if_neg hempty, if_pos hslash]
      obtain ⟨front, hfront⟩ := List.getLast?_eq_some_iff.1 hslash
      have htext : path.text = String.ofList (front ++ '/' :: []) := by
        rw [← hfront, String.ofList_toList]
      have hboth : path.text ++ rest.text = String.ofList (front ++ '/' :: rest.text.toList) := by
        apply String.toList_inj.1
        simp [htext]
      dsimp only
      rw [hboth, htext, segments_ofList_append, segments_ofList_append, String.ofList_toList]
      simp [segments, pieces]
    · rw [if_neg (not_or.2 ⟨hempty, hslash⟩), if_neg hempty, if_neg hslash]
      have hboth : path.text ++ "/" ++ rest.text =
          String.ofList (path.text.toList ++ '/' :: rest.text.toList) := by
        apply String.toList_inj.1
        simp
      dsimp only
      rw [hboth, segments_ofList_append, String.ofList_toList, String.ofList_toList]

theorem trimEnd_suffix (segments : List String) : trimEnd segments <:+ segments := by
  induction segments with
  | nil => exact List.suffix_rfl
  | cons segment rest ih =>
      cases rest with
      | nil => exact List.suffix_rfl
      | cons next others =>
          rw [trimEnd]
          · split
            · exact ih.trans (List.suffix_cons _ _)
            · exact List.suffix_rfl
          · simp

theorem trimEnd_ne_nil {segments : List String} (h : segments ≠ []) : trimEnd segments ≠ [] := by
  induction segments with
  | nil => exact absurd rfl h
  | cons segment rest ih =>
      cases rest with
      | nil => simp [trimEnd]
      | cons next others =>
          rw [trimEnd]
          · split
            · exact ih (List.cons_ne_nil _ _)
            · exact List.cons_ne_nil _ _
          · simp

-- The parent of a path is one of its beginnings, or the empty path.
theorem parent?_eq_some {path parent : Path} (h : path.parent? = some parent) :
    parent.text = "" ∨
      ∃ front, front ≠ [] ∧ front <+: segments path.text ∧ parent = ofSegments front := by
  unfold parent? at h
  split at h
  · cases h
  · split at h
    · cases h
    · cases h
      exact .inl rfl
  · next last rest hrest htrim =>
    cases h
    have hsuffix : trimEnd rest <:+ (segments path.text).reverse := by
      refine (trimEnd_suffix rest).trans ((List.suffix_cons last rest).trans ?_)
      rw [← htrim]
      exact trimEnd_suffix _
    refine .inr ⟨(trimEnd rest).reverse, by simpa using trimEnd_ne_nil hrest, ?_, rfl⟩
    rw [← List.reverse_reverse (segments path.text)]
    exact List.reverse_prefix.2 hsuffix

-- A path that never goes up.
def Descends (path : Path) : Prop :=
  ".." ∉ segments path.text

theorem descends_iff {path : Path} : path.Descends ↔ path.hasParentSegment = false := by
  have hparts : ∀ rest : List String,
      Component.up ∈ rest.filterMap Component.ofSegment? ↔ ".." ∈ rest := by
    intro rest
    simp only [List.mem_filterMap, Component.ofSegment?]
    constructor
    · rintro ⟨segment, hmem, hof⟩
      split at hof
      · cases hof
      · split at hof
        · next heq => exact heq ▸ hmem
        · cases hof
    · exact fun hmem => ⟨"..", hmem, by decide⟩
  obtain ⟨first, rest, heq⟩ := List.exists_cons_of_ne_nil (segments_ne_nil path.text)
  rw [Descends, hasParentSegment, components, heq, List.mem_cons, ← hparts rest]
  dsimp only
  by_cases hempty : first = ""
  · subst hempty
    by_cases hnil : rest = []
    · simp [hnil]
    · simp [hnil]
  · by_cases hdot : first = "."
    · simp [hdot]
    · by_cases hup : first = ".."
      · simp [hup, Component.ofSegment?]
      · simp [hempty, hdot, hup, Component.ofSegment?, Ne.symm hup]

theorem Descends.join {path rest : Path} (h : path.Descends) (hrest : rest.Descends)
    (hrelative : rest.isAbsolute = false) : (path.join rest).Descends := by
  rw [Descends, segments_join hrelative, List.mem_append, not_or]
  refine ⟨fun hmem => h ?_, hrest⟩
  split at hmem
  · cases hmem
  · split at hmem
    · exact List.dropLast_subset _ hmem
    · exact hmem

-- The beginnings of a path do not go up where the path never does.
theorem Descends.ofSegments {path : Path} {front : List String} (h : path.Descends)
    (hne : front ≠ []) (hfront : front <+: segments path.text) :
    (Path.ofSegments front).Descends := by
  by_cases hroot : front = [""]
  · subst hroot
    have hslash : ".." ∉ segments (Path.ofSegments [""]).text := by decide
    exact hslash
  · have hslash : ∀ segment ∈ front, '/' ∉ segment.toList := fun segment hmem =>
      not_mem_of_mem_segments (hfront.subset hmem)
    rw [Descends, segments_ofSegments hne hroot hslash]
    exact fun hmem => h (hfront.subset hmem)

end Path

namespace Location

variable {location : Location} {path : Path}

theorem descends_path (h : location.Named) : location.path.Descends := by
  by_cases hnil : location = []
  · subst hnil
    have hroot : ".." ∉ Path.segments (path []).text := by decide
    exact hroot
  · rw [Path.Descends, segments_path h hnil, List.mem_cons, not_or]
    exact ⟨by decide, fun hmem => (h ".." (List.mem_reverse.1 hmem)).2.2.1 rfl⟩

theorem descends_names {below : Location} (h : below.Named) :
    (Path.mk ("/".intercalate below.reverse)).Descends := by
  rw [Path.descends_iff, Path.hasParentSegment, components_names h]
  simp

theorem within_foldl_follow {segments : List String} (h : ".." ∉ segments) (start : Location) :
    Disk.within start (segments.foldl follow start) := by
  induction segments generalizing start with
  | nil => exact List.isSuffixOf_iff_suffix.2 List.suffix_rfl
  | cons segment rest ih =>
      rw [List.mem_cons, not_or] at h
      have hrest := List.isSuffixOf_iff_suffix.1 (ih h.2 (start.follow segment))
      refine List.isSuffixOf_iff_suffix.2 (List.IsSuffix.trans ?_ hrest)
      rw [follow, if_neg (Ne.symm h.1)]
      split
      · exact List.suffix_rfl
      · exact List.suffix_cons _ _

-- The beginnings of a path lead to places on its way.
theorem within_walk_ofSegments {front : List String} (h : path.Descends) (hpath : path.text ≠ "")
    (hne : front ≠ []) (hfront : front <+: Path.segments path.text) (start : Location) :
    Disk.within (walk start (Path.ofSegments front)) (walk start path) := by
  obtain ⟨back, hback⟩ := hfront
  have hup : ".." ∉ back := fun hmem => h (hback ▸ List.mem_append_right _ hmem)
  have hslash : ∀ segment ∈ front, '/' ∉ segment.toList := fun segment hmem =>
    Path.not_mem_of_mem_segments (hback ▸ List.mem_append_left _ hmem)
  have hfollow : walk start (Path.ofSegments front) =
      front.foldl follow (if path.isAbsolute then [] else start) := by
    by_cases hroot : front = [""]
    · subst hroot
      have habsolute : path.isAbsolute = true := by
        refine Path.isAbsolute_iff.2 ⟨back, ?_, hback.symm⟩
        rintro rfl
        refine hpath ?_
        rw [← Path.intercalate_segments path.text, ← hback]
        rfl
      rw [habsolute]
      rfl
    · obtain ⟨first, rest, rfl⟩ := List.exists_cons_of_ne_nil hne
      rw [walk_eq_foldl_follow, Path.segments_ofSegments hne hroot hslash]
      congr 2
      rw [Bool.eq_iff_iff, Path.isAbsolute_iff, Path.isAbsolute_iff,
        Path.segments_ofSegments hne hroot hslash, ← hback]
      by_cases hfirst : first = ""
      · have hrest : rest ≠ [] := fun hnil => hroot (by rw [hfirst, hnil])
        simp [hfirst, hrest]
      · simp [hfirst]
  rw [hfollow, walk_eq_foldl_follow, ← hback, List.foldl_append]
  exact within_foldl_follow hup _

end Location

end StaticSite
