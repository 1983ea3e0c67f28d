import StaticSite.Proofs.Scan.Way

-- How a search comes to the root of a scan: from the root of the disk or from the working
-- directory, level by level.
namespace StaticSite

namespace Path

variable {root : Path}

-- The text of a path without the slashes at its end.
def bare (path : Path) : String :=
  String.ofList (path.text.toList.reverse.dropWhile fun c => c = '/').reverse

-- The levels by which a search comes to a path.
def levels (path : Path) : List String :=
  if path.isAbsolute then (segments path.bare).tail else segments path.bare

-- Paths that a search takes as they are meant. Backslashes at the end get lost, and where
-- nothing but dots comes before an empty level, the search finds nothing beyond.
structure Searchable (path : Path) : Prop where
  nonempty : path.text ≠ ""
  ending : path.bare.toList.getLast? ≠ some '\\'
  passing : ∀ count rest, segments path.text = List.replicate (count + 1) "." ++ "" :: rest →
    ∀ segment ∈ rest, segment = ""

-- A search gets lost after dots only.
theorem searchable_of_head {path : Path} (hne : path.text ≠ "")
    (hending : path.bare.toList.getLast? ≠ some '\\')
    (hhead : (segments path.text).head? ≠ some ".") : path.Searchable :=
  ⟨hne, hending, fun count rest heq => absurd (by rw [heq]; rfl) hhead⟩

theorem toList_eq_bare_append (root : Path) :
    ∃ count, root.text.toList = root.bare.toList ++ List.replicate count '/' := by
  have hsplit := List.takeWhile_append_dropWhile (p := fun c => decide (c = '/'))
    (l := root.text.toList.reverse)
  have hslashes : (root.text.toList.reverse.takeWhile fun c => decide (c = '/')) =
      List.replicate (root.text.toList.reverse.takeWhile fun c => decide (c = '/')).length '/' := by
    refine List.eq_replicate_iff.2 ⟨rfl, fun c hmem => ?_⟩
    simpa using List.mem_takeWhile_imp hmem
  refine ⟨(root.text.toList.reverse.takeWhile fun c => decide (c = '/')).length, ?_⟩
  rw [bare, String.toList_ofList, ← List.reverse_inj, List.reverse_append, List.reverse_reverse,
    List.reverse_replicate, ← hslashes, hsplit]

theorem getLast?_bare (root : Path) : root.bare.toList.getLast? ≠ some '/' := by
  intro hlast
  rw [bare, String.toList_ofList, List.getLast?_reverse] at hlast
  have hhead := List.head?_dropWhile_not (fun c => decide (c = '/')) root.text.toList.reverse
  rw [hlast] at hhead
  simp at hhead

-- What a pattern keeps of the text of a directory.
def kept (path : Path) : List Char :=
  (path.text.toList.reverse.dropWhile fun c => decide (c = '/' ∨ c = '\\')).reverse

theorem toList_eq_kept_append (root : Path) :
    ∃ ending, root.text.toList = root.kept ++ ending ∧ ∀ c ∈ ending, c = '/' ∨ c = '\\' := by
  have hsplit := List.takeWhile_append_dropWhile (p := fun c => decide (c = '/' ∨ c = '\\'))
    (l := root.text.toList.reverse)
  refine ⟨(root.text.toList.reverse.takeWhile fun c => decide (c = '/' ∨ c = '\\')).reverse, ?_, ?_⟩
  · rw [kept, ← List.reverse_append, hsplit, List.reverse_reverse]
  · intro c hmem
    simpa using List.mem_takeWhile_imp (List.mem_reverse.1 hmem)

theorem getLast?_kept {c : Char} (h : root.kept.getLast? = some c) : c ≠ '/' ∧ c ≠ '\\' := by
  rw [kept, List.getLast?_reverse] at h
  have hhead := List.head?_dropWhile_not (fun c => decide (c = '/' ∨ c = '\\'))
    root.text.toList.reverse
  rw [h] at hhead
  simpa [not_or] using hhead

theorem kept_eq {chars ending : List Char} (htext : root.text.toList = chars ++ ending)
    (hending : ∀ c ∈ ending, c = '/' ∨ c = '\\')
    (hlast : ∀ c, chars.getLast? = some c → c ≠ '/' ∧ c ≠ '\\') : root.kept = chars := by
  have hdrop : ∀ c ∈ ending.reverse, decide (c = '/' ∨ c = '\\') = true := by
    intro c hmem
    simpa using hending c (List.mem_reverse.1 hmem)
  have hchars : chars.reverse.dropWhile (fun c => decide (c = '/' ∨ c = '\\')) =
      chars.reverse := by
    rcases List.eq_nil_or_concat' chars with rfl | ⟨front, last, rfl⟩
    · rfl
    · obtain ⟨hslash, hback⟩ := hlast last List.getLast?_concat
      rw [List.reverse_concat, List.dropWhile_cons_of_neg (by simp [hslash, hback])]
  rw [kept, htext, List.reverse_append, List.dropWhile_append_of_pos hdrop, hchars,
    List.reverse_reverse]

theorem kept_of_ending (h : root.bare.toList.getLast? ≠ some '\\') :
    root.kept = root.bare.toList := by
  obtain ⟨count, htext⟩ := root.toList_eq_bare_append
  refine kept_eq htext (fun c hmem => .inl (List.eq_of_mem_replicate hmem)) fun c hlast => ?_
  refine ⟨?_, ?_⟩ <;> rintro rfl
  · exact root.getLast?_bare hlast
  · exact h hlast

theorem bare_eq (h : root.text.toList.getLast? ≠ some '/') : root.bare = root.text := by
  obtain ⟨count, hchars⟩ := root.toList_eq_bare_append
  cases count with
  | zero => exact String.toList_inj.1 (by simpa using hchars.symm)
  | succ count =>
      rw [hchars, List.replicate_succ', ← List.append_assoc, List.getLast?_concat] at h
      exact absurd rfl h

theorem segments_append_slashes (chars : List Char) (count : Nat) :
    segments (String.ofList (chars ++ List.replicate count '/')) =
      segments (String.ofList chars) ++ List.replicate count "" := by
  induction count with
  | zero => simp
  | succ count ih =>
      have hone := segments_ofList_append (chars ++ List.replicate count '/') []
      rw [ih] at hone
      rw [List.replicate_succ', ← List.append_assoc, hone, List.append_assoc, List.replicate_succ']
      rfl

theorem segments_eq_bare_append (root : Path) :
    ∃ count, segments root.text = segments root.bare ++ List.replicate count "" := by
  obtain ⟨count, hchars⟩ := root.toList_eq_bare_append
  refine ⟨count, ?_⟩
  rw [← String.ofList_toList (s := root.text), hchars, segments_append_slashes,
    String.ofList_toList]

theorem segments_bare (h : root.isAbsolute = true) : segments root.bare = "" :: root.levels := by
  obtain ⟨rest, -, hsegments⟩ := isAbsolute_iff.1 h
  obtain ⟨count, heq⟩ := root.segments_eq_bare_append
  obtain ⟨first, others, hbare⟩ := List.exists_cons_of_ne_nil (segments_ne_nil root.bare)
  rw [levels, if_pos h, hbare, List.tail_cons]
  rw [hsegments, hbare, List.cons_append, List.cons.injEq] at heq
  rw [heq.1]

theorem levels_relative (h : root.isAbsolute = false) : root.levels = segments root.bare := by
  rw [levels, h, if_neg (by decide)]

-- The three beginnings of a root: nothing but slashes, a slash, and a name.
theorem levels_of_bare_nil (hne : root.text ≠ "") (h : root.bare.toList = []) :
    root.isAbsolute = true ∧ root.levels = [] := by
  obtain ⟨count, htext⟩ := root.toList_eq_bare_append
  have habsolute : root.isAbsolute = true := by
    rw [h, List.nil_append] at htext
    cases count with
    | zero => exact absurd (by simpa using htext) hne
    | succ count =>
        rw [isAbsolute, htext]
        rfl
  have hsegments := segments_bare habsolute
  rw [show root.bare = "" by simpa using h] at hsegments
  exact ⟨habsolute, (List.cons.inj hsegments).2.symm⟩

theorem isAbsolute_of_bare_cons {c : Char} {chars : List Char} (h : root.bare.toList = c :: chars) :
    root.isAbsolute = decide (c = '/') := by
  obtain ⟨count, htext⟩ := root.toList_eq_bare_append
  simp [isAbsolute, htext, h]

theorem levels_of_bare_slash {chars : List Char} (h : root.bare.toList = '/' :: chars) :
    root.isAbsolute = true ∧ root.levels = segments (String.ofList chars) := by
  have habsolute : root.isAbsolute = true := by simpa using isAbsolute_of_bare_cons h
  have hsplit := segments_ofList_append [] chars
  rw [List.nil_append, ← h, String.ofList_toList, segments_bare habsolute] at hsplit
  exact ⟨habsolute, (List.cons.inj hsplit).2⟩

theorem levels_of_bare_cons {c : Char} {chars : List Char} (hc : c ≠ '/')
    (h : root.bare.toList = c :: chars) :
    root.isAbsolute = false ∧ root.levels = segments (String.ofList (c :: chars)) := by
  have habsolute : root.isAbsolute = false := by simpa [hc] using isAbsolute_of_bare_cons h
  rw [levels_relative habsolute, ← h, String.ofList_toList]
  exact ⟨habsolute, rfl⟩

theorem mem_segments_of_mem_levels {level : String} (h : level ∈ root.levels) :
    level ∈ segments root.bare := by
  rw [levels] at h
  split at h
  · exact List.mem_of_mem_tail h
  · exact h

theorem mem_of_mem_levels {level : String} {c : Char} (h : level ∈ root.levels)
    (hc : c ∈ level.toList) : c ∈ root.text.toList := by
  obtain ⟨count, hchars⟩ := root.toList_eq_bare_append
  rw [hchars]
  exact List.mem_append_left _ (mem_of_mem_segments (mem_segments_of_mem_levels h) hc)

-- What is above the components of a path on the stack of its normal form.
theorem normalComponents_of_segments (path : Path) : path.normalComponents.reverse =
    ((segments path.text).filterMap Component.ofSegment?).foldl stack
      (if path.isAbsolute then [.root] else []) := by
  obtain ⟨first, rest, heq⟩ := List.exists_cons_of_ne_nil (segments_ne_nil path.text)
  rw [normalComponents, List.reverse_reverse, ← foldl_stack_filter]
  cases habsolute : path.isAbsolute with
  | false => rw [← filterMap_segments habsolute]; rfl
  | true =>
      obtain ⟨others, hothers, hsegments⟩ := isAbsolute_iff.1 habsolute
      rw [foldl_stack_filter, components_of_segments hsegments, hsegments, if_pos rfl,
        if_neg hothers, if_pos rfl]
      rfl

theorem size_bare_le (root : Path) : root.bare.utf8ByteSize + 1 ≤ root.sizeWithSlash := by
  obtain ⟨count, hchars⟩ := root.toList_eq_bare_append
  have htext : root.text = root.bare ++ String.ofList (List.replicate count '/') := by
    apply String.toList_inj.1
    rw [hchars, String.toList_append, String.toList_ofList]
  cases count with
  | zero =>
      have hslash : root.endsInSlash = false := by
        rw [endsInSlash, decide_eq_false_iff_not, hchars, List.replicate_zero, List.append_nil]
        exact root.getLast?_bare
      rw [sizeWithSlash, hslash, htext, String.utf8ByteSize_append]
      simp
  | succ count =>
      have hone : (String.ofList ['/']).utf8ByteSize = 1 := by decide
      rw [sizeWithSlash, htext, List.replicate_succ, ← List.singleton_append, String.ofList_append,
        String.utf8ByteSize_append, String.utf8ByteSize_append]
      omega

end Path

namespace Glob

open StaticSite.Path

variable {disk : Disk} {root : Path} {below : Location}

-- Where a search begins.
def origin (root : Path) : Path :=
  if root.isAbsolute then ⟨"/"⟩ else ⟨"."⟩

-- The root of a scan as a search spells it.
def opened (root : Path) : Path :=
  root.levels.foldl extend (origin root)

theorem isSpelled_origin (root : Path) : IsSpelled (origin root) := by
  unfold origin
  split
  · exact ⟨by decide, .inr (by decide)⟩
  · exact ⟨by decide, .inl rfl⟩

theorem spells_levels (h : root.Searchable) : Spells (origin root) root.levels := by
  refine spells (isSpelled_origin root)
    (fun level hmem => not_mem_of_mem_segments (mem_segments_of_mem_levels hmem))
    fun hdot count rest heq => ?_
  have habsolute : root.isAbsolute = false := by
    rw [Bool.eq_false_iff]
    intro habsolute
    rw [origin, if_pos habsolute] at hdot
    exact absurd hdot (by decide)
  obtain ⟨slashes, hsegments⟩ := root.segments_eq_bare_append
  rw [levels_relative habsolute] at heq
  rw [heq, List.append_assoc, List.cons_append] at hsegments
  -- An empty level at the beginning makes the path absolute, one after the dots leaves nothing
  -- but slashes.
  cases count with
  | zero =>
      have htail : rest ++ List.replicate slashes "" = [] := by
        by_contra hne
        have hroot : root.isAbsolute = true := isAbsolute_iff.2 ⟨_, hne, hsegments⟩
        rw [habsolute] at hroot
        cases hroot
      refine h.nonempty ?_
      rw [← intercalate_segments root.text, hsegments, htail]
      rfl
  | succ count =>
      have hempty := h.passing count _ hsegments
      have hrest : rest = List.replicate rest.length "" :=
        List.eq_replicate_iff.2 ⟨rfl, fun segment hmem => hempty _ (List.mem_append_left _ hmem)⟩
      have hend : "" :: rest = List.replicate rest.length "" ++ [""] := by
        rw [← List.replicate_succ', List.replicate_succ, ← hrest]
      refine getLast?_bare root ?_
      rw [← intercalate_segments root.bare, heq, hend, ← List.append_assoc,
        Location.intercalate_append (by simp) (List.cons_ne_nil "" [])]
      simp

theorem isSpelled_opened (h : root.Searchable) : IsSpelled (opened root) :=
  (spells_levels h).isSpelled

theorem lead_opened (h : root.Searchable) : disk.lead (opened root) = disk.lead root := by
  have hsteps : root.levels.filter (· ≠ "") = root.steps := by
    obtain ⟨count, hsegments⟩ := root.segments_eq_bare_append
    have hslashes : (List.replicate count "").filter (· ≠ "") = [] := by simp
    rw [steps, hsegments, List.filter_append, hslashes, List.append_nil]
    cases habsolute : root.isAbsolute with
    | false => rw [levels_relative habsolute]
    | true =>
        rw [segments_bare habsolute, List.filter_cons_of_neg (by simp)]
  have horigin : disk.lead (origin root) = .ok (disk.origin root) := by
    rw [origin, Disk.origin]
    cases habsolute : root.isAbsolute with
    | true => rfl
    | false =>
        rw [if_neg (by decide), lead_dot, Disk.origin, show isAbsolute ⟨"."⟩ = false by decide]
  rw [opened, (spells_levels h).lead, horigin, hsteps]
  rfl

theorem isAbsolute_opened (h : root.Searchable) : (opened root).isAbsolute = root.isAbsolute := by
  rw [opened, (spells_levels h).isAbsolute, origin]
  cases root.isAbsolute <;> decide

theorem normalComponents_opened (h : root.Searchable) :
    (opened root).normalComponents = root.normalComponents := by
  rw [← List.reverse_inj, opened, (spells_levels h).normalComponents,
    normalComponents_of_segments root]
  obtain ⟨count, hsegments⟩ := root.segments_eq_bare_append
  have hslashes : (List.replicate count "").filterMap Component.ofSegment? = [] := by
    simp [Component.ofSegment?]
  rw [hsegments, List.filterMap_append, hslashes, List.append_nil, origin]
  cases habsolute : root.isAbsolute with
  | false =>
      rw [levels_relative habsolute]
      rfl
  | true =>
      rw [segments_bare habsolute]
      rfl

theorem sizeWithSlash_opened_le (h : root.Searchable) :
    (opened root).sizeWithSlash ≤ root.sizeWithSlash := by
  have hbare := root.size_bare_le
  have hsum := sum_segments root.bare
  have hspells := spells_levels h
  cases habsolute : root.isAbsolute with
  | true =>
      have hle := hspells.sizeWithSlash_le
      rw [segments_bare habsolute, List.map_cons, List.sum_cons] at hsum
      have hstart : (origin root).sizeWithSlash = 1 := by
        rw [origin, if_pos habsolute]
        decide
      rw [← opened] at hle
      have hzero : "".utf8ByteSize = 0 := by decide
      omega
  | false =>
      obtain ⟨first, rest, heq⟩ := List.exists_cons_of_ne_nil (segments_ne_nil root.bare)
      rw [heq, List.map_cons, List.sum_cons] at hsum
      rw [levels_relative habsolute, heq, origin, habsolute, if_neg (by decide)] at hspells
      rw [opened, levels_relative habsolute, heq, origin, habsolute, if_neg (by decide), List.foldl_cons]
      cases hspells with
      | level _ _ hrest =>
          have hle := hrest.sizeWithSlash_le
          have hfirst := Path.sizeWithSlash_le ⟨first⟩
          rw [extend_dot] at hle ⊢
          dsimp only at hfirst
          omega

-- A file that can be followed below the root as it is written can be followed as a search
-- spells it, since the search leaves out slashes and dots only.
theorem check_way_opened (h : root.Searchable) (hne : below ≠ []) (hnamed : below.Named)
    (hcheck : (root.join ⟨"/".intercalate below.reverse⟩).check = .ok ()) :
    (way (opened root) below).check = .ok () := by
  have hspelled := isSpelled_opened h
  have hrelative := Location.isAbsolute_names hnamed
  have hroot := sizeWithSlash_opened_le h
  have hsize := size_way_le hspelled hne hnamed
  rw [Location.check_eq_ok_iff, size_join hrelative h.nonempty] at hcheck
  obtain ⟨hnul, -, hlength⟩ := hcheck
  refine Location.check_eq_ok_iff.2 ⟨fun hmem => ?_, (isSpelled_way hspelled hnamed).1, ?_⟩
  · rw [text_join hrelative h.nonempty] at hnul
    simp only [String.toList_append, List.mem_append, not_or] at hnul
    have hslash : Char.ofNat 0 ≠ '/' := by decide
    rcases mem_foldl_extend hslash hmem with hmem | ⟨name, hname, hmem⟩
    · rcases mem_foldl_extend hslash hmem with hmem | ⟨level, hlevel, hmem⟩
      · rw [origin] at hmem
        split at hmem <;> exact absurd hmem (by decide)
      · exact hnul.1.1 (mem_of_mem_levels hlevel hmem)
    · exact hnul.2 (mem_of_mem_segments (by rwa [Location.segments_names hne hnamed]) hmem)
  · dsimp only at hlength
    omega

section Places

variable {location : Location}

theorem opened_path (hnamed : location.Named) : opened location.path = location.path := by
  by_cases hne : location = []
  · subst hne
    decide +kernel
  · have hbare : location.path.bare = location.path.text := by
      obtain ⟨name, parent, rfl⟩ := List.exists_cons_of_ne_nil hne
      exact bare_eq (Location.getLast?_text_path (hnamed name List.mem_cons_self))
    have habsolute := Location.isAbsolute_path location
    have hlevels : location.path.levels = location.reverse := by
      have hsegments := segments_bare habsolute
      rw [hbare, Location.segments_path hnamed hne, List.cons.injEq] at hsegments
      exact hsegments.2.symm
    have hway := @way_path [] location (by simpa using hnamed)
    rw [List.append_nil] at hway
    rw [opened, hlevels, origin, if_pos habsolute, ← hway]
    rfl

end Places

end Glob

namespace Location

theorem searchable_path {location : Location} (hnamed : location.Named)
    (hback : location.path.text.toList.getLast? ≠ some '\\') : location.path.Searchable := by
  by_cases hne : location = []
  · subst hne
    exact Path.searchable_of_head (by decide) (by decide) (by decide)
  · refine Path.searchable_of_head (Glob.isSpelled_path hnamed).1 ?_ ?_
    · obtain ⟨name, parent, rfl⟩ := List.exists_cons_of_ne_nil hne
      rw [Path.bare_eq (getLast?_text_path (hnamed name List.mem_cons_self))]
      exact hback
    · rw [segments_path hnamed hne]
      simp

-- A directory of which a pattern keeps the whole name. Backslashes at the end get lost.
def Keeps (location : Location) : Prop :=
  location ≠ [] ∧ location.Named ∧ location.path.text.toList.getLast? ≠ some '\\'

end Location

end StaticSite
