import StaticSite.Proofs.Scan.Found

-- No two files of a scan have one name. This holds also where the search begins above the root of
-- the scan, as it does where the path of the root ends in backslashes.
namespace StaticSite

namespace Path

variable {root : Path}

-- The directory that a search for what is below an absolute path begins at.
def searched (root : Path) : Path :=
  if root.kept = [] then ⟨"/"⟩ else ⟨String.ofList root.kept⟩

theorem kept_searched (root : Path) : root.searched.kept = root.kept := by
  unfold searched
  split
  · next hnil =>
    rw [hnil]
    decide
  · exact kept_eq (by simp) (List.forall_mem_nil _) fun c hlast => getLast?_kept hlast

theorem isAbsolute_searched (h : root.isAbsolute = true) : root.searched.isAbsolute = true := by
  unfold searched
  split
  · decide
  · next hne =>
    obtain ⟨ending, htext, -⟩ := root.toList_eq_kept_append
    obtain ⟨first, rest, hkept⟩ := List.exists_cons_of_ne_nil hne
    rw [isAbsolute, htext, hkept] at h
    rw [isAbsolute, String.toList_ofList, hkept]
    exact h

theorem searchable_searched (h : root.isAbsolute = true) : root.searched.Searchable := by
  have habsolute := isAbsolute_searched h
  refine ⟨?_, fun hlast => ?_, fun count rest heq => ?_⟩
  · intro hempty
    rw [isAbsolute, hempty] at habsolute
    exact absurd habsolute (by decide)
  · -- A backslash that is left at the end of the text would be kept.
    obtain ⟨count, hbare⟩ := root.searched.toList_eq_bare_append
    unfold searched at hlast hbare
    split at hlast
    · exact absurd hlast (by decide)
    · next hne =>
      rw [if_neg hne, String.toList_ofList] at hbare
      cases count with
      | zero =>
          rw [List.replicate_zero, List.append_nil] at hbare
          rw [← hbare] at hlast
          exact (getLast?_kept hlast).2 rfl
      | succ count =>
          have hslash : root.kept.getLast? = some '/' := by
            rw [hbare, List.replicate_succ', ← List.append_assoc, List.getLast?_concat]
          exact absurd rfl (getLast?_kept hslash).1
  · obtain ⟨others, -, hsegments⟩ := isAbsolute_iff.1 habsolute
    rw [hsegments, List.replicate_succ, List.cons_append, List.cons.injEq] at heq
    exact absurd heq.1 (by decide)

end Path

namespace Disk

variable {disk : Disk} {root : Path} {files : List FoundFile}

theorem patternBelow_searched (root : Path) (pattern : String) :
    patternBelow root.searched pattern = patternBelow root pattern := by
  apply String.toList_inj.1
  rw [toList_patternBelow_kept, toList_patternBelow_kept, Path.kept_searched]

-- Two places have one name only where they are one place: what is left of the way there, when the
-- way to the root is taken off, is the name.
theorem nodup_relatives (habsolute : root.isAbsolute = true) {pattern : Glob.NamePattern}
    (h : disk.scan root pattern.text = .ok files) : (files.map FoundFile.relative).Nodup := by
  have hsearched := Path.searchable_searched habsolute
  have hspelled := Glob.isSpelled_opened hsearched
  have hopened : (Glob.opened root.searched).isAbsolute = true := by
    rw [Glob.isAbsolute_opened hsearched]
    exact Path.isAbsolute_searched habsolute
  have hne : root.text ≠ "" := by
    intro hempty
    rw [Path.isAbsolute, hempty] at habsolute
    exact absurd habsolute (by decide)
  have hroot : root.normalize.components ≠ [] := by
    rw [Path.components_normalize, Path.normalComponents_of_isAbsolute habsolute]
    exact List.cons_ne_nil _ _
  unfold scan at h
  simp only [if_neg hne] at h
  rw [← patternBelow_searched, find_patternBelow hsearched] at h
  obtain ⟨paths, hpaths, h⟩ := bind_eq_ok.1 h
  cases hpaths
  rw [List.Nodup, List.pairwise_map]
  by_cases hdirectory : disk.isDirectory (Glob.opened root.searched) = true
  · obtain ⟨trail, hlead, hget⟩ := exists_trail_of_isDirectory (.inl hopened) hdirectory
    have hordered : (trail.inside disk).Ordered := Folder.ordered_of_get? disk.ordered hget
    rw [filter_isFile_search_deep pattern.shallow hspelled hlead hordered] at h
    refine pairwise_of_mapM h ?_
    rw [List.pairwise_map]
    refine ((pairwise_reached hordered _).filter _).imp_of_mem
      fun {left right} hleft hright hbefore first second hfirst hsecond heq => ?_
    have hnamed := named_of_mem_reached hordered (List.mem_of_mem_filter hleft)
    have hnamed' := named_of_mem_reached hordered (List.mem_of_mem_filter hright)
    obtain ⟨below, -, hbelow, hcomponents, hrelative, -⟩ :=
      placeBelow_eq_ok (fun hnil => absurd hnil hroot) hfirst
    obtain ⟨below', -, hbelow', hcomponents', hrelative', -⟩ :=
      placeBelow_eq_ok (fun hnil => absurd hnil hroot) hsecond
    rw [hrelative, hrelative'] at heq
    obtain rfl := Location.names_injective hbelow hbelow' heq
    rw [← hcomponents', Glob.normalComponents_way hspelled hnamed,
      Glob.normalComponents_way hspelled hnamed', List.append_cancel_left_eq] at hcomponents
    have hsame : left = right := by
      have hnames := (List.map_injective_iff.2 fun _ _ => Component.name.inj) hcomponents
      exact List.reverse_injective hnames
    rw [hsame] at hbefore
    exact Std.Irrefl.irrefl right hbefore
  · rw [Bool.not_eq_true] at hdirectory
    rw [Glob.search_deep pattern.shallow, inside_of_isDirectory_eq_false hdirectory] at h
    cases h
    exact .nil

end Disk

end StaticSite
