import StaticSite.Proofs.Tree.Chain

-- Which layouts a file depends on, and in which order, told by the names of its path.
namespace StaticSite

-- The names of the directories between the root and a file, outermost first.
def FoundFile.directories (file : FoundFile) : List String :=
  (Path.segments file.relative).dropLast

namespace ContentFile

variable {layout file : FoundFile}

theorem depth_ofFound (file : FoundFile) : (ofFound file).depth = file.directories.length :=
  List.length_dropLast.symm

theorem isLayout_ofFound (file : FoundFile) :
    (ofFound file).isLayout = true ↔ "~layout".toList <+: (baseName file.relative).toList :=
  List.isPrefixOf_iff_prefix

-- A path that passes through its own layout is ruled out: there the way down to the file would
-- start at the file itself.
theorem contains_ofFound (hlayout : IsRelative layout.relative) (hfile : IsRelative file.relative)
    (hfree : Path.segments file.relative <+: Path.segments layout.relative →
      file.relative = layout.relative) :
    (ofFound layout).contains (ofFound file) = true ↔ layout.directories <+: file.directories := by
  obtain ⟨outer, houter, hnamed, heq⟩ := hlayout
  obtain ⟨inner, hinner, hnamed', heq'⟩ := hfile
  obtain ⟨last, rest, rfl⟩ := List.exists_cons_of_ne_nil houter
  obtain ⟨name, parent, rfl⟩ := List.exists_cons_of_ne_nil hinner
  have hcontains : (ofFound layout).contains (ofFound file) =
      (Disk.contentAt [] (last :: rest)).contains (Disk.contentAt [] (name :: parent)) := by
    simp only [contains, directory, ofFound, heq, heq', Disk.contentAt, Disk.foundAt]
  have houterTail : layout.directories = rest.reverse := by
    rw [FoundFile.directories, heq, Location.segments_names houter hnamed, List.dropLast_reverse,
      List.tail_cons]
  have hinnerTail : file.directories = parent.reverse := by
    rw [FoundFile.directories, heq', Location.segments_names hinner hnamed', List.dropLast_reverse,
      List.tail_cons]
  rw [hcontains, Disk.contains_contentAt houter hnamed hnamed', houterTail, hinnerTail,
    List.reverse_prefix, List.tail_cons, Disk.within, List.isSuffixOf_iff_suffix,
    List.suffix_cons_iff]
  refine or_iff_right fun hthrough => ?_
  rw [heq, heq', Location.segments_names hinner hnamed', Location.segments_names houter hnamed,
    hthrough] at hfree
  have hsegments := congrArg Path.segments (hfree (by simp))
  rw [Location.segments_names hinner hnamed', ← hthrough, Location.segments_names houter hnamed]
    at hsegments
  exact List.cons_ne_self _ _ (List.reverse_injective hsegments).symm

end ContentFile

namespace SourceTree

-- The dependencies of a file are the places of other files, which are layouts.
def Linked (tree : SourceTree) : Prop :=
  ∀ (index : Nat) (file : ContentFile), tree.files[index]? = some file →
    ∀ place ∈ file.dependencies, place ≠ index ∧
      ∃ layout, tree.files[place]? = some layout ∧ layout.isLayout = true

theorem linked_ofFound (found : List FoundFile) : (ofFound found).Linked := by
  intro index file hfile place hplace
  rw [getElem?_ofFound] at hfile
  obtain ⟨origin, -, rfl⟩ := Option.map_eq_some_iff.1 hfile
  obtain ⟨hlayout, hother⟩ := List.mem_filter.1 hplace
  obtain ⟨layout, hfile, hname⟩ := mem_layoutOrder.1 hlayout
  obtain ⟨other, hfound, rfl⟩ := Option.map_eq_some_iff.1 ((List.getElem?_map ..).symm.trans hfile)
  rw [Bool.and_eq_true, bne_iff_ne] at hother
  exact ⟨hother.1, dependent found place other, by rw [getElem?_ofFound, hfound]; rfl, hname⟩

-- No dependency is lost on the way to the chain: each names a file of the tree.
theorem Linked.chain_eq {tree : SourceTree} (h : tree.Linked) {index : Nat} {file : ContentFile}
    (hfile : tree.files[index]? = some file) : (tree.chain file).map some =
      (file.dependencies ++ [index]).map (tree.files[·]?) := by
  have hinside : ∀ place ∈ file.dependencies, place < tree.files.length := by
    intro place hplace
    obtain ⟨-, layout, hlayout, -⟩ := h index file hfile place hplace
    exact (List.getElem?_eq_some_iff.1 hlayout).1
  rw [chain, List.map_append, List.map_append, List.map_singleton, List.map_singleton, hfile,
    ← map_getD_eq_filterMap file hinside, List.map_map]
  refine congrArg (· ++ _) (List.map_congr_left fun place hplace => ?_)
  rw [Function.comp_apply, List.getElem?_eq_getElem (hinside place hplace), Option.getD_some]

variable {found : List FoundFile} {index : Nat} {file : FoundFile}

-- The layouts by depth, and those of one depth in the order of the list.
theorem pairwise_layoutOrder (found : List FoundFile) :
    (layoutOrder (found.map .ofFound)).Pairwise fun left right =>
      ∀ outer inner, found[left]? = some outer → found[right]? = some inner →
        outer.directories.length < inner.directories.length ∨
          outer.directories.length = inner.directories.length ∧ left < right := by
  have hrange : ((List.range (found.map ContentFile.ofFound).length).filter fun index =>
      (found.map ContentFile.ofFound)[index]?.any ContentFile.isLayout).Pairwise (· < ·) :=
    List.pairwise_lt_range.filter _
  refine (pairwise_mergeSort_key
    (fun index => ((found.map ContentFile.ofFound)[index]?.map ContentFile.depth).getD 0)
    hrange).imp ?_
  intro left right h outer inner houter hinner
  simpa only [List.getElem?_map, houter, hinner, Option.map_some, Option.getD_some,
    ContentFile.depth_ofFound] using h

section Exact

variable (hrelative : ∀ file ∈ found, IsRelative file.relative)
  (hfree : ∀ upper ∈ found, ∀ lower ∈ found,
    Path.segments upper.relative <+: Path.segments lower.relative →
      upper.relative = lower.relative)

include hrelative hfree

theorem mem_dependencies_ofFound (hfile : found[index]? = some file) {layout : Nat} :
    layout ∈ (dependent found index file).dependencies ↔ layout ≠ index ∧
      ∃ other, found[layout]? = some other ∧
        "~layout".toList <+: (baseName other.relative).toList ∧
        other.directories <+: file.directories := by
  have hmem := List.mem_of_getElem? hfile
  rw [dependent, List.mem_filter, mem_layoutOrder, Bool.and_eq_true_iff, bne_iff_ne,
    List.getElem?_map]
  cases hlayout : found[layout]? with
  | none => simp
  | some other =>
      have hother := List.mem_of_getElem? hlayout
      have hcontains := ContentFile.contains_ofFound (hrelative other hother)
        (hrelative file hmem) (hfree file hmem other hother)
      simp only [Option.map_some, Option.some.injEq, exists_eq_left', Option.any_some,
        ContentFile.isLayout_ofFound, hcontains]
      exact and_left_comm

-- Each dependency comes before those that lie deeper, and before those of its depth that the
-- list names later. The directories of both lead to the file, so the outer leads to the inner.
theorem pairwise_dependencies_ofFound (hfile : found[index]? = some file) :
    (dependent found index file).dependencies.Pairwise fun left right =>
      ∃ outer inner, found[left]? = some outer ∧ found[right]? = some inner ∧
        outer.directories <+: inner.directories ∧
          (outer.directories.length < inner.directories.length ∨
            outer.directories.length = inner.directories.length ∧ left < right) := by
  have hsorted : (dependent found index file).dependencies.Pairwise _ :=
    (pairwise_layoutOrder found).filter _
  refine hsorted.imp_of_mem fun {left right} hleft hright horder => ?_
  obtain ⟨-, outer, houter, -, hup⟩ :=
    (mem_dependencies_ofFound hrelative hfree hfile).1 hleft
  obtain ⟨-, inner, hinner, -, hup'⟩ :=
    (mem_dependencies_ofFound hrelative hfree hfile).1 hright
  have hdepth := horder outer inner houter hinner
  have hle : outer.directories.length ≤ inner.directories.length := by omega
  exact ⟨outer, inner, houter, hinner, List.prefix_of_prefix_length_le hup hup' hle, hdepth⟩

theorem nodup_dependencies_ofFound (hfile : found[index]? = some file) :
    (dependent found index file).dependencies.Nodup := by
  refine (pairwise_dependencies_ofFound hrelative hfree hfile).imp ?_
  rintro left right ⟨outer, inner, houter, hinner, -, hdepth⟩ rfl
  obtain rfl := Option.some.inj (houter.symm.trans hinner)
  omega

-- The dependencies of a file are the layouts of the directories above it, outermost first, and
-- its chain is made of these and of the file itself.
theorem dependencies_exact (hfile : found[index]? = some file) :
    ∃ content, (ofFound found).files[index]? = some content ∧ content.relative = file.relative ∧
      (∀ layout, layout ∈ content.dependencies ↔ layout ≠ index ∧
        ∃ other, found[layout]? = some other ∧
          "~layout".toList <+: (baseName other.relative).toList ∧
          other.directories <+: file.directories) ∧
      (content.dependencies.Pairwise fun left right =>
        ∃ outer inner, found[left]? = some outer ∧ found[right]? = some inner ∧
          outer.directories <+: inner.directories ∧
            (outer.directories.length < inner.directories.length ∨
              outer.directories.length = inner.directories.length ∧ left < right)) ∧
      content.dependencies.Nodup ∧
      ((ofFound found).chain content).map some =
        (content.dependencies ++ [index]).map ((ofFound found).files[·]?) ∧
      index ∉ content.dependencies := by
  have hself : (ofFound found).files[index]? = some (dependent found index file) := by
    rw [getElem?_ofFound, hfile, Option.map_some]
  refine ⟨dependent found index file, hself, rfl,
    fun layout => mem_dependencies_ofFound hrelative hfree hfile,
    pairwise_dependencies_ofFound hrelative hfree hfile,
    nodup_dependencies_ofFound hrelative hfree hfile,
    (linked_ofFound found).chain_eq hself, fun hmem => ?_⟩
  exact ((mem_dependencies_ofFound hrelative hfree hfile).1 hmem).1 rfl

end Exact

-- The layout of `blog` wraps nothing in `blogroll`.
theorem dependencies_exact_of_blogroll :
    ∃ content, (ofFound ([["~layout.html", "blog"], ["~layout.html"],
        ["list.html", "blogroll"]].map (Disk.foundAt ["src"]))).files[2]? = some content ∧
      content.relative = "blogroll/list.html" ∧
      1 ∈ content.dependencies ∧ 0 ∉ content.dependencies := by
  have hnamed : ∀ below ∈ ([["~layout.html", "blog"], ["~layout.html"], ["list.html", "blogroll"]] :
      List Location), below ≠ [] ∧ below.Named := by
    unfold Location.Named
    decide
  have hrelative : ∀ file ∈ [["~layout.html", "blog"], ["~layout.html"],
      ["list.html", "blogroll"]].map (Disk.foundAt ["src"]), IsRelative file.relative := by
    intro file hmem
    obtain ⟨below, hbelow, rfl⟩ := List.mem_map.1 hmem
    exact ⟨below, (hnamed below hbelow).1, (hnamed below hbelow).2, rfl⟩
  obtain ⟨content, hcontent, hname, hmem, -⟩ :=
    @dependencies_exact _ 2 _ hrelative (by decide) rfl
  refine ⟨content, hcontent, hname.trans (by decide), ?_, ?_⟩
  · exact (hmem 1).2 ⟨by decide, _, rfl, by decide, by decide⟩
  · intro hzero
    obtain ⟨-, other, hother, -, hup⟩ := (hmem 0).1 hzero
    cases hother
    exact absurd hup (by decide)

end SourceTree

end StaticSite
