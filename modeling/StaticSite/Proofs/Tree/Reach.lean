import Mathlib.Data.List.Permutation
import Mathlib.Logic.Relation
import StaticSite.Build.File
import StaticSite.Proofs.Tree.Dependencies

-- A file's dependents are all that can be reached from it by asking for dependents again and again.
namespace StaticSite.SourceTree

namespace Linked

variable {tree : SourceTree} {index other : Nat} {page : ContentFile}

-- A file depends on another one that is on its list. It is never on its own.
theorem mem_dependents (h : tree.Linked) : other ∈ tree.dependents index ↔
    ∃ page, tree.files[other]? = some page ∧ index ∈ page.dependencies := by
  rw [dependents, List.mem_filter, List.mem_range, Bool.and_eq_true, bne_iff_ne,
    Option.any_eq_true]
  constructor
  · rintro ⟨-, -, page, hpage, hdepends⟩
    exact ⟨page, hpage, List.contains_iff_mem.1 hdepends⟩
  · rintro ⟨page, hpage, hdepends⟩
    exact ⟨(List.getElem?_eq_some_iff.1 hpage).1, (h other page hpage index hdepends).1.symm,
      page, hpage, List.contains_iff_mem.2 hdepends⟩

-- The names that are remembered for a file are those of the files that depend on it.
theorem mem_dependentPaths (h : tree.Linked) {path : Path} {relative : String}
    (hfind : tree.findAbsolute? path = some index) : relative ∈ tree.dependentPaths path ↔
      ∃ page ∈ tree.files, index ∈ page.dependencies ∧ page.relative = relative := by
  simp only [dependentPaths, hfind, List.mem_filterMap, h.mem_dependents, Option.map_eq_some_iff]
  constructor
  · rintro ⟨other, ⟨page, hpage, hdepends⟩, page', hpage', rfl⟩
    obtain rfl := Option.some.inj (hpage.symm.trans hpage')
    exact ⟨page, List.mem_of_getElem? hpage, hdepends, rfl⟩
  · rintro ⟨page, hmem, hdepends, rfl⟩
    obtain ⟨other, hpage⟩ := List.getElem?_of_mem hmem
    exact ⟨other, ⟨page, hpage, hdepends⟩, page, hpage, rfl⟩

-- A page is composed of the same sources where every file of its chain reads the same.
theorem composePage_eq (h : tree.Linked) (hpage : tree.files[other]? = some page)
    {disk disk' : Disk} (hsame : ∀ place ∈ page.dependencies ++ [other], ∀ content,
      tree.files[place]? = some content → disk'.source content = disk.source content) :
    disk'.composePage tree page = disk.composePage tree page := by
  have hsources : (tree.chain page).map disk'.source = (tree.chain page).map disk.source := by
    refine List.map_congr_left fun content hmem => ?_
    have hsome : some content ∈ (tree.chain page).map some := List.mem_map_of_mem hmem
    rw [h.chain_eq hpage] at hsome
    obtain ⟨place, hplace, hcontent⟩ := List.mem_map.1 hsome
    exact hsame place hplace content hcontent
  rw [Disk.composePage, Disk.composePage, hsources]

end Linked

-- A file is found by its path if no other one is read there.
theorem findAbsolute?_of_getElem? {tree : SourceTree} {index : Nat} {file : ContentFile}
    (hplaces : (tree.files.map (·.absolute)).Pairwise fun one next => ¬ one.same next)
    (hfile : tree.files[index]? = some file) : tree.findAbsolute? file.absolute = some index := by
  obtain ⟨hlt, rfl⟩ := List.getElem?_eq_some_iff.1 hfile
  rw [List.pairwise_map] at hplaces
  rw [findAbsolute?, List.findIdx?_eq_some_iff_getElem]
  exact ⟨hlt, by simp [Path.same], fun place hplace =>
    List.pairwise_iff_getElem.1 hplaces place index _ hlt hplace⟩

-- Files of different relative paths are read at different places.
theorem pairwise_join {root : Location} (hroot : root.Named) {names : List String}
    (hrelative : ∀ name ∈ names, IsRelative name) (hdistinct : names.Nodup) :
    (names.map fun name => root.path.join ⟨name⟩).Pairwise fun one next => ¬ one.same next := by
  rw [List.pairwise_map]
  refine hdistinct.imp_of_mem fun {one next} hone hnext hne hsame => hne ?_
  obtain ⟨below, hfile, hbelow, rfl⟩ := hrelative one hone
  obtain ⟨below', hfile', hbelow', rfl⟩ := hrelative next hnext
  rw [Location.join_names (hbelow.append hroot) hfile,
    Location.join_names (hbelow'.append hroot) hfile',
    Location.same_path_iff (hbelow.append hroot) (hbelow'.append hroot)] at hsame
  rw [List.append_cancel_right hsame]

section Free

variable {found : List FoundFile} {index other : Nat}
  (hrelative : ∀ file ∈ found, IsRelative file.relative)
  (hfree : ∀ upper ∈ found, ∀ lower ∈ found,
    Path.segments upper.relative <+: Path.segments lower.relative →
      upper.relative = lower.relative)

include hrelative hfree

theorem mem_dependents_ofFound : other ∈ (ofFound found).dependents index ↔
    other ≠ index ∧ ∃ layout page, found[index]? = some layout ∧ found[other]? = some page ∧
      "~layout".toList <+: (baseName layout.relative).toList ∧
      layout.directories <+: page.directories := by
  rw [(linked_ofFound found).mem_dependents]
  constructor
  · rintro ⟨content, hcontent, hdepends⟩
    obtain ⟨page, hpage, rfl⟩ := Option.map_eq_some_iff.1 ((getElem?_ofFound ..).symm.trans hcontent)
    obtain ⟨hne, layout, hlayout, hname, hup⟩ :=
      (mem_dependencies_ofFound hrelative hfree hpage).1 hdepends
    exact ⟨hne.symm, layout, page, hlayout, hpage, hname, hup⟩
  · rintro ⟨hne, layout, page, hlayout, hpage, hname, hup⟩
    refine ⟨dependent found other page, by rw [getElem?_ofFound, hpage, Option.map_some], ?_⟩
    exact (mem_dependencies_ofFound hrelative hfree hpage).2
      ⟨hne.symm, layout, hlayout, hname, hup⟩

-- What wraps a layout wraps all that the layout wraps, itself apart.
theorem mem_dependents_trans {middle : Nat} (h : middle ∈ (ofFound found).dependents index)
    (h' : other ∈ (ofFound found).dependents middle) (hne : other ≠ index) :
    other ∈ (ofFound found).dependents index := by
  obtain ⟨-, outer, inner, houter, hinner, hname, hup⟩ :=
    (mem_dependents_ofFound hrelative hfree).1 h
  obtain ⟨-, inner', page, hinner', hpage, -, hup'⟩ :=
    (mem_dependents_ofFound hrelative hfree).1 h'
  obtain rfl := Option.some.inj (hinner.symm.trans hinner')
  exact (mem_dependents_ofFound hrelative hfree).2
    ⟨hne, outer, page, houter, hpage, hname, hup.trans hup'⟩

-- Two layouts of one directory depend on each other, so the way may come back to where it began.
theorem eq_or_mem_dependents_of_reachable
    (h : Relation.ReflTransGen (fun one next => next ∈ (ofFound found).dependents one) index other) :
    other = index ∨ other ∈ (ofFound found).dependents index := by
  induction h with
  | refl => exact .inl rfl
  | @tail middle last _ hnext ih =>
      by_cases heq : last = index
      · exact .inl heq
      · rcases ih with rfl | hmiddle
        · exact .inr hnext
        · exact .inr (mem_dependents_trans hrelative hfree hmiddle hnext heq)

-- One step of dependents is all there is. They are the files whose chain holds the file, so a page
-- that comes out differently when only this file reads differently is one of them, or the file.
theorem dependents_complete (index : Nat) :
    (∀ other, Relation.ReflTransGen (fun one next => next ∈ (ofFound found).dependents one)
        index other ∧ other ≠ index ↔ other ∈ (ofFound found).dependents index) ∧
    ∀ other page, (ofFound found).files[other]? = some page →
      ((ofFound found).chain page).map some =
        (page.dependencies ++ [other]).map ((ofFound found).files[·]?) ∧
      (other ∈ (ofFound found).dependents index ↔
        other ≠ index ∧ index ∈ page.dependencies ++ [other]) ∧
      ∀ disk disk' : Disk, (∀ place content, (ofFound found).files[place]? = some content →
          place ≠ index → disk'.source content = disk.source content) →
        disk'.composePage (ofFound found) page ≠ disk.composePage (ofFound found) page →
          other = index ∨ other ∈ (ofFound found).dependents index := by
  have hlinked := linked_ofFound found
  refine ⟨fun other => ⟨fun ⟨hreach, hne⟩ => ?_, fun hmem => ⟨.single hmem, ?_⟩⟩,
    fun other page hpage => ⟨hlinked.chain_eq hpage, ?_, fun disk disk' hsame hpages => ?_⟩⟩
  · exact (eq_or_mem_dependents_of_reachable hrelative hfree hreach).resolve_left hne
  · exact ((mem_dependents_ofFound hrelative hfree).1 hmem).1
  · rw [hlinked.mem_dependents, List.mem_append, List.mem_singleton, hpage]
    constructor
    · rintro ⟨_, ⟨⟩, hdepends⟩
      exact ⟨(hlinked other page hpage index hdepends).1.symm, .inl hdepends⟩
    · rintro ⟨hne, hdepends⟩
      exact ⟨page, rfl, hdepends.resolve_right hne.symm⟩
  · by_contra hnot
    obtain ⟨hne, hdependent⟩ := not_or.1 hnot
    refine hpages (hlinked.composePage_eq hpage fun place hplace content hcontent => ?_)
    refine hsame place content hcontent fun heq => hdependent ?_
    rw [heq, List.mem_append, List.mem_singleton] at hplace
    exact hlinked.mem_dependents.2 ⟨page, hpage, hplace.resolve_right (Ne.symm hne)⟩

end Free

-- Files at places below a root have relative paths.
theorem isRelative_foundAt {root : Location} {places : List Location}
    (hplaces : ∀ below ∈ places, below ≠ [] ∧ below.Named) :
    ∀ file ∈ places.map (Disk.foundAt root), IsRelative file.relative :=
  List.forall_mem_map.2 fun below hmem => ⟨below, (hplaces below hmem).1, (hplaces below hmem).2, rfl⟩

-- Two layouts side by side, which wrap each other, and one in a directory below, with its page.
def wrappedTwice : List FoundFile :=
  [["page.html", "blog"], ["~layout-a.html"], ["~layout-b.html"], ["~layout.html", "blog"]].map
    (Disk.foundAt ["src"])

theorem isRelative_wrappedTwice : ∀ file ∈ wrappedTwice, IsRelative file.relative :=
  isRelative_foundAt (by unfold Location.Named; decide)

theorem dependents_complete_of_wrappedTwice :
    (ofFound wrappedTwice).dependents 1 = [0, 2, 3] ∧ (ofFound wrappedTwice).dependents 2 = [0, 1, 3] ∧
    ∀ other, Relation.ReflTransGen (fun one next => next ∈ (ofFound wrappedTwice).dependents one)
      1 other ∧ other ≠ 1 ↔ other ∈ [0, 2, 3] := by
  have hone : (ofFound wrappedTwice).dependents 1 = [0, 2, 3] := by cbv
  have hreach := (dependents_complete isRelative_wrappedTwice (by decide) 1).1
  rw [hone] at hreach
  exact ⟨hone, by cbv, hreach⟩

end StaticSite.SourceTree
