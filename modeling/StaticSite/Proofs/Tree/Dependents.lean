import StaticSite.Proofs.Tree.Chain

-- The files of a tree that depend on one of them, also while some are marked as deleted.
namespace StaticSite

-- What a change of an entry leaves as it is, it leaves in the whole list.
theorem map_modify {α β : Type} {column : α → β} {change : α → α}
    (h : ∀ entry, column (change entry) = column entry) (entries : List α) (index : Nat) :
    (entries.modify index change).map column = entries.map column := by
  refine List.ext_getElem? fun other => ?_
  rw [List.getElem?_map, List.getElem?_modify, List.getElem?_map, Option.map_eq_map, Option.map_map]
  refine congrArg (entries[other]?.map ·) (funext fun entry => ?_)
  rw [Function.comp_apply]
  split
  · exact h entry
  · rfl

-- The file, marked as deleted or not.
def ContentFile.flagged (content : ContentFile) (deleted : Bool) : ContentFile :=
  { content with deleted := deleted }

@[simp]
theorem ContentFile.dependencies_flagged (content : ContentFile) (deleted : Bool) :
    (content.flagged deleted).dependencies = content.dependencies := rfl

namespace SourceTree

variable {root place file page : Location} {files : List Location} {tree : SourceTree}

-- A tree of the files at places below the root, some of them marked as deleted.
def Marked (root : Location) (files : List Location) (tree : SourceTree) : Prop :=
  ∀ index, ∃ deleted, tree.files[index]? =
    files[index]?.map fun file => (linked root files index file).flagged deleted

theorem marked_below (root : Location) (files : List Location) :
    (below root files).Marked root files :=
  fun index => ⟨false, getElem?_below root files index⟩

namespace Marked

theorem getElem? (h : tree.Marked root files) {index : Nat} (hindex : files[index]? = some file) :
    ∃ deleted, tree.files[index]? =
      some ((linked root files index file).flagged deleted) := by
  obtain ⟨deleted, heq⟩ := h index
  exact ⟨deleted, by rw [heq, hindex, Option.map_some]⟩

theorem length_eq (h : tree.Marked root files) : tree.files.length = files.length := by
  have hnone : ∀ index : Nat, tree.files[index]? = none ↔ files[index]? = none := by
    intro index
    obtain ⟨deleted, heq⟩ := h index
    rw [heq, Option.map_eq_none_iff]
  have hleft := (hnone files.length).2 (List.getElem?_eq_none_iff.2 (Nat.le_refl _))
  have hright := (hnone tree.files.length).1 (List.getElem?_eq_none_iff.2 (Nat.le_refl _))
  rw [List.getElem?_eq_none_iff] at hleft hright
  omega

theorem markDeleted (h : tree.Marked root files) (index : Nat) :
    (tree.markDeleted index).Marked root files := by
  intro other
  obtain ⟨deleted, heq⟩ := h other
  rw [SourceTree.markDeleted, List.getElem?_modify, heq]
  by_cases hother : index = other
  · exact ⟨true, by cases files[other]? <;> simp [hother, ContentFile.flagged]⟩
  · exact ⟨deleted, by cases files[other]? <;> simp [hother]⟩

theorem getElem?_markDeleted (h : tree.Marked root files) {index : Nat}
    (hindex : files[index]? = some file) : (tree.markDeleted index).files[index]? =
      some ((linked root files index file).flagged true) := by
  obtain ⟨deleted, heq⟩ := h.getElem? hindex
  rw [SourceTree.markDeleted, List.getElem?_modify, heq]
  simp [ContentFile.flagged]

-- A file is found by the path of its place.
theorem findAbsolute?_path (h : tree.Marked root files) (hfiles : Places files)
    (hroot : root.Named) (hmem : file ∈ files) :
    ∃ index, tree.findAbsolute? (Location.path (file ++ root)) = some index ∧
      files[index]? = some file := by
  have hsame : ∀ (index : Nat) (other : Location) (content : ContentFile),
      files[index]? = some other → tree.files[index]? = some content →
        content.absolute.same (Location.path (file ++ root)) = true → other = file := by
    intro index other content hother hcontent hpath
    obtain ⟨deleted, heq⟩ := h.getElem? hother
    cases hcontent.symm.trans heq
    have hnamed := (hfiles.2 other (List.mem_of_getElem? hother)).2.append hroot
    exact List.append_cancel_right
      ((Location.same_path_iff hnamed ((hfiles.2 file hmem).2.append hroot)).1 hpath)
  obtain ⟨index, hindex⟩ := List.getElem?_of_mem hmem
  obtain ⟨deleted, hfile⟩ := h.getElem? hindex
  have hself : (Location.path (file ++ root)).same (Location.path (file ++ root)) = true := by
    rw [Path.same, decide_eq_true_iff]
  cases hfind : tree.findAbsolute? (Location.path (file ++ root)) with
  | none =>
      rw [findAbsolute?, List.findIdx?_eq_none_iff] at hfind
      have := hfind _ (List.mem_of_getElem? hfile)
      exact absurd (hself.symm.trans this) (by simp)
  | some found =>
      refine ⟨found, rfl, ?_⟩
      obtain ⟨hlt, hany, -⟩ := List.findIdx?_eq_some_iff_getElem.1 hfind
      have hlength : found < files.length := h.length_eq ▸ hlt
      have hother := List.getElem?_eq_getElem hlength
      rw [hsame found _ _ hother (List.getElem?_eq_getElem hlt) hany] at hother
      exact hother

theorem mem_dependents (h : tree.Marked root files) (hfiles : Places files) {index other : Nat}
    (hindex : files[index]? = some file) (hother : files[other]? = some page) :
    other ∈ tree.dependents index ↔ file.wraps page = true := by
  obtain ⟨deleted, heq⟩ := h.getElem? hother
  obtain ⟨hlt, -⟩ := List.getElem?_eq_some_iff.1 hother
  rw [dependents, List.mem_filter, List.mem_range, size, h.length_eq, heq, Option.any_some,
    Bool.and_eq_true, List.contains_iff_mem, index_ne_iff hfiles hother hindex,
    ContentFile.dependencies_flagged, mem_dependencies hfiles hother hindex]
  constructor
  · exact fun hall => hall.2.2
  · intro hwraps
    refine ⟨hlt, ?_, hwraps⟩
    have hne := (Bool.and_eq_true_iff.1 (Bool.and_eq_true_iff.1 hwraps).2).1
    rw [bne_iff_ne] at hne ⊢
    exact hne.symm

theorem lt_of_mem_dependents (h : tree.Marked root files) {index other : Nat}
    (hmem : other ∈ tree.dependents index) : ∃ page, files[other]? = some page := by
  rw [dependents, List.mem_filter, List.mem_range, size, h.length_eq] at hmem
  exact ⟨_, List.getElem?_eq_getElem hmem.1⟩

theorem mem_dependentPaths (h : tree.Marked root files) (hfiles : Places files)
    (hroot : root.Named) (hmem : file ∈ files) {relative : String} :
    relative ∈ tree.dependentPaths (Location.path (file ++ root)) ↔
      ∃ page ∈ files, file.wraps page = true ∧ relative = (Disk.foundAt root page).relative := by
  obtain ⟨index, hfind, hindex⟩ := h.findAbsolute?_path hfiles hroot hmem
  rw [dependentPaths, hfind]
  dsimp only
  rw [List.mem_filterMap]
  constructor
  · rintro ⟨other, hother, hrelative⟩
    obtain ⟨page, hpage⟩ := h.lt_of_mem_dependents hother
    obtain ⟨deleted, heq⟩ := h.getElem? hpage
    rw [heq, Option.map_some, Option.some.injEq] at hrelative
    exact ⟨page, List.mem_of_getElem? hpage, (h.mem_dependents hfiles hindex hpage).1 hother,
      hrelative.symm⟩
  · rintro ⟨page, hpage, hwraps, rfl⟩
    obtain ⟨other, hother⟩ := List.getElem?_of_mem hpage
    obtain ⟨deleted, heq⟩ := h.getElem? hother
    refine ⟨other, (h.mem_dependents hfiles hindex hother).2 hwraps, ?_⟩
    rw [heq]
    rfl

end Marked

-- The tree with no file marked as deleted.
def unmarked (tree : SourceTree) : SourceTree :=
  ⟨tree.files.map (·.flagged false)⟩

theorem getElem?_unmarked (tree : SourceTree) (index : Nat) :
    tree.unmarked.files[index]? = tree.files[index]?.map (·.flagged false) :=
  List.getElem?_map

theorem unmarked_of_present (h : ∀ file ∈ tree.files, file.deleted = false) :
    tree.unmarked = tree := by
  refine congrArg SourceTree.mk ((List.map_congr_left fun file hmem => ?_).trans (List.map_id _))
  rw [ContentFile.flagged, ← h file hmem]
  rfl

-- Marking a file leaves its name and its place.
theorem map_markDeleted {β : Type} {column : ContentFile → β}
    (hcolumn : ∀ file : ContentFile, column { file with deleted := true } = column file)
    (tree : SourceTree) (index : Nat) :
    (tree.markDeleted index).files.map column = tree.files.map column :=
  map_modify hcolumn tree.files index

theorem unmarked_markDeleted (tree : SourceTree) (index : Nat) :
    (tree.markDeleted index).unmarked = tree.unmarked :=
  congrArg SourceTree.mk (map_markDeleted (fun _ => rfl) tree index)

-- No mark is looked at where a file or its dependents are looked up.
theorem findAbsolute?_unmarked (tree : SourceTree) (path : Path) :
    tree.unmarked.findAbsolute? path = tree.findAbsolute? path :=
  List.findIdx?_map

theorem dependents_unmarked (tree : SourceTree) (index : Nat) :
    tree.unmarked.dependents index = tree.dependents index := by
  have hsize : tree.unmarked.size = tree.size := List.length_map _
  simp only [dependents, hsize, getElem?_unmarked, Option.any_map]
  rfl

theorem dependentPaths_unmarked (tree : SourceTree) (path : Path) :
    tree.unmarked.dependentPaths path = tree.dependentPaths path := by
  simp only [dependentPaths, findAbsolute?_unmarked, dependents_unmarked, getElem?_unmarked,
    Option.map_map]
  rfl

theorem dependentPaths_markDeleted (tree : SourceTree) (index : Nat) (path : Path) :
    (tree.markDeleted index).dependentPaths path = tree.dependentPaths path := by
  rw [← dependentPaths_unmarked, unmarked_markDeleted, dependentPaths_unmarked]

end SourceTree

end StaticSite
