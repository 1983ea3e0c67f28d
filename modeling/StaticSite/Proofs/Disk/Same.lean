import StaticSite.Proofs.Disk.Straight
import StaticSite.Proofs.Scan.Listing

-- Disks on which relative paths start from the same place. A disk is told by that place and by what
-- stands where.
namespace StaticSite

namespace Folder

variable {name other : String} {entry : Entry} {left right rest : Folder}

theorem find?_isSome_of_mem (h : name ∈ left.names) : (left.find? name).isSome = true := by
  induction left with
  | empty => cases h
  | file first content rest ih =>
      rw [find?]
      split
      · rfl
      · next hne => exact ih ((List.mem_cons.1 h).resolve_left (Ne.symm hne))
  | directory first inside rest _ ih =>
      rw [find?]
      split
      · rfl
      · next hne => exact ih ((List.mem_cons.1 h).resolve_left (Ne.symm hne))

-- What is found by following names is of the same kind.
def Alike (left right : Folder) : Prop :=
  ∀ names, (left.get? names).map Entry.kind = (right.get? names).map Entry.kind

namespace Alike

theorem symm (h : Alike left right) : Alike right left :=
  fun names => (h names).symm

theorem find? (h : Alike left right) (name : String) :
    (left.find? name).map Entry.kind = (right.find? name).map Entry.kind := by
  have hname := h [name]
  have hone : ∀ folder : Folder, folder.get? [name] = folder.find? name := fun folder => by
    rw [get?_cons]
    cases folder.find? name <;> rfl
  rwa [hone, hone] at hname

theorem mem_names (h : Alike left right) (hmem : name ∈ left.names) : name ∈ right.names := by
  by_contra hnot
  have hfind := h.find? name
  rw [find?_eq_none_of_not_mem hnot, Option.map_none, Option.map_eq_none_iff] at hfind
  have hsome := find?_isSome_of_mem hmem
  rw [hfind] at hsome
  cases hsome

end Alike

theorem mem_names_cons : name ∈ (cons other entry rest).names ↔ name = other ∨ name ∈ rest.names := by
  rw [names_cons, List.mem_cons]

-- The first names are the same, and so is what they lead to, and the rest.
theorem alike_cons {entry' : Entry} {rest' : Folder} (hlt : ∀ later ∈ rest.names, name < later)
    (hlt' : ∀ later ∈ rest'.names, other < later)
    (h : Alike (cons name entry rest) (cons other entry' rest')) :
    name = other ∧ entry.kind = entry'.kind ∧ Alike entry.inside entry'.inside ∧
      Alike rest rest' := by
  have hname : name = other := by
    by_contra hne
    have hleft := (mem_names_cons.1 (h.mem_names (mem_names_cons.2 (.inl rfl)))).resolve_left hne
    have hright :=
      (mem_names_cons.1 (h.symm.mem_names (mem_names_cons.2 (.inl rfl)))).resolve_left (Ne.symm hne)
    exact String.lt_asymm (hlt' _ hleft) (hlt _ hright)
  subst hname
  have hkind : entry.kind = entry'.kind := by
    have hfind := h.find? name
    rwa [find?_cons, find?_cons, if_pos rfl, if_pos rfl, Option.map_some, Option.map_some,
      Option.some.injEq] at hfind
  refine ⟨rfl, hkind, fun names => ?_, fun names => ?_⟩
  · cases names with
    | nil => rfl
    | cons first more =>
        have hbelow := h (name :: first :: more)
        rwa [get?_cons, get?_cons, find?_cons, find?_cons, if_pos rfl, if_pos rfl, Option.bind_some,
          Option.bind_some, Entry.get?_of_ne_nil (List.cons_ne_nil _ _),
          Entry.get?_of_ne_nil (List.cons_ne_nil _ _)] at hbelow
  · cases names with
    | nil => rfl
    | cons first more =>
        by_cases hfirst : name = first
        · subst hfirst
          have hleft : name ∉ rest.names := fun hmem => String.lt_irrefl name (hlt name hmem)
          have hright : name ∉ rest'.names := fun hmem => String.lt_irrefl name (hlt' name hmem)
          rw [get?_cons, get?_cons, find?_eq_none_of_not_mem hleft, find?_eq_none_of_not_mem hright]
        · have hbelow := h (first :: more)
          rwa [get?_cons, get?_cons, find?_cons, find?_cons, if_neg hfirst, if_neg hfirst,
            ← get?_cons, ← get?_cons] at hbelow

-- A folder is told by the kinds of what is found in it.
theorem Ordered.eq_of_alike (hleft : left.Ordered) (hright : right.Ordered)
    (h : Alike left right) : left = right := by
  induction hleft using Ordered.induction generalizing right with
  | empty =>
      induction hright using Ordered.induction with
      | empty => rfl
      | cons name entry rest =>
          have hmem := h.symm.mem_names (mem_names_cons.2 (.inl rfl))
          cases hmem
  | cons name entry rest hname hentry hlt hrest ihentry ihrest =>
      induction hright using Ordered.induction with
      | empty =>
          have hmem := h.mem_names (mem_names_cons.2 (.inl rfl))
          cases hmem
      | cons other entry' rest' hother hentry' hlt' hrest' =>
          obtain ⟨rfl, hkind, hinside, hothers⟩ := alike_cons hlt hlt' h
          have heq : entry = entry' := by
            cases entry with
            | file content =>
                cases entry' with
                | file content' => cases hkind; rfl
                | directory inside' => cases hkind
            | directory inside =>
                cases entry' with
                | file content' => cases hkind
                | directory inside' => exact congrArg Entry.directory (ihentry hentry' hinside)
          rw [heq, ihrest hrest' hothers]

end Folder

namespace Disk

variable {disk middle next : Disk} {path : Path} {location parent : Location} {name : String}

-- Relative paths start from the same place.
structure SameBase (before after : Disk) : Prop where
  workDir : after.workDir = before.workDir
  adrift : after.adrift = before.adrift

namespace SameBase

theorem refl (disk : Disk) : SameBase disk disk := ⟨rfl, rfl⟩

theorem symm (h : SameBase disk next) : SameBase next disk := ⟨h.1.symm, h.2.symm⟩

theorem trans (h : SameBase disk middle) (h' : SameBase middle next) : SameBase disk next :=
  ⟨h'.1.trans h.1, h'.2.trans h.2⟩

theorem grounded (h : SameBase disk next) (hgrounded : disk.Grounded path) : next.Grounded path := by
  rw [Grounded, h.adrift]
  exact hgrounded

theorem base?_eq (h : SameBase disk next) : next.base? = disk.base? := by
  rw [base?, base?, h.workDir, h.adrift]

theorem eq_of_kind? (h : SameBase disk next) (hkind : next.kind? = disk.kind?) : next = disk := by
  have hroot : next.root = disk.root := by
    refine next.ordered.eq_of_alike disk.ordered fun names => ?_
    have hnames := congrFun hkind names.reverse
    rwa [kind?, kind?, get?, get?, List.reverse_reverse] at hnames
  obtain ⟨hwork, hadrift⟩ := h
  cases disk
  cases next
  dsimp only at hroot hwork hadrift
  subst hroot hwork hadrift
  rfl

end SameBase

theorem missing_eq_zero {root : Folder} (h : (root.get? location.reverse).any Entry.isDirectory) :
    root.missing location = 0 := by
  cases location with
  | nil => rfl
  | cons name parent => rw [Folder.missing, if_pos h]

-- The working directory stands as before where it did, and no directory has been removed.
theorem sameBase_become {root : Folder} {ordered : root.Ordered}
    (h : (disk.become root disk.workDir ordered).kind? (disk.workDir.drop disk.adrift) =
      some .directory) : SameBase disk (disk.become root disk.workDir ordered) := by
  refine ⟨rfl, ?_⟩
  obtain ⟨inside, hget⟩ := kind?_eq_directory.1 h
  rw [get?_become] at hget
  change disk.adrift + root.missing _ = disk.adrift
  rw [missing_eq_zero (by rw [hget]; rfl), Nat.add_zero]

theorem sameBase_putDirectory (hname : IsName name) (hparent : disk.kind? parent = some .directory)
    (hfree : disk.kind? (name :: parent) = none) :
    SameBase disk (disk.putDirectory name parent) := by
  have hkind := kind?_putDirectory hname hparent hfree (disk.workDir.drop disk.adrift)
  rw [kind?_workDir_drop, ite_self] at hkind
  rw [putDirectory, dif_pos hname] at hkind ⊢
  exact sameBase_become hkind

theorem sameBase_putFile {content : ByteArray} (hname : IsName name)
    (hparent : disk.kind? parent = some .directory)
    (hfree : disk.kind? (name :: parent) ≠ some .directory) :
    SameBase disk (disk.putFile name parent content) := by
  have hkind := @kind?_putFile disk parent name content hname hparent hfree
    (disk.workDir.drop disk.adrift)
  have hne : disk.workDir.drop disk.adrift ≠ name :: parent := fun heq =>
    hfree (heq ▸ disk.kind?_workDir_drop)
  rw [if_neg hne, kind?_workDir_drop] at hkind
  rw [putFile, dif_pos hname] at hkind ⊢
  exact sameBase_become hkind

theorem sameBase_makeDirectory (h : disk.makeDirectory path = .ok next) : SameBase disk next := by
  obtain ⟨name, parent, -, -, hname, -, hparent, hfree, rfl⟩ := makeDirectory_eq_ok h
  exact sameBase_putDirectory hname hparent hfree

theorem sameBase_makeWay (disk : Disk) (segments : List String) :
    SameBase disk (disk.makeWay segments).2 := by
  induction segments generalizing disk with
  | nil => exact .refl disk
  | cons segment rest ih =>
      have hrest := ih disk
      rw [makeWay]
      split
      · exact hrest
      · dsimp only
        split
        · next made hmake => exact sameBase_makeDirectory hmake
        · split
          · next fault middle hway =>
            rw [hway] at hrest
            exact hrest
          · next middle hway =>
            rw [hway] at hrest
            split
            · next made hmake => exact hrest.trans (sameBase_makeDirectory hmake)
            · exact hrest
        · exact .refl disk

theorem sameBase_makeParent (disk : Disk) (path : Path) : SameBase disk (disk.makeParent path).2 := by
  unfold makeParent
  split
  · unfold makeDirectories
    split
    · exact .refl disk
    · exact sameBase_makeWay disk _
  · exact .refl disk

theorem sameBase_write {content : ByteArray} (h : disk.write path content = .ok next) :
    SameBase disk next := by
  obtain ⟨name, parent, -, -, hname, hparent, hfree, -, rfl⟩ := write_eq_ok h
  exact sameBase_putFile hname hparent hfree

theorem sameBase_copy {source : Path} (h : disk.copy source path = .ok next) :
    SameBase disk next := by
  obtain ⟨content, middle, last, -, hmiddle, -, hnext⟩ := copy_eq_ok h
  exact (sameBase_write hmiddle).trans (sameBase_write hnext)

end Disk

end StaticSite
