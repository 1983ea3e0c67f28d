import StaticSite.Disk.Basic
import StaticSite.Proofs.Path.Walk

-- A disk seen as what stands at each place: nothing, a directory, or a file with its content.
-- Each change of a disk is told by what stands where afterwards.
namespace StaticSite

inductive Kind where
  | directory
  | file (content : ByteArray)
deriving DecidableEq

namespace Entry

def kind : Entry → Kind
  | .directory _ => .directory
  | .file content => .file content

-- What is found from an entry by following names.
def get? : Entry → List String → Option Entry
  | entry, [] => some entry
  | .directory inside, name :: rest => inside.get? (name :: rest)
  | .file _, _ :: _ => none

theorem get?_directory (inside : Folder) (names : List String) :
    (Entry.directory inside).get? names = inside.get? names := by
  cases names <;> rfl

theorem get?_empty {name : String} {rest : List String} :
    (Entry.directory .empty).get? (name :: rest) = none := by
  simp [get?, Folder.get?, Folder.find?]

-- There is nothing below a file.
theorem get?_of_ne_nil {entry : Entry} {names : List String} (h : names ≠ []) :
    entry.get? names = entry.inside.get? names := by
  cases names with
  | nil => exact absurd rfl h
  | cons name rest => cases entry <;> simp [get?, inside, Folder.get?, Folder.find?]

theorem isDirectory_iff {entry : Entry} : entry.isDirectory = true ↔ entry.kind = .directory := by
  cases entry <;> simp [isDirectory, kind]

end Entry

namespace Folder

theorem get?_cons (folder : Folder) (name : String) (rest : List String) :
    folder.get? (name :: rest) = (folder.find? name).bind (·.get? rest) := by
  rw [get?]
  cases h : folder.find? name with
  | none => simp
  | some entry =>
      cases entry with
      | directory inside => simp [Entry.get?_directory]
      | file content => cases rest <;> simp [Entry.get?]

theorem get?_append (folder : Folder) (front back : List String) :
    folder.get? (front ++ back) = (folder.get? front).bind (·.get? back) := by
  induction front generalizing folder with
  | nil => simp [get?, Entry.get?_directory]
  | cons name rest ih =>
      rw [List.cons_append, get?_cons, get?_cons]
      cases h : folder.find? name with
      | none => simp
      | some entry =>
          cases entry with
          | directory inside => simpa [Entry.get?_directory] using ih inside
          | file content => cases rest <;> simp [Entry.get?]

-- At and below the directory that changes, the change tells what there is.
theorem get?_update_append {change : Folder → Folder} {folder inside : Folder}
    {names : List String} (h : folder.get? names = some (.directory inside)) (rest : List String) :
    (folder.update change names).get? (names ++ rest) = (change inside).get? rest := by
  induction names generalizing folder with
  | nil =>
      cases h
      rfl
  | cons name others ih =>
      rw [get?_cons] at h
      obtain ⟨entry, hfind, hentry⟩ := Option.bind_eq_some_iff.1 h
      cases entry with
      | file content => cases others <;> simp [Entry.get?] at hentry
      | directory inner =>
          rw [Entry.get?_directory] at hentry
          simp only [update, hfind, List.cons_append, get?_cons, find?_put, ↓reduceIte,
            Option.bind_some, Entry.get?_directory]
          exact ih hentry

-- Elsewhere there is what there was, though directories on the way hold something else.
theorem kind_get?_update {change : Folder → Folder} {folder : Folder}
    {names target : List String} (h : ¬ names <+: target) :
    ((folder.update change names).get? target).map Entry.kind =
      (folder.get? target).map Entry.kind := by
  induction names generalizing folder target with
  | nil => exact absurd List.nil_prefix h
  | cons name others ih =>
      cases target with
      | nil => rfl
      | cons first rest =>
          rw [update]
          split
          · next inner hfind =>
            rw [get?_cons, get?_cons, find?_put]
            by_cases heq : name = first
            · subst heq
              have hrest : ¬ others <+: rest := fun hprefix => h (by simpa using hprefix)
              simp only [↓reduceIte, hfind, Option.bind_some, Entry.get?_directory]
              exact ih hrest
            · rw [if_neg heq]
          · rfl

-- Where there is no such directory nothing changes.
theorem kind_get?_update_of_not_directory {change : Folder → Folder} {folder : Folder}
    {names : List String} (h : ∀ inside, folder.get? names ≠ some (.directory inside))
    (target : List String) :
    ((folder.update change names).get? target).map Entry.kind =
      (folder.get? target).map Entry.kind := by
  induction names generalizing folder target with
  | nil => exact absurd rfl (h folder)
  | cons name others ih =>
      rw [update]
      split
      · next inner hfind =>
        have hinner : ∀ inside, inner.get? others ≠ some (.directory inside) := by
          intro inside heq
          apply h inside
          rw [get?_cons, hfind, Option.bind_some, Entry.get?_directory, heq]
        cases target with
        | nil => rfl
        | cons first rest =>
            rw [get?_cons, get?_cons, find?_put]
            by_cases heq : name = first
            · subst heq
              simp only [↓reduceIte, hfind, Option.bind_some, Entry.get?_directory]
              exact ih hinner rest
            · rw [if_neg heq]
      · rfl

end Folder

namespace Disk

def kind? (disk : Disk) (location : Location) : Option Kind :=
  (disk.get? location).map Entry.kind

-- What the file at a place holds, if there is a file.
def file? (disk : Disk) (location : Location) : Option ByteArray :=
  match disk.kind? location with
  | some (.file content) => some content
  | _ => none

theorem within_iff {top location : Location} :
    within top location = true ↔ ∃ below, location = below ++ top := by
  rw [within, List.isSuffixOf_iff_suffix]
  exact ⟨fun ⟨below, heq⟩ => ⟨below, heq.symm⟩, fun ⟨below, heq⟩ => ⟨below, heq.symm⟩⟩

theorem within_refl (location : Location) : within location location :=
  within_iff.2 ⟨[], rfl⟩

theorem within_append (below top : Location) : within top (below ++ top) :=
  within_iff.2 ⟨below, rfl⟩

theorem within_trans {top middle location : Location} (h : within top middle)
    (hlow : within middle location) : within top location := by
  obtain ⟨below, rfl⟩ := within_iff.1 h
  obtain ⟨lower, rfl⟩ := within_iff.1 hlow
  exact within_iff.2 ⟨lower ++ below, by simp⟩

-- Two directories with a place in common are nested.
theorem within_or_within {left right location : Location} (hleft : within left location)
    (hright : within right location) : within left right ∨ within right left := by
  simp only [within, List.isSuffixOf_iff_suffix] at *
  exact List.suffix_or_suffix_of_suffix hleft hright

theorem within_antisymm {left right : Location} (h : within left right)
    (h' : within right left) : left = right := by
  simp only [within, List.isSuffixOf_iff_suffix] at *
  exact h.eq_of_length (Nat.le_antisymm h.length_le h'.length_le)

theorem within_append_right_iff {above location top : Location} :
    within (above ++ top) (location ++ top) = true ↔ within above location = true := by
  rw [within_iff, within_iff]
  refine exists_congr fun below => ?_
  rw [← List.append_assoc, List.append_left_inj]

theorem not_within_tail {name : String} {location : Location} :
    ¬ within (name :: location) location := by
  intro h
  obtain ⟨below, heq⟩ := within_iff.1 h
  have := congrArg List.length heq
  simp at this
  omega

variable {disk : Disk} {location parent : Location} {name : String}

theorem file?_eq_some {content : ByteArray} :
    disk.file? location = some content ↔ disk.kind? location = some (.file content) := by
  unfold file?
  split <;> simp_all

theorem file?_eq_of_kind?_eq {other : Disk} (h : disk.kind? location = other.kind? location) :
    disk.file? location = other.file? location := by
  rw [file?, file?, h]

theorem kind?_nil (disk : Disk) : disk.kind? [] = some .directory := rfl

theorem get?_append (disk : Disk) (below top : Location) :
    disk.get? (below ++ top) = (disk.get? top).bind (·.get? below.reverse) := by
  rw [get?, List.reverse_append, Folder.get?_append]
  rfl

theorem get?_cons (disk : Disk) (name : String) (parent : Location) :
    disk.get? (name :: parent) = (disk.get? parent).bind (·.inside.find? name) := by
  have h := disk.get?_append [name] parent
  rw [List.singleton_append] at h
  rw [h]
  congr 1
  funext entry
  cases entry with
  | file content => rfl
  | directory inside =>
      simp only [Entry.get?_directory, List.reverse_singleton, Folder.get?_cons, Entry.inside]
      cases inside.find? name <;> rfl

theorem kind?_eq_directory :
    disk.kind? location = some .directory ↔ ∃ inside, disk.get? location = some (.directory inside) := by
  unfold kind?
  cases disk.get? location with
  | none => simp
  | some entry => cases entry <;> simp [Entry.kind]

theorem kind?_eq_file {content : ByteArray} :
    disk.kind? location = some (.file content) ↔ disk.get? location = some (.file content) := by
  unfold kind?
  cases disk.get? location with
  | none => simp
  | some entry => cases entry <;> simp [Entry.kind]

theorem kind?_eq_none : disk.kind? location = none ↔ disk.get? location = none := by
  simp [kind?]

-- What there is stands in a directory.
theorem kind?_parent {kind : Kind} (h : disk.kind? (name :: parent) = some kind) :
    disk.kind? parent = some .directory := by
  rw [kind?, get?_cons] at h
  rw [kind?_eq_directory]
  cases hget : disk.get? parent with
  | none => simp [hget] at h
  | some entry =>
      cases entry with
      | directory inside => exact ⟨inside, rfl⟩
      | file content => simp [hget, Entry.inside, Folder.find?] at h

theorem kind?_above {kind : Kind} {below : Location} (hbelow : below ≠ [])
    (h : disk.kind? (below ++ location) = some kind) : disk.kind? location = some .directory := by
  induction below generalizing kind with
  | nil => exact absurd rfl hbelow
  | cons name rest ih =>
      have hparent := kind?_parent h
      by_cases hrest : rest = []
      · subst hrest
        exact hparent
      · exact ih hrest hparent

theorem kind?_below_of_ne_directory (h : disk.kind? location ≠ some .directory)
    {below : Location} (hbelow : below ≠ []) : disk.kind? (below ++ location) = none := by
  cases hkind : disk.kind? (below ++ location) with
  | none => rfl
  | some kind => exact absurd (kind?_above hbelow hkind) h

-- Nothing lies below a file.
theorem eq_of_within_of_file? {left right : Location} (hleft : (disk.file? left).isSome)
    (hright : (disk.file? right).isSome) (h : within left right) : left = right := by
  obtain ⟨below, rfl⟩ := within_iff.1 h
  by_cases hnil : below = []
  · rw [hnil, List.nil_append]
  · obtain ⟨content, hcontent⟩ := Option.isSome_iff_exists.1 hleft
    have hnone : disk.kind? (below ++ left) = none :=
      kind?_below_of_ne_directory (by simp [file?_eq_some.1 hcontent]) hnil
    rw [file?, hnone] at hright
    cases hright

theorem isName_of_get? {entry : Entry} (h : disk.get? (name :: parent) = some entry) :
    IsName name := by
  rw [get?_cons] at h
  obtain ⟨above, hget, hfind⟩ := Option.bind_eq_some_iff.1 h
  exact (Folder.ordered_of_find? (Folder.ordered_of_get? disk.ordered hget) hfind).1

theorem kind?_of_get? {entry : Entry} (h : disk.get? location = some entry) :
    disk.kind? location = some entry.kind := by
  rw [kind?, h]
  rfl

theorem named_of_kind? {kind : Kind} (h : disk.kind? location = some kind) :
    location.Named := by
  induction location generalizing kind with
  | nil => simp [Location.Named]
  | cons name parent ih =>
      intro other hmem
      rcases List.mem_cons.1 hmem with rfl | hmem
      · obtain ⟨entry, hget, -⟩ := Option.map_eq_some_iff.1 h
        exact isName_of_get? hget
      · exact ih (kind?_parent h) other hmem

theorem get?_become {root : Folder} {workDir : Location} {ordered : root.Ordered} :
    (disk.become root workDir ordered).get? location = root.get? location.reverse := rfl

-- The places below a directory, and the others.
theorem below_cases (parent location : Location) :
    (∃ lower name, location = lower ++ name :: parent) ∨
      ∀ name, ¬ within (name :: parent) location := by
  by_cases h : ∃ lower name, location = lower ++ name :: parent
  · exact .inl h
  · refine .inr fun name hwithin => h ?_
    obtain ⟨below, heq⟩ := within_iff.1 hwithin
    exact ⟨below, name, heq⟩

theorem within_append_cons_iff {lower : Location} {last : String} :
    within (name :: parent) (lower ++ last :: parent) = true ↔ name = last := by
  constructor
  · intro h
    obtain ⟨more, hmore⟩ := within_iff.1 h
    have := List.append_inj_right' hmore (by simp)
    exact (List.cons.inj this).1.symm
  · rintro rfl
    exact within_append _ _

-- When the entries of one directory change, only the places below it can differ.
theorem kind?_update_of_not_below {change : Folder → Folder} {workDir : Location}
    {ordered : (disk.root.update change parent.reverse).Ordered}
    (h : ∀ name, ¬ within (name :: parent) location) :
    (disk.become (disk.root.update change parent.reverse) workDir ordered).kind? location =
      disk.kind? location := by
  rw [kind?, get?_become]
  by_cases hdirectory : ∃ inside, disk.get? parent = some (.directory inside)
  · by_cases heq : location = parent
    · obtain ⟨inside, hget⟩ := hdirectory
      have hupdate : (disk.root.update change parent.reverse).get? (parent.reverse ++ []) =
          (change inside).get? [] := Folder.get?_update_append hget []
      rw [List.append_nil] at hupdate
      rw [heq, hupdate, kind?, hget]
      rfl
    · apply Folder.kind_get?_update
      rw [List.reverse_prefix]
      rintro ⟨below, hbelow⟩
      rcases List.eq_nil_or_concat' below with rfl | ⟨lower, name, rfl⟩
      · exact heq hbelow.symm
      · exact h name (within_iff.2 ⟨lower, by simp [← hbelow]⟩)
  · exact Folder.kind_get?_update_of_not_directory (not_exists.1 hdirectory) _

theorem kind?_update_below {change : Folder → Folder} {inside : Folder} {workDir : Location}
    {ordered : (disk.root.update change parent.reverse).Ordered}
    (h : disk.get? parent = some (.directory inside)) (lower : Location) (name : String) :
    (disk.become (disk.root.update change parent.reverse) workDir ordered).kind?
        (lower ++ name :: parent) =
      (((change inside).find? name).bind (·.get? lower.reverse)).map Entry.kind := by
  have hsplit : (lower ++ name :: parent).reverse =
      parent.reverse ++ (name :: lower.reverse) := by simp
  rw [kind?, get?_become, hsplit, Folder.get?_update_append h, Folder.get?_cons]

theorem kind?_append_cons {inside : Folder} (h : disk.get? parent = some (.directory inside))
    (lower : Location) (name : String) :
    disk.kind? (lower ++ name :: parent) =
      ((inside.find? name).bind (·.get? lower.reverse)).map Entry.kind := by
  have hsplit : lower ++ name :: parent = (lower ++ [name]) ++ parent := by simp
  rw [kind?, hsplit, get?_append, h, Option.bind_some, Entry.get?_directory, List.reverse_concat,
    Folder.get?_cons]

theorem kind?_install {entry : Entry} {hname : IsName name} {hentry : entry.inside.Ordered}
    (hparent : disk.kind? parent = some .directory) (location : Location) :
    (disk.install name parent entry hname hentry).kind? location =
      if within (name :: parent) location then
        (entry.get? (location.take (location.length - (parent.length + 1))).reverse).map Entry.kind
      else disk.kind? location := by
  obtain ⟨inside, hget⟩ := kind?_eq_directory.1 hparent
  rcases below_cases parent location with ⟨lower, last, rfl⟩ | hnot
  · rw [install, kind?_update_below hget, Folder.find?_put]
    by_cases heq : name = last
    · have hlength : (lower ++ last :: parent).length - (parent.length + 1) = lower.length := by
        simp
      rw [if_pos heq, if_pos (within_append_cons_iff.2 heq), hlength, List.take_left]
      rfl
    · rw [if_neg heq, if_neg (mt within_append_cons_iff.1 heq), kind?_append_cons hget]
  · rw [install, kind?_update_of_not_below hnot, if_neg (hnot name)]

-- An entry that holds nothing takes the place of one that held nothing.
theorem kind?_install_bare {entry : Entry} {hname : IsName name} {hentry : entry.inside.Ordered}
    (hparent : disk.kind? parent = some .directory)
    (hfree : disk.kind? (name :: parent) ≠ some .directory)
    (hbare : ∀ first rest, entry.get? (first :: rest) = none) (location : Location) :
    (disk.install name parent entry hname hentry).kind? location =
      if location = name :: parent then some entry.kind else disk.kind? location := by
  rw [kind?_install hparent]
  by_cases hwithin : within (name :: parent) location
  · obtain ⟨below, rfl⟩ := within_iff.1 hwithin
    have hlength : (below ++ name :: parent).length - (parent.length + 1) = below.length := by
      simp
    rw [if_pos hwithin, hlength, List.take_left]
    by_cases hbelow : below = []
    · subst hbelow
      simp [Entry.get?]
    · obtain ⟨first, rest, heq⟩ := List.exists_cons_of_ne_nil (List.reverse_ne_nil_iff.2 hbelow)
      rw [if_neg (by simpa using hbelow), kind?_below_of_ne_directory hfree hbelow, heq, hbare]
      rfl
  · rw [if_neg hwithin, if_neg]
    rintro rfl
    exact hwithin (within_refl _)

theorem kind?_putFile {content : ByteArray} (hname : IsName name)
    (hparent : disk.kind? parent = some .directory)
    (hfree : disk.kind? (name :: parent) ≠ some .directory) (location : Location) :
    (disk.putFile name parent content).kind? location =
      if location = name :: parent then some (.file content) else disk.kind? location := by
  rw [putFile, dif_pos hname]
  exact kind?_install_bare hparent hfree (fun _ _ => rfl) location

theorem kind?_putDirectory (hname : IsName name) (hparent : disk.kind? parent = some .directory)
    (hfree : disk.kind? (name :: parent) = none) (location : Location) :
    (disk.putDirectory name parent).kind? location =
      if location = name :: parent then some .directory else disk.kind? location := by
  rw [putDirectory, dif_pos hname]
  exact kind?_install_bare hparent (by simp [hfree]) (fun _ _ => Entry.get?_empty) location

theorem kind?_erase (disk : Disk) (name : String) (parent location : Location) :
    (disk.erase (name :: parent)).kind? location =
      if within (name :: parent) location then none else disk.kind? location := by
  rw [erase]
  rcases below_cases parent location with ⟨lower, last, rfl⟩ | hnot
  · by_cases hparent : disk.kind? parent = some .directory
    · obtain ⟨inside, hget⟩ := kind?_eq_directory.1 hparent
      rw [kind?_update_below hget, Folder.find?_erase]
      by_cases heq : name = last
      · rw [if_pos heq, if_pos (within_append_cons_iff.2 heq)]
        rfl
      · rw [if_neg heq, if_neg (mt within_append_cons_iff.1 heq), kind?_append_cons hget]
    · have hnone : disk.kind? (lower ++ last :: parent) = none := by
        rw [show lower ++ last :: parent = (lower ++ [last]) ++ parent by simp]
        exact kind?_below_of_ne_directory hparent (by simp)
      rw [hnone, ite_self, kind?, get?_become, Folder.kind_get?_update_of_not_directory]
      · exact hnone
      · intro inside hget
        exact hparent (kind?_eq_directory.2 ⟨inside, hget⟩)
  · rw [kind?_update_of_not_below hnot, if_neg (hnot name)]

theorem kind?_eraseBelow {top : Location} (h : disk.kind? top = some .directory)
    (location : Location) :
    (disk.eraseBelow top).kind? location =
      if within top location ∧ location ≠ top then none else disk.kind? location := by
  obtain ⟨inside, hget⟩ := kind?_eq_directory.1 h
  rw [eraseBelow]
  rcases below_cases top location with ⟨lower, last, rfl⟩ | hnot
  · have hne : lower ++ last :: top ≠ top := by
      intro heq
      have := congrArg List.length heq
      simp only [List.length_append, List.length_cons] at this
      omega
    have hwithin : within top (lower ++ last :: top) := within_iff.2 ⟨lower ++ [last], by simp⟩
    rw [kind?_update_below hget, if_pos ⟨hwithin, hne⟩]
    rfl
  · rw [kind?_update_of_not_below hnot, if_neg]
    rintro ⟨hwithin, hne⟩
    obtain ⟨below, rfl⟩ := within_iff.1 hwithin
    rcases List.eq_nil_or_concat' below with rfl | ⟨lower, name, rfl⟩
    · exact hne rfl
    · exact hnot name (within_iff.2 ⟨lower, by simp⟩)

-- What moves is found at its new place, and nothing is left at the old one.
theorem kind?_move {old : String} {place : Location} {entry : Entry} (hname : IsName name)
    (hget : disk.get? (old :: place) = some entry) (hparent : disk.kind? parent = some .directory)
    (houtside : ¬ within (old :: place) parent) (location : Location) :
    (disk.move (old :: place) name parent).kind? location =
      if within (name :: parent) location then
        disk.kind? (location.take (location.length - (parent.length + 1)) ++ old :: place)
      else if within (old :: place) location then none
      else disk.kind? location := by
  have hmove : (disk.move (old :: place) name parent).kind? location =
      ((disk.erase (old :: place)).install name parent entry hname
        (Folder.ordered_of_get? disk.ordered hget)).kind? location := by
    unfold move
    split
    · next heq hsome =>
      injection heq with hold hplace
      subst hold hplace
      rw [hget] at hsome
      cases hsome
      rw [dif_pos hname]
      rfl
    · next hnone => exact absurd hget (hnone old place entry rfl)
  have hstays : (disk.erase (old :: place)).kind? parent = some .directory := by
    rw [kind?_erase, if_neg houtside, hparent]
  rw [hmove, kind?_install hstays, kind?_erase]
  congr 1
  rw [kind?, get?_append, hget, Option.bind_some]

end Disk

end StaticSite
