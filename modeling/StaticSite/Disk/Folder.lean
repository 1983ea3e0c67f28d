namespace StaticSite

-- The names that a directory can hold: those of them that are texts. Scans pass over files with
-- other names, and no path is written with them.
def IsName (name : String) : Prop :=
  name ≠ "" ∧ name ≠ "." ∧ name ≠ ".." ∧ '/' ∉ name.toList

instance (name : String) : Decidable (IsName name) := by
  unfold IsName; infer_instance

-- Contents are compared byte by byte.
instance (priority := 2000) decidableEqContent : DecidableEq ByteArray :=
  ByteArray.instDecidableEq

-- What a directory holds: files and directories, one after another. There are no links.
inductive Folder where
  | empty
  | file (name : String) (content : ByteArray) (rest : Folder)
  | directory (name : String) (inside rest : Folder)
deriving DecidableEq, Inhabited

-- What there is under a name.
inductive Entry where
  | file (content : ByteArray)
  | directory (inside : Folder)
deriving DecidableEq

namespace Entry

def isDirectory : Entry → Bool
  | .directory _ => true
  | .file _ => false

-- What a directory holds. A file holds no entries.
def inside : Entry → Folder
  | .directory inside => inside
  | .file _ => .empty

end Entry

namespace Folder

-- One more entry at the front.
def cons (name : String) : Entry → Folder → Folder
  | .file content, rest => .file name content rest
  | .directory inside, rest => .directory name inside rest

def names : Folder → List String
  | .empty => []
  | .file name _ rest => name :: rest.names
  | .directory name _ rest => name :: rest.names

def find? (wanted : String) : Folder → Option Entry
  | .empty => none
  | .file name content rest => if name = wanted then some (.file content) else rest.find? wanted
  | .directory name inside rest =>
    if name = wanted then some (.directory inside) else rest.find? wanted

-- Put an entry at its place in the order of names. It takes the place of one of its name.
def put (wanted : String) (entry : Entry) : Folder → Folder
  | .empty => cons wanted entry .empty
  | .file name content rest =>
    if name = wanted then cons wanted entry rest
    else if wanted < name then cons wanted entry (.file name content rest)
    else .file name content (rest.put wanted entry)
  | .directory name inside rest =>
    if name = wanted then cons wanted entry rest
    else if wanted < name then cons wanted entry (.directory name inside rest)
    else .directory name inside (rest.put wanted entry)

def erase (wanted : String) : Folder → Folder
  | .empty => .empty
  | .file name content rest =>
    if name = wanted then rest.erase wanted else .file name content (rest.erase wanted)
  | .directory name inside rest =>
    if name = wanted then rest.erase wanted else .directory name inside (rest.erase wanted)

-- What is found by following names, the outermost first.
def get? (folder : Folder) : List String → Option Entry
  | [] => some (.directory folder)
  | name :: rest =>
    match folder.find? name with
    | some (.directory inside) => inside.get? rest
    | entry => if rest = [] then entry else none

-- Change what the directory at the end of a way holds, if there is one.
def update (change : Folder → Folder) (folder : Folder) : List String → Folder
  | [] => change folder
  | name :: rest =>
    match folder.find? name with
    | some (.directory inside) => folder.put name (.directory (inside.update change rest))
    | _ => folder

-- The names are in order, here and further inside.
def Ordered : Folder → Prop
  | .empty => True
  | .file name _ rest => IsName name ∧ (∀ other ∈ rest.names, name < other) ∧ rest.Ordered
  | .directory name inside rest =>
    IsName name ∧ (∀ other ∈ rest.names, name < other) ∧ inside.Ordered ∧ rest.Ordered

theorem find?_cons (name wanted : String) (entry : Entry) (rest : Folder) :
    (cons name entry rest).find? wanted = if name = wanted then some entry else rest.find? wanted := by
  cases entry <;> rfl

theorem names_cons (name : String) (entry : Entry) (rest : Folder) :
    (cons name entry rest).names = name :: rest.names := by
  cases entry <;> rfl

theorem ordered_cons {name : String} {entry : Entry} {rest : Folder} (hname : IsName name)
    (hentry : entry.inside.Ordered) (hlt : ∀ other ∈ rest.names, name < other)
    (hrest : rest.Ordered) : (cons name entry rest).Ordered := by
  cases entry with
  | file => exact ⟨hname, hlt, hrest⟩
  | directory => exact ⟨hname, hlt, hentry, hrest⟩

theorem find?_put (wanted other : String) (entry : Entry) (folder : Folder) :
    (folder.put wanted entry).find? other =
      if wanted = other then some entry else folder.find? other := by
  induction folder with
  | empty => simp [put, find?_cons, find?]
  | file name content rest ih => grind [put, find?_cons, find?]
  | directory name inside rest _ ih => grind [put, find?_cons, find?]

theorem find?_erase (wanted other : String) (folder : Folder) :
    (folder.erase wanted).find? other = if wanted = other then none else folder.find? other := by
  induction folder with
  | empty => simp [erase, find?]
  | file name content rest ih => grind [erase, find?]
  | directory name inside rest _ ih => grind [erase, find?]

theorem mem_names_put {wanted other : String} {entry : Entry} {folder : Folder}
    (h : other ∈ (folder.put wanted entry).names) : other = wanted ∨ other ∈ folder.names := by
  induction folder with
  | empty => simpa [put, names_cons, names] using h
  | file name content rest ih => grind [put, names_cons, names]
  | directory name inside rest _ ih => grind [put, names_cons, names]

theorem mem_names_of_mem_erase {wanted other : String} {folder : Folder}
    (h : other ∈ (folder.erase wanted).names) : other ∈ folder.names := by
  induction folder with
  | empty => exact h
  | file name content rest ih => grind [erase, names]
  | directory name inside rest _ ih => grind [erase, names]

theorem ordered_put {wanted : String} {entry : Entry} {folder : Folder} (hname : IsName wanted)
    (hentry : entry.inside.Ordered) (h : folder.Ordered) : (folder.put wanted entry).Ordered := by
  induction folder with
  | empty => exact ordered_cons hname hentry (by simp [names]) trivial
  | file name content rest ih =>
    obtain ⟨hfirst, hlt, hrest⟩ := h
    rw [put]
    split
    · next heq => subst heq; exact ordered_cons hname hentry hlt hrest
    · next hne =>
      split
      · next hless =>
        refine ordered_cons hname hentry (fun other hmem => ?_) ⟨hfirst, hlt, hrest⟩
        rcases List.mem_cons.1 hmem with rfl | hmem
        · exact hless
        · exact String.lt_trans hless (hlt other hmem)
      · next hless =>
        refine ⟨hfirst, fun other hmem => ?_, ih hrest⟩
        rcases mem_names_put hmem with rfl | hmem
        · grind
        · exact hlt other hmem
  | directory name inside rest _ ih =>
    obtain ⟨hfirst, hlt, hinside, hrest⟩ := h
    rw [put]
    split
    · next heq => subst heq; exact ordered_cons hname hentry hlt hrest
    · next hne =>
      split
      · next hless =>
        refine ordered_cons hname hentry (fun other hmem => ?_) ⟨hfirst, hlt, hinside, hrest⟩
        rcases List.mem_cons.1 hmem with rfl | hmem
        · exact hless
        · exact String.lt_trans hless (hlt other hmem)
      · next hless =>
        refine ⟨hfirst, fun other hmem => ?_, hinside, ih hrest⟩
        rcases mem_names_put hmem with rfl | hmem
        · grind
        · exact hlt other hmem

theorem ordered_erase {wanted : String} {folder : Folder} (h : folder.Ordered) :
    (folder.erase wanted).Ordered := by
  induction folder with
  | empty => trivial
  | file name content rest ih =>
    obtain ⟨hfirst, hlt, hrest⟩ := h
    rw [erase]
    split
    · exact ih hrest
    · exact ⟨hfirst, fun other hmem => hlt other (mem_names_of_mem_erase hmem), ih hrest⟩
  | directory name inside rest _ ih =>
    obtain ⟨hfirst, hlt, hinside, hrest⟩ := h
    rw [erase]
    split
    · exact ih hrest
    · exact ⟨hfirst, fun other hmem => hlt other (mem_names_of_mem_erase hmem), hinside, ih hrest⟩

theorem ordered_of_find? {wanted : String} {entry : Entry} {folder : Folder} (h : folder.Ordered)
    (hfind : folder.find? wanted = some entry) : IsName wanted ∧ entry.inside.Ordered := by
  induction folder with
  | empty => simp [find?] at hfind
  | file name content rest ih =>
    rw [find?] at hfind
    split at hfind
    · next heq => cases hfind; exact ⟨heq ▸ h.1, trivial⟩
    · exact ih h.2.2 hfind
  | directory name inside rest _ ih =>
    rw [find?] at hfind
    split at hfind
    · next heq => cases hfind; exact ⟨heq ▸ h.1, h.2.2.1⟩
    · exact ih h.2.2.2 hfind

theorem ordered_of_get? {names : List String} {entry : Entry} {folder : Folder} (h : folder.Ordered)
    (hget : folder.get? names = some entry) : entry.inside.Ordered := by
  induction names generalizing folder with
  | nil => cases hget; exact h
  | cons name rest ih =>
    rw [get?] at hget
    split at hget
    · next hfind => exact ih (ordered_of_find? h hfind).2 hget
    · split at hget
      · exact (ordered_of_find? h hget).2
      · cases hget

theorem ordered_update {change : Folder → Folder} {folder : Folder} {names : List String}
    (hchange : ∀ inside : Folder, inside.Ordered → (change inside).Ordered) (h : folder.Ordered) :
    (folder.update change names).Ordered := by
  induction names generalizing folder with
  | nil => exact hchange folder h
  | cons name rest ih =>
    rw [update]
    split
    · next hfind =>
      have := ordered_of_find? h hfind
      exact ordered_put this.1 (ih this.2) h
    · exact h

end Folder

end StaticSite
