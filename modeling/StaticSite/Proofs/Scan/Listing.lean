import Mathlib.Data.List.Sort
import StaticSite.Disk.Difference
import StaticSite.Proofs.Disk.Named

-- The entries below a directory, in the order of the names that lead to them.
namespace StaticSite

namespace Location

-- Places in the order in which a directory lists them.
def Before (left right : Location) : Prop :=
  left.reverse < right.reverse

instance : Std.Irrefl Before :=
  ⟨fun location => List.lt_irrefl location.reverse⟩

instance : Std.Antisymm Before :=
  ⟨fun _ _ h h' => absurd h' (List.lt_asymm h)⟩

theorem before_concat {left right : Location} {name other : String} :
    Before (left ++ [name]) (right ++ [other]) ↔
      name < other ∨ name = other ∧ left.Before right := by
  rw [Before, List.reverse_concat, List.reverse_concat, List.cons_lt_cons_iff]
  rfl

end Location

namespace Folder

theorem entries_eq_map (folder : Folder) (above : Location) :
    folder.entries above = (folder.entries []).map fun (below, entry) => (below ++ above, entry) := by
  induction folder generalizing above with
  | empty => rfl
  | file name content rest ih => rw [entries, entries, ih above, List.map_cons]; rfl
  | directory name inside rest ihinside ihrest =>
      rw [entries, entries, ihinside (name :: above), ihinside [name], ihrest above]
      simp

-- The first entry, what is below it, and the others.
theorem entries_cons (name : String) (entry : Entry) (rest : Folder) :
    (cons name entry rest).entries [] = ([name], entry) ::
      ((entry.inside.entries []).map fun (below, other) => (below ++ [name], other)) ++
        rest.entries [] := by
  cases entry with
  | file content => rfl
  | directory inside => rw [cons, entries, entries_eq_map inside [name]]; rfl

theorem find?_eq_none_of_not_mem {name : String} {folder : Folder} (h : name ∉ folder.names) :
    folder.find? name = none := by
  induction folder with
  | empty => rfl
  | file other content rest ih => grind [names, find?]
  | directory other inside rest _ ih => grind [names, find?]

-- A folder is empty or has a first entry, whose name comes before the others.
@[elab_as_elim]
theorem Ordered.induction {motive : (folder : Folder) → folder.Ordered → Prop}
    (empty : motive .empty trivial)
    (cons : ∀ (name : String) (entry : Entry) (rest : Folder) (hname : IsName name)
      (hentry : entry.inside.Ordered) (hlt : ∀ other ∈ rest.names, name < other)
      (hrest : rest.Ordered), motive entry.inside hentry → motive rest hrest →
        motive (Folder.cons name entry rest) (ordered_cons hname hentry hlt hrest))
    {folder : Folder} (hordered : folder.Ordered) : motive folder hordered := by
  induction folder with
  | empty => exact empty
  | file name content rest ih =>
      exact cons name (.file content) rest hordered.1 trivial hordered.2.1 hordered.2.2 empty
        (ih hordered.2.2)
  | directory name inside rest ihinside ihrest =>
      exact cons name (.directory inside) rest hordered.1 hordered.2.2.1 hordered.2.1
        hordered.2.2.2 (ihinside hordered.2.2.1) (ihrest hordered.2.2.2)

theorem get?_cons_concat (name first : String) (entry : Entry) (rest : Folder) (lower : Location) :
    (cons name entry rest).get? (lower ++ [first]).reverse =
      if name = first then entry.get? lower.reverse else rest.get? (lower ++ [first]).reverse := by
  rw [List.reverse_concat, get?_cons, get?_cons, find?_cons]
  split <;> rfl

theorem exists_name_of_mem_entries {folder : Folder} (hordered : folder.Ordered)
    {below : Location} {entry : Entry} (h : (below, entry) ∈ folder.entries []) :
    ∃ lower, ∃ name ∈ folder.names, below = lower ++ [name] := by
  induction hordered using Ordered.induction with
  | empty => cases h
  | cons name first rest hname hfirst hlt hrest ihinside ihrest =>
      rw [entries_cons, List.cons_append] at h
      rw [names_cons]
      rcases List.mem_cons.1 h with heq | h
      · cases heq
        exact ⟨[], name, List.mem_cons_self, rfl⟩
      · rcases List.mem_append.1 h with h | h
        · obtain ⟨⟨lower, other⟩, -, heq⟩ := List.mem_map.1 h
          cases heq
          exact ⟨lower, name, List.mem_cons_self, rfl⟩
        · obtain ⟨lower, other, hmem, heq⟩ := ihrest h
          exact ⟨lower, other, List.mem_cons_of_mem _ hmem, heq⟩

-- The entries are what is found by following names.
theorem mem_entries {folder : Folder} (hordered : folder.Ordered) {below : Location}
    {entry : Entry} : (below, entry) ∈ folder.entries [] ↔
      below ≠ [] ∧ folder.get? below.reverse = some entry := by
  induction hordered using Ordered.induction generalizing below with
  | empty =>
      rcases List.eq_nil_or_concat' below with rfl | ⟨lower, name, rfl⟩ <;>
        simp [entries, get?_cons, find?]
  | cons name first rest hname hfirst hlt hrest ihinside ihrest =>
      have hnot : name ∉ rest.names := fun hmem => String.lt_irrefl name (hlt name hmem)
      rw [entries_cons, List.cons_append, List.mem_cons, List.mem_append, ihrest]
      rcases List.eq_nil_or_concat' below with rfl | ⟨lower, last, rfl⟩
      · simp
      · have hinside : (lower ++ [last], entry) ∈ (first.inside.entries []).map
            (fun (below, other) => (below ++ [name], other)) ↔
              last = name ∧ (lower, entry) ∈ first.inside.entries [] := by
          simp only [List.mem_map, Prod.exists, Prod.mk.injEq]
          constructor
          · rintro ⟨below, other, hmem, heq, rfl⟩
            have hlast := List.append_inj_right' heq rfl
            have hlower := List.append_inj_left' heq rfl
            exact ⟨(List.cons.inj hlast).1.symm, hlower ▸ hmem⟩
          · rintro ⟨rfl, hmem⟩
            exact ⟨lower, entry, hmem, rfl, rfl⟩
        rw [hinside, ihinside, get?_cons_concat]
        by_cases heq : name = last
        · subst heq
          have hnone : rest.get? (lower ++ [name]).reverse = none := by
            rw [List.reverse_concat, get?_cons, find?_eq_none_of_not_mem hnot]
            rfl
          rw [if_pos rfl, hnone]
          by_cases hlower : lower = []
          · subst hlower
            simp [Entry.get?, eq_comm]
          · simp [hlower, Entry.get?_of_ne_nil (List.reverse_ne_nil_iff.2 hlower)]
        · rw [if_neg heq]
          have hne : lower ++ [last] ≠ [name] := by
            intro hsame
            have := List.append_inj_right' (hsame.trans (List.nil_append [name]).symm) rfl
            exact heq (List.cons.inj this).1.symm
          simp [Ne.symm heq, hne]

theorem pairwise_entries {folder : Folder} (hordered : folder.Ordered) :
    (folder.entries []).Pairwise fun left right => left.1.Before right.1 := by
  induction hordered using Ordered.induction with
  | empty => exact .nil
  | cons name first rest hname hfirst hlt hrest ihinside ihrest =>
      have hlater : ∀ pair ∈ rest.entries [], ∀ lower : Location,
          Location.Before (lower ++ [name]) pair.1 := by
        rintro ⟨below, entry⟩ hmem lower
        obtain ⟨other, second, hsecond, rfl⟩ := exists_name_of_mem_entries hrest hmem
        exact Location.before_concat.2 (.inl (hlt second hsecond))
      rw [entries_cons, List.cons_append, List.pairwise_cons, List.pairwise_append]
      refine ⟨?_, ?_, ihrest, ?_⟩
      · intro pair hmem
        rcases List.mem_append.1 hmem with hmem | hmem
        · obtain ⟨⟨lower, other⟩, hlower, rfl⟩ := List.mem_map.1 hmem
          have hne := ((mem_entries hfirst).1 hlower).1
          change Location.Before ([] ++ [name]) (lower ++ [name])
          refine Location.before_concat.2 (.inr ⟨rfl, ?_⟩)
          rw [Location.Before]
          cases hreverse : lower.reverse with
          | nil => exact absurd (by simpa using hreverse) hne
          | cons => exact List.nil_lt_cons _ _
        · exact hlater pair hmem []
      · rw [List.pairwise_map]
        exact ihinside.imp fun hbefore => Location.before_concat.2 (.inr ⟨rfl, hbefore⟩)
      · intro left hleft right hright
        obtain ⟨⟨lower, other⟩, -, rfl⟩ := List.mem_map.1 hleft
        exact hlater right hright lower

end Folder

namespace Disk

-- The files below the directory `root` that a disk can follow a path to, each as the way that
-- leads there from the directory.
def listed (disk : Disk) (root : Location) : List Location :=
  match disk.get? root with
  | some (.directory inside) =>
    ((inside.entries []).filter fun (below, entry) =>
      !entry.isDirectory && decide (Location.Followable (below ++ root))).map (·.1)
  | _ => []

variable {disk : Disk} {root below : Location}

theorem mem_listed : below ∈ disk.listed root ↔
    below ≠ [] ∧ Location.Followable (below ++ root) ∧ (disk.file? (below ++ root)).isSome := by
  unfold listed
  split
  · next inside hget =>
    have hordered : inside.Ordered := Folder.ordered_of_get? disk.ordered hget
    have hlookup : disk.get? (below ++ root) = inside.get? below.reverse := by
      rw [get?_append, hget, Option.bind_some, Entry.get?_directory]
    simp only [List.mem_map, List.mem_filter, Bool.and_eq_true, Bool.not_eq_true',
      decide_eq_true_iff, Prod.exists, exists_and_right, exists_eq_right]
    rw [file?, kind?, hlookup]
    constructor
    · rintro ⟨entry, hmem, hfile, hfollow⟩
      obtain ⟨hne, hentry⟩ := (Folder.mem_entries hordered).1 hmem
      refine ⟨hne, hfollow, ?_⟩
      rw [hentry]
      cases entry with
      | directory inside => cases hfile
      | file content => rfl
    · rintro ⟨hne, hfollow, hfile⟩
      cases hentry : inside.get? below.reverse with
      | none => simp [hentry] at hfile
      | some entry =>
          refine ⟨entry, (Folder.mem_entries hordered).2 ⟨hne, hentry⟩, ?_, hfollow⟩
          cases entry with
          | directory inner => simp [hentry, Entry.kind] at hfile
          | file content => rfl
  · next hnot =>
    have hroot : disk.kind? root ≠ some .directory := by
      intro hkind
      obtain ⟨inside, hget⟩ := kind?_eq_directory.1 hkind
      exact hnot inside hget
    simp only [List.not_mem_nil, false_iff, not_and]
    intro hne _
    rw [file?, kind?_below_of_ne_directory hroot hne]
    simp

theorem pairwise_listed (disk : Disk) (root : Location) :
    (disk.listed root).Pairwise Location.Before := by
  unfold listed
  split
  · next inside hget =>
    rw [List.pairwise_map]
    exact (Folder.pairwise_entries (Folder.ordered_of_get? disk.ordered hget)).filter _
  · exact .nil

theorem named_of_mem_listed (h : below ∈ disk.listed root) :
    Location.Named (below ++ root) := by
  obtain ⟨content, hfile⟩ := Option.isSome_iff_exists.1 (mem_listed.1 h).2.2
  exact named_of_kind? (file?_eq_some.1 hfile)

-- The listing depends on the files below the directory only.
theorem listed_congr {other : Disk}
    (h : ∀ below, (disk.file? (below ++ root)).isSome = (other.file? (below ++ root)).isSome) :
    disk.listed root = other.listed root := by
  refine (pairwise_listed disk root).eq_of_mem_iff (pairwise_listed other root) fun below => ?_
  rw [mem_listed, mem_listed, h]

end Disk

end StaticSite
