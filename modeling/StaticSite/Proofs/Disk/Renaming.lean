import StaticSite.Proofs.Disk.Effects
import StaticSite.Proofs.Disk.Named

-- What a rename changes.
namespace StaticSite.Disk

variable {disk next : Disk} {old new location : Location}

-- What was at and below `old` is at and below `new`. A file there has been replaced by a file.
structure Moves (old new : Location) (before after : Disk) : Prop where
  there : (after.file? new).isSome ∨ after.kind? new = some .directory
  same : ∀ location, ¬ within old location → ¬ within new location →
    after.kind? location = before.kind? location
  lost : ∀ location, within old location → ¬ within new location → after.kind? location = none
  kept : ∀ location, within new location → ¬ within old location →
    (before.file? location).isSome → (after.file? location).isSome

theorem there_of_kind? {kind : Kind} (h : disk.kind? location = some kind) :
    (disk.file? location).isSome ∨ disk.kind? location = some .directory := by
  cases kind with
  | directory => exact .inr h
  | file content => exact .inl (by rw [file?_eq_some.2 h]; rfl)

theorem Moves.refl {kind : Kind} (h : disk.kind? location = some kind) :
    Moves location location disk disk :=
  ⟨there_of_kind? h, fun _ _ _ => rfl, fun _ hwithin hnot => absurd hwithin hnot,
    fun _ hwithin hnot => absurd hwithin hnot⟩

-- Something moves to a place where there is nothing, in a directory outside of it.
theorem moves_of_move {name : String} {parent : Location} {kind : Kind} (hname : IsName name)
    (hkind : disk.kind? old = some kind) (hne : old ≠ [])
    (hparent : disk.kind? parent = some .directory) (houtside : ¬ within old parent)
    (hfree : disk.kind? (name :: parent) = none) :
    Moves old (name :: parent) disk (disk.move old name parent) ∧
      (disk.move old name parent).kind? (name :: parent) = some kind := by
  obtain ⟨last, place, rfl⟩ := List.exists_cons_of_ne_nil hne
  obtain ⟨entry, hget, -⟩ := Option.map_eq_some_iff.1 hkind
  have hmove := kind?_move hname hget hparent houtside
  have hself : (disk.move (last :: place) name parent).kind? (name :: parent) = some kind := by
    rw [hmove, if_pos (within_refl _)]
    simpa using hkind
  refine ⟨⟨there_of_kind? hself, ?_, ?_, ?_⟩, hself⟩
  · intro location hold hnew
    rw [hmove, if_neg hnew, if_neg hold]
  · intro location hold hnew
    rw [hmove, if_neg hnew, if_pos hold]
  · intro location hnew _ hsome
    obtain ⟨below, rfl⟩ := within_iff.1 hnew
    have hnone : disk.kind? (below ++ name :: parent) = none := by
      by_cases hbelow : below = []
      · subst hbelow
        exact hfree
      · exact kind?_below_of_ne_directory (by simp [hfree]) hbelow
    rw [file?, hnone] at hsome
    cases hsome

-- Something moves to the place of something else, below which there is nothing.
theorem moves_of_erase_move {name : String} {parent : Location} {kind taken : Kind}
    (hname : IsName name) (hkind : disk.kind? old = some kind) (hne : old ≠ [])
    (hparent : disk.kind? parent = some .directory) (houtside : ¬ within old parent)
    (hdiffer : old ≠ name :: parent) (htaken : disk.kind? (name :: parent) = some taken)
    (hbare : ∀ below, below ≠ [] → disk.kind? (below ++ name :: parent) = none)
    (hfile : taken ≠ .directory → kind ≠ .directory) :
    Moves old (name :: parent) disk ((disk.erase (name :: parent)).move old name parent) := by
  have hkept : ¬ within (name :: parent) old := by
    intro hwithin
    obtain ⟨below, rfl⟩ := within_iff.1 hwithin
    rw [hbare below (by rintro rfl; exact hdiffer rfl)] at hkind
    cases hkind
  have hold : (disk.erase (name :: parent)).kind? old = some kind := by
    rw [kind?_erase, if_neg hkept, hkind]
  have habove : (disk.erase (name :: parent)).kind? parent = some .directory := by
    rw [kind?_erase, if_neg not_within_tail, hparent]
  have hfree : (disk.erase (name :: parent)).kind? (name :: parent) = none := by
    rw [kind?_erase, if_pos (within_refl _)]
  obtain ⟨hmoves, hself⟩ := moves_of_move hname hold hne habove houtside hfree
  refine ⟨hmoves.there, ?_, hmoves.lost, ?_⟩
  · intro location hnotOld hnotNew
    rw [hmoves.same location hnotOld hnotNew, kind?_erase, if_neg hnotNew]
  · intro location hwithin _ hsome
    obtain ⟨below, rfl⟩ := within_iff.1 hwithin
    by_cases hbelow : below = []
    · subst hbelow
      rw [List.nil_append] at hsome ⊢
      have hplain : taken ≠ .directory := by
        rintro rfl
        rw [file?, htaken] at hsome
        cases hsome
      cases kind with
      | directory => exact absurd rfl (hfile hplain)
      | file content =>
          rw [file?_eq_some.2 hself]
          rfl
    · rw [file?, hbare below hbelow] at hsome
      cases hsome

-- What a rename does: nothing, a move to a free place, or a move to the place of something of
-- the same sort that holds nothing.
inductive Renames (old : Location) (name : String) (place : Location) (entry : Entry)
    (disk : Disk) : Disk → Prop where
  | same : old = name :: place → Renames old name place entry disk disk
  | free : (entry.isDirectory = true → ¬ within old place) → disk.get? (name :: place) = none →
      Renames old name place entry disk (disk.move old name place)
  | taken {taken : Entry} : (entry.isDirectory = true → ¬ within old place) →
      old ≠ name :: place → disk.get? (name :: place) = some taken →
      taken.isDirectory = entry.isDirectory → taken.inside = .empty →
      Renames old name place entry disk ((disk.erase (name :: place)).move old name place)

theorem rename_eq_ok {source target : Path} (h : disk.rename source target = .ok next) :
    ∃ parent last place name entry, disk.ending source = .ok (.name parent last) ∧
      disk.ending target = .ok (.name place name) ∧ disk.get? (last :: parent) = some entry ∧
      Renames (last :: parent) name place entry disk next := by
  unfold rename at h
  obtain ⟨before, hbefore, h⟩ := bind_eq_ok.1 h
  obtain ⟨after, hafter, h⟩ := bind_eq_ok.1 h
  cases before with
  | root => cases h
  | here => cases h
  | up => cases h
  | name parent last =>
  cases after with
  | root => cases h
  | here => cases h
  | up => cases h
  | name place name =>
  dsimp only at h
  cases hget : disk.get? (last :: parent) with
  | none => rw [hget] at h; cases h
  | some entry =>
  refine ⟨parent, last, place, name, entry, hbefore, hafter, hget, ?_⟩
  cases htaken : disk.get? (name :: place) with
  | none =>
      rw [hget, htaken] at h
      cases entry with
      | file content =>
          dsimp only at h
          split at h
          · cases h
          · split at h
            · cases h
            · cases h
              exact .free (fun hdirectory => by cases hdirectory) htaken
      | directory inside =>
          dsimp only at h
          split at h
          · next heq =>
            cases h
            exact .same heq
          · split at h
            · cases h
            · next houtside =>
              split at h
              · cases h
              · split at h
                · cases h
                · cases h
                  exact .free (fun _ => houtside) htaken
  | some taken =>
      rw [hget, htaken] at h
      cases entry with
      | file content =>
          cases taken with
          | directory inner => cases h
          | file other =>
              dsimp only at h
              split at h
              · cases h
              · split at h
                · next heq =>
                  cases h
                  exact .same heq
                · next hdiffer =>
                  cases h
                  exact .taken (fun hdirectory => by cases hdirectory) hdiffer htaken rfl rfl
      | directory inside =>
          cases taken with
          | file other => cases h
          | directory inner =>
              dsimp only at h
              split at h
              · next heq =>
                cases h
                exact .same heq
              · next hdiffer =>
                split at h
                · cases h
                · next houtside =>
                  split at h
                  · cases h
                  · next hbare =>
                    split at h
                    · cases h
                    · cases h
                      exact .taken (fun _ => houtside) hdiffer htaken rfl (by simpa using hbare)

-- A file is not above a directory, and a directory is not moved into itself.
theorem not_within_of_get? {entry : Entry} {place : Location} (hget : disk.get? old = some entry)
    (hplace : disk.kind? place = some .directory)
    (h : entry.isDirectory = true → ¬ within old place) : ¬ within old place := by
  cases entry with
  | directory inside => exact h rfl
  | file content =>
      intro hwithin
      obtain ⟨below, rfl⟩ := within_iff.1 hwithin
      have hkind := kind?_of_get? hget
      have hdirectory : disk.kind? old = some .directory := by
        by_cases hbelow : below = []
        · rwa [hbelow, List.nil_append] at hplace
        · exact kind?_above hbelow hplace
      rw [hkind] at hdirectory
      cases hdirectory

theorem kind?_below_of_bare {entry : Entry} (hget : disk.get? location = some entry)
    (hbare : entry.inside = .empty) {below : Location} (hbelow : below ≠ []) :
    disk.kind? (below ++ location) = none := by
  have hne := List.reverse_ne_nil_iff.2 hbelow
  obtain ⟨first, rest, heq⟩ := List.exists_cons_of_ne_nil hne
  rw [kind?, get?_append, hget, Option.bind_some, Entry.get?_of_ne_nil hne, hbare, heq]
  simp [Folder.get?, Folder.find?]

theorem moves_of_renames {name : String} {place : Location} {entry : Entry} (hname : IsName name)
    (hget : disk.get? old = some entry) (hne : old ≠ [])
    (hplace : disk.kind? place = some .directory) (h : Renames old name place entry disk next) :
    Moves old (name :: place) disk next := by
  have hkind := kind?_of_get? hget
  cases h with
  | same heq =>
      rw [← heq]
      exact .refl hkind
  | free houtside hfree =>
      exact (moves_of_move hname hkind hne hplace (not_within_of_get? hget hplace houtside)
        (kind?_eq_none.2 hfree)).1
  | @taken other houtside hdiffer htaken hlike hbare =>
      refine moves_of_erase_move hname hkind hne hplace
        (not_within_of_get? hget hplace houtside) hdiffer (kind?_of_get? htaken)
        (fun below hbelow => kind?_below_of_bare htaken hbare hbelow) fun hplain => ?_
      cases other with
      | directory inner => exact absurd rfl hplain
      | file content =>
          cases entry with
          | directory inside => cases hlike
          | file content => simp [Entry.kind]

theorem rename_moves (hold : old.Named) (hnew : new.Named)
    (h : disk.rename old.path new.path = .ok next) : Moves old new disk next ∧ new.Followable := by
  obtain ⟨parent, last, place, name, entry, hbefore, hafter, hget, hrenames⟩ := rename_eq_ok h
  obtain ⟨-, -, -, hwalk⟩ := ending_eq_name hbefore
  obtain ⟨hfollow, hname, hplace, hwalk'⟩ := ending_eq_name hafter
  rw [Location.walk_path hold] at hwalk
  rw [Location.walk_path hnew] at hwalk'
  subst hwalk hwalk'
  exact ⟨moves_of_renames hname hget (List.cons_ne_nil _ _) hplace hrenames, hfollow⟩

end StaticSite.Disk
