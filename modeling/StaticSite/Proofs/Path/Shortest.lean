import StaticSite.Proofs.Path.Canonical

-- The way from one directory to another: where it leads, and that no way there is shorter.
namespace StaticSite

namespace Path

-- How many steps up a path begins with.
def leadingUps (path : Path) : Nat :=
  (path.components.takeWhile (· = .up)).length

theorem leadingUps_of_append {path : Path} {ups : Nat} {rest : List Component}
    (h : path.components = List.replicate ups .up ++ rest) :
    path.leadingUps = ups + (rest.takeWhile (· = .up)).length := by
  rw [leadingUps, h, List.takeWhile_append_of_pos]
  · simp
  · intro part hmem
    simp [List.eq_of_mem_replicate hmem]

theorem leadingUps_normalize {path : Path} {ups : Nat} {names : List String}
    (h : path.normalComponents = climb ups names) : path.normalize.leadingUps = ups := by
  rw [leadingUps_of_append ((components_normalize path).trans h)]
  cases names <;> simp

theorem dropCommon_append {α : Type} [DecidableEq α] (common left right : List α) :
    dropCommon (common ++ left) (common ++ right) = dropCommon left right := by
  induction common with
  | nil => rfl
  | cons part rest ih => rw [List.cons_append, List.cons_append, dropCommon, if_pos rfl, ih]

-- How many steps lead from one place to another in the tree of all places, told by the components
-- of the two: up to where they part, then down.
def distance (left right : List Component) : Nat :=
  (dropCommon left right).1.length + (dropCommon left right).2.length

@[simp] theorem distance_self (parts : List Component) : distance parts parts = 0 := by
  have h := dropCommon_append parts [] []
  rw [List.append_nil] at h
  rw [distance, h]
  rfl

-- One component more or less changes the distance by one.
theorem distance_concat (left right : List Component) (part : Component) :
    distance left right ≤ distance (left ++ [part]) right + 1 ∧
      distance (left ++ [part]) right ≤ distance left right + 1 := by
  induction left generalizing right with
  | nil =>
      cases right with
      | nil => simp [distance, dropCommon]
      | cons next right =>
          rw [List.nil_append, distance, distance, dropCommon]
          split <;> simp [dropCommon] <;> omega
  | cons first left ih =>
      cases right with
      | nil => simp [distance, dropCommon]
      | cons next right =>
          rw [List.cons_append, distance, distance, dropCommon, dropCommon]
          split
          · exact ih right
          · simp
            omega

-- One step comes nearer to a place by one at most.
theorem distance_stack (parts right : List Component) (part : Component) :
    distance parts.reverse right ≤ distance (stack parts part).reverse right + 1 := by
  have hpush : distance parts.reverse right ≤ distance (part :: parts).reverse right + 1 := by
    rw [List.reverse_cons]
    exact (distance_concat parts.reverse right part).1
  cases part with
  | here => exact Nat.le_succ _
  | root => exact hpush
  | name text => exact hpush
  | up =>
      cases parts with
      | nil => exact hpush
      | cons last rest =>
          cases last with
          | name text =>
              rw [List.reverse_cons]
              exact (distance_concat rest.reverse right (.name text)).2
          | root => exact Nat.le_succ _
          | here => exact hpush
          | up => exact hpush

theorem distance_foldl_stack (steps done right : List Component) :
    distance done.reverse right ≤ distance (steps.foldl stack done).reverse right + steps.length := by
  induction steps generalizing done with
  | nil => exact Nat.le_refl _
  | cons step rest ih =>
      have hstep := distance_stack done right step
      have hrest := ih (stack done step)
      rw [List.foldl_cons, List.length_cons]
      omega

-- Steps up at the bottom of a stack stay there: there is nothing they could cancel.
theorem foldl_stack_ups (steps above : List Component) (ups : Nat) :
    ∃ above', steps.foldl stack (above ++ List.replicate ups .up) =
      above' ++ List.replicate ups .up := by
  induction steps generalizing above with
  | nil => exact ⟨above, rfl⟩
  | cons step rest ih =>
      have hstep : ∃ above', stack (above ++ List.replicate ups .up) step =
          above' ++ List.replicate ups .up := by
        cases step with
        | here => exact ⟨above, rfl⟩
        | root => exact ⟨.root :: above, rfl⟩
        | name text => exact ⟨.name text :: above, rfl⟩
        | up =>
            cases above with
            | nil => exact ⟨[.up], by cases ups <;> rfl⟩
            | cons last others =>
                cases last with
                | name text => exact ⟨others, rfl⟩
                | root => exact ⟨.root :: others, rfl⟩
                | here => exact ⟨.up :: .here :: others, rfl⟩
                | up => exact ⟨.up :: .up :: others, rfl⟩
      obtain ⟨above', habove⟩ := hstep
      rw [List.foldl_cons, habove]
      exact ih above'

theorem dropCommon_subset {α : Type} [DecidableEq α] (left right : List α) :
    (dropCommon left right).1 ⊆ left ∧ (dropCommon left right).2 ⊆ right := by
  obtain ⟨common, hleft, hright⟩ := exists_append_dropCommon left right
  constructor
  · conv_rhs => rw [hleft]
    exact List.subset_append_right _ _
  · conv_rhs => rw [hright]
    exact List.subset_append_right _ _

section Way

variable {base target way : Path}

-- Absolute paths start at the root both. What follows are names.
theorem dropCommon_of_isAbsolute (hbase : base.isAbsolute) (htarget : target.isAbsolute) :
    dropCommon base.normalComponents target.normalComponents =
      dropCommon ((Location.walk [] base).reverse.map .name)
        ((Location.walk [] target).reverse.map .name) := by
  rw [normalComponents_of_isAbsolute hbase, normalComponents_of_isAbsolute htarget]
  exact dropCommon_append [Component.root] _ _

theorem isPlain_of_mem_dropCommon (h : base.isAbsolute = target.isAbsolute) :
    ∀ part ∈ (dropCommon base.normalComponents target.normalComponents).2, part.IsPlain := by
  intro part hmem
  cases habsolute : target.isAbsolute with
  | true =>
      rw [dropCommon_of_isAbsolute (h.trans habsolute) habsolute] at hmem
      exact (named_walk_root target).isPlain part ((dropCommon_subset _ _).2 hmem)
  | false => exact isPlain_of_mem_normalComponents habsolute part ((dropCommon_subset _ _).2 hmem)

-- Steps up that the base begins with are steps that the target begins with, if it has as many.
theorem exists_name_of_mem_dropCommon (h : base.isAbsolute = target.isAbsolute)
    (hups : (base.isAbsolute ∧ target.isAbsolute) ∨
      base.normalize.leadingUps ≤ target.normalize.leadingUps) :
    ∀ part ∈ (dropCommon base.normalComponents target.normalComponents).1,
      ∃ text, part = .name text := by
  intro part hmem
  suffices hnames : ∃ names : List String, part ∈ names.map Component.name by
    obtain ⟨names, hpart⟩ := hnames
    obtain ⟨text, -, rfl⟩ := List.mem_map.1 hpart
    exact ⟨text, rfl⟩
  cases habsolute : base.isAbsolute with
  | true =>
      rw [dropCommon_of_isAbsolute habsolute (h ▸ habsolute)] at hmem
      exact ⟨_, (dropCommon_subset _ _).1 hmem⟩
  | false =>
      obtain ⟨ups, names, -, hbase⟩ := exists_climb habsolute
      obtain ⟨more, others, -, htarget⟩ := exists_climb (h ▸ habsolute)
      have hle : ups ≤ more := by
        have hle := hups.resolve_left (by simp [habsolute])
        rwa [leadingUps_normalize hbase, leadingUps_normalize htarget] at hle
      have hsplit : climb more others = List.replicate ups .up ++ climb (more - ups) others := by
        rw [climb, climb, ← List.append_assoc, List.replicate_append_replicate,
          Nat.add_sub_cancel' hle]
      rw [hbase, htarget, hsplit, climb, dropCommon_append] at hmem
      exact ⟨names, (dropCommon_subset _ _).1 hmem⟩

-- A path that goes on from another one begins with as many steps up, or with more.
theorem leadingUps_le_of_join (hbase : base.isAbsolute = false) (hway : way.isAbsolute = false)
    (h : (base.join way).normalize = target.normalize) :
    base.normalize.leadingUps ≤ target.normalize.leadingUps := by
  obtain ⟨ups, names, -, hparts⟩ := exists_climb hbase
  have hbottom : base.normalComponents.reverse =
      (names.map Component.name).reverse ++ List.replicate ups .up := by
    rw [hparts, climb, List.reverse_append, List.reverse_replicate]
  obtain ⟨above, habove⟩ :=
    foldl_stack_ups way.components (names.map Component.name).reverse ups
  have htarget := normalize_eq_iff.1 h
  rw [normalComponents_join hway, hbottom, habove, List.reverse_append,
    List.reverse_replicate] at htarget
  rw [leadingUps_normalize hparts,
    leadingUps_of_append ((components_normalize target).trans htarget.symm)]
  exact Nat.le_add_right _ _

-- The way leads to the target just where there is a way: a place below one that a relative path
-- climbs to cannot be named without knowing the names on the way down. And it is the shortest.
theorem relativeTo_exact (h : base.isAbsolute = target.isAbsolute) :
    ((base.join (base.relativeTo target)).normalize = target.normalize ↔
      (base.isAbsolute ∧ target.isAbsolute) ∨
        base.normalize.leadingUps ≤ target.normalize.leadingUps) ∧
    ∀ way : Path, way.isAbsolute = false → (base.join way).normalize = target.normalize →
      (base.relativeTo target).components.length ≤ way.components.length := by
  have hright := isPlain_of_mem_dropCommon h
  obtain ⟨hparts, hplain⟩ := relativeTo_of_dropCommon rfl hright
  refine ⟨⟨fun hjoin => ?_, fun hups => ?_⟩, fun way hway hjoin => ?_⟩
  · cases habsolute : base.isAbsolute with
    | true => exact .inl ⟨rfl, h ▸ habsolute⟩
    | false =>
        exact .inr (leadingUps_le_of_join habsolute (hparts ▸ isAbsolute_ofComponents hplain) hjoin)
  · exact normalize_eq_iff.2
      (join_relativeTo_of_names rfl hright (exists_name_of_mem_dropCommon h hups))
  · have hreached := normalize_eq_iff.1 hjoin
    rw [normalComponents_join hway] at hreached
    have hdistance := distance_foldl_stack way.components base.normalComponents.reverse
      target.normalComponents
    rw [hreached, distance_self, List.reverse_reverse, Nat.zero_add] at hdistance
    rw [hparts, components_ofComponents hplain, List.length_append, List.length_replicate]
    exact hdistance

-- Two steps up from below `..`, where another way goes round.
theorem relativeTo_exact_of_climb :
    (Path.mk "../a/b").isAbsolute = (Path.mk "../../c").isAbsolute ∧
      ((Path.mk "../a/b").join ((Path.mk "../a/b").relativeTo ⟨"../../c"⟩)).normalize =
        (Path.mk "../../c").normalize ∧
      ((Path.mk "../a/b").join ⟨"../x/../../../c"⟩).normalize = (Path.mk "../../c").normalize ∧
      ((Path.mk "../a/b").relativeTo ⟨"../../c"⟩).components.length ≤
        (Path.mk "../x/../../../c").components.length := by
  have hkind : (Path.mk "../a/b").isAbsolute = (Path.mk "../../c").isAbsolute := by decide
  have hround : ((Path.mk "../a/b").join ⟨"../x/../../../c"⟩).normalize =
      (Path.mk "../../c").normalize := by decide
  obtain ⟨hleads, hshortest⟩ := relativeTo_exact hkind
  exact ⟨hkind, hleads.2 (.inr (by decide)), hround, hshortest _ (by decide) hround⟩

end Way

end Path

end StaticSite
