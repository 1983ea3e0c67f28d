import Mathlib.Tactic.TFAE
import StaticSite.Proofs.Path.Relative

-- Normal forms are canonical: two paths have the same one just when they lead to the same place
-- from every directory.
namespace StaticSite

namespace Path

-- The way of a relative path that is never undone: first up, then down.
def climb (ups : Nat) (names : List String) : List Component :=
  List.replicate ups .up ++ names.map .name

-- Components of which none can be left out: from the root down, or first up and then down.
inductive Normal : List Component → Prop
  | absolute {names : List String} (h : ∀ name ∈ names, IsName name) :
    Normal (.root :: names.map .name)
  | relative (ups : Nat) {names : List String} (h : ∀ name ∈ names, IsName name) :
    Normal (climb ups names)

-- A step up on a reduced stack stands on steps up only: it would cancel a name.
theorem Reduced.exists_names {parts : List Component} (h : Reduced parts)
    (hplain : ∀ part ∈ parts, part.IsPlain) :
    ∃ names : Location, ∃ ups, names.Named ∧ parts = names.map .name ++ List.replicate ups .up := by
  induction parts with
  | nil => exact ⟨[], 0, List.forall_mem_nil _, rfl⟩
  | cons part rest ih =>
      obtain ⟨names, ups, hnames, rfl⟩ :=
        ih h.2 fun other hmem => hplain other (List.mem_cons_of_mem _ hmem)
      cases hplain part List.mem_cons_self with
      | name hname => exact ⟨_ :: names, ups, hnames.cons hname, rfl⟩
      | up =>
          cases names with
          | nil => exact ⟨[], ups + 1, hnames, rfl⟩
          | cons name above =>
              have hlength := congrArg List.length h.1
              simp only [Path.stack, List.map_cons, List.cons_append, List.length_cons] at hlength
              omega

theorem exists_climb {path : Path} (h : path.isAbsolute = false) :
    ∃ ups names, (∀ name ∈ names, IsName name) ∧ path.normalComponents = climb ups names := by
  obtain ⟨names, ups, hnames, hparts⟩ := (reduced_normalComponents path).exists_names
    fun part hmem => isPlain_of_mem_normalComponents h part (List.mem_reverse.1 hmem)
  refine ⟨ups, names.reverse, fun name hmem => hnames name (List.mem_reverse.1 hmem), ?_⟩
  rw [← List.reverse_reverse path.normalComponents, hparts, climb]
  simp

theorem normal_normalize (path : Path) : Normal path.normalize.components := by
  rw [components_normalize]
  cases h : path.isAbsolute with
  | true =>
      rw [normalComponents_of_isAbsolute h]
      exact .absolute fun name hmem => named_walk_root path name (List.mem_reverse.1 hmem)
  | false =>
      obtain ⟨ups, names, hnames, hparts⟩ := exists_climb h
      exact hparts ▸ .relative ups hnames

theorem normalComponents_normalize (path : Path) :
    path.normalize.normalComponents = path.normalComponents := by
  have hreduced := reduced_normalComponents path
  rw [← List.append_nil path.normalComponents.reverse] at hreduced
  rw [normalComponents, components_normalize, hreduced.foldl_stack_eq]
  simp

theorem normalize_eq_iff {path other : Path} :
    path.normalize = other.normalize ↔ path.normalComponents = other.normalComponents := by
  refine ⟨fun h => ?_, fun h => congrArg ofComponents h⟩
  rw [← components_normalize, h, components_normalize]

theorem normalize_normalize (path : Path) : path.normalize.normalize = path.normalize :=
  normalize_eq_iff.2 (normalComponents_normalize path)

theorem same_normalize_iff {path other : Path} :
    path.normalize.same other.normalize = true ↔ path.normalize = other.normalize := by
  rw [same, decide_eq_true_iff, components_normalize, components_normalize, normalize_eq_iff]

end Path

namespace Location

open StaticSite.Path (climb)

variable {ups more : Nat} {names others : List String}

theorem foldl_step_up (ups : Nat) (start : Location) :
    (List.replicate ups Component.up).foldl step start = start.drop ups := by
  induction ups generalizing start with
  | zero => rfl
  | succ ups ih =>
      rw [List.replicate_succ, List.foldl_cons, ih]
      exact List.drop_tail

theorem foldl_step_climb (ups : Nat) (names : List String) (start : Location) :
    (climb ups names).foldl step start = names.reverse ++ start.drop ups := by
  rw [climb, List.foldl_append, foldl_step_up, foldl_step_names]

-- A directory just deep enough for the longer climb is left behind by it whole. What the shorter
-- one leaves of it would have to be among the names of the longer, whatever the directory is called.
theorem ups_le_of_climb
    (h : ∀ start : Location, start.Named →
      (climb ups names).foldl step start = (climb more others).foldl step start) : more ≤ ups := by
  by_contra hlt
  have hrest : ∀ name, IsName name →
      names.reverse ++ List.replicate (more - ups) name = others.reverse := by
    intro name hname
    have hstart := h (List.replicate more name)
      fun other hmem => List.eq_of_mem_replicate hmem ▸ hname
    simpa [foldl_step_climb] using hstart
  have hsame := List.append_cancel_left
    ((hrest "a" (by decide)).trans (hrest "b" (by decide)).symm)
  have hname := List.eq_of_mem_replicate (hsame ▸ List.mem_replicate.2 ⟨by omega, rfl⟩)
  exact absurd hname (by decide : "a" ≠ "b")

-- Climbs that lead to the same places from every directory are the same.
theorem climb_injective
    (h : ∀ start : Location, start.Named →
      (climb ups names).foldl step start = (climb more others).foldl step start) :
    climb ups names = climb more others := by
  have hups : ups = more := Nat.le_antisymm (ups_le_of_climb fun start hstart => (h start hstart).symm)
    (ups_le_of_climb h)
  subst hups
  have hnames := h [] (List.forall_mem_nil _)
  rw [foldl_step_climb, foldl_step_climb] at hnames
  rw [List.reverse_injective (List.append_cancel_right hnames)]

end Location

namespace Path

variable {path other : Path}

theorem normalComponents_eq_of_walk (h : path.isAbsolute = other.isAbsolute)
    (hwalk : ∀ start : Location, start.Named →
      Location.walk start path = Location.walk start other) :
    path.normalComponents = other.normalComponents := by
  cases habsolute : path.isAbsolute with
  | true =>
      rw [normalComponents_of_isAbsolute habsolute, normalComponents_of_isAbsolute (h ▸ habsolute),
        hwalk [] (List.forall_mem_nil _)]
  | false =>
      obtain ⟨ups, names, -, hpath⟩ := exists_climb habsolute
      obtain ⟨more, others, -, hother⟩ := exists_climb (h ▸ habsolute)
      rw [hpath, hother]
      refine Location.climb_injective fun start hstart => ?_
      rw [← hpath, ← hother, foldl_step_normalComponents, foldl_step_normalComponents]
      exact hwalk start hstart

-- The normal form of a path is what the path means: the place it leads to, told for every
-- directory `base` that it can be followed from.
theorem normalize_canonical (h : path.isAbsolute = other.isAbsolute) :
    [path.normalize = other.normalize, path.normalize.same other.normalize = true,
      ∀ base : Path, base.isAbsolute →
        Location.walk (Location.walk [] base) path =
          Location.walk (Location.walk [] base) other].TFAE ∧
    (∀ start, Location.walk start path.normalize = Location.walk start path) ∧
    path.normalize.normalize = path.normalize ∧
    path.normalize.isAbsolute = path.isAbsolute ∧ Normal path.normalize.components := by
  refine ⟨?_, fun start => walk_normalize start path, normalize_normalize path, ?_,
    normal_normalize path⟩
  · tfae_have 2 ↔ 1 := same_normalize_iff
    tfae_have 1 → 3 := fun heq base _ => by
      rw [← walk_normalize _ path, heq, walk_normalize]
    tfae_have 3 → 1 := fun hwalk => by
      refine normalize_eq_iff.2 (normalComponents_eq_of_walk h fun start hstart => ?_)
      have hbase := hwalk start.path (Location.isAbsolute_path start)
      rwa [Location.walk_path hstart] at hbase
    tfae_finish
  · cases habsolute : path.isAbsolute with
    | true =>
        rw [normalize_of_isAbsolute habsolute]
        exact Location.isAbsolute_path _
    | false => exact isAbsolute_ofComponents (isPlain_of_mem_normalComponents habsolute)

-- A relative path that climbs through a name, and the same way in short.
theorem normalize_canonical_of_detour :
    (Path.mk "../a/./b/../..//c/").isAbsolute = (Path.mk "../c").isAbsolute ∧
      (Path.mk "../a/./b/../..//c/").normalize = (Path.mk "../c").normalize ∧
      ∀ base : Path, base.isAbsolute →
        Location.walk (Location.walk [] base) ⟨"../a/./b/../..//c/"⟩ =
          Location.walk (Location.walk [] base) ⟨"../c"⟩ := by
  have hsame : (Path.mk "../a/./b/../..//c/").normalize = (Path.mk "../c").normalize := by decide
  have hkind : (Path.mk "../a/./b/../..//c/").isAbsolute = (Path.mk "../c").isAbsolute := by decide
  exact ⟨hkind, hsame, ((normalize_canonical hkind).1.out 0 2).1 hsame⟩

end Path

end StaticSite
