import Mathlib.Data.List.Induction
import StaticSite.Proofs.Build.Frame
import StaticSite.Proofs.Build.Slot
import StaticSite.Proofs.Disk.Ending
import StaticSite.Proofs.Disk.Same

-- What making a directory at the end of a straight path comes to, also where it fails: what is
-- missing on the way is made, as far as that goes.
namespace StaticSite

open Disk (within)

namespace Disk

variable {disk middle next : Disk} {path : Path} {location parent : Location} {name : String}

theorem raise_of_directory (h : disk.kind? location = some .directory) :
    Scene.raise disk.kind? location = disk.kind? :=
  Scene.raise_eq_self fun _ hwithin hnone => absurd hnone (ne_none_of_directory h hwithin)

-- A directory that can be made is there afterwards.
theorem raise_self (h : Scene.Passable disk.kind? location) :
    Scene.raise disk.kind? location location = some .directory := by
  cases location with
  | nil => exact Scene.raise_of_some disk.kind?_nil
  | cons name parent =>
      rcases h.1 with hdirectory | ⟨hnone, -⟩
      · exact Scene.raise_of_some hdirectory
      · exact if_pos ⟨within_refl _, hnone, h⟩

-- A directory that a path leads to is not made again.
theorem makeDirectory_of_isDirectory (h : disk.isDirectory path = true) :
    disk.makeDirectory path = .error .alreadyExists := by
  obtain ⟨ending, hending, hkind⟩ := isDirectory_iff_ending.1 h
  rw [makeDirectory, hending]
  cases ending with
  | name parent name =>
      obtain ⟨inside, hget⟩ := kind?_eq_directory.1 (hkind parent name rfl)
      simp only [bind, Except.bind, hget, Option.isSome_some, ↓reduceIte, throw, throwThe,
        MonadExceptOf.throw]
  | _ => rfl

-- The directories that are made at a place and above it, and whether they could all be.
def Raises (disk : Disk) (made : Except Fault Unit × Disk) (directory : Location) : Prop :=
  (made.1 = .ok () ↔ Scene.Passable disk.kind? directory) ∧
    made.2.kind? = Scene.raise disk.kind? directory

theorem raises_self (h : disk.kind? location = some .directory) :
    disk.Raises (.ok (), disk) location :=
  ⟨iff_of_true rfl (passable_of_directory h), (raise_of_directory h).symm⟩

-- A directory in one that is there.
theorem makeDirectory_reaches (h : disk.Reaches path name parent)
    (hparent : disk.kind? parent = some .directory) :
    (∃ next, disk.makeDirectory path = .ok next ∧ Scene.Passable disk.kind? (name :: parent) ∧
        next.kind? = Scene.raise disk.kind? (name :: parent)) ∨
      ∃ fault, fault ≠ .notFound ∧ disk.makeDirectory path = .error fault ∧
        (disk.isDirectory path = true ↔ Scene.Passable disk.kind? (name :: parent)) ∧
        Scene.raise disk.kind? (name :: parent) = disk.kind? := by
  have hpassable : Scene.Passable disk.kind? (name :: parent) ↔
      disk.kind? (name :: parent) = some .directory ∨
        disk.kind? (name :: parent) = none ∧ name.utf8ByteSize ≤ longestName := by
    rw [Scene.Passable, and_iff_left (passable_of_directory hparent), and_iff_right h.isName]
  have hself : ∀ location, within location (name :: parent) → disk.kind? location = none →
      location = name :: parent := by
    intro location hwithin hnone
    rcases Scene.within_cons_iff.1 hwithin with heq | habove
    · exact heq
    · exact absurd hnone (ne_none_of_directory hparent habove)
  have hmake := h.ending hparent
  cases hkind : disk.kind? (name :: parent) with
  | some kind =>
      obtain ⟨entry, hget, -⟩ := Option.map_eq_some_iff.1 hkind
      refine .inr ⟨.alreadyExists, by simp, ?_, ?_, Scene.raise_eq_self ?_⟩
      · simp only [makeDirectory, hmake, bind, Except.bind, hget, Option.isSome_some, ↓reduceIte,
          throw, throwThe, MonadExceptOf.throw]
      · rw [h.isDirectory, hpassable, hkind]
        simp
      · intro location hwithin hnone
        rw [hself location hwithin hnone, hkind] at hnone
        cases hnone
  | none =>
      have hget := kind?_eq_none.1 hkind
      by_cases hlength : name.utf8ByteSize ≤ longestName
      · refine .inl ⟨disk.putDirectory name parent, ?_, hpassable.2 (.inr ⟨hkind, hlength⟩), ?_⟩
        · simp only [makeDirectory, hmake, bind, Except.bind, hget, Option.isSome_none,
            Bool.false_eq_true, ↓reduceIte, if_neg (Nat.not_lt.2 hlength), pure, Except.pure]
        · funext location
          rw [kind?_putDirectory h.isName hparent hkind, Scene.raise]
          by_cases heq : location = name :: parent
          · subst heq
            rw [if_pos rfl, if_pos ⟨within_refl _, hkind, hpassable.2 (.inr ⟨hkind, hlength⟩)⟩]
          · rw [if_neg heq, if_neg fun hmissing => heq (hself location hmissing.1 hmissing.2.1)]
      · have hnot : ¬ Scene.Passable disk.kind? (name :: parent) := by
          rw [hpassable, hkind]
          simpa using hlength
        refine .inr ⟨.nameTooLong, by simp, ?_, ?_, Scene.raise_eq_self ?_⟩
        · simp only [makeDirectory, hmake, bind, Except.bind, hget, Option.isSome_none,
            Bool.false_eq_true, ↓reduceIte, if_pos (Nat.lt_of_not_le hlength), throw, throwThe,
            MonadExceptOf.throw]
        · rw [h.isDirectory, hkind]
          simp [hnot]
        · exact fun location hwithin hnone hpass => hnot (hself location hwithin hnone ▸ hpass)

-- The last directory of a way, once those above it are there.
theorem makeLast_reaches (h : disk.Reaches path name parent)
    (hparent : disk.kind? parent = some .directory) {made : Except Fault Unit × Disk}
    (hmade : made = match disk.makeDirectory path with
      | .ok disk => (.ok (), disk)
      | .error fault => (if disk.isDirectory path then .ok () else .error fault, disk)) :
    disk.Raises made (name :: parent) := by
  subst hmade
  rcases makeDirectory_reaches h hparent with
    ⟨next, hmake, hpass, hnext⟩ | ⟨fault, -, hmake, hpass, hsame⟩
  · rw [hmake]
    exact ⟨iff_of_true rfl hpass, hnext⟩
  · rw [hmake]
    refine ⟨?_, hsame.symm⟩
    rw [← hpass]
    dsimp only
    split <;> simp [*]

-- The segments of a straight path that starts at a directory that stands, or goes up to one.
structure Treads (disk : Disk) (front : List String) : Prop where
  ne_nil : front ≠ []
  slash : ∀ segment ∈ front, '/' ∉ segment.toList
  straight : front.Pairwise Path.Precedes
  grounded : front.head? = some "" ∨ disk.adrift ≤ front.count ".."

theorem treads_path (hstraight : path.Straight) (hgrounded : disk.Grounded path) :
    disk.Treads (Path.segments path.text) := by
  refine ⟨Path.segments_ne_nil _, fun _ => Path.not_mem_of_mem_segments, hstraight, ?_⟩
  refine hgrounded.imp_left fun habsolute => ?_
  obtain ⟨rest, -, hsegments⟩ := Path.isAbsolute_iff.1 habsolute
  rw [hsegments, List.head?_cons]

section Segments

variable {front : List String}

-- One empty segment spells the root, and a slash more when it is read back.
theorem segments_ofSegments (hne : front ≠ []) (hslash : ∀ segment ∈ front, '/' ∉ segment.toList) :
    Path.segments (Path.ofSegments front).text = if front = [""] then ["", ""] else front := by
  split
  · next hroot =>
    subst hroot
    decide
  · next hroot => exact Path.segments_ofSegments hne hroot hslash

theorem isAbsolute_ofSegments (hne : front ≠ [])
    (hslash : ∀ segment ∈ front, '/' ∉ segment.toList) :
    (Path.ofSegments front).isAbsolute = true ↔ front.head? = some "" := by
  rw [Path.isAbsolute_iff, segments_ofSegments hne hslash]
  split
  · next hroot => simp [hroot]
  · next hroot =>
    obtain ⟨first, rest, rfl⟩ := List.exists_cons_of_ne_nil hne
    rw [List.head?_cons, Option.some.injEq]
    constructor
    · rintro ⟨others, -, heq⟩
      exact (List.cons.inj heq).1
    · rintro rfl
      exact ⟨rest, fun hnil => hroot (by rw [hnil]), rfl⟩

theorem steps_ofSegments (hne : front ≠ []) (hslash : ∀ segment ∈ front, '/' ∉ segment.toList) :
    (Path.ofSegments front).steps = front.filter (· ≠ "") := by
  rw [Path.steps, segments_ofSegments hne hslash]
  split
  · next hroot =>
    subst hroot
    decide
  · rfl

end Segments

namespace Treads

variable {front : List String} {last : String}

theorem straight_path (h : disk.Treads front) : (Path.ofSegments front).Straight := by
  have hsorted : (Path.segments (Path.ofSegments front).text).Pairwise Path.Precedes := by
    rw [Disk.segments_ofSegments h.ne_nil h.slash]
    split
    · exact List.pairwise_pair.2 fun heq => absurd heq (by decide)
    · exact h.straight
  exact hsorted

theorem grounded_path (h : disk.Treads front) : disk.Grounded (Path.ofSegments front) := by
  rw [Grounded, isAbsolute_ofSegments h.ne_nil h.slash]
  by_cases hroot : front = [""]
  · exact .inl (by rw [hroot]; rfl)
  · rw [Path.rises, Disk.segments_ofSegments h.ne_nil h.slash, if_neg hroot]
    exact h.grounded

theorem walk_eq (h : disk.Treads front) (start : Location) :
    Location.walk start (Path.ofSegments front) =
      front.foldl Location.follow (if front.head? = some "" then [] else start) := by
  rw [Location.walk_eq_foldl_follow, Disk.segments_ofSegments h.ne_nil h.slash]
  simp only [isAbsolute_ofSegments h.ne_nil h.slash]
  by_cases hroot : front = [""]
  · subst hroot
    rfl
  · rw [if_neg hroot]

theorem left {back : List String} (h : disk.Treads (front ++ back)) (hne : front ≠ [])
    (hback : ".." ∉ back) : disk.Treads front := by
  refine ⟨hne, fun segment hmem => h.slash segment (List.mem_append_left _ hmem),
    (List.pairwise_append.1 h.straight).1, ?_⟩
  have hgrounded := h.grounded
  rwa [List.head?_append_of_ne_nil _ hne, List.count_append, List.count_eq_zero_of_not_mem hback,
    Nat.add_zero] at hgrounded

theorem walk_append {back : List String} (h : disk.Treads (front ++ back)) (hne : front ≠ [])
    (hback : ".." ∉ back) : Location.walk disk.workDir (Path.ofSegments (front ++ back)) =
      back.foldl Location.follow (Location.walk disk.workDir (Path.ofSegments front)) := by
  rw [h.walk_eq, (h.left hne hback).walk_eq, List.foldl_append, List.head?_append_of_ne_nil _ hne]

end Treads

-- Steps that only go up lead to a directory.
theorem foldlM_enter_heads {steps : List String} {spot : Spot}
    (hsteps : ∀ step ∈ steps, step = "." ∨ step = "..") (hclimbs : spot.Climbs (steps.count "..")) :
    ∃ trail, steps.foldlM disk.enter spot = .ok (.directory trail) := by
  induction steps generalizing spot with
  | nil =>
      cases spot with
      | file trail name content => exact hclimbs.elim
      | removed above => exact absurd hclimbs (Nat.not_lt_zero above)
      | directory trail => exact ⟨trail, rfl⟩
  | cons step rest ih =>
      have hrest := fun other hmem => hsteps other (List.mem_cons_of_mem step hmem)
      rcases hsteps step List.mem_cons_self with rfl | rfl
      · rw [List.count_cons_of_ne (by decide)] at hclimbs
        obtain ⟨trail, hfold⟩ := ih hrest hclimbs
        refine ⟨trail, ?_⟩
        cases spot with
        | file trail name content => exact hclimbs.elim
        | _ => exact hfold
      · rw [List.count_cons_self] at hclimbs
        cases spot with
        | file trail name content => exact hclimbs.elim
        | directory trail => exact @ih (.directory trail.tail) hrest trivial
        | removed above =>
            cases above with
            | zero =>
                exact @ih (.directory (disk.trail (disk.workDir.drop disk.adrift))) hrest trivial
            | succ above => exact @ih (.removed above) hrest (Nat.lt_of_succ_lt_succ hclimbs)

theorem kind?_walk_heads (hsteps : ∀ step ∈ path.steps, step = "." ∨ step = "..")
    (hgrounded : disk.Grounded path) :
    disk.kind? (Location.walk disk.workDir path) = some .directory := by
  obtain ⟨trail, hlead⟩ := foldlM_enter_heads hsteps hgrounded.climbs
  obtain ⟨hvalid, hlocation, -⟩ :=
    foldlM_enter_valid (not_mem_steps path) (disk.origin_valid path).1 hlead
  rw [walk_eq_foldl_steps, ← hlocation]
  exact Trail.kind?_location hvalid

theorem text_ofSegments_ne {front : List String} (hne : front ≠ []) :
    (Path.ofSegments front).text ≠ "" := by
  rw [Path.ofSegments]
  split
  · decide
  · next hroot =>
    obtain ⟨first, rest, rfl⟩ := List.exists_cons_of_ne_nil hne
    by_cases hrest : rest = []
    · subst hrest
      simpa using hroot
    · rw [← List.singleton_append, Location.intercalate_append (List.cons_ne_nil _ _) hrest]
      simp

theorem ofSegments_segments (hne : path.text ≠ "") :
    Path.ofSegments (Path.segments path.text) = path := by
  rw [Path.ofSegments, if_neg, Path.intercalate_segments]
  intro hempty
  have htext := Path.intercalate_segments path.text
  rw [hempty] at htext
  exact hne htext.symm

-- The beginnings of a path that a disk follows.
theorem check_ofSegments_append {front back : List String} (hne : front ≠ [])
    (hcheck : (Path.ofSegments (front ++ back)).check = .ok ()) :
    (Path.ofSegments front).check = .ok () := by
  by_cases hback : back = []
  · rwa [hback, List.append_nil] at hcheck
  · by_cases hroot : front = [""]
    · subst hroot
      decide
    · have hboth : front ++ back ≠ [""] := fun heq => by
        rcases List.append_eq_singleton_iff.1 heq with ⟨hnil, -⟩ | ⟨-, hnil⟩
        · exact hne hnil
        · exact hback hnil
      rw [Path.ofSegments, if_neg hboth, Location.check_eq_ok_iff,
        Location.intercalate_append hne hback] at hcheck
      simp only [String.toList_append, List.mem_append, not_or, String.utf8ByteSize_append] at hcheck
      have htext := text_ofSegments_ne hne
      rw [Path.ofSegments, if_neg hroot] at htext ⊢
      exact Location.check_eq_ok_iff.2 ⟨hcheck.1.1.1, htext, by dsimp only; omega⟩

section Way

variable {front : List String} {last : String}

theorem makeWay_concat (h : ¬ ((last = "" ∨ last = ".") ∧ front ≠ [])) (disk : Disk) :
    disk.makeWay (front ++ [last]).reverse =
      match disk.makeDirectory (Path.ofSegments (front ++ [last])) with
      | .ok disk => (.ok (), disk)
      | .error .notFound =>
        match disk.makeWay front.reverse with
        | (.error fault, disk) => (.error fault, disk)
        | (.ok (), disk) =>
          match disk.makeDirectory (Path.ofSegments (front ++ [last])) with
          | .ok disk => (.ok (), disk)
          | .error fault =>
            (if disk.isDirectory (Path.ofSegments (front ++ [last])) then .ok () else .error fault,
              disk)
      | .error fault =>
        (if disk.isDirectory (Path.ofSegments (front ++ [last])) then .ok () else .error fault,
          disk) := by
  have hpath : (last :: front.reverse).reverse = front ++ [last] := by simp
  rw [List.reverse_concat, makeWay, if_neg (by simpa using h)]
  exact hpath ▸ rfl

theorem makeWay_of_error {fault : Fault} (h : ¬ ((last = "" ∨ last = ".") ∧ front ≠ []))
    (hfault : fault ≠ .notFound)
    (hmake : disk.makeDirectory (Path.ofSegments (front ++ [last])) = .error fault) :
    disk.makeWay (front ++ [last]).reverse =
      (if disk.isDirectory (Path.ofSegments (front ++ [last])) then .ok () else .error fault,
        disk) := by
  rw [makeWay_concat h, hmake]
  split
  · next heq => cases heq
  · next heq => cases heq; exact absurd rfl hfault
  · next heq => cases heq; rfl

theorem makeWay_of_isDirectory (h : ¬ ((last = "" ∨ last = ".") ∧ front ≠ []))
    (hdirectory : disk.isDirectory (Path.ofSegments (front ++ [last])) = true) :
    disk.makeWay (front ++ [last]).reverse = (.ok (), disk) := by
  rw [makeWay_of_error h (by simp) (makeDirectory_of_isDirectory hdirectory), if_pos hdirectory]

theorem Treads.heads (h : disk.Treads (front ++ [last])) (hname : ¬ IsName last)
    (hskip : ¬ ((last = "" ∨ last = ".") ∧ front ≠ [])) :
    ∀ step ∈ (Path.ofSegments (front ++ [last])).steps, step = "." ∨ step = ".." := by
  intro step hmem
  rw [steps_ofSegments h.ne_nil h.slash, List.mem_filter, List.mem_append,
    List.mem_singleton] at hmem
  obtain ⟨hmem, hempty⟩ := hmem
  have hempty : step ≠ "" := by simpa using hempty
  by_cases hup : last = ".."
  · rcases hmem with hmem | rfl
    · have hsorted := (List.pairwise_append.1 h.straight).2.2 step hmem last List.mem_cons_self hup
      exact hsorted.resolve_left hempty
    · exact .inr hup
  · have hslash := h.slash last (by simp)
    have hdot : last = "" ∨ last = "." := by
      by_contra hnot
      rw [not_or] at hnot
      exact hname ⟨hnot.1, hnot.2, hup, hslash⟩
    have hnil : front = [] := by
      by_contra hne
      exact hskip ⟨hdot, hne⟩
    rw [hnil] at hmem
    rcases hmem with hmem | rfl
    · cases hmem
    · exact .inl (hdot.resolve_left hempty)

theorem Treads.reaches (h : disk.Treads (front ++ [last])) (hname : IsName last)
    (hcheck : (Path.ofSegments (front ++ [last])).check = .ok ()) :
    disk.Reaches (Path.ofSegments (front ++ [last])) last
      (Location.walk disk.workDir (Path.ofSegments (front ++ [last]))).tail := by
  refine @reaches_straight disk _ last (front.filter (· ≠ "")) h.straight_path h.grounded_path
    hcheck ?_ hname
  rw [steps_ofSegments h.ne_nil h.slash, List.filter_append,
    List.filter_cons_of_pos (by simpa using hname.1), List.filter_nil]

theorem Treads.kind?_workDir (h : disk.Treads ([] ++ [last])) (hname : IsName last) :
    disk.kind? disk.workDir = some .directory := by
  have hadrift : disk.adrift = 0 := by
    have hgrounded := h.grounded.resolve_left (by simpa using hname.1)
    rw [List.nil_append, List.count_cons_of_ne hname.2.2.1] at hgrounded
    exact Nat.le_zero.1 hgrounded
  have hground := disk.kind?_workDir_drop
  rwa [hadrift, List.drop_zero] at hground

theorem Treads.walk_single (h : disk.Treads ([] ++ [last])) (hname : IsName last) :
    Location.walk disk.workDir (Path.ofSegments ([] ++ [last])) = last :: disk.workDir := by
  rw [h.walk_eq, List.nil_append, List.head?_cons, if_neg (by simpa using hname.1), List.foldl_cons,
    List.foldl_nil, Location.follow, if_neg (not_or.2 ⟨hname.1, hname.2.1⟩), if_neg hname.2.2.1]

theorem Treads.sameBase {next : Disk} (h : disk.Treads front) (hsame : SameBase disk next) :
    next.Treads front := by
  refine ⟨h.ne_nil, h.slash, h.straight, ?_⟩
  rw [hsame.adrift]
  exact h.grounded

-- In a directory that is there the first attempt decides.
theorem raises_of_directory (hreaches : disk.Reaches (Path.ofSegments (front ++ [last])) name parent)
    (hskip : ¬ ((last = "" ∨ last = ".") ∧ front ≠ []))
    (hparent : disk.kind? parent = some .directory) :
    disk.Raises (disk.makeWay (front ++ [last]).reverse) (name :: parent) := by
  refine makeLast_reaches hreaches hparent ?_
  rcases makeDirectory_reaches hreaches hparent with ⟨next, hmake, -⟩ | ⟨fault, hfault, hmake, -⟩
  · rw [makeWay_concat hskip, hmake]
  · rw [makeWay_of_error hskip hfault hmake, hmake]

-- Otherwise the way above is made first.
theorem raises_of_notFound (h : disk.Treads (front ++ [last])) (hname : IsName last)
    (hcheck : (Path.ofSegments (front ++ [last])).check = .ok ())
    (hwalk : Location.walk disk.workDir (Path.ofSegments (front ++ [last])) = last :: parent)
    (hskip : ¬ ((last = "" ∨ last = ".") ∧ front ≠ []))
    (hmake : disk.makeDirectory (Path.ofSegments (front ++ [last])) = .error .notFound)
    (hmiddle : disk.Raises (disk.makeWay front.reverse) parent) :
    disk.Raises (disk.makeWay (front ++ [last]).reverse) (last :: parent) := by
  have hbase := disk.sameBase_makeWay front.reverse
  obtain ⟨hreach, hkind⟩ := hmiddle
  rw [Raises, makeWay_concat hskip, hmake]
  dsimp only
  generalize disk.makeWay front.reverse = way at hreach hkind hbase ⊢
  obtain ⟨result, middle⟩ := way
  dsimp only at hreach hkind hbase
  cases result with
  | ok _ =>
      have hreaches := (h.sameBase hbase).reaches hname hcheck
      rw [hbase.workDir, hwalk, List.tail_cons] at hreaches
      have hpass := hreach.1 rfl
      have hthere : middle.kind? parent = some .directory := by
        rw [hkind]
        exact raise_self hpass
      have hlast := makeLast_reaches hreaches hthere rfl
      rwa [Raises, hkind, Scene.passable_raise, Scene.raise_raise] at hlast
  | error fault =>
      have hblocked : ¬ Scene.Passable disk.kind? parent := fun hpass => by
        cases hreach.2 hpass
      rw [Scene.raise_cons_of_not_passable hblocked]
      exact ⟨iff_of_false (by simp) fun hpass => hblocked hpass.2, hkind⟩

-- Nothing is made where the attempt fails for another reason.
theorem raises_of_blocked {fault : Fault}
    (hreaches : disk.Reaches (Path.ofSegments (front ++ [last])) name parent)
    (hskip : ¬ ((last = "" ∨ last = ".") ∧ front ≠ []))
    (hfault : fault ≠ .notFound)
    (hmake : disk.makeDirectory (Path.ofSegments (front ++ [last])) = .error fault)
    (hparent : disk.kind? parent ≠ some .directory) :
    disk.Raises (disk.makeWay (front ++ [last]).reverse) (name :: parent) := by
  have hnone : ∀ missing, within missing parent → disk.kind? missing = none →
      ¬ Scene.Passable disk.kind? missing := by
    intro missing hwithin hmissing hpass
    have hending := hreaches.missing missing hwithin hmissing (passable_kind?_iff.1 hpass)
    rw [makeDirectory, hending] at hmake
    exact hfault (Except.error.inj hmake).symm
  have hblocked : ¬ Scene.Passable disk.kind? parent := by
    intro hpass
    cases parent with
    | nil => exact hparent disk.kind?_nil
    | cons first above => exact hnone _ (within_refl _) (hpass.1.resolve_left hparent).1 hpass
  have hself : ¬ disk.isDirectory (Path.ofSegments (front ++ [last])) = true := fun hdirectory =>
    hparent (kind?_parent (hreaches.isDirectory.1 hdirectory))
  rw [Raises, makeWay_of_error hskip hfault hmake, if_neg hself,
    Scene.raise_cons_of_not_passable hblocked, Scene.raise_eq_self hnone]
  exact ⟨iff_of_false (by simp) fun hpass => hblocked hpass.2, rfl⟩

-- The last segment of a path is a name, or the path only goes up, or a dot or a slash more.
theorem makeWay_straight (h : disk.Treads front)
    (hcheck : (Path.ofSegments front).check = .ok ()) :
    disk.Raises (disk.makeWay front.reverse)
      (Location.walk disk.workDir (Path.ofSegments front)) := by
  induction front using List.reverseRecOn with
  | nil => exact absurd rfl h.ne_nil
  | append_singleton front last ih =>
      have hdirectory := isDirectory_straight h.straight_path h.grounded_path
      rw [and_iff_right hcheck] at hdirectory
      by_cases hskip : (last = "" ∨ last = ".") ∧ front ≠ []
      · have hup : last ≠ ".." := by rcases hskip.1 with rfl | rfl <;> decide
        have hback : ".." ∉ [last] := by simpa using Ne.symm hup
        rw [h.walk_append hskip.2 hback, List.foldl_cons, List.foldl_nil, Location.follow,
          if_pos hskip.1, List.reverse_concat, makeWay, if_pos (by simpa using hskip)]
        exact ih (h.left hskip.2 hback) (check_ofSegments_append hskip.2 hcheck)
      · by_cases hname : IsName last
        · have hreaches := h.reaches hname hcheck
          have hwalk := hreaches.walk
          generalize (Location.walk disk.workDir (Path.ofSegments (front ++ [last]))).tail = parent
            at hreaches hwalk
          rw [hwalk]
          by_cases hparent : disk.kind? parent = some .directory
          · exact raises_of_directory hreaches hskip hparent
          · have hfront : front ≠ [] := by
              rintro rfl
              refine hparent ?_
              rw [h.walk_single hname, List.cons.injEq] at hwalk
              rw [← hwalk.2]
              exact h.kind?_workDir hname
            have hback : ".." ∉ [last] := by simpa using Ne.symm hname.2.2.1
            have habove := h.walk_append hfront hback
            rw [hwalk, List.foldl_cons, List.foldl_nil, Location.follow,
              if_neg (not_or.2 ⟨hname.1, hname.2.1⟩), if_neg hname.2.2.1, List.cons.injEq] at habove
            cases hmake : disk.makeDirectory (Path.ofSegments (front ++ [last])) with
            | ok next =>
                obtain ⟨_, _, hplace, -, -, -, hthere, -⟩ := makeDirectory_eq_ok hmake
                rw [hwalk] at hplace
                obtain ⟨rfl, rfl⟩ := List.cons.inj hplace
                exact absurd hthere hparent
            | error fault =>
                by_cases hfault : fault = .notFound
                · subst hfault
                  refine raises_of_notFound h hname hcheck hwalk hskip hmake ?_
                  rw [habove.2]
                  exact ih (h.left hfront hback) (check_ofSegments_append hfront hcheck)
                · exact raises_of_blocked hreaches hskip hfault hmake hparent
        · have hkind := kind?_walk_heads (h.heads hname hskip) h.grounded_path
          rw [makeWay_of_isDirectory hskip (hdirectory.2 hkind)]
          exact raises_self hkind

end Way

theorem makeDirectories_straight (hne : path.text ≠ "") (hstraight : path.Straight)
    (hgrounded : disk.Grounded path) (hcheck : path.check = .ok ()) :
    disk.Raises (disk.makeDirectories path) (Location.walk disk.workDir path) := by
  have hpath := ofSegments_segments hne
  have hway := makeWay_straight (treads_path hstraight hgrounded) (by rwa [hpath])
  rw [makeDirectories, if_neg hne]
  rwa [hpath] at hway

end Disk

end StaticSite
