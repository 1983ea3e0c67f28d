import Mathlib.Data.List.Basic
import StaticSite.Disk.Folder
import StaticSite.Path.Normal

-- What paths mean as ways over directories, read off their segments and their components.
namespace StaticSite

namespace Path

theorem pieces_ne_nil (chars : List Char) : pieces chars ≠ [] := by
  cases chars with
  | nil => simp [pieces]
  | cons c rest =>
      rw [pieces]
      split
      · simp
      · split <;> simp

theorem pieces_append (front back : List Char) :
    pieces (front ++ '/' :: back) = pieces front ++ pieces back := by
  induction front with
  | nil => simp [pieces]
  | cons c rest ih =>
      rw [List.cons_append, pieces, pieces, ih]
      split
      · rfl
      · cases h : pieces rest with
        | nil => exact absurd h (pieces_ne_nil rest)
        | cons piece others => rfl

theorem pieces_of_not_mem {chars : List Char} (h : '/' ∉ chars) : pieces chars = [chars] := by
  induction chars with
  | nil => rfl
  | cons c rest ih =>
      rw [List.mem_cons, not_or] at h
      rw [pieces, if_neg (Ne.symm h.1), ih h.2]

theorem not_mem_of_mem_pieces {chars piece : List Char} (h : piece ∈ pieces chars) :
    '/' ∉ piece := by
  induction chars generalizing piece with
  | nil => simp only [pieces, List.mem_singleton] at h; simp [h]
  | cons c rest ih =>
      rw [pieces] at h
      split at h
      · rcases List.mem_cons.1 h with rfl | h
        · simp
        · exact ih h
      · next hc =>
        split at h
        · simpa [List.mem_singleton.1 h] using Ne.symm hc
        · next head others heq =>
          rcases List.mem_cons.1 h with rfl | h
          · simpa [Ne.symm hc] using ih (heq ▸ List.mem_cons_self)
          · exact ih (heq ▸ List.mem_cons_of_mem _ h)

theorem segments_ne_nil (text : String) : segments text ≠ [] := by
  simp [segments, pieces_ne_nil]

theorem not_mem_of_mem_segments {text segment : String} (h : segment ∈ segments text) :
    '/' ∉ segment.toList := by
  obtain ⟨piece, hpiece, rfl⟩ := List.mem_map.1 h
  rw [String.toList_ofList]
  exact not_mem_of_mem_pieces hpiece

theorem segments_ofList_append (front back : List Char) :
    segments (String.ofList (front ++ '/' :: back)) =
      segments (String.ofList front) ++ segments (String.ofList back) := by
  simp [segments, pieces_append]

theorem segments_of_not_mem {text : String} (h : '/' ∉ text.toList) : segments text = [text] := by
  simp [segments, pieces_of_not_mem h]

-- A slash at the end of a text leaves an empty segment.
theorem segments_of_getLast? {text : String} (h : text.toList.getLast? = some '/') :
    segments text = (segments text).dropLast ++ [""] := by
  obtain ⟨front, hfront⟩ := List.getLast?_eq_some_iff.1 h
  have hsplit : segments text = segments (String.ofList front) ++ [""] := by
    conv_lhs => rw [← String.ofList_toList (s := text), hfront]
    exact segments_ofList_append front []
  rw [hsplit, List.dropLast_concat]

-- The last character of a text without slashes.
theorem exists_last {text : String} (hne : text ≠ "") (hslash : '/' ∉ text.toList) :
    ∃ front c, text.toList = front ++ [c] ∧ c ≠ '/' := by
  rcases List.eq_nil_or_concat' text.toList with hnil | ⟨front, c, hconcat⟩
  · exact absurd (by simpa using hnil) hne
  · refine ⟨front, c, hconcat, ?_⟩
    rintro rfl
    exact hslash (by simp [hconcat])

end Path

namespace Component

-- What can follow the root or another component in a normal form.
inductive IsPlain : Component → Prop
  | up : IsPlain .up
  | name {text : String} (h : IsName text) : IsPlain (.name text)

namespace IsPlain

variable {part : Component}

theorem not_mem (h : part.IsPlain) : '/' ∉ part.text.toList := by
  cases h with
  | up => decide
  | name h => exact h.2.2.2

theorem ofSegment? (h : part.IsPlain) : Component.ofSegment? part.text = some part := by
  cases h with
  | up => rfl
  | name h => simp [Component.ofSegment?, text, h.1, h.2.1, h.2.2.1]

theorem ne_empty (h : part.IsPlain) : part.text ≠ "" := by
  cases h with
  | up => decide
  | name h => exact h.1

theorem ne_dot (h : part.IsPlain) : part.text ≠ "." := by
  cases h with
  | up => decide
  | name h => exact h.2.1

theorem ne_root (h : part.IsPlain) : part ≠ .root := by
  cases h <;> simp

end IsPlain

end Component

namespace Path

open Component

theorem segments_spell {parts : List Component} (h : ∀ part ∈ parts, part.IsPlain)
    (hne : parts ≠ []) : segments (String.ofList (spell parts)) = parts.map Component.text := by
  induction parts with
  | nil => exact absurd rfl hne
  | cons part rest ih =>
      have hpart := h part List.mem_cons_self
      have hfirst : segments (String.ofList part.text.toList) = [part.text] := by
        rw [String.ofList_toList]
        exact segments_of_not_mem hpart.not_mem
      cases rest with
      | nil => exact hfirst
      | cons next others =>
          have hspell : spell (part :: next :: others) =
              part.text.toList ++ '/' :: spell (next :: others) := by
            cases part with
            | root => exact absurd rfl hpart.ne_root
            | _ => rfl
          rw [hspell, segments_ofList_append, hfirst,
            ih (fun other hmem => h other (List.mem_cons_of_mem _ hmem)) (by simp)]
          rfl

theorem segments_spell_root {parts : List Component} (h : ∀ part ∈ parts, part.IsPlain)
    (hne : parts ≠ []) :
    segments (String.ofList (spell (.root :: parts))) = "" :: parts.map Component.text := by
  cases parts with
  | nil => exact absurd rfl hne
  | cons part rest =>
      have hsplit := segments_ofList_append [] (spell (part :: rest))
      rw [List.nil_append] at hsplit
      rw [spell, hsplit, segments_spell h hne]
      · rfl
      · simp

theorem filterMap_ofSegment?_text {parts : List Component} (h : ∀ part ∈ parts, part.IsPlain) :
    (parts.map Component.text).filterMap Component.ofSegment? = parts := by
  induction parts with
  | nil => rfl
  | cons part rest ih =>
      rw [List.map_cons, List.filterMap_cons, (h part List.mem_cons_self).ofSegment?,
        ih fun other hmem => h other (List.mem_cons_of_mem _ hmem)]

theorem components_ofComponents {parts : List Component} (h : ∀ part ∈ parts, part.IsPlain) :
    (ofComponents parts).components = parts := by
  cases parts with
  | nil => rfl
  | cons part rest =>
      have hpart := h part List.mem_cons_self
      rw [components, ofComponents, segments_spell h (by simp)]
      simp only [List.map_cons, if_neg hpart.ne_empty, if_neg hpart.ne_dot, hpart.ofSegment?,
        filterMap_ofSegment?_text fun other hmem => h other (List.mem_cons_of_mem _ hmem)]
      rfl

theorem components_ofComponents_root {parts : List Component}
    (h : ∀ part ∈ parts, part.IsPlain) :
    (ofComponents (.root :: parts)).components = .root :: parts := by
  cases parts with
  | nil => rfl
  | cons part rest =>
      rw [components, ofComponents, segments_spell_root h (by simp)]
      exact congrArg (Component.root :: ·) (filterMap_ofSegment?_text h)

theorem isPlain_of_ofSegment? {segment : String} {part : Component}
    (h : Component.ofSegment? segment = some part) (hslash : '/' ∉ segment.toList) :
    part.IsPlain := by
  unfold Component.ofSegment? at h
  split at h
  · cases h
  · next hne =>
    split at h
    · cases h; exact .up
    · next hup =>
      cases h
      rw [not_or] at hne
      exact .name ⟨hne.1, hne.2, hup, hslash⟩

-- The root and the directory itself only stand at the start.
theorem components_cases (path : Path) :
    (∃ parts, path.components = .root :: parts ∧ path.isAbsolute ∧
      ∀ part ∈ parts, part.IsPlain) ∨
    (path.isAbsolute = false ∧ ∃ parts, (∀ part ∈ parts, part.IsPlain) ∧
      (path.components = parts ∨ path.components = .here :: parts)) := by
  have hplain : ∀ rest : List String, (∀ segment ∈ rest, segment ∈ segments path.text) →
      ∀ part ∈ rest.filterMap Component.ofSegment?, part.IsPlain := by
    intro rest hrest part hmem
    obtain ⟨segment, hsegment, hof⟩ := List.mem_filterMap.1 hmem
    exact isPlain_of_ofSegment? hof (not_mem_of_mem_segments (hrest segment hsegment))
  obtain ⟨first, rest, heq⟩ := List.exists_cons_of_ne_nil (segments_ne_nil path.text)
  have hrest := hplain rest fun segment hmem => heq ▸ List.mem_cons_of_mem _ hmem
  have habsolute : path.isAbsolute = true ↔ first = "" ∧ rest ≠ [] := by
    unfold isAbsolute
    unfold segments at heq
    cases hchars : path.text.toList with
    | nil =>
        rw [hchars] at heq
        simp [pieces] at heq
        simp [← heq.1, ← heq.2]
    | cons c others =>
        rw [hchars, pieces] at heq
        by_cases hc : c = '/'
        · rw [if_pos hc, List.map_cons] at heq
          injection heq with hfirst hothers
          simp only [List.head?_cons, hc, decide_true, true_iff]
          refine ⟨hfirst.symm, ?_⟩
          simp [← hothers, pieces_ne_nil]
        · rw [if_neg hc] at heq
          simp only [List.head?_cons, Option.some.injEq, hc, decide_false, Bool.false_eq_true,
            false_iff, not_and]
          intro hfirst
          split at heq <;> simp [hfirst] at heq
  rw [components, heq]
  dsimp only
  by_cases hfirst : first = ""
  · rw [if_pos hfirst]
    by_cases hnil : rest = []
    · exact .inr ⟨by simp [Bool.eq_false_iff, habsolute, hnil], [], List.forall_mem_nil _, .inl (if_pos hnil)⟩
    · rw [if_neg hnil]
      exact .inl ⟨_, rfl, habsolute.2 ⟨hfirst, hnil⟩, hrest⟩
  · refine .inr ⟨by simp [Bool.eq_false_iff, habsolute, hfirst], ?_⟩
    rw [if_neg hfirst]
    by_cases hdot : first = "."
    · rw [if_pos hdot]
      exact ⟨_, hrest, .inr rfl⟩
    · rw [if_neg hdot]
      refine ⟨_, ?_, .inl rfl⟩
      intro part hmem
      rcases List.mem_append.1 hmem with hmem | hmem
      · exact isPlain_of_ofSegment? (Option.mem_toList.1 hmem)
          (not_mem_of_mem_segments (heq ▸ List.mem_cons_self))
      · exact hrest part hmem

theorem not_root_mem_of_isPlain {parts : List Component} (h : ∀ part ∈ parts, part.IsPlain) :
    .root ∉ parts := fun hmem => (h .root hmem).ne_root rfl

-- From the root on, what is kept of the components is the way to the place that they lead to.
theorem foldl_stack_location (parts : List Component) (h : .root ∉ parts) (location : Location) :
    parts.foldl stack (location.map .name ++ [.root]) =
      (parts.foldl Location.step location).map .name ++ [.root] := by
  induction parts generalizing location with
  | nil => rfl
  | cons part rest ih =>
      rw [List.mem_cons, not_or] at h
      rw [List.foldl_cons, List.foldl_cons, ← ih h.2]
      congr 1
      cases part with
      | root => exact absurd rfl h.1
      | here => rfl
      | up => cases location <;> rfl
      | name text => rfl

theorem normalComponents_of_isAbsolute {path : Path} (h : path.isAbsolute) :
    path.normalComponents = .root :: (Location.walk [] path).reverse.map .name := by
  rcases components_cases path with ⟨parts, heq, -, hparts⟩ | ⟨hfalse, -⟩
  · rw [normalComponents, Location.walk, heq, List.foldl_cons, List.foldl_cons]
    have hfold := foldl_stack_location parts (not_root_mem_of_isPlain hparts) []
    rw [List.map_nil, List.nil_append] at hfold
    simp only [stack, Location.step, hfold]
    simp
  · simp [h] at hfalse

theorem normalize_of_isAbsolute {path : Path} (h : path.isAbsolute) :
    path.normalize = (Location.walk [] path).path := by
  rw [normalize, normalComponents_of_isAbsolute h, Location.path]

-- Where an absolute path leads does not depend on where it is followed from.
theorem walk_of_isAbsolute {path : Path} (h : path.isAbsolute) (start : Location) :
    Location.walk start path = Location.walk [] path := by
  rcases components_cases path with ⟨parts, heq, -, -⟩ | ⟨hfalse, -⟩
  · simp [Location.walk, heq, Location.step]
  · simp [h] at hfalse

theorem foldl_step_stack (parts : List Component) (part : Component) (start : Location) :
    (stack parts part).reverse.foldl Location.step start =
      Location.step (parts.reverse.foldl Location.step start) part := by
  cases part with
  | here => rfl
  | root => simp [stack, Location.step]
  | name text => simp [stack, Location.step]
  | up =>
      cases parts with
      | nil => rfl
      | cons last rest => cases last <;> simp [stack, Location.step]

theorem foldl_step_normalComponents (path : Path) (start : Location) :
    path.normalComponents.foldl Location.step start = Location.walk start path := by
  have hfold : ∀ parts done : List Component,
      (parts.foldl stack done).reverse.foldl Location.step start =
        parts.foldl Location.step (done.reverse.foldl Location.step start) := by
    intro parts
    induction parts with
    | nil => exact fun _ => rfl
    | cons part rest ih =>
        intro done
        rw [List.foldl_cons, List.foldl_cons, ih, foldl_step_stack]
  exact hfold path.components []

theorem stack_isPlain {parts : List Component} {part : Component}
    (hparts : ∀ other ∈ parts, other.IsPlain) (hpart : part.IsPlain) :
    ∀ other ∈ stack parts part, other.IsPlain := by
  cases hpart with
  | name h =>
      intro other hmem
      rcases List.mem_cons.1 hmem with rfl | hmem
      · exact .name h
      · exact hparts other hmem
  | up =>
      intro other hmem
      cases parts with
      | nil => exact List.mem_singleton.1 hmem ▸ .up
      | cons last rest =>
          cases last with
          | name text => exact hparts other (List.mem_cons_of_mem _ hmem)
          | root => exact absurd rfl (hparts .root List.mem_cons_self).ne_root
          | _ =>
              rcases List.mem_cons.1 hmem with rfl | hmem
              · exact .up
              · exact hparts other hmem

theorem foldl_stack_isPlain {parts done : List Component} (hparts : ∀ part ∈ parts, part.IsPlain)
    (hdone : ∀ part ∈ done, part.IsPlain) : ∀ part ∈ parts.foldl stack done, part.IsPlain := by
  induction parts generalizing done with
  | nil => exact hdone
  | cons part rest ih =>
      exact ih (fun other hmem => hparts other (List.mem_cons_of_mem _ hmem))
        (stack_isPlain hdone (hparts part List.mem_cons_self))

theorem isPlain_of_mem_normalComponents {path : Path} (h : path.isAbsolute = false) :
    ∀ part ∈ path.normalComponents, part.IsPlain := by
  intro part hmem
  rw [normalComponents, List.mem_reverse] at hmem
  rcases components_cases path with ⟨_, -, htrue, -⟩ | ⟨-, parts, hparts, heq⟩
  · simp [h] at htrue
  · rcases heq with heq | heq
    · exact foldl_stack_isPlain hparts (List.forall_mem_nil _) part (heq ▸ hmem)
    · rw [heq, List.foldl_cons] at hmem
      exact foldl_stack_isPlain hparts (List.forall_mem_nil _) part hmem

end Path

namespace Location

-- The names of a place are names that directories can hold.
def Named (location : Location) : Prop :=
  ∀ name ∈ location, IsName name

namespace Named

variable {location above : Location}

theorem isPlain (h : location.Named) :
    ∀ part ∈ location.reverse.map Component.name, part.IsPlain := by
  intro part hmem
  obtain ⟨name, hname, rfl⟩ := List.mem_map.1 hmem
  exact .name (h name (List.mem_reverse.1 hname))

theorem cons {name : String} (h : location.Named) (hname : IsName name) :
    Named (name :: location) := by
  intro other hmem
  rcases List.mem_cons.1 hmem with rfl | hmem
  · exact hname
  · exact h other hmem

theorem append (h : location.Named) (habove : above.Named) : (location ++ above).Named := by
  intro name hmem
  exact (List.mem_append.1 hmem).elim (h name) (habove name)

theorem of_append_left (h : (location ++ above).Named) : location.Named :=
  fun name hmem => h name (List.mem_append_left _ hmem)

theorem of_append_right (h : (location ++ above).Named) : above.Named :=
  fun name hmem => h name (List.mem_append_right _ hmem)

theorem tail {name : String} (h : Named (name :: location)) : location.Named :=
  fun other hmem => h other (List.mem_cons_of_mem _ hmem)

end Named

variable {location : Location}

theorem components_path (h : location.Named) :
    location.path.components = .root :: location.reverse.map .name :=
  Path.components_ofComponents_root h.isPlain

theorem isAbsolute_path (location : Location) : location.path.isAbsolute := by
  rw [Path.isAbsolute, Location.path, Path.ofComponents, String.toList_ofList]
  cases location.reverse <;> rfl

theorem named_step {start : Location} {part : Component} (hstart : start.Named)
    (hpart : part.IsPlain) : (step start part).Named := by
  cases hpart with
  | up => exact fun name hmem => hstart name (List.mem_of_mem_tail hmem)
  | name h =>
      intro name hmem
      rcases List.mem_cons.1 hmem with rfl | hmem
      · exact h
      · exact hstart name hmem

theorem named_foldl_step {parts : List Component} (hparts : ∀ part ∈ parts, part.IsPlain)
    {start : Location} (hstart : start.Named) : (parts.foldl step start).Named := by
  induction parts generalizing start with
  | nil => exact hstart
  | cons part rest ih =>
      exact ih (fun other hmem => hparts other (List.mem_cons_of_mem _ hmem))
        (named_step hstart (hparts part List.mem_cons_self))

theorem named_nil : Named [] := fun _ hmem => nomatch hmem

theorem named_walk {start : Location} (hstart : start.Named) (path : Path) :
    (walk start path).Named := by
  rcases Path.components_cases path with ⟨parts, heq, -, hparts⟩ | ⟨-, parts, hparts, heq | heq⟩
  · rw [walk, heq]
    exact named_foldl_step hparts named_nil
  · rw [walk, heq]
    exact named_foldl_step hparts hstart
  · rw [walk, heq]
    exact named_foldl_step hparts hstart

theorem foldl_step_names (names : List String) (start : Location) :
    (names.map Component.name).foldl step start = names.reverse ++ start := by
  induction names generalizing start with
  | nil => rfl
  | cons name rest ih => rw [List.map_cons, List.foldl_cons, ih]; simp [step]

-- The path of a place leads there.
theorem walk_path (h : location.Named) (start : Location) : walk start location.path = location := by
  rw [walk, components_path h, List.foldl_cons, foldl_step_names]
  simp [step]

theorem normalize_path (h : location.Named) : location.path.normalize = location.path := by
  rw [Path.normalize_of_isAbsolute (isAbsolute_path location), walk_path h]

end Location

namespace Path

theorem named_walk_root (path : Path) : (Location.walk [] path).Named :=
  Location.named_walk Location.named_nil path

theorem components_normalize (path : Path) : path.normalize.components = path.normalComponents := by
  cases h : path.isAbsolute with
  | true =>
      rw [normalize_of_isAbsolute h, Location.components_path (named_walk_root path),
        normalComponents_of_isAbsolute h]
  | false => exact components_ofComponents (isPlain_of_mem_normalComponents h)

-- Normal forms lead where the path leads.
theorem walk_normalize (start : Location) (path : Path) :
    Location.walk start path.normalize = Location.walk start path := by
  rw [Location.walk, components_normalize, foldl_step_normalComponents]

end Path

end StaticSite
