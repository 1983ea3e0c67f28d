import StaticSite.Proofs.Path.Descent

-- Normal forms, and the way from one directory to another.
namespace StaticSite

namespace Path

-- The first segment tells where a path starts, the others are followed from there.
theorem components_of_segments {path : Path} {first : String} {rest : List String}
    (h : segments path.text = first :: rest) :
    path.components =
      (if first = "" then if rest = [] then [] else [.root]
        else if first = "." then [.here] else (Component.ofSegment? first).toList) ++
      rest.filterMap Component.ofSegment? := by
  rw [components, h]
  dsimp only
  split
  · split
    · next hnil => simp [hnil]
    · rfl
  · split <;> rfl

theorem here_not_mem_filterMap (segments : List String) :
    Component.here ∉ segments.filterMap Component.ofSegment? := by
  intro hmem
  obtain ⟨segment, -, hof⟩ := List.mem_filterMap.1 hmem
  unfold Component.ofSegment? at hof
  split at hof
  · cases hof
  · split at hof <;> cases hof

theorem filterMap_segments {path : Path} (h : path.isAbsolute = false) :
    (segments path.text).filterMap Component.ofSegment? =
      path.components.filter (· ≠ .here) := by
  obtain ⟨first, rest, heq⟩ := List.exists_cons_of_ne_nil (segments_ne_nil path.text)
  have hkeep : ∀ segments : List String, (segments.filterMap Component.ofSegment?).filter
      (fun part => decide (part ≠ .here)) = segments.filterMap Component.ofSegment? := by
    intro segments
    refine List.filter_eq_self.2 fun part hmem => ?_
    simpa using fun hhere : part = .here => here_not_mem_filterMap segments (hhere ▸ hmem)
  have hcons : (first :: rest).filterMap Component.ofSegment? =
      (Component.ofSegment? first).toList ++ rest.filterMap Component.ofSegment? := by
    rw [List.filterMap_cons]
    cases Component.ofSegment? first <;> rfl
  have hrelative : first = "" → rest = [] := by
    intro hfirst
    by_contra hrest
    exact Bool.false_ne_true (h.symm.trans (isAbsolute_iff.2 ⟨rest, hrest, hfirst ▸ heq⟩))
  rw [components_of_segments heq, heq]
  by_cases hempty : first = ""
  · simp [hempty, hrelative hempty, Component.ofSegment?]
  · by_cases hdot : first = "."
    · rw [if_neg hempty, if_pos hdot, List.filter_append, hkeep, hcons, hdot]
      rfl
    · rw [if_neg hempty, if_neg hdot, ← hcons, hkeep]

-- A joined path has the components of its two parts. A dot that the second begins with is lost.
theorem components_join {path rest : Path} (h : rest.isAbsolute = false) (hne : path.text ≠ "") :
    (path.join rest).components = path.components ++ rest.components.filter (· ≠ .here) := by
  obtain ⟨first, others, heq⟩ := List.exists_cons_of_ne_nil (segments_ne_nil path.text)
  have hjoin := @segments_join path rest h
  rw [if_neg hne] at hjoin
  by_cases hslash : path.text.toList.getLast? = some '/'
  · -- The empty segment after the last slash names nothing.
    have hpath := segments_of_getLast? hslash
    obtain ⟨start, more, hstart⟩ := List.exists_cons_of_ne_nil
      (show (segments path.text).dropLast ≠ [] from fun hnil => hne (by
        rw [← intercalate_segments path.text, hpath, hnil]
        rfl))
    rw [if_pos hslash, hstart, List.cons_append] at hjoin
    rw [hstart, List.cons_append] at hpath
    rw [components_of_segments hjoin, components_of_segments hpath, List.filterMap_append,
      List.filterMap_append, filterMap_segments h]
    simp [segments_ne_nil, Component.ofSegment?]
  · rw [if_neg hslash, heq, List.cons_append] at hjoin
    have hfirst : first = "" → others ≠ [] := by
      rintro rfl rfl
      refine hne ?_
      rw [← intercalate_segments path.text, heq]
      rfl
    rw [components_of_segments hjoin, components_of_segments heq, List.filterMap_append,
      filterMap_segments h]
    by_cases hempty : first = ""
    · simp [hempty, hfirst hempty]
    · simp [hempty]

-- A stack of components, innermost first, on which nothing is left to cancel.
def Reduced : List Component → Prop
  | [] => True
  | part :: rest => stack rest part = part :: rest ∧ Reduced rest

namespace Reduced

variable {parts done : List Component}

theorem stack (h : Reduced parts) (part : Component) : Reduced (Path.stack parts part) := by
  cases part with
  | here => exact h
  | root => exact ⟨rfl, h⟩
  | name text => exact ⟨rfl, h⟩
  | up =>
      cases parts with
      | nil => exact ⟨rfl, h⟩
      | cons last rest =>
          cases last with
          | name text => exact h.2
          | root => exact h
          | here => exact ⟨rfl, h⟩
          | up => exact ⟨rfl, h⟩

theorem foldl_stack (h : Reduced done) : Reduced (parts.foldl Path.stack done) := by
  induction parts generalizing done with
  | nil => exact h
  | cons part rest ih => exact ih (h.stack part)

theorem of_append (h : Reduced (parts ++ done)) : Reduced done := by
  induction parts with
  | nil => exact h
  | cons part rest ih => exact ih h.2

-- What is reduced has been put together without cancelling anything.
theorem foldl_stack_eq (h : Reduced (parts.reverse ++ done)) :
    parts.foldl Path.stack done = parts.reverse ++ done := by
  induction parts generalizing done with
  | nil => rfl
  | cons part rest ih =>
      rw [List.reverse_cons, List.append_assoc, List.singleton_append] at h
      rw [List.foldl_cons, h.of_append.1, ih h]
      simp

end Reduced

theorem reduced_normalComponents (path : Path) : Reduced path.normalComponents.reverse := by
  rw [normalComponents, List.reverse_reverse]
  exact Reduced.foldl_stack trivial

theorem foldl_stack_filter (parts done : List Component) :
    (parts.filter (· ≠ .here)).foldl stack done = parts.foldl stack done := by
  induction parts generalizing done with
  | nil => rfl
  | cons part rest ih =>
      by_cases hhere : part = .here
      · subst hhere
        rw [List.filter_cons_of_neg (by simp), List.foldl_cons]
        exact ih done
      · rw [List.filter_cons_of_pos (by simpa using hhere), List.foldl_cons, List.foldl_cons, ih]

-- The normal form of a joined path goes on from the normal form of its first part.
theorem normalComponents_join {path rest : Path} (h : rest.isAbsolute = false) :
    (path.join rest).normalComponents =
      (rest.components.foldl stack path.normalComponents.reverse).reverse := by
  by_cases hempty : path.text = ""
  · have hjoin : path.join rest = rest := by
      rw [join, if_neg (by simp [h]), if_pos (.inl hempty), hempty, String.empty_append]
    have hpath : path.normalComponents = [] := by
      cases path
      subst hempty
      rfl
    rw [hjoin, hpath]
    rfl
  · rw [normalComponents, components_join h hempty, List.foldl_append, foldl_stack_filter,
      normalComponents, List.reverse_reverse]

theorem foldl_stack_names (names : List String) (done : List Component) :
    (names.map Component.name).foldl stack done = (names.map .name).reverse ++ done := by
  induction names generalizing done with
  | nil => rfl
  | cons name rest ih =>
      rw [List.map_cons, List.foldl_cons, ih, List.reverse_cons, List.append_assoc]
      rfl

theorem exists_append_dropCommon {α : Type} [DecidableEq α] (left right : List α) :
    ∃ common, left = common ++ (dropCommon left right).1 ∧
      right = common ++ (dropCommon left right).2 := by
  induction left generalizing right with
  | nil => exact ⟨[], rfl, rfl⟩
  | cons a left ih =>
      cases right with
      | nil => exact ⟨[], rfl, rfl⟩
      | cons b right =>
          rw [dropCommon]
          split
          · next heq =>
            obtain ⟨common, hleft, hright⟩ := ih right
            exact ⟨a :: common, by rw [List.cons_append, ← hleft],
              by rw [List.cons_append, ← hright, heq]⟩
          · exact ⟨[], rfl, rfl⟩

-- Going up as often as names have led down leaves them all behind.
theorem foldl_stack_up {names done : List Component}
    (h : ∀ part ∈ names, ∃ text, part = .name text) :
    (List.replicate names.length .up).foldl stack (names ++ done) = done := by
  induction names with
  | nil => rfl
  | cons part rest ih =>
      obtain ⟨text, rfl⟩ := h part List.mem_cons_self
      exact ih fun other hmem => h other (List.mem_cons_of_mem _ hmem)

theorem spell_of_isPlain {parts : List Component} (h : ∀ part ∈ parts, part.IsPlain) :
    spell parts = (['/'] : List Char).intercalate (parts.map fun part => part.text.toList) := by
  induction parts with
  | nil => rfl
  | cons part rest ih =>
      have hrest := ih fun other hmem => h other (List.mem_cons_of_mem _ hmem)
      cases rest with
      | nil => simp [spell]
      | cons next others =>
          have hroot := (h part List.mem_cons_self).ne_root
          rw [List.map_cons] at hrest
          rw [spell, hrest, List.map_cons, List.map_cons, List.intercalate_cons_cons]
          · simp
          · simp
          · exact hroot

-- Slashes between plain components are how a path of them is written.
theorem toSlash_ofComponents {parts : List Component} (h : ∀ part ∈ parts, part.IsPlain) :
    (ofComponents parts).toSlash = (ofComponents parts).text := by
  have htexts : ∀ path : Path, (∀ part ∈ path.components, part.IsPlain) →
      path.toSlash = "/".intercalate (path.components.map Component.text) := by
    intro path hpath
    unfold toSlash
    congr 1
    generalize path.components = parts at hpath
    induction parts with
    | nil => rfl
    | cons part rest ih =>
        rw [List.filterMap_cons, List.map_cons,
          ih fun other hmem => hpath other (List.mem_cons_of_mem _ hmem)]
        cases hpath part List.mem_cons_self <;> rfl
  have hcomponents := components_ofComponents h
  apply String.toList_inj.1
  have htext : (ofComponents parts).text.toList = spell parts := String.toList_ofList
  rw [htexts _ (hcomponents.symm ▸ h), hcomponents, String.toList_intercalate, htext,
    spell_of_isPlain h, List.map_map]
  rfl

theorem isAbsolute_ofComponents {parts : List Component} (h : ∀ part ∈ parts, part.IsPlain) :
    (ofComponents parts).isAbsolute = false := by
  rcases components_cases (ofComponents parts) with ⟨rest, hrest, -, -⟩ | ⟨hfalse, -⟩
  · rw [components_ofComponents h] at hrest
    exact absurd (hrest ▸ List.mem_cons_self) (not_root_mem_of_isPlain h)
  · exact hfalse

section Relative

variable {base target : Path} {left right : List Component}

-- The way up to where two paths part, then down.
theorem relativeTo_of_dropCommon
    (h : dropCommon base.normalComponents target.normalComponents = (left, right))
    (hright : ∀ part ∈ right, part.IsPlain) :
    base.relativeTo target = ofComponents (List.replicate left.length .up ++ right) ∧
      ∀ part ∈ List.replicate left.length Component.up ++ right, part.IsPlain := by
  constructor
  · have hroot : right.head? ≠ some .root := fun hhead =>
      (hright .root (List.mem_of_head? hhead)).ne_root rfl
    rw [relativeTo, h]
    simp only [if_neg hroot, List.map_const']
  · intro part hmem
    rcases List.mem_append.1 hmem with hmem | hmem
    · rw [List.eq_of_mem_replicate hmem]
      exact .up
    · exact hright part hmem

-- The way to a relative path goes up to where the two part, then down.
theorem relativeTo_eq (base : Path) (htarget : target.isAbsolute = false) :
    ∃ common left right, base.normalComponents = common ++ left ∧
      target.normalComponents = common ++ right ∧
      base.relativeTo target = ofComponents (List.replicate left.length .up ++ right) ∧
      ∀ part ∈ List.replicate left.length Component.up ++ right, part.IsPlain := by
  obtain ⟨common, hleft, hright⟩ :=
    exists_append_dropCommon base.normalComponents target.normalComponents
  refine ⟨common, _, _, hleft, hright, relativeTo_of_dropCommon rfl fun part hmem => ?_⟩
  exact isPlain_of_mem_normalComponents htarget part (hright ▸ List.mem_append_right _ hmem)

-- The way leads to the target where nothing but names has to be left behind: there is no going
-- back down.
theorem join_relativeTo_of_names
    (h : dropCommon base.normalComponents target.normalComponents = (left, right))
    (hright : ∀ part ∈ right, part.IsPlain) (hnames : ∀ part ∈ left, ∃ text, part = .name text) :
    (base.join (base.relativeTo target)).normalComponents = target.normalComponents := by
  obtain ⟨hway, hplain⟩ := relativeTo_of_dropCommon h hright
  obtain ⟨common, hleft, htarget⟩ :=
    exists_append_dropCommon base.normalComponents target.normalComponents
  rw [h] at hleft htarget
  have hreduced := reduced_normalComponents target
  rw [htarget, List.reverse_append] at hreduced
  have hback := @foldl_stack_up left.reverse common.reverse
    fun part hmem => hnames part (List.mem_reverse.1 hmem)
  rw [List.length_reverse] at hback
  rw [normalComponents_join (hway ▸ isAbsolute_ofComponents hplain), hway,
    components_ofComponents hplain, List.foldl_append, hleft, List.reverse_append, hback,
    hreduced.foldl_stack_eq, htarget]
  simp

-- The way from a directory leads to the target, unless the directory lies above the place that
-- both start from.
theorem normalComponents_join_relativeTo (hbase : base.isAbsolute = false)
    (htarget : target.isAbsolute = false) (hup : .up ∉ base.normalComponents) :
    (base.join (base.relativeTo target)).normalComponents = target.normalComponents := by
  obtain ⟨common, hleft, hright⟩ :=
    exists_append_dropCommon base.normalComponents target.normalComponents
  refine join_relativeTo_of_names rfl (fun part hmem => ?_) fun part hmem => ?_
  · exact isPlain_of_mem_normalComponents htarget part (hright ▸ List.mem_append_right _ hmem)
  · have hpart : part ∈ base.normalComponents := hleft ▸ List.mem_append_right _ hmem
    cases isPlain_of_mem_normalComponents hbase part hpart with
    | up => exact absurd hpart hup
    | name => exact ⟨_, rfl⟩

end Relative

end Path

namespace Location

theorem normalComponents_names {below : Location} (h : below.Named) :
    (Path.mk ("/".intercalate below.reverse)).normalComponents = below.reverse.map .name := by
  rw [Path.normalComponents, components_names h, Path.foldl_stack_names]
  simp

end Location

end StaticSite
