import StaticSite.Path.Normal

-- Where the characters of a path come from. No operation on paths makes up a character, slashes
-- and dots apart.
namespace StaticSite.Path

theorem mem_of_mem_pieces {c : Char} {chars piece : List Char} (hpiece : piece ∈ pieces chars)
    (hc : c ∈ piece) : c ∈ chars := by
  induction chars generalizing piece with
  | nil => simp only [pieces, List.mem_singleton] at hpiece; simp [hpiece] at hc
  | cons first rest ih =>
      rw [pieces] at hpiece
      split at hpiece
      · rcases List.mem_cons.1 hpiece with rfl | hpiece
        · simp at hc
        · exact List.mem_cons_of_mem _ (ih hpiece hc)
      · split at hpiece
        · rw [List.mem_singleton.1 hpiece, List.mem_singleton] at hc
          exact hc ▸ List.mem_cons_self
        · next head others heq =>
          rcases List.mem_cons.1 hpiece with rfl | hpiece
          · rcases List.mem_cons.1 hc with rfl | hc
            · exact List.mem_cons_self
            · exact List.mem_cons_of_mem _ (ih (heq ▸ List.mem_cons_self) hc)
          · exact List.mem_cons_of_mem _ (ih (heq ▸ List.mem_cons_of_mem _ hpiece) hc)

theorem mem_of_mem_segments {c : Char} {text segment : String} (hsegment : segment ∈ segments text)
    (hc : c ∈ segment.toList) : c ∈ text.toList := by
  obtain ⟨piece, hpiece, rfl⟩ := List.mem_map.1 hsegment
  rw [String.toList_ofList] at hc
  exact mem_of_mem_pieces hpiece hc

theorem eq_of_ofSegment? {segment text : String}
    (h : Component.ofSegment? segment = some (.name text)) : segment = text := by
  unfold Component.ofSegment? at h
  split at h
  · cases h
  · split at h <;> cases h
    rfl

-- The first segment may name the root or the directory itself; every other component is read
-- off a segment.
theorem mem_segments_of_mem_components {path : Path} {text : String}
    (h : .name text ∈ path.components) : text ∈ segments path.text := by
  unfold components at h
  split at h
  · cases h
  · next first rest heq =>
    have hrest : .name text ∈ rest.filterMap Component.ofSegment? → text ∈ rest := by
      intro hmem
      obtain ⟨segment, hsegment, hof⟩ := List.mem_filterMap.1 hmem
      exact eq_of_ofSegment? hof ▸ hsegment
    rw [heq]
    by_cases hroot : first = ""
    · simp only [hroot, ↓reduceIte] at h
      split at h
      · cases h
      · simp only [List.mem_cons, reduceCtorEq, false_or] at h
        exact List.mem_cons_of_mem _ (hrest h)
    · by_cases hhere : first = "."
      · subst hhere
        exact List.mem_cons_of_mem _ (hrest (by simpa using h))
      · simp only [hroot, hhere, ↓reduceIte, List.mem_append, Option.mem_toList] at h
        rcases h with h | h
        · exact eq_of_ofSegment? h ▸ List.mem_cons_self
        · exact List.mem_cons_of_mem _ (hrest h)

theorem mem_text_of_mem_components {c : Char} {path : Path} {text : String}
    (h : .name text ∈ path.components) (hc : c ∈ text.toList) : c ∈ path.text.toList :=
  mem_of_mem_segments (mem_segments_of_mem_components h) hc

theorem mem_of_mem_stack {parts : List Component} {part other : Component}
    (h : other ∈ stack parts part) : other ∈ parts ∨ other = part := by
  cases part with
  | here => exact .inl h
  | root => rcases List.mem_cons.1 h with h | h <;> simp [h]
  | name => rcases List.mem_cons.1 h with h | h <;> simp [h]
  | up =>
      unfold stack at h
      dsimp only at h
      split at h
      · exact .inl (List.mem_cons_of_mem _ h)
      · exact .inl h
      · rcases List.mem_cons.1 h with h | h <;> simp [h]

theorem mem_components_of_mem_normalComponents {path : Path} {part : Component}
    (h : part ∈ path.normalComponents) : part ∈ path.components := by
  have hfold : ∀ (parts done : List Component), part ∈ parts.foldl stack done →
      part ∈ done ∨ part ∈ parts := by
    intro parts
    induction parts with
    | nil => exact fun done h => .inl h
    | cons first rest ih =>
        intro done h
        rcases ih _ h with h | h
        · rcases mem_of_mem_stack h with h | rfl
          · exact .inl h
          · exact .inr List.mem_cons_self
        · exact .inr (List.mem_cons_of_mem _ h)
  simpa using hfold path.components [] (by simpa [normalComponents] using h)

theorem mem_of_mem_dropCommon {part : Component} {left right : List Component}
    (h : part ∈ (dropCommon left right).2) : part ∈ right := by
  induction left generalizing right with
  | nil => simpa [dropCommon] using h
  | cons first rest ih =>
      cases right with
      | nil => simp [dropCommon] at h
      | cons other others =>
          rw [dropCommon] at h
          split at h
          · exact List.mem_cons_of_mem _ (ih h)
          · exact h

-- A component other than a name is written with slashes and dots.
theorem mem_spell {c : Char} (hslash : c ≠ '/') (hdot : c ≠ '.') {parts : List Component}
    (h : c ∈ spell parts) : ∃ text, .name text ∈ parts ∧ c ∈ text.toList := by
  have hpart : ∀ part : Component, c ∈ part.text.toList →
      ∃ text, part = .name text ∧ c ∈ text.toList := by
    intro part h
    cases part with
    | name text => exact ⟨text, rfl, h⟩
    | _ => simp [Component.text, hslash, hdot] at h
  induction parts with
  | nil => cases h
  | cons part rest ih =>
      have hrest : c ∈ spell rest → ∃ text, .name text ∈ part :: rest ∧ c ∈ text.toList := by
        intro h
        obtain ⟨text, hmem, hc⟩ := ih h
        exact ⟨text, List.mem_cons_of_mem _ hmem, hc⟩
      have hfirst : c ∈ part.text.toList →
          ∃ text, .name text ∈ part :: rest ∧ c ∈ text.toList := by
        intro h
        obtain ⟨text, rfl, hc⟩ := hpart part h
        exact ⟨text, List.mem_cons_self, hc⟩
      cases rest with
      | nil => exact hfirst (by simpa [spell] using h)
      | cons next others =>
          cases part with
          | root =>
              simp only [spell, List.mem_cons, hslash, false_or] at h
              exact hrest h
          | _ =>
              simp only [spell, List.mem_append, List.mem_cons, hslash, false_or] at h
              exact h.elim hfirst hrest

theorem mem_intercalate {c : Char} (hslash : c ≠ '/') {texts : List String}
    (h : c ∈ ("/".intercalate texts).toList) : ∃ text ∈ texts, c ∈ text.toList := by
  rw [String.toList_intercalate] at h
  induction texts with
  | nil => simp at h
  | cons text rest ih =>
      cases rest with
      | nil => simpa using h
      | cons next others =>
          simp only [List.map_cons, List.intercalate_cons_cons, List.mem_append] at h
          rcases h with (h | h) | h
          · exact ⟨text, List.mem_cons_self, h⟩
          · simp [hslash] at h
          · obtain ⟨other, hmem, hc⟩ := ih (by simpa using h)
            exact ⟨other, List.mem_cons_of_mem _ hmem, hc⟩

theorem mem_join {c : Char} (hslash : c ≠ '/') {path rest : Path}
    (h : c ∈ (path.join rest).text.toList) : c ∈ path.text.toList ∨ c ∈ rest.text.toList := by
  unfold join at h
  split at h
  · exact .inr h
  · split at h <;> simpa [hslash] using h

theorem mem_of_mem_trimEnd {segment : String} {parts : List String} (h : segment ∈ trimEnd parts) :
    segment ∈ parts := by
  induction parts with
  | nil => cases h
  | cons first rest ih =>
      cases rest with
      | nil => exact h
      | cons next others =>
          rw [trimEnd] at h
          split at h
          · exact List.mem_cons_of_mem _ (ih h)
          · exact h
          · simp

theorem mem_parent? {c : Char} (hslash : c ≠ '/') {path parent : Path}
    (h : path.parent? = some parent) (hc : c ∈ parent.text.toList) : c ∈ path.text.toList := by
  unfold parent? at h
  have htrim : ∀ segment ∈ trimEnd (segments path.text).reverse, segment ∈ segments path.text :=
    fun segment hmem => List.mem_reverse.1 (mem_of_mem_trimEnd hmem)
  split at h
  · cases h
  · split at h
    · cases h
    · cases h; simp at hc
  · next first rest _ heq =>
    cases h
    unfold ofSegments at hc
    split at hc
    · simp [hslash] at hc
    · obtain ⟨segment, hmem, hc⟩ := mem_intercalate hslash hc
      have hrest := mem_of_mem_trimEnd (List.mem_reverse.1 hmem)
      exact mem_of_mem_segments (htrim segment (heq ▸ List.mem_cons_of_mem _ hrest)) hc

-- What the way to `target` is written with comes from `target`.
theorem mem_relativeTo {c : Char} (hslash : c ≠ '/') (hdot : c ≠ '.') {base target : Path}
    (h : c ∈ (base.relativeTo target).text.toList) : c ∈ target.text.toList := by
  have hright : ∀ text, Component.name text ∈
      (dropCommon base.normalComponents target.normalComponents).2 → c ∈ text.toList →
      c ∈ target.text.toList := fun text hmem hc =>
    mem_text_of_mem_components
      (mem_components_of_mem_normalComponents (mem_of_mem_dropCommon hmem)) hc
  unfold relativeTo at h
  simp only at h
  split at h
  · rw [ofComponents, String.toList_ofList] at h
    obtain ⟨text, hmem, hc⟩ := mem_spell hslash hdot h
    exact hright text hmem hc
  · rw [ofComponents, String.toList_ofList] at h
    obtain ⟨text, hmem, hc⟩ := mem_spell hslash hdot h
    rcases List.mem_append.1 hmem with hmem | hmem
    · obtain ⟨_, _, heq⟩ := List.mem_map.1 hmem
      cases heq
    · exact hright text hmem hc

theorem mem_toSlash {c : Char} (hslash : c ≠ '/') (hdot : c ≠ '.') {path : Path}
    (h : c ∈ path.toSlash.toList) : c ∈ path.text.toList := by
  obtain ⟨text, hmem, hc⟩ := mem_intercalate hslash h
  obtain ⟨part, hpart, heq⟩ := List.mem_filterMap.1 hmem
  cases part with
  | name name => cases heq; exact mem_text_of_mem_components hpart hc
  | root => cases heq; simp at hc
  | here => cases heq
  | up => cases heq; simp [hdot] at hc

end StaticSite.Path
