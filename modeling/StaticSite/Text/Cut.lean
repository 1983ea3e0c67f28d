namespace StaticSite.Text

-- What stands before the first `mark` and what follows it.
def cut? (mark : Char) : List Char → Option (List Char × List Char)
  | [] => none
  | c :: rest =>
    if c = mark then some ([], rest)
    else (cut? mark rest).map fun (before, after) => (c :: before, after)

theorem cut?_eq_some {mark : Char} {chars before after : List Char}
    (h : cut? mark chars = some (before, after)) : chars = before ++ mark :: after := by
  induction chars generalizing before with
  | nil => simp [cut?] at h
  | cons c rest ih =>
    rw [cut?] at h
    split at h
    · next hc => cases h; rw [hc]; rfl
    · obtain ⟨⟨inner, _⟩, hrest, heq⟩ := Option.map_eq_some_iff.1 h
      cases heq
      rw [ih hrest]; rfl

theorem not_mem_of_cut? {mark : Char} {chars before after : List Char}
    (h : cut? mark chars = some (before, after)) : mark ∉ before := by
  induction chars generalizing before with
  | nil => simp [cut?] at h
  | cons c rest ih =>
    rw [cut?] at h
    split at h
    · cases h; simp
    · next hc =>
      obtain ⟨⟨inner, _⟩, hrest, heq⟩ := Option.map_eq_some_iff.1 h
      cases heq
      exact fun hmem => (List.mem_cons.1 hmem).elim (fun heq => hc heq.symm) (ih hrest)

theorem not_mem_of_cut?_eq_none {mark : Char} {chars : List Char} (h : cut? mark chars = none) :
    mark ∉ chars := by
  induction chars with
  | nil => simp
  | cons c rest ih =>
    rw [cut?] at h
    split at h
    · cases h
    · next hc =>
      have hrest := ih (Option.map_eq_none_iff.1 h)
      exact fun hmem => (List.mem_cons.1 hmem).elim (fun heq => hc heq.symm) hrest

theorem cut?_eq_none_of_not_mem {mark : Char} {chars : List Char} (h : mark ∉ chars) :
    cut? mark chars = none := by
  induction chars with
  | nil => rfl
  | cons c rest ih =>
    rw [List.mem_cons, not_or] at h
    simp [cut?, Ne.symm h.1, ih h.2]

theorem cut?_append_of_not_mem {mark : Char} {before : List Char} (h : mark ∉ before)
    (after : List Char) : cut? mark (before ++ mark :: after) = some (before, after) := by
  induction before with
  | nil => simp [cut?]
  | cons c rest ih =>
    rw [List.mem_cons, not_or] at h
    simp [cut?, Ne.symm h.1, ih h.2]

end StaticSite.Text
