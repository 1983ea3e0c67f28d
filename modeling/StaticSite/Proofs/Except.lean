import StaticSite.Fault

-- Computations that can fail, step by step.
namespace StaticSite

variable {ε α β : Type}

-- What has succeeded has succeeded at each step.
theorem bind_eq_ok {first : Except ε α} {next : α → Except ε β} {result : β} :
    (first >>= next) = .ok result ↔ ∃ value, first = .ok value ∧ next value = .ok result := by
  cases first with
  | error error => simp [bind, Except.bind]
  | ok value => simp [bind, Except.bind]

theorem eq_ok_getD {value : Except ε α} {other : α} (h : value.toOption.isSome) :
    value = .ok (value.toOption.getD other) := by
  cases value with
  | ok a => rfl
  | error _ => cases h

theorem map_eq_ok {f : α → β} {first : Except ε α} {result : β} :
    f <$> first = .ok result ↔ ∃ value, first = .ok value ∧ f value = result := by
  cases first with
  | error error => simp [Functor.map, Except.map]
  | ok value => simp [Functor.map, Except.map]

theorem mapM_cons_eq_ok {f : α → Except ε β} {first : α} {rest : List α} {results : List β} :
    (first :: rest).mapM f = .ok results ↔
      ∃ value others, f first = .ok value ∧ rest.mapM f = .ok others ∧ results = value :: others := by
  rw [List.mapM_cons]
  constructor
  · intro h
    obtain ⟨value, hvalue, h⟩ := bind_eq_ok.1 h
    obtain ⟨others, hothers, h⟩ := bind_eq_ok.1 h
    cases h
    exact ⟨value, others, hvalue, hothers, rfl⟩
  · rintro ⟨value, others, hvalue, hothers, rfl⟩
    rw [hvalue, hothers]
    rfl

theorem exists_of_mem_mapM {f : α → Except ε β} {inputs : List α} {results : List β} {result : β}
    (h : inputs.mapM f = .ok results) (hmem : result ∈ results) :
    ∃ input ∈ inputs, f input = .ok result := by
  induction inputs generalizing results with
  | nil =>
      cases h
      cases hmem
  | cons first rest ih =>
      obtain ⟨value, others, hvalue, hothers, rfl⟩ := mapM_cons_eq_ok.1 h
      rcases List.mem_cons.1 hmem with rfl | hmem
      · exact ⟨first, List.mem_cons_self, hvalue⟩
      · obtain ⟨input, hinput, hresult⟩ := ih hothers hmem
        exact ⟨input, List.mem_cons_of_mem _ hinput, hresult⟩

-- What holds of any two inputs in order holds of what comes of them.
theorem pairwise_of_mapM {f : α → Except ε β} {relation : β → β → Prop} {inputs : List α}
    {results : List β} (h : inputs.mapM f = .ok results)
    (hpairs : inputs.Pairwise fun left right => ∀ first second, f left = .ok first →
      f right = .ok second → relation first second) : results.Pairwise relation := by
  induction inputs generalizing results with
  | nil =>
      cases h
      exact .nil
  | cons input rest ih =>
      obtain ⟨first, others, hfirst, hothers, rfl⟩ := mapM_cons_eq_ok.1 h
      obtain ⟨hleft, hrest⟩ := List.pairwise_cons.1 hpairs
      refine List.pairwise_cons.2 ⟨fun second hmem => ?_, ih hothers hrest⟩
      obtain ⟨other, hother, hsecond⟩ := exists_of_mem_mapM hothers hmem
      exact hleft other hother first second hfirst hsecond

theorem mapM_eq_ok_map {f : α → Except ε β} {g : α → β} {inputs : List α}
    (h : ∀ input ∈ inputs, f input = .ok (g input)) : inputs.mapM f = .ok (inputs.map g) := by
  induction inputs with
  | nil => rfl
  | cons first rest ih =>
      exact mapM_cons_eq_ok.2 ⟨g first, rest.map g, h first List.mem_cons_self,
        ih fun input hmem => h input (List.mem_cons_of_mem _ hmem), rfl⟩

theorem mapM_append_eq_ok {f : α → Except ε β} {front back : List α} {first second : List β}
    (hfront : front.mapM f = .ok first) (hback : back.mapM f = .ok second) :
    (front ++ back).mapM f = .ok (first ++ second) := by
  rw [List.mapM_append, hfront, hback]
  rfl

end StaticSite
