import StaticSite.Proofs.Template.Blame

-- Which file a placeholder that is left over comes from. The last file of the chain is blamed for
-- it, also where a layout has brought one too many.
namespace StaticSite.Template

namespace Composition

variable {destination file : String} {composition next : Composition} {source : Source}

theorem add_ne_unconsumed (composition : Composition) (source : Source) :
    composition.add destination source ≠ .error (.unconsumedPlaceholder file) := by
  intro h
  rw [add] at h
  cases hunknown : unknown? source.text with
  | some command =>
      rw [prepare_of_unknown? source.path destination hunknown] at h
      cases h
  | none =>
      rw [prepare_of_isKnown (isKnown_of_unknown? hunknown)] at h
      simp only [bind, Except.bind] at h
      split at h
      · cases h
      · split at h <;> cases h

theorem last_of_add (h : composition.add destination source = .ok next) :
    next.last = source.path := by
  obtain ⟨prepared, -, h⟩ := bind_eq_ok.1 h
  split at h
  · cases h
    rfl
  · split at h
    · cases h
      rfl
    · cases h

-- The markers of what has been put together, once one more file is part of it.
theorem count_add (h : composition.add destination source = .ok next)
    (htext : marker ∉ source.text) (hpath : marker ∉ source.path.toList) :
    next.text.count marker =
      composition.text.count marker - 1 + placeholders source.text := by
  rw [← source.count_expand destination htext hpath]
  rcases (add_eq_ok h).2 with ⟨hempty, htext⟩ | ⟨-, hfill⟩
  · rw [hempty, htext]
    simp
  · exact (count_fill? hfill).2

theorem finish_eq_unconsumed (h : composition.finish = .error (.unconsumedPlaceholder file)) :
    composition.last = file ∧ 1 ≤ composition.text.count marker := by
  unfold finish at h
  split at h
  · next hmarker =>
    cases h
    exact ⟨rfl, List.count_pos_iff.2 hmarker⟩
  · cases h

-- With at most one placeholder open there is at most one after a layout that brings at most one,
-- so that what is left over in the end is the last file's own.
theorem blames_of_addAll {sources : List (Except ComposeError Source)}
    (h : (addAll destination composition sources).1 = .error (.unconsumedPlaceholder file))
    (hread : ∀ source ∈ sources, source ≠ .error (.unconsumedPlaceholder file))
    (hmarker : ∀ source, .ok source ∈ sources →
      marker ∉ source.text ∧ marker ∉ source.path.toList) :
    (sources = [] ∧ composition.finish = .error (.unconsumedPlaceholder file)) ∨
      ∃ layouts last, sources = (layouts ++ [last]).map .ok ∧ last.path = file ∧
        (composition.text.count marker ≤ 1 → (∀ layout ∈ layouts, placeholders layout.text ≤ 1) →
          1 ≤ placeholders last.text) := by
  induction sources generalizing composition with
  | nil => exact .inl ⟨rfl, h⟩
  | cons source rest ih =>
      right
      rw [addAll] at h
      split at h
      · next error hadd =>
        cases h
        cases source with
        | error error =>
            cases hadd
            exact absurd rfl (hread _ List.mem_cons_self)
        | ok first => exact absurd hadd (add_ne_unconsumed composition first)
      · next next hadd =>
        obtain ⟨first, rfl, hadd⟩ := bind_eq_ok.1 hadd
        obtain ⟨htext, hpath⟩ := hmarker first List.mem_cons_self
        have hcount := count_add hadd htext hpath
        rcases ih h (fun other hmem => hread other (List.mem_cons_of_mem _ hmem))
          (fun other hmem => hmarker other (List.mem_cons_of_mem _ hmem)) with
          ⟨rfl, hfinish⟩ | ⟨layouts, last, rfl, hlast, hblame⟩
        · obtain ⟨hlast, hopen⟩ := finish_eq_unconsumed hfinish
          exact ⟨[], first, rfl, (last_of_add hadd).symm.trans hlast, fun hone _ => by omega⟩
        · refine ⟨first :: layouts, last, rfl, hlast, fun hone hlayouts => ?_⟩
          obtain ⟨hfirst, hothers⟩ := List.forall_mem_cons.1 hlayouts
          exact hblame (by omega) hothers

end Composition

-- The file that is blamed for a placeholder that is left over is the last one, and it has one
-- itself, unless a layout has two or more.
theorem unconsumed_blames_last {destination file : String}
    {sources : List (Except ComposeError Source)}
    (h : (compose destination sources).1 = .error (.unconsumedPlaceholder file))
    (hread : ∀ source ∈ sources, source ≠ .error (.unconsumedPlaceholder file))
    (hmarker : ∀ source, .ok source ∈ sources →
      marker ∉ source.text ∧ marker ∉ source.path.toList) :
    ∃ layouts last, sources = (layouts ++ [last]).map .ok ∧ last.path = file ∧
      (1 ≤ placeholders last.text ∨ ∃ layout ∈ layouts, 2 ≤ placeholders layout.text) := by
  rcases Composition.blames_of_addAll h hread hmarker with
    ⟨-, hfinish⟩ | ⟨layouts, last, hchain, hlast, hblame⟩
  · cases hfinish
  · refine ⟨layouts, last, hchain, hlast, ?_⟩
    by_cases hone : ∀ layout ∈ layouts, placeholders layout.text ≤ 1
    · exact .inl (hblame (Nat.zero_le 1) hone)
    · obtain ⟨layout, hmem, hmany⟩ : ∃ layout ∈ layouts, 1 < placeholders layout.text := by
        simpa using hone
      exact .inr ⟨layout, hmem, hmany⟩

-- A page with a placeholder of its own in a layout with one.
theorem unconsumed_blames_last_of_page :
    (compose "p.html" [.ok ⟨"~layout.html", "<p>%\x7bcontent\x7d</p>".toList⟩,
        .ok ⟨"p.html", "%\x7b content \x7d".toList⟩]).1 =
      .error (.unconsumedPlaceholder "p.html") ∧
      1 ≤ placeholders "%\x7b content \x7d".toList := by
  have hcompose : (compose "p.html" [.ok ⟨"~layout.html", "<p>%\x7bcontent\x7d</p>".toList⟩,
      .ok ⟨"p.html", "%\x7b content \x7d".toList⟩]).1 =
      .error (.unconsumedPlaceholder "p.html") := by decide +kernel
  obtain ⟨layouts, last, hchain, -, hblame⟩ := unconsumed_blames_last hcompose (by simp)
    (by simp only [List.mem_cons, Except.ok.injEq, List.not_mem_nil, or_false, forall_eq_or_imp,
      forall_eq]; decide +kernel)
  have heq : layouts ++ [last] = [⟨"~layout.html", "<p>%\x7bcontent\x7d</p>".toList⟩] ++
      [⟨"p.html", "%\x7b content \x7d".toList⟩] :=
    List.map_injective_iff.2 (fun _ _ => Except.ok.inj) (hchain.symm.trans rfl)
  obtain ⟨rfl, hlast⟩ := List.append_inj' heq rfl
  cases hlast
  refine ⟨hcompose, hblame.resolve_right ?_⟩
  decide +kernel

-- Where a layout has two placeholders the page is blamed for the one that it leaves over.
theorem unconsumed_blames_page_for_layout :
    ¬ ∀ (sources : List Source) (destination file : String),
      (∀ source ∈ sources, marker ∉ source.text ∧ marker ∉ source.path.toList) →
      (compose destination (sources.map .ok)).1 = .error (.unconsumedPlaceholder file) →
      ∃ source ∈ sources, source.path = file ∧ 1 ≤ placeholders source.text := by
  intro h
  have hfalse := h [⟨"~layout.html", "%\x7bcontent\x7d|%\x7bcontent\x7d".toList⟩,
    ⟨"p.html", "x".toList⟩] "p.html" "p.html" (by decide +kernel) (by decide +kernel)
  revert hfalse
  decide +kernel

end StaticSite.Template
