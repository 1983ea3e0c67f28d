import Mathlib.Data.List.Basic
import Mathlib.Data.List.TakeWhile
import StaticSite.Proofs.Except
import StaticSite.Proofs.Template.Nesting

-- What can be said of a chain of files that composes. Each file takes one placeholder away and
-- brings its own, and there has to be one to take whenever a file is added.
namespace StaticSite.Template

namespace Token

theorem isKnown_of_prepare {source destination : String} {token : Token} {chars : List Char}
    (h : token.prepare source destination = .ok chars) : token.isKnown := by
  cases token with
  | directive body =>
      unfold prepare at h
      unfold isKnown
      dsimp only at h ⊢
      split at h
      · next heq => rw [heq]
      · next heq => rw [heq]
      · cases h
  | _ => rfl

-- What a token leaves of the marker, where neither the text nor the path of its file has any.
theorem count_expand {chars : List Char} {source destination : String} {token : Token}
    (htoken : token ∈ tokens chars) (htext : marker ∉ chars) (hsource : marker ∉ source.toList) :
    (token.expand source destination [marker]).count marker =
      if token.isPlaceholder then 1 else 0 := by
  split
  · next h => rw [expand_of_isPlaceholder h, List.count_singleton_self]
  · next h =>
    rw [expand_of_not_isPlaceholder (by simpa using h) [marker] []]
    exact List.count_eq_zero.2 (not_mem_expand_token htoken htext hsource)

end Token

theorem isKnown_of_prepare {source destination : String} {text prepared : List Char}
    (h : prepare text source destination = .ok prepared) :
    ∀ token ∈ tokens text, token.isKnown := by
  obtain ⟨parts, hparts, -⟩ := bind_eq_ok.1 h
  revert hparts
  generalize tokens text = list
  intro hparts
  induction list generalizing parts with
  | nil => simp
  | cons token rest ih =>
      obtain ⟨first, others, hfirst, hothers, -⟩ := mapM_cons_eq_ok.1 hparts
      intro other hmem
      rcases List.mem_cons.1 hmem with rfl | hmem
      · exact Token.isKnown_of_prepare hfirst
      · exact ih others hothers other hmem

theorem Source.count_expand {source : Source} (destination : String)
    (htext : marker ∉ source.text) (hpath : marker ∉ source.path.toList) :
    (source.expand destination [marker]).count marker = placeholders source.text := by
  have hcount : ∀ list : List Token, (∀ token ∈ list, token ∈ tokens source.text) →
      (list.flatMap (Token.expand source.path destination [marker])).count marker =
        list.countP Token.isPlaceholder := by
    intro list
    induction list with
    | nil => exact fun _ => rfl
    | cons token rest ih =>
        intro hmem
        rw [List.flatMap_cons, List.count_append, List.countP_cons,
          ih fun other hother => hmem other (List.mem_cons_of_mem _ hother),
          Token.count_expand (hmem token List.mem_cons_self) htext hpath, Nat.add_comm]
  exact hcount _ fun _ => id

namespace Composition

variable {destination : String} {composition next : Composition} {source : Source}

-- What is filled has a marker, and the first one makes way for the content.
theorem exists_of_fill? {text content filled : List Char} (h : fill? text content = some filled) :
    ∃ before after, text = before ++ marker :: after ∧ filled = before ++ content ++ after := by
  by_cases hmarker : marker ∈ text
  · obtain ⟨before, after, rfl, hbefore⟩ := List.eq_append_cons_of_mem hmarker
    rw [fill?_eq_some hbefore] at h
    cases h
    exact ⟨before, after, rfl, rfl⟩
  · have hall : ∀ c ∈ text, decide (c ≠ marker) = true := by
      intro c hc
      simpa using fun heq : c = marker => hmarker (heq ▸ hc)
    rw [fill?, List.span_eq_takeWhile_dropWhile, List.dropWhile_eq_nil_iff.2 hall] at h
    cases h

theorem count_fill? {text content filled : List Char} (h : fill? text content = some filled) :
    1 ≤ text.count marker ∧
      filled.count marker = text.count marker - 1 + content.count marker := by
  obtain ⟨before, after, rfl, rfl⟩ := exists_of_fill? h
  simp only [List.count_append, List.count_cons_self]
  omega

theorem fill?_ne_nil {text content filled : List Char} (h : fill? text content = some filled)
    (hcontent : content ≠ []) : filled ≠ [] := by
  obtain ⟨before, after, rfl, rfl⟩ := exists_of_fill? h
  simp [hcontent]

-- All that a file can do to what has been put together.
theorem add_eq_ok (h : composition.add destination source = .ok next) :
    (∀ token ∈ tokens source.text, token.isKnown) ∧
      ((composition.text = [] ∧ next.text = source.expand destination [marker]) ∨
        (composition.text ≠ [] ∧
          fill? composition.text (source.expand destination [marker]) = some next.text)) := by
  obtain ⟨prepared, hprepared, h⟩ := bind_eq_ok.1 h
  have hknown := isKnown_of_prepare hprepared
  rw [prepare_of_isKnown hknown] at hprepared
  cases hprepared
  refine ⟨hknown, ?_⟩
  split at h
  · next hempty =>
    cases h
    exact .inl ⟨hempty, rfl⟩
  · next hne =>
    split at h
    · next text hfill =>
      cases h
      exact .inr ⟨hne, hfill⟩
    · cases h

theorem addAll_cons_eq_ok {sources : List (Except ComposeError Source)}
    {source : Except ComposeError Source} {page : List Char}
    (h : (addAll destination composition (source :: sources)).1 = .ok page) :
    ∃ first next, source = .ok first ∧ composition.add destination first = .ok next ∧
      (addAll destination next sources).1 = .ok page := by
  rw [addAll] at h
  split at h
  · cases h
  · next next hnext =>
    obtain ⟨first, rfl, hadd⟩ := bind_eq_ok.1 hnext
    exact ⟨first, next, rfl, hadd, h⟩

-- Where a chain composes, all of its files can be read.
theorem exists_of_addAll {sources : List (Except ComposeError Source)} {page : List Char}
    (h : (addAll destination composition sources).1 = .ok page) :
    ∀ source ∈ sources, ∃ file, source = .ok file := by
  induction sources generalizing composition with
  | nil => exact fun _ hmem => (nomatch hmem)
  | cons source rest ih =>
      obtain ⟨first, next, rfl, -, hrest⟩ := addAll_cons_eq_ok h
      intro other hmem
      rcases List.mem_cons.1 hmem with rfl | hmem
      · exact ⟨first, rfl⟩
      · exact ih hrest other hmem

-- What a file leaves empty has nothing of its own.
theorem prepare_of_add_nil (h : composition.add destination source = .ok next)
    (hnil : next.text = []) : prepare source.text source.path destination = .ok [] := by
  obtain ⟨hknown, hadd⟩ := add_eq_ok h
  rw [prepare_of_isKnown hknown]
  rcases hadd with ⟨-, htext⟩ | ⟨-, hfill⟩
  · rw [← htext, hnil]
  · exact congrArg _ (not_imp_not.1 (fill?_ne_nil hfill) hnil)

theorem exists_prepare_nil {front : List Source} (hne : front ≠ [])
    (h : front.foldlM (add destination) composition = .ok next) (hnil : next.text = []) :
    ∃ source ∈ front, prepare source.text source.path destination = .ok [] := by
  obtain ⟨before, last, rfl⟩ := (List.eq_nil_or_concat front).resolve_left hne
  rw [List.concat_eq_append, List.foldlM_append] at h
  obtain ⟨middle, -, h⟩ := bind_eq_ok.1 h
  rw [List.foldlM_cons] at h
  obtain ⟨_, hadd, h⟩ := bind_eq_ok.1 h
  cases h
  exact ⟨last, by simp, prepare_of_add_nil hadd hnil⟩

theorem finish_eq_ok {page : List Char} (h : composition.finish = .ok page) :
    composition.text.count marker = 0 := by
  unfold finish at h
  split at h
  · cases h
  · next hmarker => exact List.count_eq_zero.2 hmarker

end Composition

-- The number of files that can be put into those of a chain.
def room : List Source → Nat
  | [] => 0
  | source :: rest => placeholders source.text + room rest

theorem room_append (front back : List Source) : room (front ++ back) = room front + room back := by
  induction front with
  | nil => simp [room]
  | cons source rest ih => rw [List.cons_append, room, room, ih, Nat.add_assoc]

-- A chain of files that can be added where `spare` placeholders are open: there is one left for
-- each file when those before it have been added, and none is left over.
structure Fills (spare : Nat) (chain : List Source) : Prop where
  known : ∀ source ∈ chain, ∀ token ∈ tokens source.text, token.isKnown
  enough : ∀ front back, chain = front ++ back → back ≠ [] → front.length + 1 ≤ spare + room front
  exact : spare + room chain = chain.length

-- Adding a file to a text with `spare` markers, of which one at least has to be there.
theorem Fills.cons {spare : Nat} {source : Source} {chain : List Source}
    (hknown : ∀ token ∈ tokens source.text, token.isKnown) (hspare : 1 ≤ spare)
    (h : Fills (spare - 1 + placeholders source.text) chain) : Fills spare (source :: chain) where
  known := by
    intro other hmem
    rcases List.mem_cons.1 hmem with rfl | hmem
    · exact hknown
    · exact h.known other hmem
  enough := by
    intro front back hsplit hback
    cases front with
    | nil => simpa [room] using hspare
    | cons first rest =>
        obtain ⟨rfl, hrest⟩ := List.cons.inj hsplit
        have := h.enough rest back hrest hback
        simp only [room, List.length_cons] at this ⊢
        omega
  exact := by
    have := h.exact
    simp only [room, List.length_cons] at this ⊢
    omega

namespace Composition

variable {destination : String} {composition : Composition}

-- The markers of what has been put together are the placeholders of its files that are still open.
-- Where all of it is empty, the next file starts it anew: `front` are the files up to the last
-- time that this happens.
theorem fills_of_addAll {sources : List (Except ComposeError Source)} {page : List Char}
    (h : (addAll destination composition sources).1 = .ok page)
    (hmarker : ∀ source, .ok source ∈ sources →
      marker ∉ source.text ∧ marker ∉ source.path.toList) :
    ∃ front chain : List Source, sources = (front ++ chain).map .ok ∧
      (∀ source ∈ front ++ chain, ∀ token ∈ tokens source.text, token.isKnown) ∧
      ((front = [] ∧ (chain ≠ [] → composition.text ≠ []) ∧
          Fills (composition.text.count marker) chain) ∨
        (chain ≠ [] ∧ Fills 1 chain ∧
          ∃ emptied, front.foldlM (add destination) composition = .ok emptied ∧
            emptied.text = [])) := by
  induction sources generalizing composition with
  | nil =>
      refine ⟨[], [], rfl, by simp, .inl ⟨rfl, by simp, by simp, ?_, ?_⟩⟩
      · intro front back hsplit hback
        exact absurd (List.append_eq_nil_iff.1 hsplit.symm).2 hback
      · simpa [room] using finish_eq_ok h
  | cons source rest ih =>
      obtain ⟨first, next, rfl, hadd, hrest⟩ := addAll_cons_eq_ok h
      obtain ⟨hknown, hfirst⟩ := add_eq_ok hadd
      have hclean := hmarker first List.mem_cons_self
      have hcount := first.count_expand destination hclean.1 hclean.2
      obtain ⟨front, chain, rfl, hall, hfills⟩ := ih hrest
        fun other hmem => hmarker other (List.mem_cons_of_mem _ hmem)
      have hall' : ∀ source ∈ first :: (front ++ chain),
          ∀ token ∈ tokens source.text, token.isKnown := by
        intro other hmem
        rcases List.mem_cons.1 hmem with rfl | hmem
        · exact hknown
        · exact hall other hmem
      rcases hfills with ⟨rfl, -, hfills⟩ | ⟨hne, hfills, emptied, hfold, hnil⟩
      · refine ⟨[], first :: chain, rfl, hall', ?_⟩
        rcases hfirst with ⟨hempty, htext⟩ | ⟨hstarted, hfill⟩
        · -- Where nothing has been written yet, a file is added as if to a bare placeholder.
          rw [htext, hcount] at hfills
          exact .inr ⟨List.cons_ne_nil _ _, .cons hknown le_rfl (by simpa using hfills),
            composition, rfl, hempty⟩
        · obtain ⟨hspare, hnext⟩ := count_fill? hfill
          rw [hcount] at hnext
          exact .inl ⟨rfl, fun _ => hstarted, .cons hknown hspare (hnext ▸ hfills)⟩
      · refine ⟨first :: front, chain, rfl, hall', .inr ⟨hne, hfills, emptied, ?_, hnil⟩⟩
        rw [List.foldlM_cons]
        exact bind_eq_ok.2 ⟨next, hadd, hfold⟩

end Composition

theorem room_le_length {chain : List Source}
    (hone : ∀ source ∈ chain, placeholders source.text ≤ 1) : room chain ≤ chain.length := by
  induction chain with
  | nil => simp [room]
  | cons first rest ih =>
      have hfirst := hone first List.mem_cons_self
      have hrest := ih fun other hmem => hone other (List.mem_cons_of_mem first hmem)
      rw [room, List.length_cons]
      omega

-- Where no file has more than one placeholder, as many as there are files is one for each.
theorem eq_one_of_length_le_room {chain : List Source}
    (hone : ∀ source ∈ chain, placeholders source.text ≤ 1) (h : chain.length ≤ room chain) :
    ∀ source ∈ chain, placeholders source.text = 1 := by
  induction chain with
  | nil => simp
  | cons first rest ih =>
      have hfirst := hone first List.mem_cons_self
      have hrest := fun other hmem => hone other (List.mem_cons_of_mem first hmem)
      have hroom := room_le_length hrest
      rw [room, List.length_cons] at h
      intro source hmem
      rcases List.mem_cons.1 hmem with rfl | hmem
      · omega
      · exact ih hrest (by omega) source hmem

theorem Fills.wellFormed {layouts : List Source} {last : Source}
    (h : Fills 1 (layouts ++ [last])) (hone : ∀ source ∈ layouts, placeholders source.text ≤ 1)
    (hmarker : ∀ source ∈ layouts ++ [last],
      marker ∉ source.text ∧ marker ∉ source.path.toList) : WellFormed layouts last := by
  have hlayouts : layouts.length ≤ room layouts := by
    have := h.enough layouts [last] rfl (List.cons_ne_nil _ _)
    omega
  have hwraps := eq_one_of_length_le_room hone hlayouts
  have hends : placeholders last.text = 0 := by
    have hexact := h.exact
    rw [room_append, List.length_append, List.length_singleton] at hexact
    simp only [room] at hexact
    omega
  exact ⟨h.known, hwraps, hends, fun source hmem => (hmarker source hmem).1,
    fun source hmem => (hmarker source hmem).2⟩

-- A chain that composes has placeholders for all its files but the first, with one to take
-- whenever a file is added, and no more than that: up to where all that has been put together is
-- empty, and from there on. A layout with two placeholders can make up for one that has none, but
-- where no layout has more than one the chain is well-formed.
theorem fills_of_compose {destination : String} {sources : List (Except ComposeError Source)}
    {page : List Char} (h : (compose destination sources).1 = .ok page)
    (hmarker : ∀ source, .ok source ∈ sources →
      marker ∉ source.text ∧ marker ∉ source.path.toList) :
    ∃ front chain : List Source, sources = (front ++ chain).map .ok ∧
      (∀ source ∈ front ++ chain, ∀ token ∈ tokens source.text, token.isKnown) ∧
      (∃ emptied, front.foldlM (Composition.add destination) .empty = .ok emptied ∧
        emptied.text = []) ∧
      ((∀ source ∈ (front ++ chain).dropLast,
        prepare source.text source.path destination ≠ .ok []) → front = []) ∧
      (sources ≠ [] → chain ≠ [] ∧ Fills 1 chain) ∧
      ∀ layouts last, chain = layouts ++ [last] →
        (∀ source ∈ layouts, placeholders source.text ≤ 1) → WellFormed layouts last := by
  obtain ⟨front, chain, rfl, hknown, hfills⟩ := Composition.fills_of_addAll h hmarker
  rcases hfills with ⟨rfl, hstarted, -⟩ | ⟨hne, hfills, emptied, hfold, hnil⟩
  · obtain rfl : chain = [] := by_contra fun hne => hstarted hne rfl
    exact ⟨[], [], rfl, hknown, ⟨_, rfl, rfl⟩, fun _ => rfl, by simp, by simp⟩
  · refine ⟨front, chain, rfl, hknown, ⟨emptied, hfold, hnil⟩, fun hprepared => ?_,
      fun _ => ⟨hne, hfills⟩, fun layouts last hchain hone => ?_⟩
    · by_contra hfront
      obtain ⟨source, hmem, hempty⟩ := Composition.exists_prepare_nil hfront hfold hnil
      rw [List.dropLast_append_of_ne_nil hne] at hprepared
      exact hprepared source (List.mem_append_left _ hmem) hempty
    · subst hchain
      exact hfills.wellFormed hone fun source hmem => hmarker source (by simp_all)

theorem fills_of_compose_of_two_layouts :
    (compose "a/p.html"
        [.ok ⟨"~layout.html", "<html>%\x7bcontent\x7d</html>".toList⟩,
          .ok ⟨"a/~layout.html", "%\x7bcontent\x7d!".toList⟩, .ok ⟨"a/p.html", "P".toList⟩]).1 =
        .ok "<html>P!</html>".toList ∧
      WellFormed
        [⟨"~layout.html", "<html>%\x7bcontent\x7d</html>".toList⟩,
          ⟨"a/~layout.html", "%\x7bcontent\x7d!".toList⟩]
        ⟨"a/p.html", "P".toList⟩ := by
  have hcompose : (compose "a/p.html"
      [.ok ⟨"~layout.html", "<html>%\x7bcontent\x7d</html>".toList⟩,
        .ok ⟨"a/~layout.html", "%\x7bcontent\x7d!".toList⟩, .ok ⟨"a/p.html", "P".toList⟩]).1 =
      .ok "<html>P!</html>".toList := by decide +kernel
  obtain ⟨front, chain, hchain, -, -, hfront, -, hwellFormed⟩ := fills_of_compose hcompose
    (by simp only [List.mem_cons, Except.ok.injEq, List.not_mem_nil, or_false, forall_eq_or_imp,
      forall_eq]; decide +kernel)
  have heq : front ++ chain = [⟨"~layout.html", "<html>%\x7bcontent\x7d</html>".toList⟩,
      ⟨"a/~layout.html", "%\x7bcontent\x7d!".toList⟩] ++ [⟨"a/p.html", "P".toList⟩] := by
    refine List.map_injective_iff.2 (fun _ _ => Except.ok.inj) (hchain.symm.trans rfl)
  have hnil : front = [] := hfront (by rw [heq]; decide +kernel)
  rw [hnil, List.nil_append] at heq
  exact ⟨hcompose, hwellFormed _ _ heq (by decide +kernel)⟩

-- A layout is blamed for its missing placeholder only when no other placeholder is open: it is
-- let through where another layout has two.
theorem compose_accepts_layout_without_placeholder :
    ¬ ∀ (layouts : List Source) (last : Source) (destination : String) (page : List Char),
      (∀ source ∈ layouts ++ [last], marker ∉ source.text) →
      (compose destination ((layouts ++ [last]).map .ok)).1 = .ok page →
      (∀ source ∈ layouts, placeholders source.text = 1) ∧ placeholders last.text = 0 := by
  intro h
  have hfalse := h [⟨"~layout.html", "%\x7bcontent\x7d%\x7bcontent\x7d".toList⟩,
    ⟨"a/~layout.html", "A".toList⟩] ⟨"a/p.html", "P".toList⟩ "a/p.html" "AP".toList
    (by decide +kernel) (by decide +kernel)
  revert hfalse
  decide +kernel

end StaticSite.Template
