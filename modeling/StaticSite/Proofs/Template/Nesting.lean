import Mathlib.Data.List.TakeDrop
import StaticSite.Proofs.Path.Characters
import StaticSite.Proofs.Template.Spelling
import StaticSite.Template.Composition

namespace StaticSite.Template

theorem mem_of_mem_spell {c : Char} {chars : List Char} {token : Token}
    (htoken : token ∈ tokens chars) (hc : c ∈ token.spell) : c ∈ chars := by
  rw [← flatMap_spell_tokens chars]
  exact List.mem_flatMap.2 ⟨token, htoken, hc⟩

namespace Token

def isPlaceholder : Token → Bool
  | .directive body => Directive.ofBody body = .content
  | _ => false

def isKnown : Token → Bool
  | .directive body =>
    match Directive.ofBody body with
    | .unknown _ => false
    | _ => true
  | _ => true

-- What a token of the file `source` is in the page `destination`, when the file is wrapped
-- around `inner`.
def expand (source destination : String) (inner : List Char) : Token → List Char
  | .text chars => chars
  | .escape => ['%', '{']
  | .directive body =>
    match Directive.ofBody body with
    | .content => inner
    | .path fragment => link fragment source destination
    | .unknown _ => []

theorem expand_of_not_isPlaceholder {source destination : String} {token : Token}
    (h : token.isPlaceholder = false) (inner other : List Char) :
    token.expand source destination inner = token.expand source destination other := by
  cases token with
  | directive body =>
      unfold expand
      dsimp only
      split
      · next heq => simp [isPlaceholder, heq] at h
      · rfl
      · rfl
  | _ => rfl

theorem expand_of_isPlaceholder {source destination : String} {token : Token}
    (h : token.isPlaceholder) (inner : List Char) :
    token.expand source destination inner = inner := by
  cases token with
  | directive body =>
      have hbody : Directive.ofBody body = .content := by simpa [isPlaceholder] using h
      simp only [expand, hbody]
  | _ => cases h

-- Preparing a file is to wrap it around the marker.
theorem prepare_of_isKnown {source destination : String} {token : Token} (h : token.isKnown) :
    token.prepare source destination = .ok (token.expand source destination [marker]) := by
  cases token with
  | directive body =>
      unfold isKnown at h
      unfold prepare expand
      cases hbody : Directive.ofBody body with
      | unknown command => simp [hbody] at h
      | _ => simp only [hbody]
  | _ => rfl

end Token

-- How many files can be put into a text.
def placeholders (text : List Char) : Nat :=
  (tokens text).countP Token.isPlaceholder

namespace Source

-- The text of a file in the page `destination`, with `inner` for its placeholders.
def expand (destination : String) (inner : List Char) (source : Source) : List Char :=
  (tokens source.text).flatMap (Token.expand source.path destination inner)

end Source

-- A chain of files from the inside out: what is nested in a file is complete before the file
-- is wrapped around it.
def nest (destination : String) : List Source → List Char
  | [] => []
  | source :: rest => source.expand destination (nest destination rest)

theorem prepare_of_isKnown {destination : String} {source : Source}
    (h : ∀ token ∈ tokens source.text, token.isKnown) :
    prepare source.text source.path destination = .ok (source.expand destination [marker]) := by
  have hmap : ∀ list : List Token, (∀ token ∈ list, token.isKnown) →
      list.mapM (Token.prepare source.path destination) =
        .ok (list.map (Token.expand source.path destination [marker])) := by
    intro list
    induction list with
    | nil => exact fun _ => rfl
    | cons token rest ih =>
        intro hknown
        rw [List.mapM_cons, Token.prepare_of_isKnown (hknown token List.mem_cons_self),
          ih fun other hmem => hknown other (List.mem_cons_of_mem _ hmem)]
        rfl
  rw [prepare, hmap _ h, Source.expand, List.flatMap_def]
  rfl

theorem mem_of_mem_trim {c : Char} {text : List Char} (h : c ∈ Text.trim text) : c ∈ text := by
  have hback := (List.dropWhile_sublist Text.isBlank).subset (List.mem_reverse.1 h)
  exact (List.dropWhile_sublist Text.isBlank).subset (List.mem_reverse.1 hback)

theorem mem_of_ofBody_eq_path {c : Char} {body fragment : List Char}
    (h : Directive.ofBody body = .path fragment) (hc : c ∈ fragment) : c ∈ body := by
  unfold Directive.ofBody at h
  dsimp only at h
  split at h
  · cases h
  · split at h
    · cases h
      exact mem_of_mem_trim
        ((List.dropWhile_sublist _).subset (List.mem_of_mem_drop hc))
    · cases h

theorem mem_link {c : Char} (hslash : c ≠ '/') (hdot : c ≠ '.') {fragment : List Char}
    {source destination : String} (h : c ∈ link fragment source destination) :
    c ∈ fragment ∨ c ∈ source.toList := by
  have htarget := Path.mem_relativeTo hslash hdot (Path.mem_toSlash hslash hdot h)
  rcases Path.mem_join hslash htarget with hc | hc
  · unfold directory at hc
    cases hparent : (Path.mk source).parent? with
    | none => simp [hparent] at hc
    | some parent =>
      rw [hparent, Option.getD_some] at hc
      exact .inr (Path.mem_parent? hslash hparent hc)
  · rw [String.toList_ofList] at hc
    exact .inl ((List.dropWhile_sublist _).subset hc)

-- Only a placeholder turns into the marker.
theorem not_mem_expand_token {chars : List Char} {source destination : String} {token : Token}
    (htoken : token ∈ tokens chars) (htext : marker ∉ chars) (hsource : marker ∉ source.toList) :
    marker ∉ token.expand source destination [] := by
  have hspell : marker ∉ token.spell := fun hc => htext (mem_of_mem_spell htoken hc)
  cases token with
  | text chars => exact hspell
  | escape => simp only [Token.expand]; decide
  | directive body =>
      unfold Token.expand
      dsimp only
      split
      · exact List.not_mem_nil
      · next fragment heq =>
        intro hc
        rcases mem_link (by decide) (by decide) hc with hc | hc
        · refine hspell ?_
          simp [Token.spell, mem_of_ofBody_eq_path heq hc]
        · exact hsource hc
      · exact List.not_mem_nil

theorem expand_of_placeholders_eq_zero {source : Source} (destination : String)
    (hcount : placeholders source.text = 0) (htext : marker ∉ source.text)
    (hpath : marker ∉ source.path.toList) (inner : List Char) :
    source.expand destination inner = source.expand destination [] ∧
      marker ∉ source.expand destination [] := by
  have hnone : ∀ token ∈ tokens source.text, token.isPlaceholder = false := by
    simpa [placeholders, List.countP_eq_zero] using hcount
  constructor
  · unfold Source.expand
    rw [List.flatMap_def, List.flatMap_def]
    congr 1
    exact List.map_congr_left fun token hmem =>
      Token.expand_of_not_isPlaceholder (hnone token hmem) inner []
  · intro hc
    obtain ⟨token, hmem, hc⟩ := List.mem_flatMap.1 hc
    exact not_mem_expand_token hmem htext hpath hc

-- A file with one placeholder is what stands before it and what stands after it.
theorem expand_of_placeholders_eq_one {source : Source} (destination : String)
    (hcount : placeholders source.text = 1) (htext : marker ∉ source.text)
    (hpath : marker ∉ source.path.toList) :
    ∃ before after, marker ∉ before ∧ marker ∉ after ∧
      ∀ inner, source.expand destination inner = before ++ inner ++ after := by
  have hexists : ∃ token ∈ tokens source.text, token.isPlaceholder :=
    List.countP_pos_iff.1 (by unfold placeholders at hcount; omega)
  obtain ⟨token, htoken, hplaceholder⟩ := hexists
  obtain ⟨front, back, hsplit⟩ := List.append_of_mem htoken
  have hcounts : front.countP Token.isPlaceholder = 0 ∧ back.countP Token.isPlaceholder = 0 := by
    rw [placeholders, hsplit, List.countP_append, List.countP_cons_of_pos hplaceholder] at hcount
    omega
  have hside : ∀ side : List Token, (∀ other ∈ side, other ∈ tokens source.text) →
      side.countP Token.isPlaceholder = 0 →
      marker ∉ side.flatMap (Token.expand source.path destination []) ∧
      ∀ inner, side.flatMap (Token.expand source.path destination inner) =
        side.flatMap (Token.expand source.path destination []) := by
    intro side hmem hzero
    constructor
    · intro hc
      obtain ⟨other, hother, hc⟩ := List.mem_flatMap.1 hc
      exact not_mem_expand_token (hmem other hother) htext hpath hc
    · intro inner
      rw [List.flatMap_def, List.flatMap_def]
      congr 1
      refine List.map_congr_left fun other hother => ?_
      exact Token.expand_of_not_isPlaceholder
        (by simpa using List.countP_eq_zero.1 hzero other hother) inner []
  obtain ⟨hfront, hfrontEq⟩ := hside front (by simp +contextual [hsplit]) hcounts.1
  obtain ⟨hback, hbackEq⟩ := hside back (by simp +contextual [hsplit]) hcounts.2
  refine ⟨_, _, hfront, hback, fun inner => ?_⟩
  rw [Source.expand, hsplit, List.flatMap_append, List.flatMap_cons, hfrontEq inner,
    hbackEq inner, Token.expand_of_isPlaceholder hplaceholder]
  simp

namespace Composition

theorem fill?_eq_some {before after : List Char} (h : marker ∉ before) (content : List Char) :
    fill? (before ++ marker :: after) content = some (before ++ content ++ after) := by
  have hbefore : ∀ c ∈ before, decide (c ≠ marker) = true := by
    intro c hmem
    simpa using fun heq : c = marker => h (heq ▸ hmem)
  rw [fill?, List.span_eq_takeWhile_dropWhile, List.takeWhile_append_of_pos hbefore,
    List.dropWhile_append_of_pos hbefore]
  simp

theorem add_of_split {destination before after last : _} {source : Source}
    (hbefore : marker ∉ before) (hknown : ∀ token ∈ tokens source.text, token.isKnown) :
    add destination ⟨before ++ marker :: after, last⟩ source =
      .ok ⟨before ++ source.expand destination [marker] ++ after, source.path⟩ := by
  have hne : before ++ marker :: after ≠ [] := by simp
  simp only [add, prepare_of_isKnown hknown, fill?_eq_some hbefore]
  simp [bind, Except.bind, hne, pure, Except.pure]

theorem add_empty {destination : String} {source : Source}
    (hknown : ∀ token ∈ tokens source.text, token.isKnown) :
    add destination empty source = .ok ⟨source.expand destination [marker], source.path⟩ := by
  simp only [add, prepare_of_isKnown hknown, empty]
  rfl

theorem addAll_of_add {destination : String} {composition next : Composition} {source : Source}
    {rest : List (Except ComposeError Source)} (h : add destination composition source = .ok next) :
    addAll destination composition (.ok source :: rest) =
      ((addAll destination next rest).1, (addAll destination next rest).2 + 1) := by
  rw [addAll]
  simp only [Except.bind, h]

end Composition

-- A chain of files that can be put into each other: the layouts have one placeholder each and
-- the page at the end has none, every directive is known, and the marker occurs neither in a
-- text nor in a path.
structure WellFormed (layouts : List Source) (page : Source) : Prop where
  known : ∀ source ∈ layouts ++ [page], ∀ token ∈ tokens source.text, token.isKnown
  wraps : ∀ source ∈ layouts, placeholders source.text = 1
  ends : placeholders page.text = 0
  text : ∀ source ∈ layouts ++ [page], marker ∉ source.text
  path : ∀ source ∈ layouts ++ [page], marker ∉ source.path.toList

namespace WellFormed

theorem tail {layout page : Source} {layouts : List Source}
    (h : WellFormed (layout :: layouts) page) : WellFormed layouts page where
  known source hmem := h.known source (List.mem_cons_of_mem _ hmem)
  wraps source hmem := h.wraps source (List.mem_cons_of_mem _ hmem)
  ends := h.ends
  text source hmem := h.text source (List.mem_cons_of_mem _ hmem)
  path source hmem := h.path source (List.mem_cons_of_mem _ hmem)

-- The only marker of what has been put together is the placeholder of the last file, at every
-- depth. What is still to come goes there.
theorem addAll_eq_nest {page : Source} {layouts : List Source} (h : WellFormed layouts page)
    (destination : String) {before after : List Char} (last : String)
    (hbefore : marker ∉ before) (hafter : marker ∉ after) :
    Composition.addAll destination ⟨before ++ marker :: after, last⟩
        ((layouts ++ [page]).map .ok) =
      (.ok (before ++ nest destination (layouts ++ [page]) ++ after), layouts.length + 1) := by
  induction layouts generalizing before after last with
  | nil =>
      have hknown := h.known page (by simp)
      obtain ⟨hexpand, hmarker⟩ := expand_of_placeholders_eq_zero destination h.ends
        (h.text page (by simp)) (h.path page (by simp)) [marker]
      rw [List.nil_append, List.map_singleton,
        Composition.addAll_of_add (Composition.add_of_split hbefore hknown), hexpand]
      simp [Composition.addAll, Composition.finish, hbefore, hafter, hmarker, nest]
  | cons layout layouts ih =>
      have hknown := h.known layout (by simp)
      obtain ⟨front, back, hfront, hback, hexpand⟩ := expand_of_placeholders_eq_one destination
        (h.wraps layout (by simp)) (h.text layout (by simp)) (h.path layout (by simp))
      have hnext : before ++ layout.expand destination [marker] ++ after =
          (before ++ front) ++ marker :: (back ++ after) := by
        rw [hexpand]; simp
      rw [List.cons_append, List.map_cons,
        Composition.addAll_of_add (Composition.add_of_split hbefore hknown), hnext,
        ih h.tail layout.path (by simp [hbefore, hfront]) (by simp [hback, hafter])]
      simp [nest, hexpand, List.append_assoc]

end WellFormed

-- Putting files into each other from the outside in gives the page that nesting them from the
-- inside out does, and every file of the chain is asked for.
theorem compose_eq_nest {layouts : List Source} {page : Source} (h : WellFormed layouts page)
    (destination : String) :
    compose destination ((layouts ++ [page]).map .ok) =
      (.ok (nest destination (layouts ++ [page])), (layouts ++ [page]).length) := by
  cases layouts with
  | nil =>
      have hknown := h.known page (by simp)
      obtain ⟨hexpand, hmarker⟩ := expand_of_placeholders_eq_zero destination h.ends
        (h.text page (by simp)) (h.path page (by simp)) [marker]
      rw [compose, List.nil_append, List.map_singleton,
        Composition.addAll_of_add (Composition.add_empty hknown), hexpand]
      simp [Composition.addAll, Composition.finish, hmarker, nest]
  | cons layout layouts =>
      have hknown := h.known layout (by simp)
      obtain ⟨front, back, hfront, hback, hexpand⟩ := expand_of_placeholders_eq_one destination
        (h.wraps layout (by simp)) (h.text layout (by simp)) (h.path layout (by simp))
      rw [compose, List.cons_append, List.map_cons,
        Composition.addAll_of_add (Composition.add_empty hknown), hexpand, List.append_assoc,
        List.singleton_append, h.tail.addAll_eq_nest destination layout.path hfront hback]
      simp [nest, hexpand]

theorem compose_eq_nest_of_two_layouts :
    WellFormed
        [⟨"~layout.html", "<html>%\x7bcontent\x7d</html>".toList⟩,
          ⟨"a/~layout.html", "%\x7bpath s.css\x7d%\x7b\x7b%\x7b content \x7d".toList⟩]
        ⟨"a/b/p.html", "P".toList⟩ ∧
      compose "a/b/p.html"
          [.ok ⟨"~layout.html", "<html>%\x7bcontent\x7d</html>".toList⟩,
            .ok ⟨"a/~layout.html", "%\x7bpath s.css\x7d%\x7b\x7b%\x7b content \x7d".toList⟩,
            .ok ⟨"a/b/p.html", "P".toList⟩] =
        (.ok "<html>../s.css%\x7bP</html>".toList, 3) := by
  have h : WellFormed
      [⟨"~layout.html", "<html>%\x7bcontent\x7d</html>".toList⟩,
        ⟨"a/~layout.html", "%\x7bpath s.css\x7d%\x7b\x7b%\x7b content \x7d".toList⟩]
      ⟨"a/b/p.html", "P".toList⟩ :=
    ⟨by decide +kernel, by decide +kernel, by decide +kernel, by decide +kernel,
      by decide +kernel⟩
  refine ⟨h, (compose_eq_nest h "a/b/p.html").trans ?_⟩
  decide +kernel

-- A link leads to the directory of its file. A marker in the name of that directory is taken for
-- the placeholder.
theorem compose_ne_nest_of_marker_in_path :
    ¬ ∀ (layouts : List Source) (page : Source) (destination : String),
      (∀ source ∈ layouts ++ [page], ∀ token ∈ tokens source.text, token.isKnown) →
      (∀ source ∈ layouts, placeholders source.text = 1) → placeholders page.text = 0 →
      (∀ source ∈ layouts ++ [page], marker ∉ source.text) →
      compose destination ((layouts ++ [page]).map .ok) =
        (.ok (nest destination (layouts ++ [page])), (layouts ++ [page]).length) := by
  intro h
  have hfalse := h [⟨String.ofList (marker :: "/~layout.html".toList),
      "%\x7bpath x\x7d%\x7bcontent\x7d".toList⟩] ⟨"p.html", "P".toList⟩ "p.html"
    (by decide +kernel) (by decide +kernel) (by decide +kernel) (by decide +kernel)
  revert hfalse
  decide +kernel

end StaticSite.Template
