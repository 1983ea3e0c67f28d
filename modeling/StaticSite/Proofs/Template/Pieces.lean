import StaticSite.Proofs.Template.Acceptance

-- What a page is put together from. The texts of its files hold no openings, apart from those that
-- are escaped, so an opening in the page lies within a link or where one piece meets another.
namespace StaticSite.Template

-- A stretch of a page: text as it stands in a file, or a link that a file writes. The marker stands
-- for an open placeholder.
structure Piece where
  linked : Bool
  chars : List Char

def Token.piece (source destination : String) : Token → Piece
  | .text chars => ⟨false, chars⟩
  | .escape => ⟨false, ['%', '{']⟩
  | .directive body =>
    match Directive.ofBody body with
    | .content => ⟨false, [marker]⟩
    | .path fragment => ⟨true, link fragment source destination⟩
    | .unknown _ => ⟨false, []⟩

def Source.pieces (destination : String) (source : Source) : List Piece :=
  (tokens source.text).map (Token.piece source.path destination)

-- The page that the pieces make up.
def joined (pieces : List Piece) : List Char :=
  pieces.flatMap Piece.chars

-- The pieces of a chain of files. Those of the next file go into the first open placeholder, and
-- the piece that held it is cut there. Where nothing has been written yet they stand alone.
inductive Laid (destination : String) : List Source → List Piece → Prop where
  | none : Laid destination [] []
  | alone {front : List Source} {pieces : List Piece} (source : Source) :
      Laid destination front pieces → joined pieces = [] →
      Laid destination (front ++ [source]) (source.pieces destination)
  | filled {front : List Source} {before after : List Piece} {linked : Bool}
      {left right : List Char} (source : Source) :
      Laid destination front (before ++ ⟨linked, left ++ marker :: right⟩ :: after) →
      marker ∉ joined before → marker ∉ left →
      Laid destination (front ++ [source])
        (before ++ ⟨linked, left⟩ :: source.pieces destination ++ ⟨linked, right⟩ :: after)

-- An opening, with what stands before and after it, lies within a link, or within a text.
def Inside (linked : Bool) (pieces : List Piece) (front back : List Char) : Prop :=
  ∃ before after left right, pieces = before ++ ⟨linked, left ++ '%' :: '{' :: right⟩ :: after ∧
    front = joined before ++ left ∧ back = right ++ joined after

-- An opening lies where one piece ends and another begins. Pieces between them are empty.
def AtSeam (pieces : List Piece) (front back : List Char) : Prop :=
  ∃ before after, pieces = before ++ after ∧ joined before = front ++ ['%'] ∧
    joined after = '{' :: back

theorem joined_append (front back : List Piece) :
    joined (front ++ back) = joined front ++ joined back :=
  List.flatMap_append

theorem joined_cons (piece : Piece) (rest : List Piece) :
    joined (piece :: rest) = piece.chars ++ joined rest :=
  List.flatMap_cons

theorem Token.chars_piece (source destination : String) (token : Token) :
    (token.piece source destination).chars = token.expand source destination [marker] := by
  cases token with
  | directive body =>
      unfold piece expand
      cases hbody : Directive.ofBody body <;> simp only [hbody]
  | _ => rfl

theorem Source.joined_pieces (destination : String) (source : Source) :
    joined (source.pieces destination) = source.expand destination [marker] := by
  rw [joined, pieces, expand, List.flatMap_map]
  simp only [Token.chars_piece]

-- The first marker lies in one of the pieces.
theorem exists_of_marker_mem {pieces : List Piece} (h : marker ∈ joined pieces) :
    ∃ before linked left right after, pieces = before ++ ⟨linked, left ++ marker :: right⟩ :: after ∧
      marker ∉ joined before ∧ marker ∉ left := by
  induction pieces with
  | nil => cases h
  | cons piece rest ih =>
      by_cases hfirst : marker ∈ piece.chars
      · obtain ⟨left, right, heq, hleft⟩ := List.eq_append_cons_of_mem hfirst
        refine ⟨[], piece.linked, left, right, rest, ?_, List.not_mem_nil, hleft⟩
        rw [← heq]
        rfl
      · rw [joined_cons, List.mem_append, or_iff_right hfirst] at h
        obtain ⟨before, linked, left, right, after, rfl, hbefore, hleft⟩ := ih h
        refine ⟨piece :: before, linked, left, right, after, rfl, ?_, hleft⟩
        rw [joined_cons, List.mem_append, not_or]
        exact ⟨hfirst, hbefore⟩

namespace Composition

variable {destination : String} {composition next : Composition} {source : Source}

-- What has been put together is made up of the pieces of the files.
theorem laid_add {front : List Source} {pieces : List Piece} (hlaid : Laid destination front pieces)
    (hjoined : joined pieces = composition.text)
    (h : composition.add destination source = .ok next) :
    ∃ more, Laid destination (front ++ [source]) more ∧ joined more = next.text := by
  rcases (add_eq_ok h).2 with ⟨hempty, htext⟩ | ⟨-, hfill⟩
  · exact ⟨_, .alone source hlaid (hjoined.trans hempty),
      (source.joined_pieces destination).trans htext.symm⟩
  · have hmarker : marker ∈ joined pieces := by
      rw [hjoined, ← List.count_pos_iff]
      exact (count_fill? hfill).1
    obtain ⟨before, linked, left, right, after, rfl, hbefore, hleft⟩ :=
      exists_of_marker_mem hmarker
    refine ⟨_, .filled source hlaid hbefore hleft, ?_⟩
    have hclear : marker ∉ joined before ++ left := by
      rw [List.mem_append, not_or]
      exact ⟨hbefore, hleft⟩
    have htext : composition.text = (joined before ++ left) ++ marker :: (right ++ joined after) := by
      rw [← hjoined, joined_append, joined_cons]
      simp
    rw [htext, fill?_eq_some hclear, Option.some.injEq] at hfill
    rw [← hfill, joined_append, joined_append, joined_cons, joined_cons, source.joined_pieces]
    simp

theorem laid_addAll {front : List Source} {pieces : List Piece}
    {sources : List (Except ComposeError Source)} {page : List Char}
    (hlaid : Laid destination front pieces) (hjoined : joined pieces = composition.text)
    (h : (addAll destination composition sources).1 = .ok page) :
    ∃ chain more, sources = chain.map .ok ∧ Laid destination (front ++ chain) more ∧
      joined more = page ∧ marker ∉ page := by
  induction sources generalizing composition front pieces with
  | nil =>
      rw [addAll, finish] at h
      split at h
      · cases h
      · next hmarker =>
        cases h
        exact ⟨[], pieces, rfl, by rwa [List.append_nil], hjoined, hmarker⟩
  | cons source rest ih =>
      obtain ⟨first, next, rfl, hadd, hrest⟩ := addAll_cons_eq_ok h
      obtain ⟨more, hmore, hnext⟩ := laid_add hlaid hjoined hadd
      obtain ⟨chain, last, rfl, hlast, hpage, hmarker⟩ := ih hmore hnext hrest
      refine ⟨first :: chain, last, rfl, ?_, hpage, hmarker⟩
      rwa [List.append_assoc, List.singleton_append] at hlast

end Composition

-- The text of a file holds no opening but those that are escaped.
theorem Source.plain_pieces {source : Source} (destination : String)
    (h : Token.escape ∉ tokens source.text) :
    ∀ piece ∈ source.pieces destination, piece.linked = false → ¬ ['%', '{'] <:+: piece.chars := by
  intro piece hmem hplain
  obtain ⟨token, htoken, rfl⟩ := List.mem_map.1 hmem
  have hreadable := readable_of_mem_tokens htoken
  cases token with
  | text chars => exact hreadable.2
  | escape => exact absurd htoken h
  | directive body =>
      revert hplain
      unfold Token.piece
      dsimp only
      split
      · exact fun _ => by decide
      · exact fun hplain => (nomatch hplain)
      · exact fun _ => by decide

-- Where no marker is typed, only a placeholder has one, and nothing else.
theorem Source.eq_marker_of_mem {source : Source} {destination : String}
    (htext : marker ∉ source.text) (hpath : marker ∉ source.path.toList) :
    ∀ piece ∈ source.pieces destination, marker ∈ piece.chars → piece.chars = [marker] := by
  intro piece hmem hmarker
  obtain ⟨token, htoken, rfl⟩ := List.mem_map.1 hmem
  have hcount : (token.expand source.path destination [marker]).count marker = _ :=
    Token.count_expand htoken htext hpath
  rw [Token.chars_piece] at hmarker ⊢
  split at hcount
  · next hplaceholder => exact Token.expand_of_isPlaceholder hplaceholder _
  · exact absurd hmarker (List.count_eq_zero.1 hcount)

namespace Laid

variable {destination : String} {chain : List Source} {pieces : List Piece}

-- To cut a piece makes no opening.
theorem plain (h : Laid destination chain pieces)
    (hchain : ∀ source ∈ chain, Token.escape ∉ tokens source.text) :
    ∀ piece ∈ pieces, piece.linked = false → ¬ ['%', '{'] <:+: piece.chars := by
  induction h with
  | none => exact fun piece hmem => (nomatch hmem)
  | alone source _ _ _ => exact source.plain_pieces destination (hchain source (by simp))
  | @filled front before after linked left right source _ _ _ ih =>
      have hfront := ih fun other hmem => hchain other (List.mem_append_left _ hmem)
      have hsource := source.plain_pieces destination (hchain source (by simp))
      have hcut : ∀ part, part <:+: left ++ marker :: right → linked = false →
          ¬ ['%', '{'] <:+: part := fun part hpart hplain hopening =>
        hfront ⟨linked, left ++ marker :: right⟩ (by simp) hplain (hopening.trans hpart)
      intro piece hmem
      simp only [List.mem_append, List.mem_cons] at hmem
      rcases hmem with (hmem | rfl | hmem) | rfl | hmem
      · exact hfront piece (by simp [hmem])
      · exact hcut left (List.prefix_append _ _).isInfix
      · exact hsource piece hmem
      · exact hcut right ((List.suffix_cons _ _).trans (List.suffix_append _ _)).isInfix
      · exact hfront piece (by simp [hmem])

-- Where no marker is typed no text and no link is cut.
theorem uncut (h : Laid destination chain pieces)
    (hchain : ∀ source ∈ chain, marker ∉ source.text ∧ marker ∉ source.path.toList) :
    ∀ piece ∈ pieces, piece.chars = [] ∨ piece ∈ chain.flatMap (Source.pieces destination) := by
  induction h with
  | none => exact fun piece hmem => (nomatch hmem)
  | alone source _ _ _ => exact fun piece hmem => .inr (by simp [hmem])
  | @filled front before after linked left right source _ _ _ ih =>
      have hfront := ih fun other hmem => hchain other (List.mem_append_left _ hmem)
      -- The piece that is cut is a placeholder, so nothing of it is left.
      obtain ⟨rfl, rfl⟩ : left = [] ∧ right = [] := by
        rcases hfront ⟨linked, left ++ marker :: right⟩ (by simp) with hempty | hmem
        · simp at hempty
        · obtain ⟨other, hother, hmem⟩ := List.mem_flatMap.1 hmem
          have hclean := hchain other (List.mem_append_left _ hother)
          simpa [List.append_eq_singleton_iff] using
            other.eq_marker_of_mem hclean.1 hclean.2 _ hmem (by simp)
      intro piece hmem
      simp only [List.mem_append, List.mem_cons] at hmem
      rw [List.flatMap_append, List.mem_append]
      rcases hmem with (hmem | rfl | hmem) | rfl | hmem
      · exact (hfront piece (by simp [hmem])).imp_right .inl
      · exact .inl rfl
      · exact .inr (.inr (by simp [hmem]))
      · exact .inl rfl
      · exact (hfront piece (by simp [hmem])).imp_right .inl

end Laid

theorem exists_prefix_of_joined {c : Char} {pieces : List Piece} (h : [c] <+: joined pieces) :
    ∃ piece ∈ pieces, [c] <+: piece.chars := by
  induction pieces with
  | nil => simp [joined] at h
  | cons piece rest ih =>
      rw [joined_cons] at h
      cases hchars : piece.chars with
      | nil =>
          rw [hchars, List.nil_append] at h
          obtain ⟨other, hmem, hother⟩ := ih h
          exact ⟨other, List.mem_cons_of_mem _ hmem, hother⟩
      | cons first more =>
          refine ⟨piece, List.mem_cons_self, ?_⟩
          exact List.prefix_of_prefix_length_le h (List.prefix_append _ _) (by simp [hchars])

theorem exists_suffix_of_joined {c : Char} {pieces : List Piece} (h : [c] <:+ joined pieces) :
    ∃ piece ∈ pieces, [c] <:+ piece.chars := by
  induction pieces with
  | nil => simp [joined] at h
  | cons piece rest ih =>
      rw [joined_cons] at h
      cases hrest : joined rest with
      | nil =>
          rw [hrest, List.append_nil] at h
          exact ⟨piece, List.mem_cons_self, h⟩
      | cons first more =>
          obtain ⟨other, hmem, hother⟩ :=
            ih (List.suffix_of_suffix_length_le h (List.suffix_append _ _) (by simp [hrest]))
          exact ⟨other, List.mem_cons_of_mem _ hmem, hother⟩

section Openings

variable {linked : Bool} {piece : Piece} {rest : List Piece} {front back : List Char}

theorem Inside.cons (h : Inside linked rest front back) :
    Inside linked (piece :: rest) (piece.chars ++ front) back := by
  obtain ⟨before, after, left, right, rfl, rfl, rfl⟩ := h
  exact ⟨piece :: before, after, left, right, rfl, by rw [joined_cons, List.append_assoc], rfl⟩

theorem AtSeam.cons (h : AtSeam rest front back) :
    AtSeam (piece :: rest) (piece.chars ++ front) back := by
  obtain ⟨before, after, rfl, hbefore, hafter⟩ := h
  exact ⟨piece :: before, after, rfl, by rw [joined_cons, hbefore, List.append_assoc], hafter⟩

theorem AtSeam.ends {pieces : List Piece} (h : AtSeam pieces front back) :
    ∃ first ∈ pieces, ∃ second ∈ pieces, ['%'] <:+ first.chars ∧ ['{'] <+: second.chars := by
  obtain ⟨before, after, rfl, hbefore, hafter⟩ := h
  obtain ⟨first, hfirst, hends⟩ := exists_suffix_of_joined ⟨front, hbefore.symm⟩
  obtain ⟨second, hsecond, hbegins⟩ := exists_prefix_of_joined ⟨back, hafter.symm⟩
  exact ⟨first, List.mem_append_left _ hfirst, second, List.mem_append_right _ hsecond, hends,
    hbegins⟩

-- An opening has two characters: both are in one piece, or one ends a piece and the other begins
-- one.
theorem inside_or_atSeam {pieces : List Piece} (h : joined pieces = front ++ '%' :: '{' :: back) :
    (∃ linked, Inside linked pieces front back) ∨ AtSeam pieces front back := by
  induction pieces generalizing front with
  | nil => simp [joined] at h
  | cons piece rest ih =>
      rw [joined_cons] at h
      rcases List.append_eq_append_iff.1 h with ⟨more, rfl, hrest⟩ | ⟨more, hpiece, hrest⟩
      · exact (ih hrest).imp (fun ⟨linked, hinside⟩ => ⟨linked, hinside.cons⟩) AtSeam.cons
      · match more with
        | [] =>
            rw [List.append_nil] at hpiece
            rw [List.nil_append] at hrest
            rw [← hpiece, ← List.append_nil piece.chars]
            exact (ih hrest.symm).imp (fun ⟨linked, hinside⟩ => ⟨linked, hinside.cons⟩) AtSeam.cons
        | [_] =>
            simp only [List.cons_append, List.nil_append, List.cons.injEq] at hrest
            obtain ⟨rfl, hrest⟩ := hrest
            exact .inr ⟨[piece], rest, rfl, by simpa [joined] using hpiece, hrest.symm⟩
        | _ :: _ :: right =>
            simp only [List.cons_append, List.cons.injEq] at hrest
            obtain ⟨rfl, rfl, hrest⟩ := hrest
            exact .inl ⟨piece.linked, [], rest, front, right, by rw [← hpiece]; rfl, rfl, hrest⟩

end Openings

-- A text without openings has no other tokens than texts.
theorem isText_of_not_infix {chars : List Char} (h : ¬ ['%', '{'] <:+: chars) :
    ∀ token ∈ tokens chars, token.isText := by
  intro token hmem
  have hspell : token.spell <:+: chars := by
    rw [← flatMap_spell_tokens chars, List.flatMap_def]
    exact List.infix_of_mem_flatten (List.mem_map_of_mem hmem)
  cases token with
  | text chars => rfl
  | escape => exact absurd (List.IsInfix.trans (by decide) hspell) h
  | directive body =>
      exact absurd ((List.prefix_append ['%', '{'] (body ++ ['}'])).isInfix.trans hspell) h

-- A page that composes holds no marker, and every opening in it lies within a link or at a seam, if
-- no text has an escape. So where no marker is typed, no link holds an opening, and no piece that
-- ends with a percent sign can meet one that begins with a brace, the page reads as text.
theorem openings_of_compose {destination : String} {sources : List (Except ComposeError Source)}
    {page : List Char} (h : (compose destination sources).1 = .ok page)
    (hescape : ∀ source, .ok source ∈ sources → Token.escape ∉ tokens source.text) :
    marker ∉ page ∧ ∃ chain pieces, sources = chain.map .ok ∧ Laid destination chain pieces ∧
      joined pieces = page ∧
      (∀ front back, page = front ++ '%' :: '{' :: back →
        Inside true pieces front back ∨ AtSeam pieces front back) ∧
      ((∀ source ∈ chain, marker ∉ source.text ∧ marker ∉ source.path.toList) →
        (∀ piece ∈ chain.flatMap (Source.pieces destination), ¬ ['%', '{'] <:+: piece.chars) →
        (∀ first ∈ chain.flatMap (Source.pieces destination),
          ∀ second ∈ chain.flatMap (Source.pieces destination),
            ¬ (['%'] <:+ first.chars ∧ ['{'] <+: second.chars)) →
        ∀ token ∈ tokens page, token.isText) := by
  obtain ⟨chain, pieces, rfl, hlaid, rfl, hmarker⟩ :=
    Composition.laid_addAll Laid.none rfl h
  rw [List.nil_append] at hlaid
  have hplain := hlaid.plain fun source hmem =>
    hescape source (List.mem_map_of_mem hmem)
  have hopening : ∀ front back, joined pieces = front ++ '%' :: '{' :: back →
      Inside true pieces front back ∨ AtSeam pieces front back := by
    intro front back hpage
    refine (inside_or_atSeam hpage).imp_left ?_
    rintro ⟨linked | linked, hinside⟩
    · obtain ⟨before, after, left, right, rfl, -, -⟩ := hinside
      exact absurd ⟨left, right, by simp⟩
        (hplain ⟨false, left ++ '%' :: '{' :: right⟩ (by simp) rfl)
    · exact hinside
  refine ⟨hmarker, chain, pieces, rfl, hlaid, rfl, hopening, fun htyped hlinks hmeet => ?_⟩
  -- A piece that is not empty is one that a file brings.
  have hwhole : ∀ piece ∈ pieces, piece.chars ≠ [] →
      piece ∈ chain.flatMap (Source.pieces destination) := fun piece hmem hne =>
    (hlaid.uncut htyped piece hmem).resolve_left hne
  refine isText_of_not_infix ?_
  rintro ⟨front, back, hpage⟩
  have hsplit : joined pieces = front ++ '%' :: '{' :: back := by simp [← hpage]
  rcases hopening front back hsplit with ⟨before, after, left, right, rfl, -, -⟩ | hseam
  · exact hlinks _ (hwhole ⟨true, left ++ '%' :: '{' :: right⟩ (by simp) (by simp))
      ⟨left, right, by simp⟩
  · obtain ⟨first, hfirst, second, hsecond, hends, hbegins⟩ := hseam.ends
    exact hmeet first (hwhole first hfirst fun hempty => by simp [hempty] at hends) second
      (hwhole second hsecond fun hempty => by simp [hempty] at hbegins) ⟨hends, hbegins⟩

-- A layout that links its styles, and a page with an opening that is not closed.
theorem openings_of_compose_of_page :
    (compose "a/p.html" [.ok ⟨"~layout.html", "<b %\x7bpath s.css\x7d>%\x7bcontent\x7d".toList⟩,
        .ok ⟨"a/p.html", "5%, %\x7b".toList⟩]).1 = .ok "<b ../s.css>5%, %\x7b".toList ∧
      marker ∉ "<b ../s.css>5%, %\x7b".toList := by
  have hcompose : (compose "a/p.html"
      [.ok ⟨"~layout.html", "<b %\x7bpath s.css\x7d>%\x7bcontent\x7d".toList⟩,
        .ok ⟨"a/p.html", "5%, %\x7b".toList⟩]).1 = .ok "<b ../s.css>5%, %\x7b".toList := by
    decide +kernel
  refine ⟨hcompose, (openings_of_compose hcompose ?_).1⟩
  simp only [List.mem_cons, Except.ok.injEq, List.not_mem_nil, or_false, forall_eq_or_imp, forall_eq]
  decide +kernel

-- A percent sign before a placeholder, and a page that begins with a brace: what is put together is
-- a directive.
theorem compose_makes_directive :
    ¬ ∀ (sources : List Source) (destination : String) (page : List Char),
      (∀ source ∈ sources, Token.escape ∉ tokens source.text ∧
        ∀ tail ∈ source.text.tails, opens tail = true → '}' ∈ tail) →
      (compose destination (sources.map .ok)).1 = .ok page →
      marker ∉ page ∧ ∀ token ∈ tokens page, token.isText := by
  intro h
  have hfalse := h [⟨"~layout.html", "%%\x7bcontent\x7d".toList⟩, ⟨"p.html", "\x7bx\x7d".toList⟩]
    "p.html" "%\x7bx\x7d".toList (by decide +kernel) (by decide +kernel)
  revert hfalse
  decide +kernel

end StaticSite.Template
