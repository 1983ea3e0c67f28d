import StaticSite.Proofs.Except
import StaticSite.Proofs.Template.Nesting

-- Texts that come out of a template as they are: any text, once its openings are escaped, and a
-- text without directives, unless it holds the marker.
namespace StaticSite.Template

-- A text with an escape in place of each opening, from left to right.
def escaped : List Char → List Char
  | [] => []
  | '%' :: '{' :: rest => '%' :: '{' :: '{' :: escaped rest
  | c :: rest => c :: escaped rest

theorem escaped_cons {c : Char} {rest : List Char} (h : ¬ opens (c :: rest) = true) :
    escaped (c :: rest) = c :: escaped rest := by
  rw [escaped]
  rintro more rfl rfl
  exact h rfl

-- What holds no opening is kept up to where the next one is.
theorem escaped_append {text rest : List Char} (h : ¬ ['%', '{'] <:+: text)
    (hrest : rest = [] ∨ opens rest = true) : escaped (text ++ rest) = text ++ escaped rest := by
  induction text with
  | nil => rfl
  | cons c more ih =>
    rw [infix_opening_cons, not_or] at h
    rw [List.cons_append, escaped_cons (not_opens_append h.1 hrest), ih h.2, List.cons_append]

-- The escape for an opening is one itself.
theorem escaped_eq_nil_or_opens {rest : List Char} (hrest : rest = [] ∨ opens rest = true) :
    escaped rest = [] ∨ opens (escaped rest) = true := by
  rcases hrest with rfl | hopens
  · exact .inl rfl
  · obtain ⟨more, rfl⟩ := opens_iff.1 hopens
    exact .inr rfl

theorem prepare_of_next? {chars rest first others : List Char} {token : Token}
    {source destination : String} (hnext : next? chars = some (token, rest))
    (htoken : token.prepare source destination = .ok first)
    (hrest : prepare rest source destination = .ok others) :
    prepare chars source destination = .ok (first ++ others) := by
  obtain ⟨parts, hparts, hflatten⟩ := bind_eq_ok.1 hrest
  cases hflatten
  have hall := mapM_cons_eq_ok.2 ⟨first, parts, htoken, hparts, rfl⟩
  rw [prepare, tokens_of_next? hnext, hall]
  rfl

-- Every text can be written: what is read of its escaped form is the text.
theorem prepare_escaped (text : List Char) (source destination : String) :
    prepare (escaped text) source destination = .ok text := by
  induction hlength : text.length using Nat.strongRecOn generalizing text with
  | _ length ih =>
    subst hlength
    cases text with
    | nil =>
      rw [escaped, prepare, tokens_nil]
      rfl
    | cons c rest =>
      by_cases hopens : opens (c :: rest) = true
      · obtain ⟨more, hmore⟩ := opens_iff.1 hopens
        have hescape : next? (escaped (['%', '{'] ++ more)) = some (.escape, escaped more) := rfl
        have hless : more.length < (c :: rest).length := by
          rw [← hmore, List.length_append]
          exact Nat.lt_add_of_pos_left (by decide)
        rw [← hmore]
        exact prepare_of_next? hescape rfl (ih more.length hless more rfl)
      · -- Up to the next opening the text stands for itself.
        have hplain := plain_append (c :: rest)
        have hrest := plain_snd (c :: rest)
        have hclear := not_infix_plain (c :: rest)
        have hne : (plain (c :: rest)).1 ≠ [] := by
          rw [plain, if_neg hopens]
          exact List.cons_ne_nil _ _
        generalize plain (c :: rest) = parts at hplain hrest hclear hne
        obtain ⟨before, after⟩ := parts
        dsimp only at hplain hrest hclear hne
        have htext : (Token.text before).Readable := ⟨hne, hclear⟩
        have hless : after.length < (c :: rest).length := by
          rw [← hplain, List.length_append]
          exact Nat.lt_add_of_pos_left (List.length_pos_iff.2 hne)
        rw [← hplain, escaped_append hclear hrest]
        exact prepare_of_next?
          (next?_spell_append htext fun _ => escaped_eq_nil_or_opens hrest) rfl
          (ih after.length hless after rfl)

-- Openings next to percent signs, braces and each other.
example : escaped "%%\x7b\x7bx\x7d%\x7b%\x7b".toList =
    "%%\x7b\x7b\x7bx\x7d%\x7b\x7b%\x7b\x7b".toList := by decide

-- A text without escapes and directives is a page of its own, whatever is in it but the marker,
-- which is taken for a placeholder.
theorem compose_of_texts {text : List Char} (h : ∀ token ∈ tokens text, token.isText)
    (path destination : String) :
    compose destination [.ok ⟨path, text⟩] =
      (if marker ∈ text then .error (.unconsumedPlaceholder path) else .ok text, 1) := by
  have hknown : ∀ token ∈ tokens text, token.isKnown := by
    intro token hmem
    cases token with
    | directive body => cases h _ hmem
    | _ => rfl
  have hspell : ∀ token ∈ tokens text, token.expand path destination [marker] = token.spell := by
    intro token hmem
    cases token with
    | text chars => rfl
    | escape => cases h _ hmem
    | directive body => cases h _ hmem
  have hexpand : (Source.mk path text).expand destination [marker] = text := by
    conv_rhs => rw [← flatMap_spell_tokens text]
    rw [Source.expand, List.flatMap_def, List.flatMap_def, List.map_congr_left hspell]
  rw [compose, Composition.addAll_of_add (Composition.add_empty hknown), hexpand]
  rfl

-- Braces that are none of a directive, and an opening that is closed nowhere.
theorem compose_of_texts_of_unclosed :
    (∀ token ∈ tokens "\x7bok\x7d 50%%\x7b é".toList, token.isText) ∧
      compose "p.html" [.ok ⟨"p.html", "\x7bok\x7d 50%%\x7b é".toList⟩] =
        (.ok "\x7bok\x7d 50%%\x7b é".toList, 1) := by
  have htexts : ∀ token ∈ tokens "\x7bok\x7d 50%%\x7b é".toList, token.isText := by decide +kernel
  exact ⟨htexts, (compose_of_texts htexts "p.html" "p.html").trans (by decide +kernel)⟩

-- The marker itself does not come through.
theorem compose_refuses_marker :
    ¬ ∀ (text : List Char) (path destination : String), (∀ token ∈ tokens text, token.isText) →
      compose destination [.ok ⟨path, text⟩] = (.ok text, 1) := by
  intro h
  have hfalse := h [marker] "p.html" "p.html" (by decide +kernel)
  revert hfalse
  decide +kernel

end StaticSite.Template
