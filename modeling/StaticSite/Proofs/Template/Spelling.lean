import Mathlib.Data.List.Infix
import StaticSite.Template.Token

-- Templates and the tokens that spell them. Reading loses nothing, and tokens that could not be
-- run together are read back as they were written.
namespace StaticSite.Template

theorem flatMap_spell_tokens (chars : List Char) : (tokens chars).flatMap Token.spell = chars := by
  induction chars using next?_induction with
  | nil => rw [tokens_nil, List.flatMap_nil]
  | @step chars rest token hnext ih =>
    rw [tokens_of_next? hnext, List.flatMap_cons, ih, spell_append_of_next? hnext]

theorem opens_iff {chars : List Char} : opens chars = true ↔ ['%', '{'] <+: chars := by
  unfold opens
  split
  · simp
  · next h =>
    simp only [Bool.false_eq_true, false_iff]
    rintro ⟨rest, rfl⟩
    exact h rest rfl

theorem infix_opening_cons {c : Char} {chars : List Char} :
    ['%', '{'] <:+: c :: chars ↔ opens (c :: chars) = true ∨ ['%', '{'] <:+: chars := by
  rw [List.infix_cons_iff, opens_iff]

-- No opening arises where a text meets the end or the next opening, since an opening does not
-- begin with its own second character.
theorem not_opens_append {c : Char} {chars rest : List Char} (h : ¬ opens (c :: chars) = true)
    (hrest : rest = [] ∨ opens rest = true) : ¬ opens (c :: (chars ++ rest)) = true := by
  cases chars with
  | nil =>
    rcases hrest with rfl | hopens
    · exact h
    · obtain ⟨more, rfl⟩ := opens_iff.1 hopens
      simp [opens]
  | cons next more =>
    rw [opens_iff] at h ⊢
    rintro ⟨others, heq⟩
    simp only [List.cons_append, List.nil_append, List.cons.injEq] at heq
    obtain ⟨rfl, rfl, -⟩ := heq
    exact h (List.prefix_append _ more)

theorem not_infix_plain (chars : List Char) : ¬ ['%', '{'] <:+: (plain chars).1 := by
  induction chars with
  | nil => simp [plain]
  | cons c rest ih =>
    rw [plain]
    split
    · simp
    · next hopens =>
      dsimp only
      rw [infix_opening_cons, not_or]
      refine ⟨fun hplain => hopens ?_, ih⟩
      rw [opens_iff] at hplain ⊢
      refine hplain.trans ?_
      conv_rhs => rw [← plain_append rest]
      exact List.prefix_append (c :: (plain rest).1) (plain rest).2

theorem plain_snd (chars : List Char) : (plain chars).2 = [] ∨ opens (plain chars).2 = true := by
  induction chars with
  | nil => exact .inl rfl
  | cons c rest ih =>
    rw [plain]
    split
    · next hopens => exact .inr hopens
    · exact ih

-- What holds no opening is read up to where the next one is.
theorem plain_append_of_not_infix {chars rest : List Char} (h : ¬ ['%', '{'] <:+: chars)
    (hrest : rest = [] ∨ opens rest = true) : plain (chars ++ rest) = (chars, rest) := by
  induction chars with
  | nil =>
    rcases hrest with rfl | hopens
    · rfl
    · cases rest with
      | nil => rfl
      | cons c more => rw [List.nil_append, plain, if_pos hopens]
  | cons c more ih =>
    rw [infix_opening_cons, not_or] at h
    rw [List.cons_append, plain, if_neg (not_opens_append h.1 hrest), ih h.2]

-- Where no opening stands, plain text is read.
theorem next?_of_not_opens {c : Char} {chars : List Char} (h : ¬ opens (c :: chars) = true) :
    next? (c :: chars) = some (.text (plain (c :: chars)).1, (plain (c :: chars)).2) := by
  rw [plain, if_neg h, next?]
  · rintro rest rfl rfl
    exact h rfl
  · rintro rest rfl rfl
    exact h rfl

namespace Token

def isText : Token → Bool
  | .text _ => true
  | _ => false

-- What reading makes: a text is there and holds no opening, and a body holds no closing brace
-- and does not make an escape of the opening before it.
def Readable : Token → Prop
  | .text chars => chars ≠ [] ∧ ¬ ['%', '{'] <:+: chars
  | .escape => True
  | .directive body => '}' ∉ body ∧ body.head? ≠ some '{'

instance (token : Token) : Decidable token.Readable := by
  cases token <;> unfold Readable <;> infer_instance

end Token

theorem readable_of_next? {chars rest : List Char} {token : Token}
    (h : next? chars = some (token, rest)) : token.Readable := by
  unfold next? at h
  split at h
  · cases h
  · cases h
    trivial
  · next more hescape =>
    split at h
    · next hcut =>
      cases h
      refine ⟨Text.not_mem_of_cut? hcut, fun hhead => ?_⟩
      obtain ⟨others, hbody⟩ := List.head?_eq_some_iff.1 hhead
      rw [hbody] at hcut
      exact hescape _ (Text.cut?_eq_some hcut)
    · cases h
      exact ⟨by simp, by decide⟩
  · next c more hescape hopening =>
    cases h
    refine ⟨List.cons_ne_nil _ _, ?_⟩
    have hopens : ¬ opens (c :: more) = true := by
      rw [opens_iff]
      rintro ⟨others, heq⟩
      cases heq
      exact hopening others rfl rfl
    have hplain := not_infix_plain (c :: more)
    rwa [plain, if_neg hopens] at hplain

-- An opening that is read as text is closed nowhere.
theorem not_mem_of_next?_opens {chars rest text : List Char} (hopens : opens chars = true)
    (h : next? chars = some (.text text, rest)) : '}' ∉ chars := by
  obtain ⟨more, rfl⟩ := opens_iff.1 hopens
  simp only [List.cons_append, List.nil_append] at h ⊢
  unfold next? at h
  split at h
  · cases h
  · cases h
  · next heq =>
    cases heq
    split at h
    · cases h
    · next hcut => simp [Text.not_mem_of_cut?_eq_none hcut]
  · next hopening heq =>
    cases heq
    exact absurd rfl (hopening more rfl)

-- So is the opening that made a text end before another text.
theorem not_mem_of_next?_text {chars rest more first second : List Char}
    (hfirst : next? chars = some (.text first, rest))
    (hsecond : next? rest = some (.text second, more)) : '}' ∉ rest := by
  unfold next? at hfirst
  split at hfirst
  · cases hfirst
  · cases hfirst
  · split at hfirst
    · cases hfirst
    · next hcut =>
      cases hfirst
      simp [Text.not_mem_of_cut?_eq_none hcut]
  · next c rest _ _ =>
    cases hfirst
    rcases plain_snd rest with hnil | hopens
    · simp [hnil]
    · exact not_mem_of_next?_opens hopens hsecond

theorem tokens_eq_cons {chars : List Char} {token : Token} {others : List Token}
    (h : tokens chars = token :: others) :
    ∃ rest, next? chars = some (token, rest) ∧ tokens rest = others := by
  cases hnext : next? chars with
  | none =>
    rw [eq_nil_of_next? hnext, tokens_nil] at h
    cases h
  | some pair =>
    rw [tokens_of_next? hnext] at h
    cases h
    exact ⟨_, rfl, rfl⟩

theorem readable_of_mem_tokens {chars : List Char} {token : Token} (h : token ∈ tokens chars) :
    token.Readable := by
  generalize hlist : tokens chars = list at h
  induction list generalizing chars with
  | nil => cases h
  | cons first others ih =>
    obtain ⟨rest, hnext, hrest⟩ := tokens_eq_cons hlist
    rcases List.mem_cons.1 h with rfl | hmem
    · exact readable_of_next? hnext
    · exact ih hrest hmem

theorem not_mem_of_texts {chars first second : List Char} {before after : List Token}
    (h : tokens chars = before ++ .text first :: .text second :: after) :
    '}' ∉ (Token.text second :: after).flatMap Token.spell := by
  induction before generalizing chars with
  | nil =>
    obtain ⟨rest, hfirst, hrest⟩ := tokens_eq_cons h
    obtain ⟨more, hsecond, -⟩ := tokens_eq_cons hrest
    rw [← hrest, flatMap_spell_tokens]
    exact not_mem_of_next?_text hfirst hsecond
  | cons token before ih =>
    obtain ⟨rest, -, hrest⟩ := tokens_eq_cons h
    exact ih hrest

-- Tokens that are told apart by how they are spelled: no two texts stand side by side.
structure Canonical (list : List Token) : Prop where
  readable : ∀ token ∈ list, token.Readable
  apart : list.IsChain fun left right => ¬ (left.isText ∧ right.isText)

theorem next?_spell_append {token : Token} {rest : List Char} (h : token.Readable)
    (hrest : token.isText → rest = [] ∨ opens rest = true) :
    next? (token.spell ++ rest) = some (token, rest) := by
  cases token with
  | escape => rfl
  | text chars =>
    obtain ⟨hne, hopening⟩ := h
    obtain ⟨c, more, rfl⟩ := List.exists_cons_of_ne_nil hne
    have hplain := plain_append_of_not_infix hopening (hrest rfl)
    rw [infix_opening_cons, not_or] at hopening
    change next? (c :: (more ++ rest)) = _
    rw [next?_of_not_opens (not_opens_append hopening.1 (hrest rfl)), ← List.cons_append, hplain]
  | directive body =>
    obtain ⟨hbrace, hescape⟩ := h
    have hspell : (Token.directive body).spell ++ rest = '%' :: '{' :: (body ++ '}' :: rest) := by
      simp [Token.spell]
    rw [hspell, next?, Text.cut?_append_of_not_mem hbrace]
    rintro more heq
    cases body with
    | nil => cases heq
    | cons c others => cases heq; exact hescape rfl

theorem opens_flatMap_spell {list : List Token} {token : Token}
    (h : (token :: list).IsChain fun left right => ¬ (left.isText ∧ right.isText))
    (htext : token.isText) :
    list.flatMap Token.spell = [] ∨ opens (list.flatMap Token.spell) = true := by
  cases list with
  | nil => exact .inl rfl
  | cons next others =>
    have hnext := (List.isChain_cons_cons.1 h).1
    cases next with
    | text chars => exact absurd ⟨htext, rfl⟩ hnext
    | escape => exact .inr rfl
    | directive body => exact .inr rfl

theorem Canonical.tokens_flatMap_spell {list : List Token} (h : Canonical list) :
    tokens (list.flatMap Token.spell) = list := by
  induction list with
  | nil => exact tokens_nil
  | cons token others ih =>
    have hothers : Canonical others :=
      ⟨fun other hmem => h.readable other (List.mem_cons_of_mem _ hmem),
        List.IsChain.of_cons h.apart⟩
    rw [List.flatMap_cons, tokens_of_next?
      (next?_spell_append (h.readable token List.mem_cons_self) (opens_flatMap_spell h.apart)),
      ih hothers]

-- Reading and spelling undo each other: on texts always, and on canonical lists of tokens. What
-- reading gives is canonical up to openings that are closed nowhere.
theorem tokens_inverse_spell :
    (∀ chars, (tokens chars).flatMap Token.spell = chars ∧
      (∀ token ∈ tokens chars, token.Readable) ∧
      ∀ before first second after,
        tokens chars = before ++ .text first :: .text second :: after →
          '}' ∉ (Token.text second :: after).flatMap Token.spell) ∧
    ∀ list, Canonical list → tokens (list.flatMap Token.spell) = list :=
  ⟨fun chars => ⟨flatMap_spell_tokens chars, fun _ => readable_of_mem_tokens,
    fun _ _ _ _ => not_mem_of_texts⟩, fun _ => Canonical.tokens_flatMap_spell⟩

-- A percent sign before an opening, a body that holds an opening, and an opening that is closed
-- nowhere.
theorem tokens_inverse_spell_of_percents :
    tokens "50%%\x7b off".toList =
        [.text "50%".toList] ++ .text ['%'] :: .text "\x7b off".toList :: [] ∧
      '}' ∉ (Token.text "\x7b off".toList :: []).flatMap Token.spell ∧
    Canonical [.text "100%".toList, .escape, .text "\x7b\x7d".toList, .directive [],
      .directive "a%\x7b".toList, .text "%".toList] ∧
      tokens "100%%\x7b\x7b\x7b\x7d%\x7b\x7d%\x7ba%\x7b\x7d%".toList =
        [.text "100%".toList, .escape, .text "\x7b\x7d".toList, .directive [],
          .directive "a%\x7b".toList, .text "%".toList] := by
  have hopen : tokens "50%%\x7b off".toList =
      [.text "50%".toList] ++ .text ['%'] :: .text "\x7b off".toList :: [] := by
    decide +kernel
  have hcanonical : Canonical [.text "100%".toList, .escape, .text "\x7b\x7d".toList,
      .directive [], .directive "a%\x7b".toList, .text "%".toList] :=
    ⟨by decide +kernel, by decide +kernel⟩
  exact ⟨hopen, (tokens_inverse_spell.1 _).2.2 _ _ _ _ hopen, hcanonical,
    tokens_inverse_spell.2 _ hcanonical⟩

end StaticSite.Template
