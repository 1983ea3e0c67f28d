import StaticSite.Proofs.Template.Spelling
import StaticSite.Template.Directive

-- Templates that are run together. Each is rewritten by itself, unless the seam goes through an
-- opening or an opening of the first is closed only in the second.
namespace StaticSite.Template

-- What is left to read wherever a token begins, and at the end.
def remainders (chars : List Char) : List (List Char) :=
  (tokens chars).tails.map fun list => list.flatMap Token.spell

theorem remainders_of_next? {chars rest : List Char} {token : Token}
    (h : next? chars = some (token, rest)) : remainders chars = chars :: remainders rest := by
  unfold remainders
  rw [tokens_of_next? h, List.tails_cons, List.map_cons, List.flatMap_cons, flatMap_spell_tokens,
    spell_append_of_next? h]

-- Every opening that reading comes to is that of an escape or is closed in the template.
def Closed (chars : List Char) : Prop :=
  ∀ rest ∈ remainders chars, opens rest = true → ['%', '{', '{'] <+: rest ∨ '}' ∈ rest

instance (chars : List Char) : Decidable (Closed chars) := by
  unfold Closed
  infer_instance

theorem closed_iff_of_next? {chars rest : List Char} {token : Token}
    (h : next? chars = some (token, rest)) :
    Closed chars ↔
      (opens chars = true → ['%', '{', '{'] <+: chars ∨ '}' ∈ chars) ∧ Closed rest := by
  unfold Closed
  rw [remainders_of_next? h, List.forall_mem_cons]

theorem opens_append {chars : List Char} (h : opens chars = true) (more : List Char) :
    opens (chars ++ more) = true :=
  opens_iff.2 ((opens_iff.1 h).trans (List.prefix_append chars more))

-- Where openings are closed, a text is read up to the next one or to the end.
theorem opens_of_next?_text {chars rest text : List Char}
    (h : next? chars = some (.text text, rest))
    (hclosed : opens chars = true → ['%', '{', '{'] <+: chars ∨ '}' ∈ chars) :
    rest = [] ∨ opens rest = true := by
  have hopens : ¬ opens chars = true := by
    intro hopens
    rcases hclosed hopens with ⟨more, rfl⟩ | hbrace
    · cases h
    · exact not_mem_of_next?_opens hopens h hbrace
  cases chars with
  | nil => cases h
  | cons c more =>
    rw [next?_of_not_opens hopens] at h
    cases h
    exact plain_snd (c :: more)

-- A token is the same whatever follows the template, unless it is a text that the template ends with
-- and that goes on there.
theorem next?_append {chars rest more : List Char} {token : Token}
    (h : next? chars = some (token, rest))
    (hclosed : opens chars = true → ['%', '{', '{'] <+: chars ∨ '}' ∈ chars)
    (hmore : token.isText → rest = [] → more = [] ∨ opens more = true) :
    next? (chars ++ more) = some (token, rest ++ more) := by
  rw [← spell_append_of_next? h, List.append_assoc]
  refine next?_spell_append (readable_of_next? h) fun htext => ?_
  have hrest : rest = [] ∨ opens rest = true := by
    cases token with
    | text chars => exact opens_of_next?_text h hclosed
    | escape => cases htext
    | directive body => cases htext
  rcases hrest with rfl | hopens
  · exact hmore htext rfl
  · exact .inr (opens_append hopens more)

-- An opening that neither of two texts holds arises at the seam only.
theorem not_infix_append {front back : List Char} (hfront : ¬ ['%', '{'] <:+: front)
    (hback : ¬ ['%', '{'] <:+: back)
    (hseam : ¬ (front.getLast? = some '%' ∧ back.head? = some '{')) :
    ¬ ['%', '{'] <:+: front ++ back := by
  rw [List.infix_append_iff_ne_nil]
  rintro (hopening | hopening | ⟨left, right, hleft, hright, heq, ⟨before, rfl⟩, ⟨after, rfl⟩⟩)
  · exact hfront hopening
  · exact hback hopening
  · obtain ⟨rfl, rfl⟩ : left = ['%'] ∧ right = ['{'] := by
      simpa [List.cons_eq_append_iff, hleft, hright] using heq
    exact hseam ⟨by simp, rfl⟩

-- A text in front of a template is read on up to the template's first opening.
theorem next?_text_append {text back : List Char} (htext : (Token.text text).Readable)
    (hseam : ¬ (text.getLast? = some '%' ∧ back.head? = some '{')) :
    next? (text ++ back) = some (.text (text ++ (plain back).1), (plain back).2) := by
  have hback := plain_append back
  have hlonger : (Token.text (text ++ (plain back).1)).Readable := by
    refine ⟨List.append_ne_nil_of_left_ne_nil htext.1 _, ?_⟩
    refine not_infix_append htext.2 (not_infix_plain back) fun hmeet => hseam ⟨hmeet.1, ?_⟩
    rw [← hback, List.head?_append, hmeet.2]
    rfl
  conv_lhs => rw [← hback, ← List.append_assoc]
  exact next?_spell_append hlonger fun _ => plain_snd back

-- Two templates run together have the tokens of the one and those of the other, but for a text that
-- the first ends with and a text that the second begins with: these are one.
theorem tokens_append {front back : List Char} (hclosed : Closed front)
    (hseam : ¬ (front.getLast? = some '%' ∧ back.head? = some '{')) :
    tokens (front ++ back) = tokens front ++ tokens back ∨
      ∃ before first second after, tokens front = before ++ [.text first] ∧
        tokens back = .text second :: after ∧
        tokens (front ++ back) = before ++ .text (first ++ second) :: after := by
  induction front using next?_induction with
  | nil => exact .inl (by rw [tokens_nil]; rfl)
  | @step front rest token hnext ih =>
    obtain ⟨hopening, hrest⟩ := (closed_iff_of_next? hnext).1 hclosed
    have hfront := spell_append_of_next? hnext
    by_cases hmeet : token.isText ∧ rest = [] ∧ ¬ (back = [] ∨ opens back = true)
    · -- The text that the first template ends with meets a text of the second.
      obtain ⟨htext, rfl, hback⟩ := hmeet
      cases token with
      | escape => cases htext
      | directive body => cases htext
      | text text =>
        obtain rfl : text = front := by rwa [List.append_nil] at hfront
        obtain ⟨hne, hopens⟩ := not_or.1 hback
        obtain ⟨c, more, rfl⟩ := List.exists_cons_of_ne_nil hne
        refine .inr ⟨[], text, _, _, ?_, tokens_of_next? (next?_of_not_opens hopens),
          tokens_of_next? (next?_text_append (readable_of_next? hnext) hseam)⟩
        rw [tokens_of_next? hnext, tokens_nil]
        rfl
    · have happend : next? (front ++ back) = some (token, rest ++ back) := by
        refine next?_append hnext hopening fun htext hempty => ?_
        by_contra hback
        exact hmeet ⟨htext, hempty, hback⟩
      have hapart : ¬ (rest.getLast? = some '%' ∧ back.head? = some '{') := by
        rintro ⟨hpercent, hbrace⟩
        refine hseam ⟨?_, hbrace⟩
        rw [← hfront, List.getLast?_append, hpercent]
        rfl
      rw [tokens_of_next? hnext, tokens_of_next? happend]
      rcases ih hrest hapart with heq | ⟨before, first, second, after, hbefore, hafter, heq⟩
      · exact .inl (by rw [heq]; rfl)
      · exact .inr ⟨token :: before, first, second, after, by rw [hbefore]; rfl, hafter,
          by rw [heq]; rfl⟩

-- Rewriting is local: of two templates run together each is rewritten by itself, and the first
-- failure is that of the whole.
theorem prepare_append {front back : List Char} (hclosed : Closed front)
    (hseam : ¬ (front.getLast? = some '%' ∧ back.head? = some '{'))
    (source destination : String) :
    prepare (front ++ back) source destination = do
      return (← prepare front source destination) ++ (← prepare back source destination) := by
  unfold prepare
  rcases tokens_append hclosed hseam with heq | ⟨before, first, second, after, hfront, hback, heq⟩
  · rw [heq, List.mapM_append]
    simp
  · -- A text is copied, so it does not matter where it is cut.
    have htext (chars : List Char) :
        Token.prepare source destination (.text chars) = pure chars := rfl
    rw [heq, hfront, hback]
    simp [htext]

-- A directive with an opening in its body, an escape and a percent sign before the seam. After it
-- a percent sign and an opening that is closed nowhere, or a directive that is not known.
theorem prepare_append_of_percents :
    Closed "%\x7bpath a%\x7b\x7d%\x7b\x7bx%".toList ∧
      (¬ ("%\x7bpath a%\x7b\x7d%\x7b\x7bx%".toList.getLast? = some '%' ∧
          "% %\x7by".toList.head? = some '{') ∧
        prepare ("%\x7bpath a%\x7b\x7d%\x7b\x7bx%".toList ++ "% %\x7by".toList)
          "a/~layout.html" "p.html" = .ok "a/a%\x7b%\x7bx%% %\x7by".toList) ∧
      ¬ ("%\x7bpath a%\x7b\x7d%\x7b\x7bx%".toList.getLast? = some '%' ∧
          "%%\x7b no \x7d".toList.head? = some '{') ∧
        prepare ("%\x7bpath a%\x7b\x7d%\x7b\x7bx%".toList ++ "%%\x7b no \x7d".toList)
          "a/~layout.html" "p.html" = .error (.unknownDirective "no" "a/~layout.html") := by
  have hclosed : Closed "%\x7bpath a%\x7b\x7d%\x7b\x7bx%".toList := by decide +kernel
  have hopen : ¬ ("%\x7bpath a%\x7b\x7d%\x7b\x7bx%".toList.getLast? = some '%' ∧
      "% %\x7by".toList.head? = some '{') := by decide +kernel
  have hunknown : ¬ ("%\x7bpath a%\x7b\x7d%\x7b\x7bx%".toList.getLast? = some '%' ∧
      "%%\x7b no \x7d".toList.head? = some '{') := by decide +kernel
  exact ⟨hclosed,
    ⟨hopen, (prepare_append hclosed hopen "a/~layout.html" "p.html").trans (by decide +kernel)⟩,
    hunknown, (prepare_append hclosed hunknown "a/~layout.html" "p.html").trans (by decide +kernel)⟩

-- An opening that is closed in the second template only, and one that the seam makes.
example : prepare ("a%\x7b".toList ++ "x\x7d".toList) "p.html" "p.html" =
      .error (.unknownDirective "x" "p.html") ∧
    prepare ("a%".toList ++ "\x7b\x7bx".toList) "p.html" "p.html" = .ok "a%\x7bx".toList := by
  decide +kernel

end StaticSite.Template
