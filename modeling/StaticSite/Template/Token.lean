import StaticSite.Text.Cut

namespace StaticSite.Template

-- A template is a list of characters. Its tokens are plain text, the escape that stands
-- for an opening, and directives, of which the token holds what stands between the braces.
inductive Token where
  | text (chars : List Char)
  | escape
  | directive (body : List Char)
deriving DecidableEq, Repr

namespace Token

-- How a token is written.
def spell : Token → List Char
  | .text chars => chars
  | .escape => ['%', '{', '{']
  | .directive body => '%' :: '{' :: body ++ ['}']

end Token

def opens : List Char → Bool
  | '%' :: '{' :: _ => true
  | _ => false

-- What stands before the first opening, and the rest from there.
def plain : List Char → List Char × List Char
  | [] => ([], [])
  | c :: rest =>
    if opens (c :: rest) then ([], c :: rest)
    else
      let (before, after) := plain rest
      (c :: before, after)

-- The first token of a template and the rest. The escape goes before a directive.
-- An opening that is closed nowhere is plain text, and reading goes on after its first character.
def next? : List Char → Option (Token × List Char)
  | [] => none
  | '%' :: '{' :: '{' :: rest => some (.escape, rest)
  | '%' :: '{' :: rest =>
    match Text.cut? '}' rest with
    | some (body, after) => some (.directive body, after)
    | none => some (.text ['%'], '{' :: rest)
  | c :: rest => some (.text (c :: (plain rest).1), (plain rest).2)

theorem plain_append (chars : List Char) : (plain chars).1 ++ (plain chars).2 = chars := by
  induction chars with
  | nil => rfl
  | cons c rest ih => grind [plain]

theorem eq_nil_of_next? {chars : List Char} (h : next? chars = none) : chars = [] := by
  unfold next? at h
  split at h
  · rfl
  · cases h
  · split at h <;> cases h
  · cases h

-- A token is what was read: its spelling and the rest make up the template.
theorem spell_append_of_next? {chars rest : List Char} {token : Token}
    (h : next? chars = some (token, rest)) : token.spell ++ rest = chars := by
  unfold next? at h
  split at h
  · simp at h
  · cases h; rfl
  · split at h
    · next hc => cases h; simp [Token.spell, Text.cut?_eq_some hc]
    · cases h; rfl
  · cases h; simp [Token.spell, plain_append]

theorem length_lt_of_next? {chars rest : List Char} {token : Token}
    (h : next? chars = some (token, rest)) : rest.length < chars.length := by
  have hspell : 0 < token.spell.length := by
    unfold next? at h
    split at h
    · simp at h
    · cases h; simp [Token.spell]
    · split at h <;> cases h <;> simp [Token.spell]
    · cases h; simp [Token.spell]
  have := congrArg List.length (spell_append_of_next? h)
  simp only [List.length_append] at this
  omega

-- Token by token, reading comes to the end of a template.
@[elab_as_elim]
theorem next?_induction {motive : List Char → Prop} (nil : motive [])
    (step : ∀ {chars rest : List Char} {token : Token},
      next? chars = some (token, rest) → motive rest → motive chars)
    (chars : List Char) : motive chars := by
  induction hlength : chars.length using Nat.strongRecOn generalizing chars with
  | _ length ih =>
    subst hlength
    cases hnext : next? chars with
    | none => exact eq_nil_of_next? hnext ▸ nil
    | some pair => exact step hnext (ih _ (length_lt_of_next? hnext) _ rfl)

-- The first token and the rest, where no opening is closed any more.
def nextOpen? : List Char → Option (Token × List Char)
  | [] => none
  | '%' :: '{' :: '{' :: rest => some (.escape, rest)
  | '%' :: '{' :: rest => some (.text ['%'], '{' :: rest)
  | c :: rest => some (.text (c :: (plain rest).1), (plain rest).2)

theorem nextOpen?_eq_next? {chars : List Char} (h : '}' ∉ chars) : nextOpen? chars = next? chars := by
  unfold nextOpen? next?
  split <;> simp_all [Text.cut?_eq_none_of_not_mem]

theorem length_lt_of_nextOpen? {chars rest : List Char} {token : Token}
    (h : nextOpen? chars = some (token, rest)) : rest.length < chars.length := by
  unfold nextOpen? at h
  split at h
  · cases h
  · cases h; simp only [List.length_cons]; omega
  · cases h; simp
  · next more _ _ =>
    cases h
    have := congrArg List.length (plain_append more)
    simp only [List.length_append, List.length_cons] at *
    omega

-- Whether a token is the beginning of an opening that is closed nowhere.
def isUnclosed : Token → List Char → Bool
  | .text ['%'], '{' :: _ => true
  | _, _ => false

theorem not_mem_of_isUnclosed {chars rest : List Char} {token : Token}
    (h : next? chars = some (token, rest)) (hopen : isUnclosed token rest) : '}' ∉ rest := by
  unfold next? at h
  split at h
  · simp at h
  · cases h; simp [isUnclosed] at hopen
  · split at h
    · cases h; simp [isUnclosed] at hopen
    · next hc => cases h; simp [Text.not_mem_of_cut?_eq_none hc]
  · next c more hescape hdirective =>
    cases h
    have happend := plain_append more
    unfold isUnclosed at hopen
    split at hopen
    · next hplain hrest => grind
    · cases hopen

-- The tokens of a template. `closable` is true as long as an opening may still be closed:
-- after one that is closed nowhere, none is.
def tokensFrom (closable : Bool) (chars : List Char) : List Token :=
  match _h : if closable then next? chars else nextOpen? chars with
  | none => []
  | some (token, rest) => token :: tokensFrom (closable && !isUnclosed token rest) rest
termination_by chars.length
decreasing_by
  split at _h
  · exact length_lt_of_next? _h
  · exact length_lt_of_nextOpen? _h

theorem tokensFrom_nil (closable : Bool) : tokensFrom closable [] = [] := by
  cases closable <;> rw [tokensFrom] <;> rfl

theorem tokensFrom_true_of_next? {chars rest : List Char} {token : Token}
    (h : next? chars = some (token, rest)) :
    tokensFrom true chars = token :: tokensFrom (!isUnclosed token rest) rest := by
  rw [tokensFrom]
  split
  · next hnone => simp [h] at hnone
  · next hsome => simp only [↓reduceIte, h] at hsome; cases hsome; rfl

theorem tokensFrom_false_of_nextOpen? {chars rest : List Char} {token : Token}
    (h : nextOpen? chars = some (token, rest)) :
    tokensFrom false chars = token :: tokensFrom false rest := by
  rw [tokensFrom]
  split
  · next hnone => simp [h] at hnone
  · next hsome =>
    simp only [Bool.false_eq_true, ↓reduceIte, h] at hsome
    cases hsome; rfl

-- Nothing is lost by not looking for a brace that is not there.
theorem tokensFrom_false {chars : List Char} (h : '}' ∉ chars) :
    tokensFrom false chars = tokensFrom true chars := by
  induction chars using next?_induction with
  | nil => rw [tokensFrom_nil, tokensFrom_nil]
  | @step chars rest token hnext ih =>
    have hrest : '}' ∉ rest := fun hmem =>
      h (spell_append_of_next? hnext ▸ List.mem_append_right token.spell hmem)
    rw [tokensFrom_true_of_next? hnext,
      tokensFrom_false_of_nextOpen? ((nextOpen?_eq_next? h).trans hnext)]
    cases isUnclosed token rest
    · rw [ih hrest]; rfl
    · rfl

def tokens (chars : List Char) : List Token :=
  tokensFrom true chars

theorem tokens_nil : tokens [] = [] :=
  tokensFrom_nil true

theorem tokens_of_next? {chars rest : List Char} {token : Token}
    (h : next? chars = some (token, rest)) : tokens chars = token :: tokens rest := by
  unfold tokens
  rw [tokensFrom_true_of_next? h]
  cases hopen : isUnclosed token rest
  · rfl
  · rw [← tokensFrom_false (not_mem_of_isUnclosed h hopen)]; rfl

end StaticSite.Template
