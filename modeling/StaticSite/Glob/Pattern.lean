import StaticSite.Text.Cut

namespace StaticSite.Glob

-- Part of a character class.
inductive Specifier where
  | single (c : Char)
  | range (first last : Char)
deriving DecidableEq, Repr

-- Part of a pattern for a path: a character, any character, any characters, any number of
-- directories, a character of a class, a character outside of a class.
inductive Token where
  | char (c : Char)
  | any
  | many
  | deep
  | within (specifiers : List Specifier)
  | without (specifiers : List Specifier)
deriving DecidableEq, Repr

inductive PatternFault where
  | wildcards
  | deepWildcards
  | range
deriving DecidableEq, Repr

-- What is wrong with a pattern, and at which of its characters.
structure PatternError where
  position : Nat
  fault : PatternFault
deriving DecidableEq, Repr

def PatternFault.message : PatternFault → String
  | .wildcards => "wildcards are either regular `*` or recursive `**`"
  | .deepWildcards => "recursive wildcards must form a single path component"
  | .range => "invalid range pattern"

def PatternError.message (error : PatternError) : String :=
  "Pattern syntax error near position " ++ toString error.position ++ ": " ++ error.fault.message

-- The parts of a class as it is written. A dash makes a range of its two neighbours.
def specifiers : List Char → List Specifier
  | [] => []
  | first :: '-' :: last :: rest => .range first last :: specifiers rest
  | c :: rest => .single c :: specifiers rest

-- A class after its opening bracket, and the rest. The first character of a class belongs
-- to it, whatever it is.
def class? : List Char → Option (Token × List Char)
  | '!' :: first :: rest =>
    (Text.cut? ']' rest).map fun (inside, after) => (.without (specifiers (first :: inside)), after)
  | first :: rest =>
    if first = '!' then none
    else (Text.cut? ']' rest).map fun (inside, after) =>
      (.within (specifiers (first :: inside)), after)
  | [] => none

theorem length_lt_of_class? {chars rest : List Char} {token : Token}
    (h : class? chars = some (token, rest)) : rest.length < chars.length := by
  have hcut {inside more after : List Char} (h : Text.cut? ']' more = some (inside, after)) :
      after.length < more.length := by
    rw [Text.cut?_eq_some h, List.length_append, List.length_cons]
    omega
  unfold class? at h
  split at h
  · obtain ⟨⟨inside, after⟩, hc, heq⟩ := Option.map_eq_some_iff.1 h
    cases heq
    have := hcut hc
    simp only [List.length_cons]
    omega
  · split at h
    · cases h
    · obtain ⟨⟨inside, after⟩, hc, heq⟩ := Option.map_eq_some_iff.1 h
      cases heq
      have := hcut hc
      simp only [List.length_cons]
      omega
  · cases h

-- Read a pattern from `position` on. Two stars have to fill a place between slashes,
-- and the slash after them belongs to them. `previous` is the character before.
def parseFrom (position : Nat) (previous : Char) (chars : List Char) :
    Except PatternError (List Token) :=
  match chars with
  | [] => .ok []
  | '?' :: rest => return .any :: (← parseFrom (position + 1) '?' rest)
  | '*' :: '*' :: '*' :: _ => .error ⟨position + 2, .wildcards⟩
  | '*' :: '*' :: rest =>
    if previous ≠ '/' then .error ⟨position - 1, .deepWildcards⟩
    else match rest with
      | [] => .ok [.deep]
      | c :: after =>
        if c = '/' then return .deep :: (← parseFrom (position + 3) '/' after)
        else .error ⟨position + 2, .deepWildcards⟩
  | '*' :: rest => return .many :: (← parseFrom (position + 1) '*' rest)
  | '[' :: rest =>
    match _h : class? rest with
    | none => .error ⟨position, .range⟩
    | some (token, after) =>
      have := length_lt_of_class? _h
      return token :: (← parseFrom (position + 1 + (rest.length - after.length)) ']' after)
  | c :: rest => return .char c :: (← parseFrom (position + 1) c rest)
termination_by chars.length
decreasing_by all_goals simp only [List.length_cons]; omega

-- A pattern begins as if after a slash.
def parse (pattern : String) : Except PatternError (List Token) :=
  parseFrom 0 '/' pattern.toList

def Specifier.accepts (c : Char) : Specifier → Bool
  | .single only => c = only
  | .range first last => first ≤ c ∧ c ≤ last

-- Whether the token stands for the one character `c`.
def Token.accepts (c : Char) : Token → Bool
  | .char only => c = only
  | .any => true
  | .within specifiers => specifiers.any (·.accepts c)
  | .without specifiers => !specifiers.any (·.accepts c)
  | _ => false

-- Whether the tokens stand for the end of a name, for each of its ends, the whole name first.
def matchesEnds (chars : List Char) : List Token → List Bool
  | [] => chars.map (fun _ => false) ++ [true]
  | .many :: tokens =>
    (matchesEnds chars tokens).foldr (fun found later => (found || later.head?.getD false) :: later) []
  | token :: tokens =>
    List.zipWith (fun c found => token.accepts c && found) chars (matchesEnds chars tokens).tail ++
      [false]

-- Whether the tokens stand for the whole of a name.
def matchesName (tokens : List Token) (chars : List Char) : Bool :=
  (matchesEnds chars tokens).head?.getD false

theorem length_matchesEnds (chars : List Char) (tokens : List Token) :
    (matchesEnds chars tokens).length = chars.length + 1 := by
  induction tokens with
  | nil => simp [matchesEnds]
  | cons token tokens ih =>
    cases token with
    | many =>
      have hscan (row : List Bool) : (row.foldr
          (fun found later => (found || later.head?.getD false) :: later) []).length = row.length := by
        induction row with
        | nil => rfl
        | cons found row ih => simp [ih]
      simp [matchesEnds, hscan, ih]
    | _ => simp [matchesEnds, ih]

-- Each row begins with the answer for the whole.
theorem matchesEnds_eq_cons (chars : List Char) (tokens : List Token) :
    matchesEnds chars tokens = matchesName tokens chars :: (matchesEnds chars tokens).tail := by
  have := length_matchesEnds chars tokens
  cases heq : matchesEnds chars tokens with
  | nil => simp [heq] at this
  | cons found later => simp [matchesName, heq]

-- The other answers are those for the rest of the name.
theorem tail_matchesEnds (c : Char) (chars : List Char) (tokens : List Token) :
    (matchesEnds (c :: chars) tokens).tail = matchesEnds chars tokens := by
  induction tokens with
  | nil => simp [matchesEnds]
  | cons token tokens ih =>
    cases token with
    | many =>
      rw [matchesEnds, matchesEnds_eq_cons, ih]
      rfl
    | _ =>
      simp only [matchesEnds, ih]
      rw [matchesEnds_eq_cons chars tokens]
      simp

theorem matchesName_nil (chars : List Char) : matchesName [] chars = chars.isEmpty := by
  cases chars <;> simp [matchesName, matchesEnds]

theorem matchesName_many_nil (tokens : List Token) :
    matchesName (.many :: tokens) [] = matchesName tokens [] := by
  have hrow : (matchesEnds [] tokens).tail = [] := by
    simp [← List.length_eq_zero_iff, length_matchesEnds]
  rw [matchesName, matchesEnds, matchesEnds_eq_cons, hrow]
  simp

-- A star stands for nothing, or for a character and more.
theorem matchesName_many_cons (c : Char) (chars : List Char) (tokens : List Token) :
    matchesName (.many :: tokens) (c :: chars) =
      (matchesName tokens (c :: chars) || matchesName (.many :: tokens) chars) := by
  rw [matchesName, matchesEnds, matchesEnds_eq_cons, tail_matchesEnds]
  rfl

theorem matchesName_cons_nil {token : Token} (tokens : List Token) (h : token ≠ .many) :
    matchesName (token :: tokens) [] = false := by
  cases token <;> simp_all [matchesName, matchesEnds]

theorem matchesName_cons_cons {token : Token} (c : Char) (chars : List Char) (tokens : List Token)
    (h : token ≠ .many) :
    matchesName (token :: tokens) (c :: chars) = (token.accepts c && matchesName tokens chars) := by
  cases token with
  | many => exact absurd rfl h
  | _ =>
    rw [matchesName, matchesEnds, tail_matchesEnds, matchesEnds_eq_cons]
    · rfl
    · simp

-- One level of a search: a name as it is, names of a form, or any number of directories.
inductive Step where
  | literal (name : String)
  | names (tokens : List Token)
  | deep
deriving DecidableEq, Repr

def Step.ofTokens (tokens : List Token) : Step :=
  if tokens = [.deep] then .deep
  else
    let chars := tokens.filterMap fun
      | .char c => some c
      | _ => none
    if chars.length = tokens.length then .literal (String.ofList chars) else .names tokens

def Step.accepts (name : String) : Step → Bool
  | .literal only => name = only
  | .names tokens => matchesName tokens name.toList
  | .deep => true

end StaticSite.Glob
