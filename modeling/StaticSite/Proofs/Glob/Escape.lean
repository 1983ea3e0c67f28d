import StaticSite.Glob.Search
import StaticSite.Proofs.Except
import StaticSite.Proofs.Path.Walk

-- An escaped text is read as a pattern for the text itself.
namespace StaticSite.Glob

-- How a character is written in an escaped text, and how it is read there.
def escapeChar (c : Char) : List Char :=
  if c = '?' ∨ c = '*' ∨ c = '[' ∨ c = ']' then ['[', c, ']'] else [c]

def exactToken (c : Char) : Token :=
  if c = '?' ∨ c = '*' ∨ c = '[' ∨ c = ']' then .within [.single c] else .char c

theorem toList_escape (text : String) : (escape text).toList = text.toList.flatMap escapeChar :=
  String.toList_ofList

theorem exactToken_ne_many (c : Char) : exactToken c ≠ .many := by
  unfold exactToken
  split <;> simp

theorem accepts_exactToken (c other : Char) :
    (exactToken c).accepts other = decide (other = c) := by
  unfold exactToken
  split
  · exact Bool.or_false _
  · rfl

theorem matchesName_exactTokens (chars name : List Char) :
    matchesName (chars.map exactToken) name = true ↔ name = chars := by
  induction chars generalizing name with
  | nil => simp [matchesName_nil]
  | cons c rest ih =>
      rw [List.map_cons]
      cases name with
      | nil => simp [matchesName_cons_nil _ (exactToken_ne_many c)]
      | cons first more =>
          rw [matchesName_cons_cons _ _ _ (exactToken_ne_many c), Bool.and_eq_true,
            accepts_exactToken, ih]
          simp

-- A star stands for any beginning of a name.
theorem matchesName_many (tokens : List Token) (name : List Char) :
    matchesName (.many :: tokens) name = true ↔
      ∃ ending, ending <:+ name ∧ matchesName tokens ending = true := by
  induction name with
  | nil =>
      rw [matchesName_many_nil]
      simp [List.suffix_nil]
  | cons c rest ih =>
      rw [matchesName_many_cons, Bool.or_eq_true, ih]
      constructor
      · rintro (h | ⟨ending, hending, h⟩)
        · exact ⟨_, List.suffix_rfl, h⟩
        · exact ⟨ending, hending.trans (List.suffix_cons _ _), h⟩
      · rintro ⟨ending, hending, h⟩
        rcases List.suffix_cons_iff.1 hending with rfl | hending
        · exact .inl h
        · exact .inr ⟨ending, hending, h⟩

theorem parseFrom_escapeChar (position : Nat) (previous c : Char) (rest : List Char) :
    ∃ position' previous', parseFrom position previous (escapeChar c ++ rest) =
      (exactToken c :: ·) <$> parseFrom position' previous' rest := by
  unfold escapeChar exactToken
  by_cases hspecial : c = '?' ∨ c = '*' ∨ c = '[' ∨ c = ']'
  · have hclass : class? (c :: ']' :: rest) = some (.within [.single c], rest) := by
      have hne : c ≠ '!' := by rintro rfl; simp at hspecial
      simp [class?, hne, Text.cut?, specifiers]
    rw [if_pos hspecial, if_pos hspecial]
    simp only [List.cons_append, List.nil_append]
    rw [parseFrom]
    split
    · next hnone => rw [hclass] at hnone; cases hnone
    · next token after hsome =>
      rw [hclass] at hsome
      cases hsome
      exact ⟨_, _, by cases parseFrom _ _ rest <;> rfl⟩
  · rw [if_neg hspecial, if_neg hspecial]
    simp only [not_or] at hspecial
    rw [List.singleton_append, parseFrom]
    · exact ⟨_, _, by cases parseFrom _ _ rest <;> rfl⟩
    · exact hspecial.1
    · exact fun _ heq => absurd heq hspecial.2.1
    · exact fun _ heq => absurd heq hspecial.2.1
    · exact hspecial.2.1
    · exact hspecial.2.2.1

theorem parseFrom_escape (text rest : List Char) (position : Nat) (previous : Char) :
    ∃ position' previous', parseFrom position previous (text.flatMap escapeChar ++ rest) =
      (text.map exactToken ++ ·) <$> parseFrom position' previous' rest := by
  induction text generalizing position previous with
  | nil => exact ⟨position, previous, by cases h : parseFrom position previous rest <;> simp [h]⟩
  | cons c more ih =>
      rw [List.flatMap_cons, List.append_assoc]
      obtain ⟨middle, last, hfirst⟩ :=
        parseFrom_escapeChar position previous c (more.flatMap escapeChar ++ rest)
      obtain ⟨position', previous', hrest⟩ := ih middle last
      refine ⟨position', previous', ?_⟩
      rw [hfirst, hrest]
      cases parseFrom position' previous' rest <;> rfl

theorem parse_escape (text : String) : parse (escape text) = .ok (text.toList.map exactToken) := by
  obtain ⟨position, previous, h⟩ := parseFrom_escape text.toList [] 0 '/'
  rw [parse, toList_escape, ← List.append_nil (text.toList.flatMap escapeChar), h, parseFrom]
  simp [Functor.map, Except.map]

-- One level of a search for a name and no other.
def exactStep (name : String) : Step :=
  Step.ofTokens (name.toList.map exactToken)

theorem exactStep_cases (name : String) :
    exactStep name = .literal name ∨ exactStep name = .names (name.toList.map exactToken) := by
  unfold exactStep Step.ofTokens
  have hdeep : name.toList.map exactToken ≠ [.deep] := by
    intro heq
    obtain ⟨c, -, hc⟩ := List.map_eq_singleton_iff.1 heq
    unfold exactToken at hc
    split at hc <;> cases hc
  rw [if_neg hdeep]
  dsimp only
  split
  · next hlength =>
    left
    rw [List.filterMap_length_eq_length] at hlength
    have hchar : ∀ c ∈ name.toList, exactToken c = .char c := by
      intro c hmem
      have hsome := hlength (exactToken c) (List.mem_map.2 ⟨c, hmem, rfl⟩)
      unfold exactToken at hsome ⊢
      split
      · next hspecial => simp [hspecial] at hsome
      · rfl
    rw [List.map_congr_left hchar, List.filterMap_map]
    congr 1
    apply String.toList_inj.1
    rw [String.toList_ofList]
    exact List.filterMap_some
  · exact .inr rfl

theorem mem_escapeChar {c other : Char} (h : other ∈ escapeChar c) :
    other = c ∨ other = '[' ∨ other = ']' := by
  unfold escapeChar at h
  split at h <;> simp at h <;> grind

theorem getLast?_escapeChar {c : Char} (hslash : c ≠ '/') (hback : c ≠ '\\') :
    ∃ front last, escapeChar c = front ++ [last] ∧ last ≠ '/' ∧ last ≠ '\\' := by
  unfold escapeChar
  split
  · exact ⟨['[', c], ']', rfl, by decide, by decide⟩
  · exact ⟨[], c, rfl, hslash, hback⟩

theorem pieces_append_of_not_mem {front more piece : List Char} {others : List (List Char)}
    (h : '/' ∉ front) (heq : Path.pieces more = piece :: others) :
    Path.pieces (front ++ more) = (front ++ piece) :: others := by
  induction front with
  | nil => exact heq
  | cons c rest ih =>
      rw [List.mem_cons, not_or] at h
      rw [List.cons_append, Path.pieces, if_neg (Ne.symm h.1), ih h.2]
      rfl

theorem pieces_flatMap_escapeChar (chars : List Char) :
    Path.pieces (chars.flatMap escapeChar) = (Path.pieces chars).map (·.flatMap escapeChar) := by
  induction chars with
  | nil => rfl
  | cons c rest ih =>
      rw [List.flatMap_cons, Path.pieces]
      split
      · next hc =>
        rw [hc, show escapeChar '/' = ['/'] by decide, List.singleton_append, Path.pieces,
          if_pos rfl, ih]
        rfl
      · next hc =>
        obtain ⟨piece, others, heq⟩ := List.exists_cons_of_ne_nil (Path.pieces_ne_nil rest)
        have hslash : '/' ∉ escapeChar c := by
          intro hmem
          rcases mem_escapeChar hmem with h | h | h
          · exact hc h.symm
          · exact absurd h (by decide)
          · exact absurd h (by decide)
        rw [heq] at ih ⊢
        rw [pieces_append_of_not_mem hslash ih]
        rfl

-- Each segment of an escaped text is the escaped segment of the text.
theorem segments_escape (text : String) :
    Path.segments (escape text) = (Path.segments text).map escape := by
  rw [Path.segments, toList_escape, pieces_flatMap_escapeChar, Path.segments, List.map_map,
    List.map_map]
  refine List.map_congr_left fun piece _ => ?_
  apply String.toList_inj.1
  simp only [Function.comp_apply, toList_escape, String.toList_ofList]

theorem levels_eq {pattern : List Char} {front : List String} {last : String} (hlast : last ≠ "")
    (h : Path.segments (String.ofList pattern) = front ++ [last]) :
    levels pattern = front ++ [last] := by
  unfold levels
  dsimp only
  rw [h, List.getLast?_concat, if_neg (by simpa using hlast)]

-- The levels of a pattern for what lies at any depth below a directory.
theorem levels_below {last : String} (hlast : last ≠ "") (hslash : '/' ∉ last.toList) :
    levels ("**/" ++ last).toList = ["**", last] ∧
      ∀ chars : List Char, levels (chars.flatMap escapeChar ++ '/' :: ("**/" ++ last).toList) =
        (Path.segments (String.ofList chars)).map escape ++ ["**", last] := by
  have hback : Path.segments (String.ofList ("**/" ++ last).toList) = ["**"] ++ [last] := by
    have hsplit : ("**/" ++ last).toList = "**".toList ++ '/' :: last.toList := by simp
    rw [hsplit, Path.segments_ofList_append, String.ofList_toList, String.ofList_toList,
      Path.segments_of_not_mem hslash, Path.segments_of_not_mem (by decide)]
  refine ⟨levels_eq hlast hback, fun chars => ?_⟩
  have hescape : String.ofList (chars.flatMap escapeChar) = escape (String.ofList chars) := by
    rw [escape, String.toList_ofList]
    rfl
  have hsegments : Path.segments (String.ofList (chars.flatMap escapeChar ++
      '/' :: ("**/" ++ last).toList)) =
        ((Path.segments (String.ofList chars)).map escape ++ ["**"]) ++ [last] := by
    rw [Path.segments_ofList_append, hescape, segments_escape, hback, List.append_assoc]
  rw [levels_eq hlast hsegments, List.append_assoc]
  rfl

end StaticSite.Glob
