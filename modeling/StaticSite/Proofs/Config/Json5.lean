import Mathlib.Data.Option.Basic
import StaticSite.Config.Json5

-- The ways to write keys with texts and flags as an object, and that each of them is read as what
-- has been written.
namespace StaticSite.Config.Json5

variable {quote c : Char} {chars text rest : List Char} {key : String} {setting : Setting}
  {settings : List (String × Setting)}

-- The inside of a string between two quotes: its characters, and one of their writings. A character
-- is written by itself, by a letter, or by one number or two. Escaped line ends stand for nothing.
-- Two numbers are joined by setting the bit above the first 16, which is right where the first
-- number does not set it already.
inductive Inside (quote : Char) : List Char → List Char → Prop where
  | nil : Inside quote [] []
  | plain {c : Char} {chars text : List Char} (hquote : c ≠ quote) (hslash : c ≠ '\\')
      (hend : isLineEnd c = false) (h : Inside quote chars text) :
      Inside quote (c :: chars) (c :: text)
  | escaped {c letter : Char} {chars text : List Char} (hletter : escape? letter = some c)
      (hend : isLineEnd letter = false) (h : Inside quote chars text) :
      Inside quote (c :: chars) ('\\' :: letter :: text)
  | byte {c : Char} {digits chars text : List Char} (hlength : digits.length = 2)
      (hnumber : Text.hexNumber? digits = some c.toNat) (h : Inside quote chars text) :
      Inside quote (c :: chars) ('\\' :: 'x' :: (digits ++ text))
  | unit {c : Char} {digits chars text : List Char} (hlength : digits.length = 4)
      (hnumber : Text.hexNumber? digits = some c.toNat) (h : Inside quote chars text) :
      Inside quote (c :: chars) ('\\' :: 'u' :: (digits ++ text))
  | units {c : Char} {high low : Nat} {first second chars text : List Char}
      (hfirst : first.length = 4) (hsecond : second.length = 4)
      (hhigh : Text.hexNumber? first = some (0xD800 + high))
      (hlow : Text.hexNumber? second = some (0xDC00 + low)) (hbound : high < 0x400 ∧ low < 0x400)
      (hchar : c.toNat = 0x10000 + (high * 0x400 + low)) (hjoined : high / 0x40 % 2 = 0)
      (h : Inside quote chars text) :
      Inside quote (c :: chars) ('\\' :: 'u' :: (first ++ '\\' :: 'u' :: (second ++ text)))
  | joined {ending : Char} {chars text : List Char} (hend : isLineEnd ending = true)
      (h : Inside quote chars text) : Inside quote chars ('\\' :: ending :: text)
  | joinedReturn {chars text : List Char} (h : Inside quote chars text) :
      Inside quote chars ('\\' :: '\r' :: '\n' :: text)

-- The characters of a name, and one of their writings.
inductive Name : List Char → List Char → Prop where
  | nil : Name [] []
  | plain {c : Char} {chars text : List Char} (hname : continuesName c = true)
      (h : Name chars text) : Name (c :: chars) (c :: text)
  | unit {c : Char} {digits chars text : List Char} (hlength : digits.length = 4)
      (hnumber : Text.hexNumber? digits = some c.toNat) (h : Name chars text) :
      Name (c :: chars) ('\\' :: 'u' :: (digits ++ text))

def IsQuote (c : Char) : Prop :=
  c = '"' ∨ c = '\''

inductive Key : String → List Char → Prop where
  | quoted {quote : Char} {key : String} {text : List Char} (hquote : IsQuote quote)
      (h : Inside quote key.toList text) : Key key (quote :: (text ++ [quote]))
  | name {key : String} {first : Char} {text : List Char} (h : Name key.toList (first :: text))
      (hfirst : startsName first = true ∨ first = '\\') : Key key (first :: text)

inductive Value : Setting → List Char → Prop where
  | quoted {quote : Char} {value : String} {text : List Char} (hquote : IsQuote quote)
      (h : Inside quote value.toList text) : Value (.text value) (quote :: (text ++ [quote]))
  | true : Value (.flag .true) "true".toList
  | false : Value (.flag .false) "false".toList

-- Blanks and comments.
inductive Blanks : List Char → Prop where
  | nil : Blanks []
  | blank {c : Char} {blanks : List Char} (hblank : isBlank c = true) (h : Blanks blanks) :
      Blanks (c :: blanks)
  | line {comment blanks : List Char} {ending : Char}
      (hcomment : ∀ c ∈ comment, isLineEnd c = false) (hend : isLineEnd ending = true)
      (h : Blanks blanks) :
      Blanks ('/' :: '/' :: (comment ++ ending :: blanks))
  | block {comment blanks : List Char} (hcomment : ¬ ['*', '/'] <:+: comment) (h : Blanks blanks) :
      Blanks ('/' :: '*' :: (comment ++ '*' :: '/' :: blanks))

-- What can stand at the end of the document: a comment at its very end needs no line end.
inductive Ending : List Char → Prop where
  | blanks {blanks : List Char} (h : Blanks blanks) : Ending blanks
  | comment {blanks comment : List Char} (h : Blanks blanks)
      (hcomment : ∀ c ∈ comment, isLineEnd c = false) : Ending (blanks ++ '/' :: '/' :: comment)

-- A key and its value, with blanks before and after each.
inductive Member : String → Setting → List Char → Prop where
  | mk {key : String} {setting : Setting} {first keyText second third valueText fourth : List Char}
      (hfirst : Blanks first) (hkey : Key key keyText) (hsecond : Blanks second)
      (hthird : Blanks third) (hvalue : Value setting valueText) (hfourth : Blanks fourth) :
      Member key setting
        (first ++ (keyText ++ (second ++ ':' :: (third ++ (valueText ++ fourth)))))

-- The members of an object up to its closing brace. There can be a comma after the last one.
inductive Members : List (String × Setting) → List Char → Prop where
  | close {blanks : List Char} (h : Blanks blanks) : Members [] (blanks ++ ['}'])
  | last {key : String} {setting : Setting} {text : List Char} (h : Member key setting text) :
      Members [(key, setting)] (text ++ ['}'])
  | more {key : String} {setting : Setting} {settings : List (String × Setting)}
      {text others : List Char} (h : Member key setting text) (hothers : Members settings others) :
      Members ((key, setting) :: settings) (text ++ ',' :: others)

-- The document writes these keys and values as an object, in this order.
inductive Writes : List (String × Setting) → String → Prop where
  | mk {settings : List (String × Setting)} {before members after : List Char}
      (hbefore : Blanks before) (h : Members settings members) (hafter : Ending after) :
      Writes settings (String.ofList (before ++ '{' :: (members ++ after)))

-- A number that stands for a character stands for it alone.
theorem decode?_unit (pieces : List Piece) (c : Char) :
    decode? (.unit c.toNat :: pieces) = (decode? pieces).map (c :: ·) := by
  have hvalid : c.toNat.isValidChar := c.valid
  have hhigh : ¬ (0xD800 ≤ c.toNat ∧ c.toNat ≤ 0xDBFF) := by
    unfold Nat.isValidChar at hvalid
    omega
  have hlow : ¬ (0xDC00 ≤ c.toNat ∧ c.toNat ≤ 0xDFFF) := by
    unfold Nat.isValidChar at hvalid
    omega
  match pieces with
  | [] => simp [decode?, hvalid, Char.ofNat_toNat]
  | .char next :: rest => simp [decode?, hvalid, Char.ofNat_toNat]
  | .unit next :: rest => rw [decode?, if_neg hhigh, if_neg hlow, Char.ofNat_toNat]

-- Where the bit is not set already, setting it adds it.
theorem or_eq_add {high : Nat} (hjoined : high / 0x40 % 2 = 0) :
    0x10000 ||| high * 0x400 = 0x10000 + high * 0x400 := by
  have hsmall : high % 0x40 * 0x400 < 2 ^ 16 := by omega
  have hsplit : high * 0x400 = 2 ^ 17 * (high / 0x80) ||| high % 0x40 * 0x400 := by
    rw [← Nat.two_pow_add_eq_or_of_lt (i := 17) (by omega)]
    omega
  calc 0x10000 ||| high * 0x400
      = 2 ^ 16 * 1 ||| (2 ^ 17 * (high / 0x80) ||| high % 0x40 * 0x400) :=
        congrArg (0x10000 ||| ·) hsplit
    _ = 2 ^ 17 * (high / 0x80) ||| (2 ^ 16 * 1 ||| high % 0x40 * 0x400) := by
        rw [← Nat.or_assoc, Nat.or_comm (2 ^ 16 * 1), Nat.or_assoc]
    _ = 2 ^ 17 * (high / 0x80) + (2 ^ 16 * 1 + high % 0x40 * 0x400) := by
        rw [← Nat.two_pow_add_eq_or_of_lt hsmall,
          ← Nat.two_pow_add_eq_or_of_lt (i := 17) (by omega)]
    _ = 0x10000 + high * 0x400 := by omega

theorem pair_eq {high low : Nat} (hbound : high < 0x400 ∧ low < 0x400)
    (hjoined : high / 0x40 % 2 = 0) (hchar : c.toNat = 0x10000 + (high * 0x400 + low)) :
    pair (0xD800 + high) (0xDC00 + low) = c := by
  have hbits : 0x10000 ||| high * 0x400 ||| low = c.toNat :=
    calc 0x10000 ||| high * 0x400 ||| low
        = 2 ^ 10 * (0x40 + high) ||| low := by rw [or_eq_add hjoined]; congr 1; omega
      _ = 2 ^ 10 * (0x40 + high) + low := (Nat.two_pow_add_eq_or_of_lt hbound.2 _).symm
      _ = c.toNat := by omega
  rw [pair, Nat.add_sub_cancel_left, Nat.add_sub_cancel_left, hbits, Char.ofNat_toNat]

theorem decode?_units (pieces : List Piece) {high low : Nat} (hbound : high < 0x400 ∧ low < 0x400)
    (hjoined : high / 0x40 % 2 = 0) (hchar : c.toNat = 0x10000 + (high * 0x400 + low)) :
    decode? (.unit (0xD800 + high) :: .unit (0xDC00 + low) :: pieces) =
      (decode? pieces).map (c :: ·) := by
  rw [decode?, if_pos (by omega), if_pos (by omega), pair_eq hbound hjoined hchar]

-- No string goes on with a line end.
theorem Inside.head_ne (h : Inside quote chars text) (hquote : IsQuote quote) :
    ∀ c ∈ (text ++ quote :: rest).head?, c ≠ '\n' := by
  cases h with
  | nil => rcases hquote with rfl | rfl <;> simp
  | plain _ _ hend _ =>
      rintro _ ⟨⟩ rfl
      cases hend
  | _ => simp

theorem string?_of_inside (h : Inside quote chars text) (hquote : IsQuote quote)
    (rest : List Char) : ∃ pieces, string? quote (text ++ quote :: rest) = some (pieces, rest) ∧
      decode? pieces = some chars := by
  induction h with
  | nil =>
      refine ⟨[], ?_, rfl⟩
      rcases hquote with rfl | rfl <;> simp [string?]
  | @plain c _ _ hne hslash hend _ ih =>
      obtain ⟨pieces, hread, hdecode⟩ := ih
      refine ⟨.char c :: pieces, ?_, by simp [decode?, hdecode]⟩
      rw [List.cons_append, string?]
      · simp [hne, hend, hread, push]
      all_goals simp_all
  | @escaped c letter _ _ hletter hend _ ih =>
      obtain ⟨pieces, hread, hdecode⟩ := ih
      refine ⟨.char c :: pieces, ?_, by simp [decode?, hdecode]⟩
      have hu : letter ≠ 'u' := by rintro rfl; cases hletter
      have hx : letter ≠ 'x' := by rintro rfl; cases hletter
      have hreturn : letter ≠ '\r' := by rintro rfl; cases hend
      rw [List.cons_append, List.cons_append, string?]
      · simp [hletter, hend, hread, push]
      all_goals simp_all
  | @byte c digits _ _ hlength hnumber _ ih =>
      obtain ⟨pieces, hread, hdecode⟩ := ih
      refine ⟨.unit c.toNat :: pieces, ?_, by simp [decode?_unit, hdecode]⟩
      match digits, hlength with
      | [_, _], _ => simp [string?, hnumber, hread, push]
  | @unit c digits _ _ hlength hnumber _ ih =>
      obtain ⟨pieces, hread, hdecode⟩ := ih
      refine ⟨.unit c.toNat :: pieces, ?_, by simp [decode?_unit, hdecode]⟩
      match digits, hlength with
      | [_, _, _, _], _ => simp [string?, hnumber, hread, push]
  | @units c high low first second _ _ hfirst hsecond hhigh hlow hbound hchar hjoined _ ih =>
      obtain ⟨pieces, hread, hdecode⟩ := ih
      refine ⟨.unit (0xD800 + high) :: .unit (0xDC00 + low) :: pieces, ?_,
        by simp [decode?_units pieces hbound hjoined hchar, hdecode]⟩
      match first, hfirst, second, hsecond with
      | [_, _, _, _], _, [_, _, _, _], _ => simp [string?, hhigh, hlow, hread, push]
  | @joined ending _ text hend htext ih =>
      obtain ⟨pieces, hread, hdecode⟩ := ih
      refine ⟨pieces, ?_, hdecode⟩
      have hu : ending ≠ 'u' := by rintro rfl; cases hend
      have hx : ending ≠ 'x' := by rintro rfl; cases hend
      have hfeed := @Inside.head_ne _ _ _ rest htext hquote
      rw [List.cons_append, List.cons_append, string?]
      · simp [hend, hread]
      · simp_all
      · simp_all
      · intro more _ heq
        exact hfeed '\n' (by rw [heq]; rfl) rfl
  | joinedReturn _ ih =>
      obtain ⟨pieces, hread, hdecode⟩ := ih
      exact ⟨pieces, by simp [string?, hread], hdecode⟩

-- What does not go on with a name before it.
def EndsName (rest : List Char) : Prop :=
  ∀ c ∈ rest.head?, continuesName c = false ∧ c ≠ '\\'

theorem name_of_name (h : Name chars text) (hrest : EndsName rest) :
    ∃ pieces, name (text ++ rest) = (pieces, rest) ∧ decode? pieces = some chars := by
  induction h with
  | nil =>
      refine ⟨[], ?_, rfl⟩
      cases rest with
      | nil => rfl
      | cons c rest =>
          obtain ⟨hname, hslash⟩ := hrest c rfl
          rw [List.nil_append, name]
          · simp [hname]
          · simp [hslash]
  | @plain c chars text hname _ ih =>
      obtain ⟨pieces, hread, hdecode⟩ := ih
      refine ⟨.char c :: pieces, ?_, by simp [decode?, hdecode]⟩
      rw [List.cons_append, name]
      · simp [hname, hread]
      · rintro _ _ _ _ _ rfl
        exact absurd hname (by decide +kernel)
  | @unit c digits chars text hlength hnumber _ ih =>
      obtain ⟨pieces, hread, hdecode⟩ := ih
      refine ⟨.unit c.toNat :: pieces, ?_, by simp [decode?_unit, hdecode]⟩
      match digits, hlength with
      | [_, _, _, _], _ => simp [name, hnumber, hread]

theorem ne_quote_of_startsName (h : startsName c = true ∨ c = '\\') : c ≠ '"' ∧ c ≠ '\'' := by
  rcases h with h | rfl
  · constructor <;> (rintro rfl; exact absurd h (by decide +kernel))
  · decide

theorem key?_of_key (h : Key key text) (hrest : EndsName rest) :
    ∃ pieces, key? (text ++ rest) = some (pieces, rest) ∧ decode? pieces = some key.toList := by
  cases h with
  | @quoted quote _ text hquote h =>
      obtain ⟨pieces, hread, hdecode⟩ := string?_of_inside h hquote rest
      refine ⟨pieces, ?_, hdecode⟩
      rcases hquote with rfl | rfl <;> simpa [key?] using hread
  | @name _ first text h hfirst =>
      obtain ⟨pieces, hread, hdecode⟩ := name_of_name h hrest
      obtain ⟨hdouble, hsingle⟩ := ne_quote_of_startsName hfirst
      refine ⟨pieces, ?_, hdecode⟩
      cases pieces with
      | nil =>
          rw [← Option.some.inj hdecode] at h
          cases h
      | cons piece pieces =>
          rw [List.cons_append] at hread ⊢
          rw [key?]
          · simp [hread, hfirst]
          · simp [hdouble]
          · simp [hsingle]

theorem word?_append (word : String) (rest : List Char) :
    word? word (word.toList ++ rest) = some rest := by
  rw [word?, if_pos (by simp), ← String.length_toList, List.drop_left]

theorem scalar?_of_value (h : Value setting text) (rest : List Char) :
    scalar? (text ++ rest) = some (setting, rest) := by
  cases h with
  | @quoted quote value text hquote h =>
      obtain ⟨pieces, hread, hdecode⟩ := string?_of_inside h hquote rest
      have hvalue : Json5.text pieces = .text value := by
        simp [Json5.text, hdecode]
      rcases hquote with rfl | rfl <;> simp [scalar?, hread, hvalue]
  | true =>
      rw [scalar?]
      · rw [word?_append, Option.map_some, Option.some_or, Option.some_or, Option.some_or]
      · simp
      · simp
  | false =>
      rw [scalar?]
      · have hother : word? "true" ("false".toList ++ rest) = none := by simp [word?]
        rw [word?_append, hother, Option.map_none, Option.none_or, Option.map_some, Option.some_or,
          Option.some_or]
      · simp
      · simp

-- The space separators and line ends by their numbers.
theorem continuesName_of_isBlank (h : isBlank c = true) : continuesName c = false := by
  have hblanks : ∀ code ∈ [0x09, 0x0A, 0x0B, 0x0C, 0x0D, 0x20, 0xA0, 0x1680, 0x2000, 0x2001,
      0x2002, 0x2003, 0x2004, 0x2005, 0x2006, 0x2007, 0x2008, 0x2009, 0x200A, 0x2028, 0x2029,
      0x202F, 0x205F, 0x3000, 0xFEFF], continuesName (Char.ofNat code) = false := by
    decide +kernel
  rw [← Char.ofNat_toNat c]
  refine hblanks _ ?_
  simp only [isBlank, isLineEnd, Bool.or_eq_true, Bool.and_eq_true, beq_iff_eq, decide_eq_true_eq,
    ← Char.toNat_inj] at h
  simp only [List.mem_cons, List.not_mem_nil, or_false]
  have hfeed : '\n'.toNat = 0x0A := rfl
  have hreturn : '\r'.toNat = 0x0D := rfl
  omega

theorem gap?_line {comment : List Char} {ending : Char}
    (hcomment : ∀ c ∈ comment, isLineEnd c = false) (hend : isLineEnd ending = true)
    (rest : List Char) :
    gap? .line (comment ++ ending :: rest) = gap? .blank rest := by
  induction comment with
  | nil =>
      rw [List.nil_append, gap?.eq_def]
      exact if_pos hend
  | cons c comment ih =>
      obtain ⟨hc, hcomment⟩ := List.forall_mem_cons.1 hcomment
      rw [List.cons_append, gap?.eq_def, ← ih hcomment]
      exact if_neg (by simp [hc])

theorem gap?_lastLine {comment : List Char} (hcomment : ∀ c ∈ comment, isLineEnd c = false) :
    gap? .line comment = some [] := by
  induction comment with
  | nil => rfl
  | cons c comment ih =>
      obtain ⟨hc, hcomment⟩ := List.forall_mem_cons.1 hcomment
      rw [gap?.eq_def, ← ih hcomment]
      exact if_neg (by simp [hc])

theorem gap?_block_cons (h : ¬ ['*', '/'] <+: c :: rest) :
    gap? .block (c :: rest) = gap? .block rest := by
  rw [gap?.eq_def]
  split <;> simp_all

-- The comment ends at the first place where it can.
theorem gap?_block {comment : List Char} (hcomment : ¬ ['*', '/'] <:+: comment) (rest : List Char) :
    gap? .block (comment ++ '*' :: '/' :: rest) = gap? .blank rest := by
  induction comment with
  | nil => rfl
  | cons c comment ih =>
      rw [List.infix_cons_iff, not_or] at hcomment
      rw [List.cons_append, gap?_block_cons, ih hcomment.2]
      intro hstart
      refine hcomment.1 ?_
      cases comment with
      | nil => simp at hstart
      | cons next comment => simpa using hstart

theorem gap?_blank_cons (hslash : c ≠ '/') :
    gap? .blank (c :: rest) = if isBlank c = true then gap? .blank rest else some (c :: rest) := by
  rw [gap?.eq_def]
  split <;> simp_all

theorem gap?_of_blanks {blanks : List Char} (h : Blanks blanks) (rest : List Char) :
    gap? .blank (blanks ++ rest) = gap? .blank rest := by
  induction h with
  | nil => rfl
  | @blank c blanks hblank _ ih =>
      have hslash : c ≠ '/' := by rintro rfl; exact absurd hblank (by decide)
      rw [List.cons_append, gap?_blank_cons hslash, if_pos hblank, ih]
  | @line comment blanks ending hcomment hend _ ih =>
      rw [List.cons_append, List.cons_append, List.append_assoc]
      exact (gap?_line hcomment hend (blanks ++ rest)).trans ih
  | @block comment blanks hcomment _ ih =>
      rw [List.cons_append, List.cons_append, List.append_assoc]
      exact (gap?_block hcomment (blanks ++ rest)).trans ih

theorem gap?_of_ending (h : Ending text) : gap? .blank text = some [] := by
  cases h with
  | blanks h => exact List.append_nil text ▸ gap?_of_blanks h []
  | @comment blanks comment h hcomment =>
      rw [gap?_of_blanks h]
      exact gap?_lastLine hcomment

theorem gap?_of_head {blanks : List Char} (h : Blanks blanks) (hblank : isBlank c = false)
    (hslash : c ≠ '/') (rest : List Char) :
    gap? .blank (blanks ++ c :: rest) = some (c :: rest) := by
  rw [gap?_of_blanks h, gap?_blank_cons hslash, if_neg (by simp [hblank])]

theorem Key.exists_cons (h : Key key text) :
    ∃ c more, text = c :: more ∧ isBlank c = false ∧ c ≠ '/' ∧ c ≠ '}' := by
  cases h with
  | quoted hquote _ =>
      refine ⟨_, _, rfl, ?_⟩
      rcases hquote with rfl | rfl <;> decide
  | @name _ first text _ hfirst =>
      refine ⟨_, _, rfl, ?_⟩
      rcases hfirst with hfirst | rfl
      · refine ⟨?_, ?_, ?_⟩
        · rw [Bool.eq_false_iff]
          intro hblank
          have hname := continuesName_of_isBlank hblank
          simp [continuesName, hfirst] at hname
        · rintro rfl; exact absurd hfirst (by decide +kernel)
        · rintro rfl; exact absurd hfirst (by decide +kernel)
      · decide

theorem Blanks.endsName {blanks : List Char} (h : Blanks blanks) (rest : List Char) :
    EndsName (blanks ++ ':' :: rest) := by
  rintro c hc
  cases h with
  | nil => cases hc; decide +kernel
  | blank hblank _ =>
      cases hc
      exact ⟨continuesName_of_isBlank hblank, by rintro rfl; exact absurd hblank (by decide)⟩
  | line _ _ _ => cases hc; decide +kernel
  | block _ _ => cases hc; decide +kernel

theorem Value.exists_cons (h : Value setting text) :
    ∃ c more, text = c :: more ∧ isBlank c = .false ∧ c ≠ '/' ∧ c ≠ '{' ∧ c ≠ '[' := by
  cases h with
  | quoted hquote _ =>
      refine ⟨_, _, rfl, ?_⟩
      rcases hquote with rfl | rfl <;> decide
  | true => exact ⟨'t', _, rfl, by decide⟩
  | false => exact ⟨'f', _, rfl, by decide⟩

theorem value?_of_value {blanks : List Char} (hblanks : Blanks blanks) (h : Value setting text)
    (bound : Nat) (rest : List Char) :
    value? (bound + 1) (blanks ++ (text ++ rest)) = some (setting, rest) := by
  have hread := scalar?_of_value h rest
  obtain ⟨c, more, rfl, hblank, hslash, hobject, hlist⟩ := h.exists_cons
  rw [List.cons_append] at hread ⊢
  rw [value?, gap?_of_head hblanks hblank hslash]
  simp [hread, hobject, hlist]

-- What one member says, up to the comma or the brace after it.
theorem members?_of_member (h : Member key setting text) (bound : Nat) {mark : Char}
    (hmark : mark = '}' ∨ mark = ',') (rest : List Char) :
    ∃ pieces, decode? pieces = some key.toList ∧ members? (bound + 2) (text ++ mark :: rest) =
      if mark = '}' then some ([(pieces, setting)], rest)
      else (members? (bound + 1) rest).map fun (members, rest) =>
        ((pieces, setting) :: members, rest) := by
  cases h with
  | @mk first keyText second third valueText fourth hfirst hkey hsecond hthird hvalue hfourth =>
      obtain ⟨c, more, rfl, hblank, hslash, hbrace⟩ := hkey.exists_cons
      have hvalueRead := value?_of_value hthird hvalue bound (fourth ++ mark :: rest)
      have hmarkRead := gap?_of_head hfourth (c := mark) (by rcases hmark with rfl | rfl <;> rfl)
        (by rcases hmark with rfl | rfl <;> decide) rest
      obtain ⟨pieces, hkeyRead, hdecode⟩ := key?_of_key hkey
        (hsecond.endsName (third ++ (valueText ++ (fourth ++ mark :: rest))))
      refine ⟨pieces, hdecode, ?_⟩
      simp only [List.append_assoc, List.cons_append] at hkeyRead ⊢
      rw [members?, gap?_of_head hfirst hblank hslash]
      have hcolonRead := gap?_of_head hsecond (c := ':') rfl (by decide)
        (third ++ (valueText ++ (fourth ++ mark :: rest)))
      rcases hmark with rfl | rfl
      · simp [hbrace, hkeyRead, hcolonRead, hvalueRead, hmarkRead]
      · cases hothers : members? (bound + 1) rest <;>
          simp [hbrace, hkeyRead, hcolonRead, hvalueRead, hmarkRead, hothers]

theorem Member.length_ge (h : Member key setting text) : 2 ≤ text.length := by
  cases h with
  | mk _ hkey _ _ _ _ =>
      obtain ⟨c, more, rfl, -⟩ := hkey.exists_cons
      simp only [List.length_append, List.length_cons]
      omega

-- A key as the object has it.
def member? (member : List Piece × Setting) : Option (String × Setting) := do
  return (String.ofList (← decode? member.1), member.2)

-- A member takes two calls, and more characters.
theorem members?_of_members (h : Members settings text) {bound : Nat} (hbound : text.length ≤ bound)
    (rest : List Char) : ∃ members, members? bound (text ++ rest) = some (members, rest) ∧
      members.mapM member? = some settings := by
  induction h generalizing bound with
  | @close blanks h =>
      rw [List.length_append, List.length_singleton] at hbound
      obtain ⟨bound, rfl⟩ : ∃ next, bound = next + 1 := ⟨bound - 1, by omega⟩
      refine ⟨[], ?_, rfl⟩
      rw [List.append_assoc, members?,
        List.singleton_append, gap?_of_head h (c := '}') rfl (by decide)]
      rfl
  | @last key setting text h =>
      have hlength := h.length_ge
      rw [List.length_append, List.length_singleton] at hbound
      obtain ⟨bound, rfl⟩ : ∃ next, bound = next + 2 := ⟨bound - 2, by omega⟩
      obtain ⟨pieces, hdecode, hread⟩ := members?_of_member h bound (.inl rfl) rest
      refine ⟨[(pieces, setting)], ?_, by simp [member?, hdecode]⟩
      rw [List.append_assoc, List.singleton_append, hread, if_pos rfl]
  | @more key setting settings text others h _ ih =>
      have hlength := h.length_ge
      rw [List.length_append, List.length_cons] at hbound
      obtain ⟨bound, rfl⟩ : ∃ next, bound = next + 2 := ⟨bound - 2, by omega⟩
      have hothers : others.length ≤ bound + 1 := by omega
      obtain ⟨members, hmembers, hentries⟩ := ih hothers
      obtain ⟨pieces, hdecode, hread⟩ := members?_of_member h bound (.inr rfl) (others ++ rest)
      refine ⟨(pieces, setting) :: members, ?_, by simp [member?, hdecode, hentries]⟩
      rw [List.append_assoc, List.cons_append, hread, if_neg (by decide), hmembers]
      rfl

-- What has been written is read.
theorem document?_of_writes {document : String} (h : Writes settings document) :
    document? document.toList = some (.object settings) := by
  cases h with
  | @mk before members after hbefore h hafter =>
      have hlength : members.length ≤ (before ++ '{' :: (members ++ after)).length := by
        simp only [List.length_append, List.length_cons]
        omega
      obtain ⟨pieces, hread, hentries⟩ := members?_of_members h hlength after
      rw [String.toList_ofList, document?, gap?_of_head hbefore (c := '{') rfl (by decide)]
      simp only [Option.bind_eq_bind, Option.bind_some, hread, gap?_of_ending hafter]
      change ((pieces.mapM member?).bind fun settings => some (Document.object settings)) = _
      rw [hentries, Option.bind_some]

-- A character that cannot stand for itself has a number of four digits.
theorem exists_inside (chars : List Char) : ∃ text, Inside '"' chars text := by
  induction chars with
  | nil => exact ⟨[], .nil⟩
  | cons c chars ih =>
      obtain ⟨text, htext⟩ := ih
      by_cases hplain : c ≠ '"' ∧ c ≠ '\\' ∧ isLineEnd c = false
      · exact ⟨c :: text, .plain hplain.1 hplain.2.1 hplain.2.2 htext⟩
      · have hsmall : c.toNat < 0x10000 := by
          refine Nat.lt_of_not_le fun hlarge => hplain ⟨?_, ?_, ?_⟩
          · rintro rfl; exact absurd hlarge (by decide)
          · rintro rfl; exact absurd hlarge (by decide)
          · rw [Bool.eq_false_iff]
            intro hend
            simp only [isLineEnd, Bool.or_eq_true, beq_iff_eq] at hend
            rcases hend with ((rfl | rfl) | hend) | hend
            · exact absurd hlarge (by decide)
            · exact absurd hlarge (by decide)
            · omega
            · omega
        obtain ⟨first, second, third, fourth, hnumber⟩ := Text.exists_hexNumber? hsmall
        exact ⟨_, .unit rfl hnumber htext⟩

-- Texts and flags can be written under any key.
theorem exists_writes (h : ∀ entry ∈ settings, entry.2 ≠ .other) :
    ∃ document, Writes settings document := by
  suffices hmembers : ∃ text, Members settings text by
    obtain ⟨text, htext⟩ := hmembers
    exact ⟨_, .mk .nil htext (.blanks .nil)⟩
  induction settings with
  | nil => exact ⟨_, .close .nil⟩
  | cons entry settings ih =>
      obtain ⟨hentry, hsettings⟩ := List.forall_mem_cons.1 h
      obtain ⟨others, hothers⟩ := ih hsettings
      obtain ⟨key, setting⟩ := entry
      obtain ⟨keyText, hkey⟩ := exists_inside key.toList
      obtain ⟨valueText, hvalue⟩ : ∃ valueText, Value setting valueText := by
        cases setting with
        | text value => exact (exists_inside value.toList).elim fun _ hvalue =>
            ⟨_, .quoted (.inl rfl) hvalue⟩
        | flag value =>
            cases value with
            | true => exact ⟨_, .true⟩
            | false => exact ⟨_, .false⟩
        | other => exact absurd rfl hentry
      exact ⟨_, .more (.mk .nil (.quoted (.inl rfl) hkey) .nil .nil hvalue .nil) hothers⟩

end StaticSite.Config.Json5
