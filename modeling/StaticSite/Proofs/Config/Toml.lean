import Mathlib.Data.List.TakeDrop
import StaticSite.Config.Toml

-- The ways to write keys with texts and flags in a document, one key to a line, and that each of
-- them is read as what has been written.
namespace StaticSite.Config.Toml

variable {c : Char} {chars text rest : List Char} {key : String} {setting : Setting}
  {settings : List (String × Setting)}

-- The inside of a string in double quotes: its characters, and one of their writings.
inductive Quoted : List Char → List Char → Prop where
  | nil : Quoted [] []
  | plain {c : Char} {chars text : List Char} (hplain : isPlain c = true) (hquote : c ≠ '"')
      (hslash : c ≠ '\\') (h : Quoted chars text) : Quoted (c :: chars) (c :: text)
  | escaped {c letter : Char} {chars text : List Char} (hletter : escape? letter = some c)
      (h : Quoted chars text) : Quoted (c :: chars) ('\\' :: letter :: text)
  | numbered {c : Char} {digits chars text : List Char} (hlength : digits.length = 4)
      (hnumber : Text.hexNumber? digits = some c.toNat) (h : Quoted chars text) :
      Quoted (c :: chars) ('\\' :: 'u' :: (digits ++ text))
  | numberedLong {c : Char} {digits chars text : List Char} (hlength : digits.length = 8)
      (hnumber : Text.hexNumber? digits = some c.toNat) (h : Quoted chars text) :
      Quoted (c :: chars) ('\\' :: 'U' :: (digits ++ text))

-- Between single quotes every character stands for itself.
def IsLiteral (chars : List Char) : Prop :=
  ∀ c ∈ chars, isPlain c = true ∧ c ≠ '\''

inductive Key : String → List Char → Prop where
  | bare {key : String} (hne : key ≠ "") (h : ∀ c ∈ key.toList, isBareKey c = true) :
      Key key key.toList
  | quoted {key : String} {text : List Char} (h : Quoted key.toList text) :
      Key key ('"' :: (text ++ ['"']))
  | literal {key : String} (h : IsLiteral key.toList) : Key key ('\'' :: (key.toList ++ ['\'']))

inductive Value : Setting → List Char → Prop where
  | quoted {value : String} {text : List Char} (h : Quoted value.toList text) :
      Value (.text value) ('"' :: (text ++ ['"']))
  | literal {value : String} (h : IsLiteral value.toList) :
      Value (.text value) ('\'' :: (value.toList ++ ['\'']))
  | true : Value (.flag .true) "true".toList
  | false : Value (.flag .false) "false".toList

def IsSpaces (blanks : List Char) : Prop :=
  ∀ c ∈ blanks, isSpace c = true

-- What can stand at the end of a line: blanks, and a comment.
inductive Tail : List Char → Prop where
  | blank {blanks : List Char} (h : IsSpaces blanks) : Tail blanks
  | comment {blanks body : List Char} (h : IsSpaces blanks) (hbody : ∀ c ∈ body, isPlain c = true) :
      Tail (blanks ++ '#' :: body)

-- The end of a line before the rest of the document. The last line can do without.
inductive Ends : List Char → List Char → Prop where
  | last : Ends [] []
  | feed {rest : List Char} : Ends rest ('\n' :: rest)
  | returnFeed {rest : List Char} : Ends rest ('\r' :: '\n' :: rest)

-- A line holds one key and its value, or nothing but a comment.
inductive Lines : List (String × Setting) → List Char → Prop where
  | nil : Lines [] []
  | blank {settings : List (String × Setting)} {tail ending rest : List Char} (htail : Tail tail)
      (hends : Ends rest ending) (h : Lines settings rest) : Lines settings (tail ++ ending)
  | pair {key : String} {setting : Setting} {settings : List (String × Setting)}
      {indent keyText before after valueText tail ending rest : List Char}
      (hindent : IsSpaces indent) (hkey : Key key keyText) (hbefore : IsSpaces before)
      (hafter : IsSpaces after) (hvalue : Value setting valueText) (htail : Tail tail)
      (hends : Ends rest ending) (h : Lines settings rest) :
      Lines ((key, setting) :: settings)
        (indent ++ (keyText ++ (before ++ '=' :: (after ++ (valueText ++ (tail ++ ending))))))

-- The document writes these keys and values, in this order. A byte order mark can come first.
def Writes (settings : List (String × Setting)) (document : String) : Prop :=
  Lines settings document.toList ∨
    ∃ rest, document.toList = Char.ofNat 0xFEFF :: rest ∧ Lines settings rest

theorem numbered?_toNat {digits : List Char} (h : Text.hexNumber? digits = some c.toNat) :
    numbered? digits = some c := by
  rw [numbered?, h]
  simp [Char.ofNat_toNat, show c.toNat.isValidChar from c.valid]

theorem basic?_of_quoted (h : Quoted chars text) (rest : List Char) :
    basic? (text ++ '"' :: rest) = some (chars, rest) := by
  induction h with
  | nil => simp [basic?]
  | plain hplain hquote hslash _ ih =>
      rw [List.cons_append, basic?]
      · simp [hplain, ih, push]
      all_goals simp_all
  | @escaped c letter chars text hletter _ ih =>
      have hshort : letter ≠ 'u' := by rintro rfl; cases hletter
      have hlong : letter ≠ 'U' := by rintro rfl; cases hletter
      rw [List.cons_append, List.cons_append, basic?]
      · simp [hletter, ih, push]
      all_goals simp_all
  | @numbered c digits chars text hlength hnumber _ ih =>
      match digits, hlength with
      | [_, _, _, _], _ => simp [basic?, numbered?_toNat hnumber, ih, push]
  | @numberedLong c digits chars text hlength hnumber _ ih =>
      match digits, hlength with
      | [_, _, _, _, _, _, _, _], _ => simp [basic?, numbered?_toNat hnumber, ih, push]

theorem literal?_of_isLiteral (h : IsLiteral chars) (rest : List Char) :
    literal? (chars ++ '\'' :: rest) = some (chars, rest) := by
  induction chars with
  | nil => simp [literal?]
  | cons c chars ih =>
      obtain ⟨⟨hplain, hquote⟩, hchars⟩ := List.forall_mem_cons.1 h
      rw [List.cons_append, literal?]
      · simp [hplain, ih hchars, push]
      all_goals simp_all

theorem span_of_head {p : Char → Bool} (h : ∀ c ∈ chars, p c = true)
    (hrest : ∀ c ∈ rest.head?, p c = false) : (chars ++ rest).span p = (chars, rest) := by
  have hnone : rest.takeWhile p = [] ∧ rest.dropWhile p = rest := by
    cases rest with
    | nil => exact ⟨rfl, rfl⟩
    | cons c rest => simp [hrest c rfl]
  rw [List.span_eq_takeWhile_dropWhile, List.takeWhile_append_of_pos h,
    List.dropWhile_append_of_pos h, hnone.1, hnone.2, List.append_nil]

-- After a bare key, no character may follow that could go on with it.
theorem key?_of_key (h : Key key text) (hrest : ∀ c ∈ rest.head?, isBareKey c = false) :
    key? (text ++ rest) = some (key.toList, rest) := by
  cases h with
  | bare hne h =>
      have hspan := span_of_head h hrest
      cases hchars : key.toList with
      | nil => exact absurd (String.toList_eq_nil_iff.1 hchars) hne
      | cons c chars =>
          rw [hchars] at h hspan
          have hbare := h c List.mem_cons_self
          rw [List.cons_append] at hspan ⊢
          rw [key?]
          · rw [hspan]
          all_goals
            rintro _ heq
            cases heq
            cases hbare
  | quoted h => simpa [key?] using basic?_of_quoted h rest
  | literal h => simpa [key?] using literal?_of_isLiteral h rest

theorem Quoted.head_ne (h : Quoted chars text) : ∀ c ∈ text.head?, c ≠ '"' := by
  cases h with
  | nil => simp
  | plain _ hquote _ _ => simpa using hquote
  | escaped _ _ => simp
  | numbered _ _ _ => simp
  | numberedLong _ _ _ => simp

theorem word?_append (word : String) (setting : Setting) (rest : List Char) :
    word? word setting (word.toList ++ rest) = some (setting, rest) := by
  rw [word?, if_pos (by simp), ← String.length_toList, List.drop_left]

-- After an empty string, no quote may follow that would make it a longer opening.
theorem value?_of_value (h : Value setting text)
    (hrest : ∀ c ∈ rest.head?, c ≠ '"' ∧ c ≠ '\'') :
    value? (text ++ rest) = some (setting, rest) := by
  cases h with
  | @quoted value text h =>
      have hread := basic?_of_quoted h rest
      have hshort : ∀ more, text ++ '"' :: rest ≠ '"' :: '"' :: more := by
        rintro more heq
        cases text with
        | nil => exact (hrest '"' (by rw [(List.cons.inj heq).2]; rfl)).1 rfl
        | cons c text => exact h.head_ne c rfl (List.cons.inj heq).1
      rw [List.cons_append, List.append_assoc, List.singleton_append, value?]
      · simp [hread]
      · exact hshort
  | @literal value h =>
      have hread := literal?_of_isLiteral h rest
      have hshort : ∀ more, value.toList ++ '\'' :: rest ≠ '\'' :: '\'' :: more := by
        rintro more heq
        cases hchars : value.toList with
        | nil =>
            rw [hchars] at heq
            exact (hrest '\'' (by rw [(List.cons.inj heq).2]; rfl)).2 rfl
        | cons c chars =>
            rw [hchars] at heq
            exact (h c (hchars ▸ List.mem_cons_self)).2 (List.cons.inj heq).1
      rw [List.cons_append, List.append_assoc, List.singleton_append, value?]
      · simp [hread]
      · exact hshort
  | true =>
      change (word? "true" (.flag true) ("true".toList ++ rest)).or
        (word? "false" (.flag false) ("true".toList ++ rest)) = _
      rw [word?_append, Option.some_or]
  | false => exact word?_append "false" (.flag false) rest

theorem eq_of_isSpace (h : isSpace c = true) : c = ' ' ∨ c = '\t' := by
  simpa [isSpace] using h

-- What a key begins with.
def startsKey (c : Char) : Bool :=
  isBareKey c || c == '"' || c == '\''

theorem Key.exists_cons (h : Key key text) : ∃ c more, text = c :: more ∧ startsKey c = true := by
  cases h with
  | bare hne h =>
      cases hchars : key.toList with
      | nil => exact absurd (String.toList_eq_nil_iff.1 hchars) hne
      | cons c chars =>
          exact ⟨c, chars, rfl, by simp [startsKey, h c (hchars ▸ List.mem_cons_self)]⟩
  | quoted h => exact ⟨_, _, rfl, rfl⟩
  | literal h => exact ⟨_, _, rfl, rfl⟩

theorem isSpace_of_startsKey (h : startsKey c = true) : isSpace c = false := by
  rw [Bool.eq_false_iff]
  intro hspace
  rcases eq_of_isSpace hspace with rfl | rfl <;> exact absurd h (by decide)

theorem dropWhile_spaces {blanks : List Char} (h : IsSpaces blanks)
    (hrest : ∀ c ∈ rest.head?, isSpace c = false) : (blanks ++ rest).dropWhile isSpace = rest := by
  have hspan := span_of_head h hrest
  rw [List.span_eq_takeWhile_dropWhile] at hspan
  exact (Prod.mk.inj hspan).2

theorem Ends.head_eq {ending : List Char} (h : Ends rest ending) :
    ∀ c ∈ ending.head?, c = '\n' ∨ c = '\r' := by
  cases h <;> simp

theorem lineEnd?_of_tail {tail ending : List Char} (htail : Tail tail) (hends : Ends rest ending) :
    lineEnd? (tail ++ ending) = some rest := by
  have hspace : ∀ c ∈ ending.head?, isSpace c = false := fun c hc => by
    rcases hends.head_eq c hc with rfl | rfl <;> rfl
  have hplain : ∀ c ∈ ending.head?, isPlain c = false := fun c hc => by
    rcases hends.head_eq c hc with rfl | rfl <;> rfl
  cases htail with
  | blank h =>
      rw [lineEnd?, dropWhile_spaces h hspace]
      cases hends <;> rfl
  | comment h hbody =>
      have hcomment := span_of_head hbody hplain
      rw [List.span_eq_takeWhile_dropWhile] at hcomment
      rw [List.append_assoc, lineEnd?, dropWhile_spaces h (by simp [isSpace]), List.cons_append]
      simp only [(Prod.mk.inj hcomment).2]
      cases hends <;> rfl

theorem IsSpaces.head_eq {blanks : List Char} (h : IsSpaces blanks) :
    ∀ d ∈ (blanks ++ c :: rest).head?, isSpace d = true ∨ d = c := by
  cases blanks with
  | nil => simp
  | cons blank blanks => simpa using .inl (h blank List.mem_cons_self)

-- What follows the value on its line, or stands on a line without one.
def endsValue (c : Char) : Bool :=
  isSpace c || c == '#' || c == '\n' || c == '\r'

theorem Tail.head_ends {tail ending : List Char} (htail : Tail tail) (hends : Ends rest ending) :
    ∀ c ∈ (tail ++ ending).head?, endsValue c = true := by
  intro c hc
  cases htail with
  | blank h =>
      cases tail with
      | nil => rcases hends.head_eq c hc with rfl | rfl <;> rfl
      | cons blank blanks =>
          cases hc
          simp [endsValue, h c List.mem_cons_self]
  | comment h _ =>
      rw [List.append_assoc] at hc
      rcases h.head_eq c hc with hc | rfl
      · simp [endsValue, hc]
      · rfl

theorem ne_quote_of_endsValue (h : endsValue c = true) : c ≠ '"' ∧ c ≠ '\'' := by
  constructor <;> (rintro rfl; exact absurd h (by decide))

theorem pair?_of_pair {indent keyText before after valueText more : List Char}
    (hindent : IsSpaces indent) (hkey : Key key keyText) (hbefore : IsSpaces before)
    (hafter : IsSpaces after) (hvalue : Value setting valueText)
    (hmore : ∀ c ∈ more.head?, c ≠ '"' ∧ c ≠ '\'') :
    pair? (indent ++ (keyText ++ (before ++ '=' :: (after ++ (valueText ++ more))))) =
      some ((key, setting), more) := by
  have hkeyHead : ∀ c ∈ (keyText ++ (before ++ '=' :: (after ++ (valueText ++ more)))).head?,
      isSpace c = false := by
    obtain ⟨first, others, rfl, hfirst⟩ := hkey.exists_cons
    rintro _ ⟨⟩
    exact isSpace_of_startsKey hfirst
  have hvalueHead : ∀ c ∈ (valueText ++ more).head?, isSpace c = false := by
    cases hvalue <;> simp [isSpace]
  have hbare : ∀ c ∈ (before ++ '=' :: (after ++ (valueText ++ more))).head?,
      isBareKey c = false := fun c hc => by
    rcases hbefore.head_eq c hc with hc | rfl
    · rcases eq_of_isSpace hc with rfl | rfl <;> rfl
    · rfl
  rw [pair?, dropWhile_spaces hindent hkeyHead, key?_of_key hkey hbare]
  simp only [Option.bind_eq_bind, Option.bind_some]
  rw [dropWhile_spaces hbefore (by simp [isSpace])]
  simp only [dropWhile_spaces hafter hvalueHead, value?_of_value hvalue hmore]
  simp

-- A line with a key is not empty.
theorem lineEnd?_of_key {indent keyText : List Char} (hindent : IsSpaces indent)
    (hkey : Key key keyText) (rest : List Char) :
    lineEnd? (indent ++ (keyText ++ rest)) = none := by
  obtain ⟨first, others, rfl, hfirst⟩ := hkey.exists_cons
  have hhash : first ≠ '#' := by rintro rfl; exact absurd hfirst (by decide)
  have hfeed : first ≠ '\n' := by rintro rfl; exact absurd hfirst (by decide)
  have hreturn : first ≠ '\r' := by rintro rfl; exact absurd hfirst (by decide)
  rw [List.cons_append, lineEnd?,
    dropWhile_spaces hindent (by simpa using isSpace_of_startsKey hfirst)]
  simp [hhash, hfeed, hreturn]

theorem Ends.length_le {ending : List Char} (h : Ends rest ending) :
    rest.length ≤ ending.length - 1 := by
  cases h <;> simp

-- Each line takes one step and at least one character.
theorem lines?_of_lines (h : Lines settings text) {bound : Nat} (hbound : text.length ≤ bound) :
    lines? bound text = some settings := by
  induction h generalizing bound with
  | nil => cases bound <;> rfl
  | @blank settings tail ending rest htail hends h ih =>
      have hlength := hends.length_le
      cases hline : tail ++ ending with
      | nil =>
          obtain ⟨rfl, rfl⟩ := List.append_eq_nil_iff.1 hline
          cases hends
          exact ih hbound
      | cons c more =>
          have hpositive := congrArg List.length hline
          rw [List.length_append] at hbound hpositive
          rw [List.length_cons] at hpositive
          obtain ⟨bound, rfl⟩ : ∃ next, bound = next + 1 := ⟨bound - 1, by omega⟩
          rw [← hline, lines?, lineEnd?_of_tail htail hends]
          · exact ih (by omega)
          · simp [hline]
  | @pair key setting settings indent keyText before after valueText tail ending rest hindent hkey
      hbefore hafter hvalue htail hends h ih =>
      have hlength := hends.length_le
      simp only [List.length_append, List.length_cons] at hbound
      obtain ⟨bound, rfl⟩ : ∃ next, bound = next + 1 := ⟨bound - 1, by omega⟩
      have hread : rest.length ≤ bound := by omega
      have hmore := fun c hc => ne_quote_of_endsValue (htail.head_ends hends c hc)
      rw [lines?]
      · simp [lineEnd?_of_key hindent hkey,
          pair?_of_pair hindent hkey hbefore hafter hvalue hmore, lineEnd?_of_tail htail hends,
          ih hread]
      · simp

-- No line begins with a byte order mark.
theorem Lines.head_ne (h : Lines settings text) : text.head? ≠ some (Char.ofNat 0xFEFF) := by
  intro hhead
  cases h with
  | nil => cases hhead
  | blank htail hends _ => exact absurd (htail.head_ends hends _ hhead) (by decide)
  | @pair key _ _ indent keyText _ _ _ _ _ _ hindent hkey _ _ _ _ _ _ =>
      obtain ⟨first, others, rfl, hfirst⟩ := hkey.exists_cons
      rcases hindent.head_eq _ hhead with hspace | rfl
      · exact absurd hspace (by decide)
      · exact absurd hfirst (by decide)

-- What has been written is read.
theorem settings?_of_writes {document : String} (h : Writes settings document) :
    settings? document.toList = some settings := by
  rcases h with h | ⟨rest, hdocument, h⟩
  · rw [settings?, if_neg h.head_ne]
    exact lines?_of_lines h (Nat.le_refl _)
  · rw [settings?, hdocument, List.head?_cons, if_pos rfl]
    exact lines?_of_lines h (Nat.le_refl _)

-- A character that cannot stand for itself has a number of four digits.
theorem exists_quoted (chars : List Char) : ∃ text, Quoted chars text := by
  induction chars with
  | nil => exact ⟨[], .nil⟩
  | cons c chars ih =>
      obtain ⟨text, htext⟩ := ih
      by_cases hplain : isPlain c = true ∧ c ≠ '"' ∧ c ≠ '\\'
      · exact ⟨c :: text, .plain hplain.1 hplain.2.1 hplain.2.2 htext⟩
      · have hsmall : c.toNat < 0x10000 := by
          by_contra hlarge
          refine hplain ⟨?_, ?_, ?_⟩
          · simp only [isPlain, Bool.or_eq_true, Bool.and_eq_true, decide_eq_true_eq, bne_iff_ne]
            omega
          · rintro rfl; exact hlarge (by decide)
          · rintro rfl; exact hlarge (by decide)
        obtain ⟨first, second, third, fourth, hnumber⟩ := Text.exists_hexNumber? hsmall
        exact ⟨_, .numbered rfl hnumber htext⟩

-- Texts and flags can be written under any key.
theorem exists_writes (h : ∀ entry ∈ settings, entry.2 ≠ .other) :
    ∃ document, Writes settings document := by
  suffices hlines : ∃ text, Lines settings text by
    obtain ⟨text, htext⟩ := hlines
    exact ⟨String.ofList text, .inl (by rwa [String.toList_ofList])⟩
  induction settings with
  | nil => exact ⟨[], .nil⟩
  | cons entry settings ih =>
      obtain ⟨hentry, hsettings⟩ := List.forall_mem_cons.1 h
      obtain ⟨rest, hrest⟩ := ih hsettings
      obtain ⟨key, setting⟩ := entry
      obtain ⟨keyText, hkey⟩ := exists_quoted key.toList
      obtain ⟨valueText, hvalue⟩ : ∃ valueText, Value setting valueText := by
        cases setting with
        | text value => exact (exists_quoted value.toList).elim fun _ hvalue => ⟨_, .quoted hvalue⟩
        | flag value =>
            cases value with
            | true => exact ⟨_, .true⟩
            | false => exact ⟨_, .false⟩
        | other => exact absurd rfl hentry
      have hnone : IsSpaces [] := fun _ hmem => nomatch hmem
      exact ⟨_, .pair hnone (.quoted hkey) hnone hnone hvalue (.blank hnone) .feed hrest⟩

end StaticSite.Config.Toml
