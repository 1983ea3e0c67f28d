import StaticSite.Config.Setting
import StaticSite.Text.Hex
import StaticSite.Text.Letter

-- A JSON5 document that is an object or a list, as far as a config needs it: what is nested
-- deeper is checked and forgotten.

namespace StaticSite.Config.Json5

def isLineEnd (c : Char) : Bool :=
  c == '\n' || c == '\r' || c.toNat == 0x2028 || c.toNat == 0x2029

-- Line ends, the space separators of Unicode, and the byte order mark.
def isBlank (c : Char) : Bool :=
  let code := c.toNat
  isLineEnd c || code == 0x09 || code == 0x0B || code == 0x0C || code == 0x20 || code == 0xA0
    || code == 0xFEFF || code == 0x1680 || (0x2000 ≤ code && code ≤ 0x200A) || code == 0x202F
    || code == 0x205F || code == 0x3000

-- Where a run of blanks and comments stands.
inductive Gap where
  | blank
  | line
  | block
deriving DecidableEq, Repr

-- The rest after blanks and comments. A comment over several lines has to be closed.
def gap? : Gap → List Char → Option (List Char)
  | .block, [] => none
  | _, [] => some []
  | .block, '*' :: '/' :: rest => gap? .blank rest
  | .block, _ :: rest => gap? .block rest
  | .line, c :: rest => if isLineEnd c then gap? .blank rest else gap? .line rest
  | .blank, '/' :: '*' :: rest => gap? .block rest
  | .blank, '/' :: '/' :: rest => gap? .line rest
  | .blank, c :: rest => if isBlank c then gap? .blank rest else some (c :: rest)

-- A string is written in characters and in 16-bit units given by number.
inductive Piece where
  | char (c : Char)
  | unit (code : Nat)
deriving DecidableEq, Repr

-- The character that two units make: ten bits from each, and the bit above them set.
def pair (high low : Nat) : Char :=
  Char.ofNat (0x10000 ||| (high - 0xD800) * 0x400 ||| (low - 0xDC00))

-- The characters of a string. A high unit has to be followed by a low one.
def decode? : List Piece → Option (List Char)
  | [] => some []
  | .char c :: rest => (decode? rest).map (c :: ·)
  | .unit high :: .unit low :: rest =>
    if 0xD800 ≤ high ∧ high ≤ 0xDBFF then
      if 0xDC00 ≤ low ∧ low ≤ 0xDFFF then (decode? rest).map (pair high low :: ·) else none
    else if 0xDC00 ≤ high ∧ high ≤ 0xDFFF then none
    else (decode? (.unit low :: rest)).map (Char.ofNat high :: ·)
  | .unit code :: rest =>
    if code.isValidChar then (decode? rest).map (Char.ofNat code :: ·) else none

-- Readers return what they read and the rest of the document.
def push (piece : Piece) (reading : Option (List Piece × List Char)) : Option (List Piece × List Char) :=
  reading.map fun (pieces, rest) => (piece :: pieces, rest)

-- What a character means after a backslash: most stand for themselves.
def escape? (c : Char) : Option Char :=
  match c with
  | 'b' => some (Char.ofNat 0x08)
  | 't' => some '\t'
  | 'n' => some '\n'
  | 'v' => some (Char.ofNat 0x0B)
  | 'f' => some (Char.ofNat 0x0C)
  | 'r' => some '\r'
  | '0' => some (Char.ofNat 0)
  | 'x' => none
  | 'u' => none
  | c => if c.isDigit then none else some c

-- The inside of a string up to the closing quote. An escaped line end leaves no trace.
def string? (quote : Char) : List Char → Option (List Piece × List Char)
  | [] => none
  | '\\' :: 'u' :: a :: b :: c :: d :: rest => do
    push (.unit (← Text.hexNumber? [a, b, c, d])) (string? quote rest)
  | '\\' :: 'x' :: a :: b :: rest => do
    push (.unit (← Text.hexNumber? [a, b])) (string? quote rest)
  | '\\' :: '\r' :: '\n' :: rest => string? quote rest
  | '\\' :: c :: rest =>
    if isLineEnd c then string? quote rest
    else do push (.char (← escape? c)) (string? quote rest)
  | c :: rest =>
    if c = quote then some ([], rest)
    else if isLineEnd c then none
    else push (.char c) (string? quote rest)

def startsName (c : Char) : Bool :=
  Text.isLetter c || c == '$' || c == '_'

-- Two characters without a width join or part letters.
def continuesName (c : Char) : Bool :=
  startsName c || Text.isMark c || c.toNat == 0x200C || c.toNat == 0x200D

-- The characters and numbered units that go on with a name.
def name : List Char → List Piece × List Char
  | '\\' :: 'u' :: a :: b :: c :: d :: rest =>
    match Text.hexNumber? [a, b, c, d] with
    | none => ([], '\\' :: 'u' :: a :: b :: c :: d :: rest)
    | some code =>
      let (pieces, rest) := name rest
      (.unit code :: pieces, rest)
  | c :: rest =>
    if continuesName c then
      let (pieces, rest) := name rest
      (.char c :: pieces, rest)
    else ([], c :: rest)
  | [] => ([], [])

-- A key is a string or a name. Not all that can be in a name can begin it.
def key? : List Char → Option (List Piece × List Char)
  | '"' :: rest => string? '"' rest
  | '\'' :: rest => string? '\'' rest
  | chars =>
    if chars.head?.any fun c => startsName c || c == '\\' then
      match name chars with
      | ([], _) => none
      | (pieces, rest) => some (pieces, rest)
    else none

def word? (word : String) (chars : List Char) : Option (List Char) :=
  if word.toList.isPrefixOf chars then some (chars.drop word.length) else none

-- The rest after one digit or more.
def digits? (chars : List Char) : Option (List Char) :=
  if chars.head?.any Char.isDigit then some (chars.dropWhile Char.isDigit) else none

-- The rest after a power of ten, if there is one.
def exponent (chars : List Char) : List Char :=
  match chars with
  | c :: rest =>
    if c = 'e' ∨ c = 'E' then
      let unsigned := match rest with
        | '+' :: rest => rest
        | '-' :: rest => rest
        | rest => rest
      (digits? unsigned).getD chars
    else chars
  | [] => []

-- The rest after the whole part of a number, which has no leading zeros.
def whole? : List Char → Option (List Char)
  | '0' :: rest => some rest
  | chars => digits? chars

def decimal? : List Char → Option (List Char)
  | '.' :: rest => (digits? rest).map exponent
  | chars => (whole? chars).map fun
    | '.' :: rest => exponent (rest.dropWhile Char.isDigit)
    | rest => exponent rest

def hexadecimal? : List Char → Option (List Char)
  | '0' :: x :: c :: rest =>
    if (x = 'x' ∨ x = 'X') ∧ (Text.hexDigit? c).isSome then
      some (rest.dropWhile fun c => (Text.hexDigit? c).isSome)
    else none
  | _ => none

def number? (chars : List Char) : Option (List Char) :=
  let unsigned := match chars with
    | '+' :: rest => rest
    | '-' :: rest => rest
    | rest => rest
  (((hexadecimal? unsigned).or (decimal? unsigned)).or (word? "Infinity" unsigned)).or
    (word? "NaN" unsigned)

def text (pieces : List Piece) : Setting :=
  match decode? pieces with
  | some chars => .text (String.ofList chars)
  | none => .other

-- A value without parts.
def scalar? (chars : List Char) : Option (Setting × List Char) :=
  match chars with
  | '"' :: rest => (string? '"' rest).map fun (pieces, rest) => (text pieces, rest)
  | '\'' :: rest => (string? '\'' rest).map fun (pieces, rest) => (text pieces, rest)
  | chars =>
    ((((word? "true" chars).map ((.flag true, ·))).or
      ((word? "false" chars).map ((.flag false, ·)))).or
      ((word? "null" chars).map ((.other, ·)))).or
      ((number? chars).map ((.other, ·)))

mutual

-- The bound counts the characters that are left: every call takes at least one.
def value? : Nat → List Char → Option (Setting × List Char)
  | 0, _ => none
  | bound + 1, chars => do
    match ← gap? .blank chars with
    | '{' :: rest => (members? bound rest).map fun (_, rest) => (.other, rest)
    | '[' :: rest => (items? bound rest).map fun (_, rest) => (.other, rest)
    | rest => scalar? rest

-- The values of a list after its bracket or a comma. A comma may stand at the end.
def items? : Nat → List Char → Option (List Setting × List Char)
  | 0, _ => none
  | bound + 1, chars => do
    match ← gap? .blank chars with
    | ']' :: rest => return ([], rest)
    | start =>
      let (setting, rest) ← value? bound start
      match ← gap? .blank rest with
      | ']' :: rest => return ([setting], rest)
      | ',' :: rest =>
        let (settings, rest) ← items? bound rest
        return (setting :: settings, rest)
      | _ => none

-- The keys and values of an object after its brace or a comma.
def members? : Nat → List Char → Option ((List (List Piece × Setting)) × List Char)
  | 0, _ => none
  | bound + 1, chars => do
    match ← gap? .blank chars with
    | '}' :: rest => return ([], rest)
    | start =>
      let (key, rest) ← key? start
      match ← gap? .blank rest with
      | ':' :: rest =>
        let (setting, rest) ← value? bound rest
        match ← gap? .blank rest with
        | '}' :: rest => return ([(key, setting)], rest)
        | ',' :: rest =>
          let (settings, rest) ← members? bound rest
          return ((key, setting) :: settings, rest)
        | _ => none
      | _ => none

end

-- What the outermost brackets hold.
inductive Document where
  | object (settings : List (String × Setting))
  | list (values : List Setting)
deriving DecidableEq, Repr

def document? (chars : List Char) : Option Document := do
  let ended (rest : List Char) : Option Unit := do guard (← gap? .blank rest).isEmpty
  match ← gap? .blank chars with
  | '{' :: rest =>
    let (members, rest) ← members? chars.length rest
    ended rest
    return .object (← members.mapM fun (key, setting) =>
      return (String.ofList (← decode? key), setting))
  | '[' :: rest =>
    let (values, rest) ← items? chars.length rest
    ended rest
    return .list values
  | _ => none

end StaticSite.Config.Json5
