import StaticSite.Config.Setting
import StaticSite.Text.Hex

-- The keys and values of a TOML document. A config has texts and flags at the top level.
-- Other values, dotted keys and tables are refused where they stand, because no config has them.

namespace StaticSite.Config.Toml

-- Characters that stand for themselves in strings and comments.
def isPlain (c : Char) : Bool :=
  c == '\t' || (0x20 ≤ c.toNat && c.toNat != 0x7F)

def isSpace (c : Char) : Bool :=
  c == ' ' || c == '\t'

def isBareKey (c : Char) : Bool :=
  c.isAlphanum || c == '_' || c == '-'

-- What a character means after a backslash.
def escape? : Char → Option Char
  | 'b' => some (Char.ofNat 0x08)
  | 't' => some '\t'
  | 'n' => some '\n'
  | 'f' => some (Char.ofNat 0x0C)
  | 'r' => some '\r'
  | '"' => some '"'
  | '\\' => some '\\'
  | _ => none

-- The character with a hexadecimal number. Surrogates are not characters.
def numbered? (digits : List Char) : Option Char := do
  let code ← Text.hexNumber? digits
  if code.isValidChar then some (Char.ofNat code) else none

-- Readers return what they read and the rest of the document.
def push (c : Char) (reading : Option (List Char × List Char)) : Option (List Char × List Char) :=
  reading.map fun (chars, rest) => (c :: chars, rest)

-- The inside of a string in double quotes.
def basic? : List Char → Option (List Char × List Char)
  | [] => none
  | '"' :: rest => some ([], rest)
  | '\\' :: 'u' :: a :: b :: c :: d :: rest => do
    push (← numbered? [a, b, c, d]) (basic? rest)
  | '\\' :: 'U' :: a :: b :: c :: d :: e :: f :: g :: h :: rest => do
    push (← numbered? [a, b, c, d, e, f, g, h]) (basic? rest)
  | '\\' :: c :: rest => do push (← escape? c) (basic? rest)
  | c :: rest => if isPlain c then push c (basic? rest) else none

-- The inside of a string in single quotes.
def literal? : List Char → Option (List Char × List Char)
  | [] => none
  | '\'' :: rest => some ([], rest)
  | c :: rest => if isPlain c then push c (literal? rest) else none

def startsLine : List Char → Bool
  | '\n' :: _ => true
  | '\r' :: '\n' :: _ => true
  | _ => false

-- The inside of a string in three double quotes. Up to two quotes may stand before
-- the closing ones. A backslash at the end of a line hides the blanks and line ends
-- that follow: `skip` says that they are being passed over.
def basicLines? (skip : Bool) : List Char → Option (List Char × List Char)
  | [] => none
  | '"' :: '"' :: '"' :: '"' :: '"' :: rest => some (['"', '"'], rest)
  | '"' :: '"' :: '"' :: '"' :: rest => some (['"'], rest)
  | '"' :: '"' :: '"' :: rest => some ([], rest)
  | '\r' :: '\n' :: rest =>
    if skip then basicLines? true rest else push '\n' (basicLines? false rest)
  | '\n' :: rest =>
    if skip then basicLines? true rest else push '\n' (basicLines? false rest)
  | '\\' :: 'u' :: a :: b :: c :: d :: rest => do
    push (← numbered? [a, b, c, d]) (basicLines? false rest)
  | '\\' :: 'U' :: a :: b :: c :: d :: e :: f :: g :: h :: rest => do
    push (← numbered? [a, b, c, d, e, f, g, h]) (basicLines? false rest)
  | '\\' :: c :: rest =>
    if startsLine ((c :: rest).dropWhile isSpace) then basicLines? true (c :: rest)
    else do push (← escape? c) (basicLines? false rest)
  | c :: rest =>
    if skip && isSpace c then basicLines? true rest
    else if isPlain c then push c (basicLines? false rest)
    else none

-- The inside of a string in three single quotes.
def literalLines? : List Char → Option (List Char × List Char)
  | [] => none
  | '\'' :: '\'' :: '\'' :: '\'' :: '\'' :: rest => some (['\'', '\''], rest)
  | '\'' :: '\'' :: '\'' :: '\'' :: rest => some (['\''], rest)
  | '\'' :: '\'' :: '\'' :: rest => some ([], rest)
  | '\r' :: '\n' :: rest => push '\n' (literalLines? rest)
  | '\n' :: rest => push '\n' (literalLines? rest)
  | c :: rest => if isPlain c then push c (literalLines? rest) else none

-- A line end right after three opening quotes is not part of the string.
def dropLineEnd : List Char → List Char
  | '\n' :: rest => rest
  | '\r' :: '\n' :: rest => rest
  | chars => chars

def word? (word : String) (setting : Setting) (chars : List Char) : Option (Setting × List Char) :=
  if word.toList.isPrefixOf chars then some (setting, chars.drop word.length) else none

def value? (chars : List Char) : Option (Setting × List Char) :=
  let text (reading : Option (List Char × List Char)) : Option (Setting × List Char) :=
    reading.map fun (chars, rest) => (.text (String.ofList chars), rest)
  match chars with
  | '"' :: '"' :: '"' :: rest => text (basicLines? false (dropLineEnd rest))
  | '\'' :: '\'' :: '\'' :: rest => text (literalLines? (dropLineEnd rest))
  | '"' :: rest => text (basic? rest)
  | '\'' :: rest => text (literal? rest)
  | chars => (word? "true" (.flag true) chars).or (word? "false" (.flag false) chars)

def key? : List Char → Option (List Char × List Char)
  | '"' :: rest => basic? rest
  | '\'' :: rest => literal? rest
  | chars =>
    match chars.span isBareKey with
    | ([], _) => none
    | (key, rest) => some (key, rest)

def pair? (chars : List Char) : Option ((String × Setting) × List Char) := do
  let (key, rest) ← key? (chars.dropWhile isSpace)
  match rest.dropWhile isSpace with
  | '=' :: rest =>
    let (setting, rest) ← value? (rest.dropWhile isSpace)
    return ((String.ofList key, setting), rest)
  | _ => none

-- The end of a line: blanks, a comment and a line end, which the last line may lack.
def lineEnd? (chars : List Char) : Option (List Char) :=
  let rest := match chars.dropWhile isSpace with
    | '#' :: comment => comment.dropWhile isPlain
    | rest => rest
  match rest with
  | [] => some []
  | '\n' :: rest => some rest
  | '\r' :: '\n' :: rest => some rest
  | _ => none

-- A line is empty or holds one key and its value. Each takes at least one character, so
-- the length of the document bounds their number.
def lines? : Nat → List Char → Option (List (String × Setting))
  | _, [] => some []
  | 0, _ => none
  | bound + 1, chars =>
    match lineEnd? chars with
    | some rest => lines? bound rest
    | none => do
      let (pair, rest) ← pair? chars
      return pair :: (← lines? bound (← lineEnd? rest))

-- A byte order mark may come first.
def settings? (document : List Char) : Option (List (String × Setting)) :=
  let chars := if document.head? = some (Char.ofNat 0xFEFF) then document.tail else document
  lines? chars.length chars

end StaticSite.Config.Toml
