import StaticSite.Path.Normal
import StaticSite.Template.Error
import StaticSite.Template.Token

namespace StaticSite.Text

-- The characters with the Unicode property White_Space.
def isBlank (c : Char) : Bool :=
  let code := c.toNat
  (0x09 ≤ code && code ≤ 0x0D) || code == 0x20 || code == 0x85 || code == 0xA0
    || code == 0x1680 || (0x2000 ≤ code && code ≤ 0x200A) || code == 0x2028 || code == 0x2029
    || code == 0x202F || code == 0x205F || code == 0x3000

-- The text without the blanks at its two ends.
def trim (text : List Char) : List Char :=
  ((text.dropWhile isBlank).reverse.dropWhile isBlank).reverse

end StaticSite.Text

namespace StaticSite.Template

inductive Directive where
  | content
  | path (fragment : List Char)
  | unknown (command : List Char)
deriving DecidableEq, Repr

-- The command of a directive ends at the first space of its trimmed body.
-- What follows that space is the argument, spaces included.
def Directive.ofBody (body : List Char) : Directive :=
  let trimmed := Text.trim body
  let command := trimmed.takeWhile (· ≠ ' ')
  let argument := (trimmed.dropWhile (· ≠ ' ')).drop 1
  if command = "content".toList then .content
  else if command = "path".toList then .path argument
  else .unknown command

-- Stands for the content placeholder while files are put into each other.
-- It is the last private-use code point.
def marker : Char := Char.ofNat 0x10FFFD

-- The directory of a file, or the root of its tree.
def directory (file : String) : Path :=
  (Path.mk file).parent?.getD ⟨""⟩

-- A fragment names a file next to `source`, also when it starts with a slash.
-- The link leads there from the directory of `destination`.
def link (fragment : List Char) (source destination : String) : List Char :=
  let target := (directory source).join ⟨String.ofList (fragment.dropWhile (· = '/'))⟩
  ((directory destination).relativeTo target).toSlash.toList

-- What a token of the file `source` becomes in the page `destination`.
def Token.prepare (source destination : String) : Token → Except ComposeError (List Char)
  | .text chars => .ok chars
  | .escape => .ok ['%', '{']
  | .directive body =>
    match Directive.ofBody body with
    | .content => .ok [marker]
    | .path fragment => .ok (link fragment source destination)
    | .unknown command => .error (.unknownDirective (String.ofList command) source)

-- The text of the file `source` with its directives rewritten for the page `destination`.
-- The first unknown directive is blamed.
def prepare (text : List Char) (source destination : String) : Except ComposeError (List Char) :=
  return ((← (tokens text).mapM (Token.prepare source destination))).flatten

end StaticSite.Template
