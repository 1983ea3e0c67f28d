namespace StaticSite

-- A path is kept as the text it was written as: messages show that text.
-- What a path means is read off its components. Every path is a text: one with other bytes, which
-- has no spelling without loss, is none here.
structure Path where
  text : String
deriving DecidableEq, Inhabited, Repr

-- The parts of a path: the root, the directory itself, its parent, and plain names.
inductive Component where
  | root
  | here
  | up
  | name (text : String)
deriving DecidableEq, Repr

namespace Path

-- The pieces of a text between its slashes. A text without a slash is one piece.
def pieces : List Char → List (List Char)
  | [] => [[]]
  | c :: rest =>
    if c = '/' then [] :: pieces rest
    else match pieces rest with
      | [] => [[c]]
      | piece :: others => (c :: piece) :: others

-- The pieces of a path's text, empty ones included.
def segments (text : String) : List String :=
  (pieces text.toList).map String.ofList

end Path

namespace Component

-- Empty segments and dots inside a path name no component.
def ofSegment? (segment : String) : Option Component :=
  if segment = "" ∨ segment = "." then none
  else if segment = ".." then some .up
  else some (.name segment)

def text : Component → String
  | .root => "/"
  | .here => "."
  | .up => ".."
  | .name text => text

end Component

namespace Path

-- A leading slash is the root and a leading dot is kept.
-- Doubled slashes, other dots and a slash at the end leave no trace.
def components (path : Path) : List Component :=
  match segments path.text with
  | [] => []
  | first :: rest =>
    let parts := rest.filterMap Component.ofSegment?
    if first = "" then
      if rest = [] then [] else .root :: parts
    else if first = "." then .here :: parts
    else (Component.ofSegment? first).toList ++ parts

-- Two texts are the same path when they have the same components.
def same (left right : Path) : Bool :=
  left.components = right.components

def isAbsolute (path : Path) : Bool :=
  path.text.toList.head? = some '/'

-- Follow `rest` from the directory `path`. An absolute `rest` stands for itself.
def join (path rest : Path) : Path :=
  if rest.isAbsolute then rest
  else if path.text = "" ∨ path.text.toList.getLast? = some '/' then ⟨path.text ++ rest.text⟩
  else ⟨path.text ++ "/" ++ rest.text⟩

-- Components written one after another, with slashes between them. The root is its own slash.
def spell : List Component → List Char
  | [] => []
  | [part] => part.text.toList
  | .root :: rest => '/' :: spell rest
  | part :: rest => part.text.toList ++ '/' :: spell rest

def ofComponents (parts : List Component) : Path :=
  ⟨String.ofList (spell parts)⟩

-- Containment goes by whole components, so `blogroll` is not inside `blog`.
def startsWith (path base : Path) : Bool :=
  base.components.isPrefixOf path.components

-- What is left of a list after the start `front`, if it starts with it.
def remainder? [DecidableEq α] : (front whole : List α) → Option (List α)
  | [], rest => some rest
  | _ :: _, [] => none
  | a :: front, b :: whole => if a = b then remainder? front whole else none

-- The components of `path` that follow those of `base`, if it starts with them.
def under? (path base : Path) : Option (List Component) :=
  remainder? base.components path.components

-- The path with these segments. One empty segment is the root.
def ofSegments (parts : List String) : Path :=
  if parts = [""] then ⟨"/"⟩ else ⟨"/".intercalate parts⟩

-- Segments, the last one first, without those at the end that name nothing. The first segment
-- of a path stays: it tells where the path starts.
def trimEnd : List String → List String
  | [] => []
  | [first] => [first]
  | segment :: rest => if segment = "" ∨ segment = "." then trimEnd rest else segment :: rest

-- The path without its last component, otherwise as it is written. The root and the empty
-- path have no parent.
def parent? (path : Path) : Option Path :=
  match trimEnd (segments path.text).reverse with
  | [] => none
  | [first] => if first = "" then none else some ⟨""⟩
  | _ :: rest => some (ofSegments (trimEnd rest).reverse)

-- The last component, if it is a plain name.
def fileName? (path : Path) : Option String :=
  match path.components.getLast? with
  | some (.name text) => some text
  | _ => none

-- What follows the last dot of the file name. A name that starts with its only dot
-- has no extension.
def extension? (path : Path) : Option String := do
  let chars := (← path.fileName?).toList
  let after := (chars.reverse.takeWhile (· ≠ '.')).reverse
  if after.length + 1 < chars.length then some (String.ofList after) else none

def hasParentSegment (path : Path) : Bool :=
  path.components.contains .up

-- The names of a path between slashes. The root counts as an empty name. All names are texts, so
-- nothing of them is lost.
def toSlash (path : Path) : String :=
  "/".intercalate (path.components.filterMap fun
    | .root => some ""
    | .here => none
    | .up => some ".."
    | .name text => some text)

end Path

end StaticSite
