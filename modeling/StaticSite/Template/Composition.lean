import StaticSite.Template.Directive

namespace StaticSite.Template

-- The text of a file and the file's path in the source tree.
structure Source where
  path : String
  text : List Char
deriving DecidableEq, Repr

-- The files put together so far and the last of them.
structure Composition where
  text : List Char
  last : String
deriving DecidableEq, Repr

namespace Composition

def empty : Composition := ⟨[], ""⟩

-- `text` with its first placeholder replaced, if it has one.
def fill? (text content : List Char) : Option (List Char) :=
  match text.span (· ≠ marker) with
  | (_, []) => none
  | (before, _ :: after) => some (before ++ content ++ after)

-- The next file goes into the first placeholder. Where nothing has been written yet
-- it stands alone.
def add (destination : String) (composition : Composition) (source : Source) :
    Except ComposeError Composition := do
  let prepared ← prepare source.text source.path destination
  if composition.text = [] then return ⟨prepared, source.path⟩
  match fill? composition.text prepared with
  | some text => return ⟨text, source.path⟩
  | none => throw (.missingPlaceholder composition.last)

-- A placeholder that is left over is blamed on the last file.
def finish (composition : Composition) : Except ComposeError (List Char) :=
  if marker ∈ composition.text then .error (.unconsumedPlaceholder composition.last)
  else .ok composition.text

-- Add the sources one by one. The number says how many of them were asked for:
-- those after a failure are not.
def addAll (destination : String) :
    Composition → List (Except ComposeError Source) → Except ComposeError (List Char) × Nat
  | composition, [] => (composition.finish, 0)
  | composition, source :: rest =>
    match source.bind (composition.add destination) with
    | .error error => (.error error, 1)
    | .ok composition =>
      let (result, asked) := addAll destination composition rest
      (result, asked + 1)

end Composition

-- The page `destination` made of a chain of files, the outermost first, and how many of
-- the files were asked for.
def compose (destination : String) (sources : List (Except ComposeError Source)) :
    Except ComposeError (List Char) × Nat :=
  Composition.empty.addAll destination sources

end StaticSite.Template
