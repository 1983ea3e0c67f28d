import StaticSite.Disk.Lookup
import StaticSite.Glob.Pattern

namespace StaticSite.Glob

-- The directory in which a search starts is left out of what it finds.
def extend (path : Path) (name : String) : Path :=
  if path.same ⟨"."⟩ then ⟨name⟩ else path.join ⟨name⟩

-- The entries of the directory `path` that holds `folder`, by name.
def entries (path : Path) (folder : Folder) : List (String × Path) :=
  folder.names.map fun name => (name, extend path name)

-- What lies below the directory `path`, every directory before what is in it. Where no disk
-- follows a path any more, the search does not either.
def below (path : Path) : Folder → List (String × Path)
  | .empty => []
  | .file name _ rest => (name, extend path name) :: below path rest
  | .directory name inside rest =>
    let child := extend path name
    (name, child) :: (if child.isTooLong then [] else below child inside) ++ below path rest

-- A pattern finds the directory itself and its parent only if it begins with a dot.
def dots (tokens : List Token) : List String :=
  if tokens.head? = some (.char '.') then
    ["..", "."].filter fun name => matchesName tokens name.toList
  else []

-- What the steps lead to from `path`. `directories` says that only directories count.
-- Two steps of any depth are one.
def search (disk : Disk) (directories : Bool) : List Step → Path → List Path
  | [], path => if directories && !disk.isDirectory path then [] else [path]
  | .literal name :: rest, path =>
    let next := extend path name
    let found := if name = "." ∨ name = ".." then disk.isDirectory path else disk.has next
    if found then search disk directories rest next else []
  | .names tokens :: rest, path =>
    if !disk.isDirectory path then []
    else
      (dots tokens).flatMap (fun name => search disk directories rest (path.join ⟨name⟩)) ++
        (entries path (disk.inside path)).flatMap fun (name, child) =>
          if matchesName tokens name.toList then search disk directories rest child else []
  | .deep :: .deep :: rest, path => search disk directories (.deep :: rest) path
  | [.deep], path =>
    ((below path (disk.inside path)).filter fun (_, child) => disk.isDirectory child).map (·.2)
  | .deep :: step :: rest, path =>
    (below path (disk.inside path)).flatMap fun (name, child) =>
      if step.accepts name then search disk directories rest child else []

-- The levels of a pattern. A slash at its end is not one.
def levels (pattern : List Char) : List String :=
  let segments := Path.segments (String.ofList pattern)
  if segments.getLast? = some "" then segments.dropLast else segments

-- The paths that a pattern matches, directories before what is in them and names in order.
-- The pattern is checked as a whole before its levels are.
def find (disk : Disk) (pattern : String) : Except PatternError (List Path) := do
  let _ ← parse pattern
  let chars := pattern.toList
  let (start, body) : Path × List Char :=
    if chars.head? = some '/' then (⟨"/"⟩, chars.tail) else (⟨"."⟩, chars)
  let steps ← (levels body).mapM fun level => return Step.ofTokens (← parse level)
  let steps := if body = [] then [.literal ""] else steps
  return search disk (chars.getLast? = some '/') steps start

-- The pattern that matches a text and nothing else.
def escape (text : String) : String :=
  String.ofList (text.toList.flatMap fun c =>
    if c = '?' ∨ c = '*' ∨ c = '[' ∨ c = ']' then ['[', c, ']'] else [c])

end StaticSite.Glob
