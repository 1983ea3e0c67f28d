import StaticSite.Fault
import StaticSite.Path.Basic

namespace StaticSite

-- A directory as the stack of names that lead to it, innermost first.
-- The root is the empty stack.
abbrev Location := List String

namespace Location

def path (location : Location) : Path :=
  Path.ofComponents (.root :: location.reverse.map .name)

-- A parent of the root is the root.
def step (location : Location) : Component → Location
  | .root => []
  | .here => location
  | .up => location.tail
  | .name text => text :: location

-- The directory reached from `start` by following the components of a path.
def walk (start : Location) (path : Path) : Location :=
  path.components.foldl step start

end Location

namespace Path

-- One component on a stack of components, innermost first. A parent cancels the name
-- before it, is lost at the root, and is kept where there is nothing left to cancel.
def stack (parts : List Component) : Component → List Component
  | .here => parts
  | .up => match parts with
    | .name _ :: rest => rest
    | .root :: _ => parts
    | _ => .up :: parts
  | part => part :: parts

def normalComponents (path : Path) : List Component :=
  (path.components.foldl stack []).reverse

-- The path without `.` and without a `..` that can be cancelled. The disk is not consulted.
def normalize (path : Path) : Path :=
  ofComponents path.normalComponents

-- The normal form of a path, followed from the directory `start` unless it begins at the root.
-- Without such a directory only absolute paths have one.
def absolute (start : Option Location) (path : Path) : Except Fault Path :=
  if path.text = "" then .error .emptyPath
  else if path.isAbsolute then .ok path.normalize
  else match start with
    | none => .error .notFound
    | some start => .ok (start.path.join path).normalize

-- Two lists without their longest common start.
def dropCommon [DecidableEq α] : List α → List α → List α × List α
  | a :: left, b :: right => if a = b then dropCommon left right else (a :: left, b :: right)
  | left, right => (left, right)

-- The way from the directory `base` to `target`: up to where they part, then down. There is
-- no way from a relative path to an absolute one, which stands for itself.
def relativeTo (base target : Path) : Path :=
  let (left, right) := dropCommon base.normalComponents target.normalComponents
  if right.head? = some .root then ofComponents right
  else ofComponents (left.map (fun _ => .up) ++ right)

end Path

end StaticSite
