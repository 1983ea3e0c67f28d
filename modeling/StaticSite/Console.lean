import StaticSite.Progress

namespace StaticSite

inductive Color where
  | red
  | green
  | yellow
  | blue
  | magenta
  | cyan
deriving DecidableEq, Repr

-- The number by which a terminal knows the color of a text.
def Color.code : Color → Nat
  | .red => 31
  | .green => 32
  | .yellow => 33
  | .blue => 34
  | .magenta => 35
  | .cyan => 36

-- A part of a line that is written in one color.
structure Span where
  text : String
  color : Option Color
deriving DecidableEq, Repr

-- A line on the console.
abbrev Line := List Span

namespace Line

def plain (line : Line) : String :=
  String.join (line.map (·.text))

-- Turns every color off.
def reset : String := "\x1b[0m"

-- An escape sequence turns the color on and another one turns it off. Where the text itself
-- turns it off, it is turned on again.
def colored (line : Line) : String :=
  String.join (line.map fun span =>
    match span.color with
    | none => span.text
    | some color =>
      let start := "\x1b[" ++ toString color.code ++ "m"
      start ++ span.text.replace reset (reset ++ start) ++ reset)

end Line

namespace Activity

def label : Activity → String
  | .building => "Building output directory..."
  | .updatingSource _ => "Updating source file"
  | .updatingDependent _ => "  Updating dependant"
  | .deletingSource _ => "Deleting file"
  | .updatingStatic _ => "Updating static file"
  | .deletingStatic _ => "Deleting static file"

def color : Activity → Color
  | .building => .cyan
  | .updatingSource _ => .blue
  | .updatingDependent _ => .green
  | .deletingSource _ => .red
  | .updatingStatic _ => .cyan
  | .deletingStatic _ => .magenta

def file? : Activity → Option String
  | .building => none
  | .updatingSource file | .updatingDependent file | .deletingSource file
  | .updatingStatic file | .deletingStatic file => some file

-- What is done, and to which file.
def line (activity : Activity) : Line :=
  ⟨activity.label, some activity.color⟩ ::
    match activity.file? with
    | none => []
    | some file => [⟨" ", none⟩, ⟨"'" ++ file ++ "'", some .yellow⟩]

end Activity

-- A number of things. One thing has no plural.
def counted (count : Nat) (word : String) : String :=
  toString count ++ " " ++ word ++ (if count = 1 then "" else "s")

-- The files that were skipped and the files that failed are mentioned only if there are any.
def Report.lines (report : Report) : List Line :=
  let skipped :=
    if report.skipped = 0 then "" else " (" ++ toString report.skipped ++ " hidden skipped)"
  let summary := "Built " ++ counted report.written "file" ++ ", copied " ++
    counted report.copied "static file" ++ skipped
  let failed := counted report.failed "file" ++ " could not be written, see the warnings above"
  [⟨summary, some .green⟩] :: if report.failed = 0 then [] else [[⟨failed, some .red⟩]]

-- The first line of a watch.
def watchHeader (source assets : Path) : Line :=
  [⟨"Watching " ++ source.text ++ " and " ++ assets.text ++ " for changes (Ctrl+C to stop)",
    some .cyan⟩]

end StaticSite
