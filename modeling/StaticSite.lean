import StaticSite.Build.Batch
import StaticSite.Build.File
import StaticSite.Build.Outcome
import StaticSite.CommandLine
import StaticSite.Config.Basic
import StaticSite.Config.Json5
import StaticSite.Config.Setting
import StaticSite.Config.Text
import StaticSite.Config.Toml
import StaticSite.Console
import StaticSite.Disk.Basic
import StaticSite.Disk.Change
import StaticSite.Disk.Difference
import StaticSite.Disk.Folder
import StaticSite.Disk.Lookup
import StaticSite.Fault
import StaticSite.Glob.Pattern
import StaticSite.Glob.Search
import StaticSite.Main
import StaticSite.Path.Basic
import StaticSite.Path.Normal
import StaticSite.Progress
import StaticSite.Scan
import StaticSite.Template.Composition
import StaticSite.Template.Directive
import StaticSite.Template.Error
import StaticSite.Template.Token
import StaticSite.Text.Cut
import StaticSite.Text.Hex
import StaticSite.Text.Letter
import StaticSite.Tree.Files
import StaticSite.Tree.SourceTree
import StaticSite.Watch.Event
import StaticSite.Watch.Queue
import StaticSite.Watch.Session
import StaticSite.Watch.Source
import StaticSite.Watch.Static
import StaticSite.Watch.Watcher
import StaticSite.Proofs.Path.Characters
import StaticSite.Proofs.Template.Spelling
import StaticSite.Proofs.Template.Nesting
import StaticSite.Proofs.Path.Place
import StaticSite.Proofs.Path.Relative
import StaticSite.Proofs.Template.Link
import StaticSite.Proofs.Disk.Kind
import StaticSite.Proofs.Disk.Following
import StaticSite.Proofs.Disk.Named
import StaticSite.Proofs.Disk.Effects
import StaticSite.Proofs.Scan.Containment
import StaticSite.Proofs.Build.Frame
import StaticSite.Proofs.Build.Inputs
import StaticSite.Proofs.Glob.Escape
import StaticSite.Proofs.Scan.Listing
import StaticSite.Proofs.Scan.Way
import StaticSite.Proofs.Scan.Root
import StaticSite.Proofs.Scan.Exact
import StaticSite.Proofs.Scan.Found
import StaticSite.Proofs.Scan.Anywhere
import StaticSite.Proofs.Tree.Chain
import StaticSite.Proofs.Tree.Dependencies
import StaticSite.Proofs.Tree.Dependents
import StaticSite.Proofs.Tree.Reach
import StaticSite.Proofs.Tree.Listing
import StaticSite.Proofs.Disk.Making
import StaticSite.Proofs.Build.Output
import StaticSite.Proofs.Build.Page
import StaticSite.Proofs.Build.Settled
import StaticSite.Proofs.Build.Rebuild
import StaticSite.Proofs.Build.Works
import StaticSite.Proofs.Watch.Source
import StaticSite.Proofs.Watch.Static
import StaticSite.Proofs.Watch.Shift
import StaticSite.Proofs.Watch.Handle
import StaticSite.Proofs.Disk.Renaming
import StaticSite.Proofs.Watch.Edit
import StaticSite.Proofs.Watch.Step
import StaticSite.Proofs.Watch.Session
import StaticSite.Proofs.Build.Confined
import StaticSite.Proofs.Template.Acceptance
import StaticSite.Proofs.Build.Exact
import StaticSite.Proofs.Watch.Confined
import StaticSite.Proofs.Watch.Flush
import StaticSite.Proofs.Watch.Lenient
import StaticSite.Proofs.Build.Filling
import StaticSite.Proofs.Build.Job
import StaticSite.Proofs.Build.Performed
import StaticSite.Proofs.Watch.Jobs
import StaticSite.Proofs.Watch.Answer
import StaticSite.Proofs.Watch.Answering
import StaticSite.Proofs.Watch.Recall
import StaticSite.Proofs.Watch.Course
import StaticSite.Proofs.Watch.Accepted
import StaticSite.Proofs.Watch.Interleaving
import StaticSite.Proofs.Watch.Repetition
import StaticSite.Proofs.Watch.Reordering
import StaticSite.Proofs.Watch.Coalescing
import StaticSite.Proofs.Template.Blame
import StaticSite.Proofs.Watch.Sound
import StaticSite.Proofs.Disk.Straight
import StaticSite.Proofs.Disk.Same
import StaticSite.Proofs.Build.Slot
import StaticSite.Proofs.Build.Raising
import StaticSite.Proofs.Build.Placing
import StaticSite.Proofs.Build.Failed
import StaticSite.Proofs.Build.Lasting
import StaticSite.Proofs.Scan.Same
import StaticSite.Proofs.Template.Literal
import StaticSite.Proofs.Template.Leftover
import StaticSite.Proofs.Template.Pieces
import StaticSite.Proofs.Template.Seam
import StaticSite.Proofs.Build.Alongside
import StaticSite.Proofs.Disk.Removing
import StaticSite.Proofs.Build.Repeated
import StaticSite.Proofs.Watch.Unlinking
import StaticSite.Proofs.Watch.Taking
import StaticSite.Proofs.Scan.Taken
import StaticSite.Proofs.Watch.Tracked
import StaticSite.Proofs.Build.Room
import StaticSite.Proofs.Build.Respelling
import StaticSite.Proofs.Build.Aborted
import StaticSite.Proofs.Path.Canonical
import StaticSite.Proofs.Path.Shortest
import StaticSite.Proofs.Path.Respelling
import StaticSite.Proofs.Config.Validation
import StaticSite.Proofs.Config.Stock
import StaticSite.Proofs.Config.Toml
import StaticSite.Proofs.Config.Json5
import StaticSite.Proofs.Config.Formats
import StaticSite.Proofs.Watch.Announcing
import StaticSite.Proofs.Watch.Dispatching
import StaticSite.Proofs.Watch.Renamed
