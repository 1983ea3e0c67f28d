import StaticSite.Scan
import StaticSite.Template.Error

namespace StaticSite

-- Why a build is abandoned.
inductive BuildError where
  | scan (error : ScanError)
  | compose (error : Template.ComposeError)
  | clear (path : Path) (fault : Fault)
deriving DecidableEq, Repr

def BuildError.message : BuildError → String
  | .scan error => error.message
  | .compose error => error.message
  | .clear path fault => "Could not clear build folder " ++ path.text ++ ": " ++ fault.message

-- Why the output of one file was not made or removed.
inductive Reason where
  | disk (fault : Fault)
  | inaccessible
  | build (error : BuildError)
deriving DecidableEq, Repr

def Reason.message : Reason → String
  | .disk fault => fault.message
  | .inaccessible => "source file is not accessible"
  | .build error => error.message

-- What became of the output of one file. A hidden file has none.
inductive Outcome where
  | written (path : Path)
  | copied (path : Path)
  | removed (path : Path)
  | skipped
  | failed (path : Path) (reason : Reason)
deriving DecidableEq, Repr

-- How often each outcome came up.
structure Report where
  written : Nat
  copied : Nat
  removed : Nat
  skipped : Nat
  failed : Nat
deriving DecidableEq, Repr

namespace Report

def empty : Report := ⟨0, 0, 0, 0, 0⟩

def record (report : Report) : Outcome → Report
  | .written _ => { report with written := report.written + 1 }
  | .copied _ => { report with copied := report.copied + 1 }
  | .removed _ => { report with removed := report.removed + 1 }
  | .skipped => { report with skipped := report.skipped + 1 }
  | .failed _ _ => { report with failed := report.failed + 1 }

end Report

end StaticSite
