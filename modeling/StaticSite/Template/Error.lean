import StaticSite.Fault
import StaticSite.Path.Basic

namespace StaticSite.Template

-- Why a chain of files cannot be composed. Files are named by their path in the source tree.
inductive ComposeError where
  | missingPlaceholder (layout : String)
  | unconsumedPlaceholder (file : String)
  | unknownDirective (command file : String)
  | unreadable (path : Path) (fault : Fault)
deriving DecidableEq, Repr

namespace ComposeError

def message : ComposeError → String
  | .missingPlaceholder layout => "File " ++ layout ++ " does not contain '%\x7bcontent\x7d'"
  | .unconsumedPlaceholder file =>
    "File " ++ file ++ " contains '%\x7bcontent\x7d' even though it is not a layout file"
  | .unknownDirective command file => "Unknown escape command '" ++ command ++ "' in " ++ file
  | .unreadable path fault => "Could not read " ++ path.text ++ ": " ++ fault.message

end ComposeError

end StaticSite.Template
