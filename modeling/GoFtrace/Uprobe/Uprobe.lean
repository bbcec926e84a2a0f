import GoFtrace.Uprobe.Auto

/-!
# Probes

`Uprobe` of `internal/uprobe/uprobe.go`: one probe point with its fetch rules.
-/

namespace GoFtrace

open Uprobe (FetchArg Value)

/-- `UprobeLocation`. -/
inductive UprobeLocation where
  | atEntry | atRet | atGoroutineExit
  deriving DecidableEq, Repr

/-- `Uprobe`. Its file offset serves attaching only. -/
structure Uprobe where
  funcname : String
  address : UInt64
  relOffset : UInt64
  location : UprobeLocation
  fetchArgs : List FetchArg := []
  values : List Value := []
  wanted : Bool := false

end GoFtrace
