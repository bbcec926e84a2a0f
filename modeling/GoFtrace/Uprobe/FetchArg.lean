import GoFtrace.Uprobe.Dwarf

/-!
# Fetch arguments

The rule chains of `internal/uprobe/fetcharg.go`, shared by hand-written and automatic
fetch rules.
-/

namespace GoFtrace.Uprobe

/-- The sixteen general registers a rule may name. -/
inductive Reg where
  | ax | dx | cx | bx | si | di | bp | sp
  | r8 | r9 | r10 | r11 | r12 | r13 | r14 | r15
  deriving DecidableEq, Repr

/-- `MaxFetchArgs`: leaves per probe. -/
def maxFetchArgs : Nat := 8

/-- `MaxFetchArgRules`: rules per leaf. -/
def maxFetchArgRules : Nat := 8

/-- `ArgRule`. `register none` is a register rule whose name is empty. -/
inductive ArgRule where
  | register (reg : Option Reg)
  | stack (offset : Int) (dereference : Bool)
  deriving DecidableEq, Repr

/-- `FetchArg`. -/
structure FetchArg where
  varname : String
  type : String
  size : Int
  rules : List ArgRule
  nilCheck : Bool := false
  ifaceData : Bool := false
  typeIndex : Nat := 0
  deriving DecidableEq, Repr

end GoFtrace.Uprobe
