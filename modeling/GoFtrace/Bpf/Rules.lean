import GoFtrace.Bpf.Event
import GoFtrace.Uprobe.Recipe

/-!
# Loaded rules

The fetch rules and type recipes in the form that `ftrace.c` reads, and their encoding by
`setArgRules` and `SetTypeRecipe` of `internal/bpf/bpf.go`.
-/

namespace GoFtrace.Bpf

open Uprobe (Reg FetchArg)

/-- `ARG_RULE_REG` and `ARG_RULE_MEMORY`. -/
inductive ArgRuleType where
  | reg | memory
  deriving DecidableEq, Repr

/-- `offsets[8]` with `dereference[8]`. -/
abbrev Steps := Vector (Int16 × Bool) 8

/-- `struct arg_rule`. -/
structure ArgRule where
  type : ArgRuleType
  reg : UInt8
  size : UInt8
  length : UInt8
  steps : Steps
  nilCheck : Bool
  ifaceData : Bool
  typeIdx : UInt8
  deriving DecidableEq, Repr

/-- `struct arg_rules`; `length` is the length of the list. -/
abbrev ArgRules := List ArgRule

/-- `struct rel_rule`. -/
structure RelRule where
  size : UInt8
  length : UInt8
  nilCheck : Bool
  steps : Steps
  deriving DecidableEq, Repr

/-- `struct type_recipe`; at most four rules are stored. -/
abbrev TypeRecipe := List RelRule

/-! ## Encoding -/

/-- `RegisterConstants`; a name that is not in the table reads as `0`. -/
def registerConstants : Option Reg → UInt8
  | some .ax => 0
  | some .dx => 1
  | some .cx => 2
  | some .bx => 3
  | some .si => 4
  | some .di => 5
  | some .bp => 6
  | some .sp => 7
  | some .r8 => 8
  | some .r9 => 9
  | some .r10 => 10
  | some .r11 => 11
  | some .r12 => 12
  | some .r13 => 13
  | some .r14 => 14
  | some .r15 => 15
  | none => 0

inductive LoadError where
  | tooManyFetchArgs (n : Nat)
  | tooManyRules (n : Nat)
  /-- `fetchArg.Rules[len(fetchArg.Rules)-1]` of an empty chain. -/
  | indexOutOfRange
  | keyExists
  deriving DecidableEq, Repr

/-- The memory steps of a chain, cut to eight and padded with zeros. -/
def encodeSteps (rules : List Uprobe.ArgRule) : Steps :=
  let steps := rules.filterMap fun
    | .register _ => none
    | .stack off deref => some (Int16.ofInt off, deref)
  Vector.ofFn fun i => steps.getD i (0, false)

/-- `Rules[len(Rules)-1].From`. -/
def ruleType : Uprobe.ArgRule → ArgRuleType
  | .register _ => .reg
  | .stack _ _ => .memory

/-- `RegisterConstants[Rules[0].Register]`; a memory step names no register. -/
def ruleReg : Uprobe.ArgRule → UInt8
  | .register r => registerConstants r
  | .stack _ _ => registerConstants none

/-- One turn of the loop of `setArgRules`. -/
def encodeArg (a : FetchArg) : Except LoadError ArgRule :=
  if Uprobe.maxFetchArgRules < a.rules.length then .error (.tooManyRules a.rules.length)
  else
    match a.rules.head?, a.rules.getLast? with
    | some first, some last =>
      .ok
        { type := ruleType last
          reg := ruleReg first
          size := UInt8.ofInt a.size
          length := UInt8.ofNat (a.rules.length - 1)
          steps := encodeSteps a.rules
          nilCheck := a.nilCheck
          ifaceData := a.ifaceData
          typeIdx := if a.ifaceData then UInt8.ofNat a.typeIndex else 0 }
    | _, _ => .error .indexOutOfRange

/-- `setArgRules`, before the map update. -/
def encodeArgs (args : List FetchArg) : Except LoadError ArgRules :=
  if Uprobe.maxFetchArgs < args.length then .error (.tooManyFetchArgs args.length)
  else args.mapM encodeArg

/-- One rule of `SetTypeRecipe`. -/
def encodeRelRule (r : Uprobe.RelRule) : RelRule :=
  { size := UInt8.ofInt r.size
    length := UInt8.ofNat r.steps.length
    nilCheck := true
    steps := Vector.ofFn fun i =>
      match r.steps[i.val]? with
      | some s => (Int16.ofInt s.offset, s.dereference)
      | none => (0, false) }

/-- `SetTypeRecipe`, before the map update. -/
def encodeRecipe (rules : List Uprobe.RelRule) : TypeRecipe :=
  (rules.take 4).map encodeRelRule

end GoFtrace.Bpf
