import GoFtrace.Elf.Lookup
import GoFtrace.Tracing.System
import GoFtrace.Uprobe.Statement

/-!
# Parsing

`Parse` of `internal/uprobe/parser.go`: the functions of the symbol table that match the
user's patterns, with a probe at their entry and at each of their RET instructions.
-/

namespace GoFtrace.Tracing

open Uprobe (FetchArg FetchError Value Variable)

/-! ## Patterns -/

/-- `MatchWildcard`. -/
def matchWildcard : List Char → List Char → Bool
  | [], str => str.isEmpty
  | c :: pattern, str =>
    if str.isEmpty then (c :: pattern).all (· == '*')
    else if c = '*' then str.tails.any (matchWildcard pattern)
    else
      match str with
      | [] => false
      | d :: str => c == d && matchWildcard pattern str

def matchName (pattern name : String) : Bool := matchWildcard pattern.toList name.toList

/-- `strings.Contains`. -/
def contains (s sub : String) : Bool := s.toList.tails.any fun tail => sub.toList.isPrefixOf tail

/-- `ParseOptions`. The two maps of rules are given by their entries. -/
structure ParseOptions where
  excludeVendor : Bool := false
  uprobeWildcards : List String := []
  funcNames : List String := []
  fetchFuncArgs : List (String × List Uprobe.FetchArgExpr) := []
  retFetchFuncArgs : List (String × List Uprobe.FetchArgExpr) := []
  autoFetchArgs : Bool := false
  autoFetchRets : Bool := false

/-! ## The binary -/

/-- A row of the symbol table; `isFunc` is `ST_TYPE(symbol.Info) == STT_FUNC`. -/
structure SymbolRow extends Elf.Symbol where
  isFunc : Bool := true

/-- What `Parse` reads of the ELF file. `Symbols` has sorted the table by value. -/
structure Binary where
  rows : List SymbolRow
  sorted : Elf.Sorted (rows.map SymbolRow.toSymbol)
  /-- The address of `.text` and its offset in the file. -/
  textAddr : UInt64 := 0
  textOffset : UInt64 := 0
  /-- `FuncRetOffsets`: offsets in the file; `none` is an error. -/
  funcRetOffsets : String → Option (List UInt64)
  /-- `FunctionVariables`; `none` is an error. -/
  functionVariables : String → Option (List Variable × List Variable) := fun _ => none

namespace Binary

def symbols (b : Binary) : List Elf.Symbol := b.rows.map SymbolRow.toSymbol

/-- `ResolveSymbol`: the map from names keeps the last symbol of a name. -/
def resolveSymbol (b : Binary) (name : String) : Option Elf.Symbol :=
  (b.symbols.filter fun s => s.name == name).getLast?

/-- `FuncOffset`. -/
def funcOffset (b : Binary) (sym : Elf.Symbol) : UInt64 := sym.value - b.textAddr + b.textOffset

/-- `attachFuncs`: the functions that match a pattern, in the order of the table. -/
def attachFuncs (b : Binary) (opts : ParseOptions) : List String :=
  b.rows.filterMap fun row =>
    if row.isFunc && (opts.uprobeWildcards ++ opts.funcNames).any (matchName · row.name) &&
        !(opts.excludeVendor && contains row.name "/vendor/") then
      some row.name
    else none

end Binary

/-- Whether an attached function is in `wantedFuncs`. -/
def ParseOptions.wants (opts : ParseOptions) (name : String) : Bool :=
  opts.funcNames.isEmpty || opts.funcNames.any (matchName · name)

/-! ## Rules -/

/-- The four maps of `Parse`. -/
structure Fetches where
  fetchArgs : String → List FetchArg
  retFetchArgs : String → List FetchArg
  argValues : String → List Value := fun _ => []
  retValues : String → List Value := fun _ => []

/-- One turn of the loop of `fillAutoFetch`. -/
def Fetches.fill (autoArgs autoRets : Bool)
    (functionVariables : String → Option (List Variable × List Variable)) (f : Fetches)
    (fn : String) : Fetches :=
  let needEntry := autoArgs && (f.fetchArgs fn).isEmpty
  let needRet := autoRets && (f.retFetchArgs fn).isEmpty
  match functionVariables fn with
  | none => f
  | some (args, rets) =>
    let entry := Uprobe.deriveArgs args
    let ret := Uprobe.deriveRets rets
    let f :=
      if needEntry && !entry.1.isEmpty then
        { f with
          fetchArgs := Function.update f.fetchArgs fn entry.1
          argValues := Function.update f.argValues fn entry.2 }
      else f
    if needRet && !ret.1.isEmpty then
      { f with
        retFetchArgs := Function.update f.retFetchArgs fn ret.1
        retValues := Function.update f.retValues fn ret.2 }
    else f

/-- `fillAutoFetch`. -/
def fillAutoFetch (b : Binary) (opts : ParseOptions) (f : Fetches) : Fetches :=
  (b.attachFuncs opts).foldl
    (Fetches.fill opts.autoFetchArgs opts.autoFetchRets b.functionVariables) f

/-- The rules of a function. -/
def rulesOf (rules : List (String × List FetchArg)) (fn : String) : List FetchArg :=
  (rules.lookup fn).getD []

/-! ## Parse -/

inductive ParseError where
  | fetch (e : FetchError)
  | symbolNotFound (name : String)
  deriving DecidableEq, Repr

/-- `resolveSymbol` with its error. -/
def Binary.lookup (b : Binary) (name : String) : Except ParseError Elf.Symbol :=
  match b.resolveSymbol name with
  | some sym => .ok sym
  | none => .error (.symbolNotFound name)

/-- The body of the last loop of `Parse`. A function whose RET instructions are not found is
skipped. -/
def Binary.tracedFunc (b : Binary) (opts : ParseOptions) (f : Fetches) (name : String)
    (sym : Elf.Symbol) : TracedFunc :=
  { name := name
    entry := sym.value
    rets := ((b.funcRetOffsets name).getD []).map fun retOffset => retOffset - b.funcOffset sym
    wanted := opts.wants name
    fetchArgs := f.fetchArgs name
    values := f.argValues name
    retFetchArgs := f.retFetchArgs name
    retValues := f.retValues name }

/-- `parseFetchArgs` with its error. -/
def parseRules (params : List (String × List Uprobe.FetchArgExpr)) :
    Except ParseError (List (String × List FetchArg)) :=
  (Uprobe.parseFetchArgs params).mapError .fetch

/-- `Parse`. -/
def Binary.parse (b : Binary) (opts : ParseOptions) : Except ParseError (List GoFtrace.Uprobe) := do
  let fetchArgs ← parseRules opts.fetchFuncArgs
  let retFetchArgs ← parseRules opts.retFetchFuncArgs
  let f := fillAutoFetch b opts
    { fetchArgs := rulesOf fetchArgs, retFetchArgs := rulesOf retFetchArgs }
  let goexit ← b.lookup "runtime.goexit1"
  let fns ← (b.attachFuncs opts).mapM fun name => do
    let sym ← b.lookup name
    return b.tracedFunc opts f name sym
  return Tracing.parse goexit.value fns

end GoFtrace.Tracing
