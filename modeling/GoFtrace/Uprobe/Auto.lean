import GoFtrace.Uprobe.FetchArg

/-!
# The automatic fetch planner

`internal/uprobe/auto.go`: `deriveArgs` and `deriveRets` walk the parameter types once and
compile them into fetch rules (one per leaf) and value descriptors (one per parameter).
The planner state `FlatCtx` has two cursors, the next ABI register and the leaves emitted
so far.
-/

namespace GoFtrace.Uprobe

/-- `abiRegs`: the Go ABI order of the integer registers. -/
def abiRegs : List Reg := [.ax, .bx, .cx, .di, .si, .r8, .r9, .r10, .r11]

def autoStringSize : Int := 64

/-- `"c" + strconv.Itoa(autoStringSize*8)`. -/
def blobType : String := "c512"

/-- `argSpec`: one leaf before it becomes a `FetchArg`. -/
structure ArgSpec where
  name : String
  size : Int
  typ : String
  reg : Option Reg := none
  mem : Bool := false
  offset : Int := 0
  deref : Bool := false
  nilCheck : Bool := false
  rules : List ArgRule := []
  deriving DecidableEq, Repr

def ArgSpec.fetchArg (s : ArgSpec) : FetchArg :=
  let rules :=
    if s.rules.isEmpty then
      if s.mem then [.register s.reg, .stack s.offset s.deref] else [.register s.reg]
    else s.rules
  { varname := s.name, type := s.typ, size := s.size, rules := rules, nilCheck := s.nilCheck }

/-- `memLoc`: an address computed from a register by add and dereference steps. -/
structure MemLoc where
  reg : Option Reg
  steps : List ArgRule := []
  nilCheck : Bool := false

def MemLoc.add (l : MemLoc) (off : Int) : MemLoc :=
  if off = 0 then l else { l with steps := l.steps ++ [.stack off false] }

def MemLoc.deref (l : MemLoc) (off : Int) : MemLoc :=
  { l with steps := l.steps ++ [.stack off true] }

def locSpec (name : String) (loc : MemLoc) (size : Int) (typ : String) : ArgSpec :=
  let steps := if loc.steps.isEmpty then [.stack 0 false] else loc.steps
  { name := name, size := size, typ := typ, rules := .register loc.reg :: steps,
    nilCheck := loc.nilCheck }

def blobAt (name : String) (loc : MemLoc) : ArgSpec :=
  locSpec name loc autoStringSize blobType

def scalarRegSpec (name : String) (size : Int) (typ : String) (reg : Option Reg) : ArgSpec :=
  { name := name, size := size, typ := typ, reg := reg }

/-- The type slot of an interface held in registers: `[typeReg]` for `any`, the word at
`itab + 8` otherwise. -/
def ifaceTypeSpec (nonEmpty : Bool) (name : String) (reg : Option Reg) : ArgSpec :=
  if nonEmpty then
    { name := name ++ ".type", size := 8, typ := "u64", reg := reg, mem := true, offset := 8,
      nilCheck := true }
  else scalarRegSpec (name ++ ".type") 8 "u64" reg

/-- `Value`: one auto-fetched parameter. Its `RuntimeType` resolver is the same for all
values and is passed to the renderer. -/
structure Value where
  name : String
  type : DType
  wordCount : Nat
  captures : Nat

def Value.leafCount (v : Value) : Nat := v.wordCount + v.captures

/-- `flatCtx`. The register list is `abiRegs`. -/
structure FlatCtx where
  wi : Nat := 0
  out : List ArgSpec := []
  broken : Bool := false

namespace FlatCtx

def full (c : FlatCtx) : Bool := maxFetchArgs ≤ c.out.length

def reserve (c : FlatCtx) (n : Nat) : FlatCtx × Bool :=
  if c.out.length + n ≤ maxFetchArgs then (c, true) else ({ c with broken := true }, false)

/-- `nextWord`; `none` is the empty register name. -/
def nextWord (c : FlatCtx) : FlatCtx × Option Reg :=
  match abiRegs[c.wi]? with
  | some r => ({ c with wi := c.wi + 1 }, some r)
  | none => ({ c with broken := true }, none)

def emit (c : FlatCtx) (s : ArgSpec) : FlatCtx := { c with out := c.out ++ [s] }

end FlatCtx

/-! ## Leaf and word counts -/

mutual

/-- `extraCaptures`. -/
def DType.extraCaptures (inMemory : Bool) : DType → Nat
  | .typedef _ t => t.extraCaptures inMemory
  | .qual _ t => t.extraCaptures inMemory
  | .struct _ s _ fs =>
    match structKind s fs with
    | .string => 1
    | .slice => 1
    | .iface nonEmpty => if inMemory then (if nonEmpty then 3 else 2) else 1
    | .plain => fs.extraCaptures inMemory
  | _ => 0

def Fields.extraCaptures (inMemory : Bool) : Fields → Nat
  | .nil => 0
  | .cons _ _ t rest => t.extraCaptures inMemory + rest.extraCaptures inMemory

end

mutual

/-- `abiWordCount`. -/
def DType.abiWordCount : DType → Nat
  | .typedef _ t => t.abiWordCount
  | .qual _ t => t.abiWordCount
  | .ptr _ _ _ => 1
  | .struct _ s _ fs =>
    if isString s || isInterface s fs then 2
    else if isSlice s fs then 3
    else fs.abiWordCount 0
  | t => if (scalarValue t).isSome then 1 else 0

/-- The loop of `abiWordCount` with the words `n` counted so far; a field without words
makes the whole count `0`. -/
def Fields.abiWordCount : Nat → Fields → Nat
  | n, .nil => n
  | n, .cons _ _ t rest =>
    if t.abiWordCount = 0 then 0 else rest.abiWordCount (n + t.abiWordCount)

end

/-! ## Emission -/

/-- `captureJob`. -/
structure CaptureJob where
  name : String
  kind : StructKind
  loc : MemLoc

mutual

/-- `emitABI`. A job remembers the class of its struct type, which is all that
`emitRegCaptures` looks at. -/
def DType.emitABI (name : String) : DType → FlatCtx → FlatCtx × List CaptureJob
  | .typedef _ t, c => t.emitABI name c
  | .qual _ t, c => t.emitABI name c
  | .struct _ s _ fs, c =>
    match structKind s fs with
    | .string =>
      let (c, data) := c.nextWord
      let (c, ln) := c.nextWord
      let c := c.emit (scalarRegSpec (name ++ ".data") 8 "u64" data)
      let c := c.emit (scalarRegSpec (name ++ ".len") 8 "s64" ln)
      (c, [{ name := name ++ ".str", kind := .string, loc := { reg := data } }])
    | .slice =>
      let (c, data) := c.nextWord
      let (c, ln) := c.nextWord
      let (c, cap) := c.nextWord
      let c := c.emit (scalarRegSpec (name ++ ".data") 8 "u64" data)
      let c := c.emit (scalarRegSpec (name ++ ".len") 8 "s64" ln)
      let c := c.emit (scalarRegSpec (name ++ ".cap") 8 "s64" cap)
      (c, [{ name := name ++ ".arr", kind := .slice, loc := { reg := data, nilCheck := true } }])
    | .iface nonEmpty =>
      let (c, typeReg) := c.nextWord
      let (c, dataReg) := c.nextWord
      let c := c.emit (ifaceTypeSpec nonEmpty name typeReg)
      let c := c.emit (scalarRegSpec (name ++ ".data") 8 "u64" dataReg)
      (c, [{ name := name, kind := .iface nonEmpty,
             loc := { reg := dataReg, nilCheck := true } }])
    | .plain => fs.emitABI name c
  | .ptr _ _ _, c =>
    let (c, reg) := c.nextWord
    (c.emit (scalarRegSpec name 8 "u64" reg), [])
  | t, c =>
    let (c, reg) := c.nextWord
    match scalarValue t with
    | none => (c.emit (scalarRegSpec name 8 "u64" reg), [])
    | some (_, typ, size) => (c.emit (scalarRegSpec name size typ reg), [])

def Fields.emitABI (name : String) : Fields → FlatCtx → FlatCtx × List CaptureJob
  | .nil, c => (c, [])
  | .cons n _ t rest, c =>
    let (c, jobs) := t.emitABI (name ++ "." ++ n) c
    let (c, more) := rest.emitABI name c
    (c, jobs ++ more)

end

/-- `emitRegCaptures`. -/
def emitRegCaptures (job : CaptureJob) (c : FlatCtx) : FlatCtx :=
  match job.kind with
  | .string => c.emit (blobAt job.name job.loc)
  | .slice => c.emit (blobAt job.name job.loc)
  | .iface _ => c.emit (blobAt (job.name ++ ".value") job.loc)
  | .plain => c

mutual

/-- `emitMemCaptures`. -/
def DType.emitMemCaptures (name : String) : DType → MemLoc → FlatCtx → FlatCtx
  | .typedef _ t, loc, c => t.emitMemCaptures name loc c
  | .qual _ t, loc, c => t.emitMemCaptures name loc c
  | .struct _ s _ fs, loc, c =>
    match structKind s fs with
    | .string => c.emit (blobAt (name ++ ".str") (loc.deref 0))
    | .slice => c.emit (blobAt (name ++ ".arr") (loc.deref 0))
    | .iface nonEmpty =>
      let c := if nonEmpty then
          c.emit (locSpec (name ++ ".type") ((loc.deref 0).add 8) 8 "u64")
        else c
      let c := c.emit (locSpec (name ++ ".data") (loc.add 8) 8 "u64")
      c.emit (blobAt (name ++ ".value") (loc.deref 8))
    | .plain => fs.emitMemCaptures name loc c
  | _, _, c => c

def Fields.emitMemCaptures (name : String) : Fields → MemLoc → FlatCtx → FlatCtx
  | .nil, _, c => c
  | .cons n off t rest, loc, c =>
    rest.emitMemCaptures name loc (t.emitMemCaptures (name ++ "." ++ n) (loc.add off) c)

end

/-! ## Planning -/

/-- The pointee of `*T` when `planValue` copies the object: a struct that is not one of
the runtime's own. -/
def DType.objectPointee : DType → Option DType
  | .ptr _ _ t =>
    match t.underlying with
    | .struct _ s _ _ => if isRuntimeStruct s then none else some t
    | _ => none
  | _ => none

/-- `planValue`. The words of a string, a slice or an interface are all taken before the
check that none is missing, so a failure leaves the register cursor advanced. -/
def planValue (orig : DType) (name : String) (c : FlatCtx) : FlatCtx × Option Value :=
  match orig.underlying with
  | .ptr n b elem =>
    match (DType.ptr n b elem).objectPointee with
    | some t =>
      let extras := t.extraCaptures true
      let (c, ok) := c.reserve (2 + extras)
      if !ok then (c, none) else
      let (c, reg) := c.nextWord
      if reg.isNone then (c, none) else
      let loc : MemLoc := { reg := reg, nilCheck := true }
      let c := c.emit (scalarRegSpec name 8 "u64" reg)
      let c := c.emit (blobAt (name ++ ".obj") loc)
      let c := t.emitMemCaptures name loc c
      (c, some { name := name, type := orig, wordCount := 1, captures := 1 + extras })
    | none =>
      let (c, reg) := c.nextWord
      if reg.isNone then (c, none) else
      (c.emit (scalarRegSpec name 8 "u64" reg),
        some { name := name, type := orig, wordCount := 1, captures := 0 })
  | .struct n s b fs =>
    match structKind s fs with
    | .string =>
      let (c, ok) := c.reserve 3
      if !ok then (c, none) else
      let (c, data) := c.nextWord
      let (c, ln) := c.nextWord
      if data.isNone || ln.isNone then (c, none) else
      let c := c.emit (scalarRegSpec (name ++ ".data") 8 "u64" data)
      let c := c.emit (scalarRegSpec (name ++ ".len") 8 "s64" ln)
      let c := c.emit (blobAt (name ++ ".str") { reg := data })
      (c, some { name := name, type := orig, wordCount := 2, captures := 1 })
    | .slice =>
      let (c, ok) := c.reserve 4
      if !ok then (c, none) else
      let (c, data) := c.nextWord
      let (c, ln) := c.nextWord
      let (c, cap) := c.nextWord
      if data.isNone || ln.isNone || cap.isNone then (c, none) else
      let c := c.emit (scalarRegSpec (name ++ ".data") 8 "u64" data)
      let c := c.emit (scalarRegSpec (name ++ ".len") 8 "s64" ln)
      let c := c.emit (scalarRegSpec (name ++ ".cap") 8 "s64" cap)
      let c := c.emit (blobAt (name ++ ".arr") { reg := data, nilCheck := true })
      (c, some { name := name, type := orig, wordCount := 3, captures := 1 })
    | .iface nonEmpty =>
      let (c, ok) := c.reserve 3
      if !ok then (c, none) else
      let (c, typeReg) := c.nextWord
      let (c, dataReg) := c.nextWord
      if typeReg.isNone || dataReg.isNone then (c, none) else
      let c := c.emit (ifaceTypeSpec nonEmpty name typeReg)
      let c := c.emit (scalarRegSpec (name ++ ".data") 8 "u64" dataReg)
      let c := c.emit (blobAt (name ++ ".value") { reg := dataReg, nilCheck := true })
      (c, some { name := name, type := orig, wordCount := 2, captures := 1 })
    | .plain =>
      let words := (DType.struct n s b fs).abiWordCount
      let extras := (DType.struct n s b fs).extraCaptures false
      if words = 0 then (c, none) else
      let (c, ok) := c.reserve (words + extras)
      if !ok then (c, none) else
      let (c, jobs) := (DType.struct n s b fs).emitABI name c
      let c := jobs.foldl (fun c job => emitRegCaptures job c) c
      (c, some { name := name, type := orig, wordCount := words, captures := extras })
  | t =>
    match scalarValue t with
    | none => (c, none)
    | some (_, typ, size) =>
      let (c, reg) := c.nextWord
      if reg.isNone then (c, none) else
      (c.emit (scalarRegSpec name size typ reg),
        some { name := name, type := orig, wordCount := 1, captures := 0 })

/-- `elf.Variable`, without the flag that sorts it into parameters or results. -/
structure Variable where
  name : String
  type : DType

/-- The loop shared by `deriveArgs` and `deriveRets`. -/
def planAll (rename : String → String) : List Variable → FlatCtx → FlatCtx × List Value
  | [], c => (c, [])
  | v :: vars, c =>
    if c.full then (c, [])
    else
      let (c, node) := planValue v.type (rename v.name) c
      let (c, values) := planAll rename vars c
      (c, node.toList ++ values)

/-- `typeIdx` of `markIfaceSlots`: the last slot named `prefix.type`. -/
def typeIdx (args : List FetchArg) (slot : String) : Option Nat :=
  (args.zipIdx.filter fun (a, _) =>
    hasSuffix a.varname ".type" && trimSuffix a.varname ".type" == slot).getLast?.map (·.2)

/-- `markIfaceSlots`. -/
def markIfaceSlots (args : List FetchArg) : List FetchArg :=
  args.map fun a =>
    if hasSuffix a.varname ".data" then
      match typeIdx args (trimSuffix a.varname ".data") with
      | some ti => { a with ifaceData := true, typeIndex := ti }
      | none => a
    else a

/-- `flatCtx.build`. -/
def FlatCtx.build (c : FlatCtx) : List FetchArg := c.out.map ArgSpec.fetchArg

/-- `retName`. -/
def retName (name : String) : String :=
  if hasPrefix name "~r" then "ret" ++ trimPrefix name "~r" else name

def derive (rename : String → String) (vars : List Variable) : List FetchArg × List Value :=
  let (c, values) := planAll rename vars {}
  (markIfaceSlots c.build, values)

def deriveArgs (vars : List Variable) : List FetchArg × List Value := derive id vars

def deriveRets (vars : List Variable) : List FetchArg × List Value := derive retName vars

end GoFtrace.Uprobe
