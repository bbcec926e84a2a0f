import GoFtrace.Elf.Symtab
import GoFtrace.Lib.Memo
import Mathlib.Data.List.Sort

/-!
# The accessors of an ELF file and their cache

`Symbols`, `Text`, `LineEntries`, `NonInlinedSubprogramDIEs`, `runtimeTypes` of the package
`elf`, each with its slot of `ELF.cache`, and the functions built on them. What the ELF and
DWARF packages read from the file is a field of `File`, so that reading it again gives the
same.
-/

namespace GoFtrace.Elf

/-! ## The file -/

/-- `dwarf.LineEntry`, with the name of its file. -/
structure LineEntry where
  address : UInt64
  file : String
  line : Int
  deriving DecidableEq, Repr

/-- What `dwarfData.LineReader` gives for a unit: an error, no reader, or a reader whose
`Next` yields some rows and then `io.EOF`, or another error. -/
inductive LineReader where
  | failed (err : String)
  | absent
  | rows (rows : List LineEntry) (stop : Option String)
  deriving DecidableEq, Repr

inductive Tag where
  | compileUnit | subprogram | other
  deriving DecidableEq, Repr

/-- `DW_AT_high_pc`: an address, or an offset from the low one. -/
inductive HighPc where
  | address (v : UInt64)
  | offset (v : Int64)
  deriving DecidableEq, Repr

/-- `elf.Symbol` with the field `Info`. -/
structure FileSymbol extends Symbol where
  info : UInt8
  deriving DecidableEq, Repr

/-- `elf.ST_TYPE(sym.Info) == elf.STT_FUNC`. -/
def FileSymbol.isFunc (s : FileSymbol) : Bool := s.info &&& 15 == 2

/-- The section `.text`: what `ReadAt` leaves in the buffer, and its error. -/
structure TextSection where
  addr : UInt64
  offset : UInt64
  bytes : List UInt8
  readError : Option String
  deriving DecidableEq, Repr

/-- `sort.Slice` by an unsigned key: a sorted permutation, in an unspecified order where the
keys are equal. -/
structure SliceSort (α : Type) (key : α → UInt64) where
  sort : List α → List α
  perm : ∀ l, (sort l).Perm l
  sorted : ∀ l, (sort l).Pairwise fun a b => key a ≤ key b

/-- Insertion sort is one. -/
def SliceSort.insertion {α : Type} (key : α → UInt64) : SliceSort α key where
  sort l := l.insertionSort fun a b => key a ≤ key b
  perm l := List.perm_insertionSort _ l
  sorted l := by
    have htotal : Std.Total fun a b : α => key a ≤ key b := ⟨fun _ _ => UInt64.le_total _ _⟩
    have htrans : IsTrans α fun a b => key a ≤ key b := ⟨fun _ _ _ => UInt64.le_trans⟩
    exact List.pairwise_insertionSort _ l

section
variable {τ : Type}

/-- `dwarf.Entry` with the attributes that the accessors read, what `dwarfData.Type` gives at
its offset, and what `dwarfData.LineReader` gives. -/
structure Entry (τ : Type) where
  tag : Tag
  name : Option String := none
  lowpc : Option UInt64 := none
  highpc : Option HighPc := none
  goRuntimeType : Option UInt64 := none
  type : Option τ := none
  lineReader : LineReader := .absent

/-- The content of a file. The reader of `.debug_info` yields `entries` and then the end, or
an error. -/
structure File (τ : Type) where
  symbols : Except String (List FileSymbol)
  text : Option TextSection
  entries : List (Entry τ)
  entriesError : Option String
  sortSymbols : SliceSort FileSymbol fun s => s.value
  sortLines : SliceSort LineEntry LineEntry.address

/-- A call returns its values and an error or `nil`, or panics. -/
inductive Result (α : Type) where
  | returned (value : α) (err : Option String)
  | panic
  deriving DecidableEq, Repr

abbrev SymbolMap := String → Option FileSymbol

abbrev DieMap (τ : Type) := String → Option (Entry τ)

abbrev TypeMap (τ : Type) := UInt64 → Option τ

/-- `ELF.cache`. The keys `symbols` and `symnames` are set together. -/
structure Cache (τ : Type) where
  symbols : Option (List FileSymbol × SymbolMap) := none
  textBytes : Option (List UInt8) := none
  lineEntries : Option (List LineEntry) := none
  subprogramdies : Option (DieMap τ) := none
  runtimeTypes : Option (TypeMap τ) := none

/-- `v, err := call()`, and the `return` where `err` is not `nil`. -/
def orReturn (call : Result α × Cache τ) (fail : String → Result β)
    (next : α → Cache τ → Result β × Cache τ) : Result β × Cache τ :=
  match call with
  | (.panic, c) => (.panic, c)
  | (.returned _ (some err), c) => (fail err, c)
  | (.returned v none, c) => next v c

/-! ## The accessors -/

/-- The error that ends the rows of a unit. -/
def eof : String := "EOF"

namespace File

variable (f : File τ)

/-- The loop that fills `symnames`. -/
def nameSymbols : List FileSymbol → SymbolMap → SymbolMap
  | [], names => names
  | s :: symbols, names => nameSymbols symbols (Function.update names s.name (some s))

/-- `Symbols`. -/
def symbolTable (c : Cache τ) : Result (List FileSymbol × SymbolMap) × Cache τ :=
  match c.symbols with
  | some table => (.returned table none, c)
  | none =>
    match f.symbols with
    | .error err => (.returned ([], fun _ => none) (some err), c)
    | .ok symbols =>
      let symbols := f.sortSymbols.sort symbols
      let table := (symbols, nameSymbols symbols fun _ => none)
      (.returned table none, { c with symbols := some table })

/-- `Text`. A file without the section is a nil pointer. -/
def textBytes (c : Cache τ) : Result (List UInt8) × Cache τ :=
  match c.textBytes with
  | some bytes => (.returned bytes none, c)
  | none =>
    match f.text with
    | none => (.panic, c)
    | some sec =>
      let c := { c with textBytes := some sec.bytes }
      match sec.readError with
      | some err => (.returned [] (some err), c)
      | none => (.returned sec.bytes none, c)

/-- The loop of `LineEntries`: the rows, the named result `err`, and whether the loop returned
from inside. -/
def lineLoop : List (Entry τ) → List LineEntry → Option String →
    List LineEntry × Option String × Bool
  | [], lineEntries, err => (lineEntries, err, false)
  | die :: dies, lineEntries, err =>
    if die.tag = .compileUnit then
      match die.lineReader with
      | .failed err => lineLoop dies lineEntries (some err)
      | .absent => lineLoop dies lineEntries none
      | .rows rows none => lineLoop dies (lineEntries ++ rows) (some eof)
      | .rows rows (some err) => (lineEntries ++ rows, some err, true)
    else lineLoop dies lineEntries err

/-- `LineEntries`. -/
def lineEntries (c : Cache τ) : Result (List LineEntry) × Cache τ :=
  match c.lineEntries with
  | some rows => (.returned rows none, c)
  | none =>
    match lineLoop f.entries [] none with
    | (rows, err, true) => (.returned rows err, c)
    | (rows, err, false) =>
      let rows := f.sortLines.sort rows
      (.returned rows err, { c with lineEntries := some rows })

/-- The index expression of `LineInfoForPc`, on the rows of `LineEntries`. -/
def lineRow (rows : List LineEntry) (pc : UInt64) : Option LineEntry :=
  let idx := sortSearch rows.length fun i =>
    match rows[i]? with
    | some row => decide (pc ≤ row.address)
    | none => false
  if idx = 0 then none else rows[idx - 1]?

/-- `LineInfoForPc`, up to the fields it returns of the row. -/
def lineRowForPc (c : Cache τ) (pc : UInt64) : Result (Option LineEntry) × Cache τ :=
  orReturn (f.lineEntries c) (fun err => .returned none (some err)) fun rows c =>
    match lineRow rows pc with
    | some row => (.returned (some row) none, c)
    | none => (.panic, c)

/-- `LineInfoForPc`. -/
def lineInfoForPc (c : Cache τ) (pc : UInt64) : Result (String × Int) × Cache τ :=
  orReturn (f.lineRowForPc c pc) (fun err => .returned ("", 0) (some err)) fun row c =>
    (.returned ((row.map fun r => (r.file, r.line)).getD ("", 0)) none, c)

/-- The loop of `NonInlinedSubprogramDIEs`. -/
def dieLoop (symnames : SymbolMap) : List (Entry τ) → DieMap τ → DieMap τ
  | [], dies => dies
  | die :: rest, dies =>
    if die.tag = .subprogram then
      match die.name, die.lowpc, die.highpc with
      | some name, some lowpc, some _ =>
        match symnames name with
        | some sym =>
          if sym.value = lowpc then
            dieLoop symnames rest (Function.update dies name (some die))
          else dieLoop symnames rest dies
        | none => dieLoop symnames rest dies
      | _, _, _ => dieLoop symnames rest dies
    else dieLoop symnames rest dies

/-- `NonInlinedSubprogramDIEs` where the cache does not have them. -/
def computeSubprogramDIEs (c : Cache τ) : Result (DieMap τ) × Cache τ :=
  orReturn (f.symbolTable c) (fun err => .returned (fun _ => none) (some err)) fun table c =>
    let dies := dieLoop table.2 f.entries fun _ => none
    (.returned dies none, { c with subprogramdies := some dies })

/-- `NonInlinedSubprogramDIEs`. -/
def nonInlinedSubprogramDIEs (c : Cache τ) : Result (DieMap τ) × Cache τ :=
  match c.subprogramdies with
  | some dies => (.returned dies none, c)
  | none => f.computeSubprogramDIEs c

/-- `FuncPcRangeInDwarf`. The entries of the map have both attributes. -/
def funcPcRangeInDwarf (c : Cache τ) (funcname : String) :
    Result (UInt64 × UInt64) × Cache τ :=
  orReturn (f.nonInlinedSubprogramDIEs c) (fun err => .returned (0, 0) (some err)) fun dies c =>
    match dies funcname with
    | none => (.returned (0, 0) (some (funcname ++ ": DIE not found")), c)
    | some die =>
      let lowpc := die.lowpc.getD 0
      let highpc := match die.highpc with
        | some (.address v) => v
        | some (.offset v) => lowpc + v.toUInt64
        | none => 0
      (.returned (lowpc, highpc) none, c)

/-- `FuncPcRangeInSymtab`. -/
def funcPcRangeInSymtab (c : Cache τ) (name : String) : Result (UInt64 × UInt64) × Cache τ :=
  orReturn (f.symbolTable c) (fun err => .returned (0, 0) (some err)) fun table c =>
    match (table.2 name).filter FileSymbol.isFunc with
    | none => (.returned (0, 0) (some (name ++ ": symbol not found")), c)
    | some sym =>
      let symbols := table.1
      let idx := sortSearch symbols.length fun i =>
        match symbols[i]? with
        | some s => decide (sym.value < s.value)
        | none => false
      (.returned (sym.value, (symbols[idx]?.map (·.value)).getD 0) none, c)

/-- The range of `FuncRawInstructions`: of `.debug_info`, else of `.symtab`. -/
def funcPcRange (c : Cache τ) (name : String) : Result (UInt64 × UInt64) × Cache τ :=
  match f.funcPcRangeInDwarf c name with
  | (.returned _ (some _), c) => f.funcPcRangeInSymtab c name
  | (r, c) => (r, c)

/-- `FuncRawInstructions`. -/
def funcRawInstructions (c : Cache τ) (name : String) :
    Result (List UInt8 × UInt64 × UInt64) × Cache τ :=
  let fail := fun err => .returned ([], 0, 0) (some err)
  orReturn (f.funcPcRange c name) fail fun (lowpc, highpc) c =>
    orReturn (f.textBytes c) fail fun bytes c =>
      match f.text with
      | none => (.panic, c)
      | some sec =>
        if lowpc < sec.addr ∨ UInt64.ofNat bytes.length + sec.addr < highpc then
          (.returned (bytes, 0, 0) (some (name ++ ": PC range too large")), c)
        else if highpc - sec.addr < lowpc - sec.addr ∨
            bytes.length < (highpc - sec.addr).toNat then (.panic, c)
        else
          let start := lowpc - sec.addr
          let raw := (bytes.take (highpc - sec.addr).toNat).drop start.toNat
          (.returned (raw, lowpc, start + sec.offset) none, c)

/-- `ResolveSymbol`. -/
def resolveSymbol (c : Cache τ) (sym : String) : Result (Option FileSymbol) × Cache τ :=
  orReturn (f.symbolTable c) (fun err => .returned none (some err)) fun table c =>
    match table.2 sym with
    | none => (.returned none (some (sym ++ ": symbol not found")), c)
    | some symbol => (.returned (some symbol) none, c)

/-- The loop of `runtimeTypes`. -/
def typeLoop (base : UInt64) : List (Entry τ) → TypeMap τ → TypeMap τ
  | [], types => types
  | entry :: rest, types =>
    match entry.goRuntimeType, entry.type with
    | some off, some t => typeLoop base rest (Function.update types (base + off) (some t))
    | _, _ => typeLoop base rest types

/-- `runtimeTypes` where the cache does not have them. -/
def computeRuntimeTypes (c : Cache τ) : Result (TypeMap τ) × Cache τ :=
  orReturn (f.resolveSymbol c "runtime.types")
    (fun err => .returned (fun _ => none) (some ("resolve runtime.types: " ++ err)))
    fun typesBase c =>
      match f.entriesError with
      | some err => (.returned (fun _ => none) (some ("read DWARF runtime types: " ++ err)), c)
      | none =>
        let base := (typesBase.map (·.value)).getD 0
        let types := typeLoop base f.entries fun _ => none
        (.returned types none, { c with runtimeTypes := some types })

/-- `runtimeTypes`. -/
def runtimeTypes (c : Cache τ) : Result (TypeMap τ) × Cache τ :=
  match c.runtimeTypes with
  | some types => (.returned types none, c)
  | none => f.computeRuntimeTypes c

/-- `RuntimeType`. -/
def runtimeType (c : Cache τ) (addr : UInt64) : Result (Option τ) × Cache τ :=
  orReturn (f.runtimeTypes c) (fun err => .returned none (some err)) fun types c =>
    match types addr with
    | none =>
      let hex := String.ofList (Nat.toDigits 16 addr.toNat)
      (.returned none (some ("runtime type 0x" ++ hex ++ " not found in DWARF")), c)
    | some t => (.returned (some t) none, c)

end File

end

end GoFtrace.Elf
