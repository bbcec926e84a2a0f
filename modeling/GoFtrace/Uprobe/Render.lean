import GoFtrace.Uprobe.Auto
import GoFtrace.Uprobe.Snapshot

/-!
# Rendering dynamic values

`renderDynamicValue` of `internal/uprobe/value.go` and the functions it calls: a typed
walk over bytes that reads more bytes through a reader of the probe snapshot. The
recursion is on the depth that is left.
-/

namespace GoFtrace.Uprobe

open Lib

/-! ## Texts of the standard library -/

/-- The text functions of the Go standard library that rendering calls. -/
structure GoText where
  /-- `strconv.Quote(string(buf))`. -/
  quote : List UInt8 → String
  /-- `strconv.FormatFloat(f, 'g', -1, 32)` of `math.Float32frombits`. -/
  formatFloat32 : UInt32 → String
  /-- `strconv.FormatFloat(f, 'g', -1, 64)` of `math.Float64frombits`. -/
  formatFloat64 : UInt64 → String
  /-- `fmt.Sprintf("%f", float32(n))`. -/
  sprintFloat32 : UInt32 → String
  /-- `fmt.Sprintf("%f", float64(n))`. -/
  sprintFloat64 : UInt64 → String
  /-- `string(buf)`. -/
  ofBytes : List UInt8 → String
  /-- `token.IsExported`. -/
  isExported : String → Bool

/-- `fmt.Sprintf("0x%x", w)`. -/
def hexText (w : UInt64) : String := "0x" ++ String.ofList (Nat.toDigits 16 w.toNat)

/-- The two's complement value of the first `n` bytes. -/
def signedOf (n : Nat) (data : List UInt8) : Int :=
  let v := leNat (data.take n)
  if 2 * v < 256 ^ n then v else (v : Int) - (256 ^ n : Nat)

/-- The integer cases of `renderLeaf` and `SprintValue`. -/
def integerText (typ : String) (data : List UInt8) : Option String :=
  if typ = "s8" then some (toString (signedOf 1 data))
  else if typ = "s16" then some (toString (signedOf 2 data))
  else if typ = "s32" then some (toString (signedOf 4 data))
  else if typ = "s64" then some (toString (signedOf 8 data))
  else if typ = "u8" then some (toString (leNat (data.take 1)))
  else if typ = "u16" then some (toString (leNat (data.take 2)))
  else if typ = "u32" then some (toString (leNat (data.take 4)))
  else if typ = "u64" then some (toString (leNat (data.take 8)))
  else none

/-- The last two cases of `renderLeaf`: an integer of the named width, or a word. -/
def plainText (typ : String) (data : List UInt8) : String :=
  (integerText typ data).getD (toString (word data).toNat)

def boolText (data : List UInt8) : String :=
  match data with
  | [] => "false"
  | b :: _ => if b ≠ 0 then "true" else "false"

/-- `renderLeaf`. -/
def renderLeaf (g : GoText) (kind : ValueKind) (typ : String) (data : List UInt8) : String :=
  match kind with
  | .bool => boolText data
  | .float =>
    if typ = "f32" then g.formatFloat32 (UInt32.ofNat (leNat (data.take 4)))
    else if typ = "f64" then g.formatFloat64 (word data)
    else plainText typ data
  | .pointer => if word data = 0 then "nil" else hexText (word data)
  | .scalar => plainText typ data

/-! ## Values -/

/-- `maxReadSize`. -/
def maxReadSize : Int := 4096

/-- `maxDynamicDepth`. -/
def maxDynamicDepth : Nat := 8

/-- `runtimeTypeResolver`; a missing resolver is one that always fails. -/
abbrev TypeResolver := UInt64 → Option DType

/-- `memoryReader`, for a buffer of the given length. -/
abbrev MemoryReader := UInt64 → Nat → Option (List UInt8)

/-- What stays fixed while a value is rendered. -/
structure RenderEnv where
  text : GoText
  resolveType : TypeResolver
  /-- `RenderOpts.HideUnexported`. -/
  hideUnexported : Bool

/-- `string(q[:len(q)-1]) + "...\""` of a quoted text that was cut. -/
def truncateQuote (q : String) (truncated : Bool) : String :=
  if truncated then String.ofList q.toList.dropLast ++ "...\"" else q

def objectBytes (t : DType) (data : List UInt8) (addr : UInt64) (read : MemoryReader) :
    List UInt8 :=
  let size := t.size
  if size ≤ 0 then data
  else
    match if addr ≠ 0 ∧ size ≤ maxReadSize then read addr size.toNat else none with
    | some buf => buf
    | none => if size ≤ data.length then data.take size.toNat else data

/-- The `switch elem.(type)` of `isByteElemSlice`. -/
def DType.isByteKind : DType → Bool
  | .basic .uint _ _ => true
  | .basic .uchar _ _ => true
  | .basic .int _ _ => true
  | .basic .char _ _ => true
  | _ => false

/-- `isByteElemSlice`. -/
def isByteElemSlice (structName : String) (fields : Fields) : Bool :=
  if structName = "[]uint8" ∨ structName = "[]byte" ∨ structName = "[]int8" then true
  else
    match fields with
    | .nil => false
    | .cons _ _ t _ =>
      let elem : DType := match t.underlying with
        | .ptr _ _ e => e.underlying
        | e => e
      decide (elem.size = 1) && elem.isByteKind

/-- `renderSlicePayload`. -/
def renderSlicePayload (env : RenderEnv) (structName : String) (fields : Fields)
    (addr : UInt64) (length : Int) (read : MemoryReader) : String :=
  if length ≤ 0 ∨ addr = 0 ∨ !isByteElemSlice structName fields then ""
  else
    match read addr (min length autoStringSize).toNat with
    | none => ""
    | some buf => truncateQuote (env.text.quote buf) (decide (autoStringSize < length))

/-- The `isString` case of `renderDynamicValue`. -/
def renderString (env : RenderEnv) (data : List UInt8) (read : MemoryReader) : String :=
  if data.length < 16 then "\"<unavailable>\""
  else
    let strLen := signedOf 8 (data.drop 8)
    if strLen = 0 then "\"\""
    else if strLen < 0 then "\"<unavailable>\""
    else
      match read (word data) (min strLen autoStringSize).toNat with
      | none => "\"<unavailable>\""
      | some buf => truncateQuote (env.text.quote buf) (decide (autoStringSize < strLen))

/-- The `isSlice` case of `renderDynamicValue`. -/
def renderSlice (env : RenderEnv) (structName : String) (fields : Fields)
    (data : List UInt8) (read : MemoryReader) : String :=
  if data.length < 24 then structName ++ "(<unavailable>)"
  else
    let len := signedOf 8 (data.drop 8)
    let cap := signedOf 8 (data.drop 16)
    let payload := renderSlicePayload env structName fields (word data) len read
    let header := structName ++ "(len=" ++ toString len ++ ", cap=" ++ toString cap
    if payload = "" then header ++ ")" else header ++ ", " ++ payload ++ ")"

def unknownInterface : String := "interface\x7btype=<unknown>, value=<unavailable>\x7d"

/-- The dynamic type of an interface whose first word is `typeAddr`. -/
def resolveDynamic (env : RenderEnv) (nonEmpty : Bool) (typeAddr : UInt64)
    (read : MemoryReader) : Option DType :=
  match env.resolveType typeAddr with
  | some t => some t
  | none =>
    if nonEmpty then (read (typeAddr + 8) 8).bind fun w => env.resolveType (word w) else none

/-- A renderer of a value of a type from its bytes and its address. -/
abbrev Renderer := DType → List UInt8 → UInt64 → String

/-- The `isInterface` case of `renderDynamicValue`. -/
def renderInterface (env : RenderEnv) (nonEmpty : Bool) (data : List UInt8)
    (read : MemoryReader) (deeper : Renderer) : String :=
  if data.length < 16 then unknownInterface
  else
    let dataAddr := word (data.drop 8)
    if word data = 0 then "nil"
    else
      match resolveDynamic env nonEmpty (word data) read with
      | none => unknownInterface
      | some t =>
        if typeIsDirect t then
          let isPtr : Bool := match t.underlying with
            | .ptr _ _ _ => true
            | _ => false
          if isPtr ∧ dataAddr = 0 then "(" ++ t.typeName ++ ")(nil)"
          else deeper t (wordBytes dataAddr) dataAddr
        else
          let value := objectBytes t [] dataAddr read
          if value.isEmpty then t.typeName ++ "(<unavailable>)"
          else deeper t value dataAddr

/-- `renderStructField`. -/
def renderStructField (off : Int) (t : DType) (data : List UInt8) (addr : UInt64)
    (read : MemoryReader) (deeper : Renderer) : String :=
  if off < 0 then "<unavailable>"
  else
    let own := data.drop off.toNat
    let fieldAddr := addr + UInt64.ofInt off
    let fieldData :=
      if 0 < t.size ∧ own.length < t.size ∧ addr ≠ 0 then
        (read fieldAddr t.size.toNat).getD own
      else own
    if fieldData.isEmpty then "<unavailable>" else deeper t fieldData fieldAddr

/-- The printed fields of a struct, as `name:value`. -/
def renderFields (env : RenderEnv) (data : List UInt8) (addr : UInt64) (read : MemoryReader)
    (deeper : Renderer) : Fields → List String
  | .nil => []
  | .cons n off t rest =>
    let more := renderFields env data addr read deeper rest
    if env.hideUnexported && !env.text.isExported n then more
    else (n ++ ":" ++ renderStructField off t data addr read deeper) :: more

/-- The `PtrType` case of `renderDynamicValue`. -/
def renderPointer (t elem : DType) (data : List UInt8) (read : MemoryReader)
    (deeper : Renderer) : String :=
  let ptr := word data
  let size := elem.size
  if ptr = 0 then "nil"
  else
    match if size ≤ 0 ∨ maxReadSize < size then none else read ptr size.toNat with
    | none => t.typeName ++ "(<unavailable>)"
    | some buf => "&" ++ deeper elem buf ptr

/-- The last case of `renderDynamicValue`. -/
def renderScalar (env : RenderEnv) (t : DType) (data : List UInt8) : String :=
  match scalarValue t with
  | none => "<unavailable>"
  | some (kind, typ, size) =>
    if (data.length : Int) < size then "<unavailable>"
    else renderLeaf env.text kind typ (data.take size.toNat)

/-- The body of `renderDynamicValue`, over a renderer for the next depth. -/
def renderStep (env : RenderEnv) (read : MemoryReader) (deeper : Renderer) : Renderer :=
  fun t data addr =>
    match t.underlying with
    | .ptr n b elem => renderPointer (.ptr n b elem) elem data read deeper
    | .struct n s b fs =>
      match structKind s fs with
      | .string => renderString env data read
      | .slice => renderSlice env s fs data read
      | .iface nonEmpty => renderInterface env nonEmpty data read deeper
      | .plain =>
        let data := objectBytes (.struct n s b fs) data addr read
        s ++ "\x7b" ++ ", ".intercalate (renderFields env data addr read deeper fs) ++ "\x7d"
    | u => renderScalar env u data

/-- `renderDynamicValue` with `fuel` levels left: depth `maxDynamicDepth - fuel`. -/
def renderDynamicValue (env : RenderEnv) (read : MemoryReader) : Nat → Renderer
  | 0 => fun _ _ _ => "<max-depth>"
  | fuel + 1 => renderStep env read (renderDynamicValue env read fuel)

end GoFtrace.Uprobe
