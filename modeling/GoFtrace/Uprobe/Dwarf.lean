import Mathlib.Data.List.Basic

/-!
# DWARF types

The `dwarf.Type` values that the planner and the renderer walk, with the predicates of
`internal/uprobe/auto.go` and `value.go` that classify them.

A type is a tree. Go types may be recursive through pointers; such a type is represented
by an unfolding deeper than any walk goes. Planning follows one pointer and rendering
stops at `maxDynamicDepth`, so no walk tells the two apart.
-/

namespace GoFtrace.Uprobe

/-- The `debug/dwarf` types that `scalarValue` accepts. -/
inductive BasicKind where
  | bool | float | int | uint | uchar | char | enum
  deriving DecidableEq, Repr

mutual

/-- `dwarf.Type`. `name` is `Common().Name`; `other` collects the types no walk looks
into (arrays, complex numbers, void), with their `String()` text. -/
inductive DType where
  | ptr (name : String) (byteSize : Int) (elem : DType)
  | struct (name structName : String) (byteSize : Int) (fields : Fields)
  | typedef (name : String) (type : DType)
  | qual (qualifier : String) (type : DType)
  | basic (kind : BasicKind) (name : String) (byteSize : Int)
  | func (name text : String) (byteSize : Int)
  | other (name text : String) (byteSize : Int)

/-- `StructType.Field`. -/
inductive Fields where
  | nil
  | cons (name : String) (byteOffset : Int) (type : DType) (rest : Fields)

end

deriving instance Repr for DType, Fields

namespace Fields

def names : Fields → List String
  | nil => []
  | cons n _ _ rest => n :: rest.names

end Fields

namespace DType

/-- `underlying` strips typedefs and qualifiers. -/
def underlying : DType → DType
  | typedef _ t => t.underlying
  | qual _ t => t.underlying
  | t => t

/-- `t.Size()`. -/
def size : DType → Int
  | ptr _ n _ => n
  | struct _ _ n _ => n
  | typedef _ t => t.size
  | qual _ t => t.size
  | basic _ _ n => n
  | func _ _ n => n
  | other _ _ n => n

/-- `t.Common().Name`. -/
def commonName : DType → String
  | ptr n _ _ => n
  | struct n _ _ _ => n
  | typedef n _ => n
  | qual _ _ => ""
  | basic _ n _ => n
  | func n _ _ => n
  | other n _ _ => n

/-- `t.String()`, for the types `typeName` asks. -/
def text : DType → String
  | ptr _ _ t => "*" ++ t.text
  | struct _ s _ _ => "struct " ++ s
  | typedef n _ => n
  | qual q t => q ++ " " ++ t.text
  | basic _ n _ => if n = "" then "?" else n
  | func _ s _ => s
  | other _ s _ => s

/-- The `switch underlying(t)` of `typeName`, for a type without a name of its own. -/
def unnamed (fallback : String) : DType → String
  | typedef _ t => t.unnamed fallback
  | qual _ t => t.unnamed fallback
  | ptr _ _ t => "*" ++ if t.commonName ≠ "" then t.commonName else t.unnamed t.text
  | struct _ s _ _ => if s ≠ "" then s else fallback
  | _ => fallback

def typeName (t : DType) : String :=
  if t.commonName ≠ "" then t.commonName else t.unnamed t.text

@[simp] theorem underlying_ptr (n : String) (b : Int) (t : DType) :
    (ptr n b t).underlying = ptr n b t := rfl

@[simp] theorem underlying_struct (n s : String) (b : Int) (fs : Fields) :
    (struct n s b fs).underlying = struct n s b fs := rfl

@[simp] theorem underlying_basic (k : BasicKind) (n : String) (b : Int) :
    (basic k n b).underlying = basic k n b := rfl

@[simp] theorem size_underlying : ∀ t : DType, t.underlying.size = t.size
  | ptr _ _ _ => rfl
  | struct _ _ _ _ => rfl
  | typedef _ t => size_underlying t
  | qual _ t => size_underlying t
  | basic _ _ _ => rfl
  | func _ _ _ => rfl
  | other _ _ _ => rfl

end DType

/-! ## Struct classes -/

/-- `hasFields(st, names...)`. -/
def hasFields (fields : Fields) (names : List String) : Bool := fields.names == names

/-- `strings.HasPrefix` and `strings.HasSuffix`, on characters. -/
def hasPrefix (s pre : String) : Bool := pre.toList.isPrefixOf s.toList

def hasSuffix (s suf : String) : Bool := suf.toList.isSuffixOf s.toList

/-- `strings.TrimSuffix`. -/
def trimSuffix (s suf : String) : String :=
  if hasSuffix s suf then String.ofList (s.toList.take (s.toList.length - suf.toList.length))
  else s

/-- `strings.TrimPrefix`. -/
def trimPrefix (s pre : String) : String :=
  if hasPrefix s pre then String.ofList (s.toList.drop pre.toList.length) else s

def isRuntimeStruct (structName : String) : Bool :=
  structName == "runtime.hmap" || structName == "runtime.hchan"

def isString (structName : String) : Bool := structName == "string"

def isSlice (structName : String) (fields : Fields) : Bool :=
  hasPrefix structName "[]" || hasFields fields ["array", "len", "cap"]

def isInterface (structName : String) (fields : Fields) : Bool :=
  structName == "runtime.iface" || structName == "runtime.eface" ||
    hasFields fields ["tab", "data"] || hasFields fields ["_type", "data"]

def interfaceIsNonEmpty (structName : String) (fields : Fields) : Bool :=
  structName == "runtime.iface" || hasFields fields ["tab", "data"]

/-- The arm of `switch { case isString: case isSlice: case isInterface: default: }`. -/
inductive StructKind where
  | string
  | slice
  /-- `nonEmpty` is `interfaceIsNonEmpty`. -/
  | iface (nonEmpty : Bool)
  | plain
  deriving DecidableEq, Repr

def structKind (structName : String) (fields : Fields) : StructKind :=
  if isString structName then .string
  else if isSlice structName fields then .slice
  else if isInterface structName fields then .iface (interfaceIsNonEmpty structName fields)
  else .plain

/-- `ValueKind`. -/
inductive ValueKind where
  | scalar | bool | float | pointer
  deriving DecidableEq, Repr

/-- The format text `"s64"`, `"u8"`, ... that a leaf carries. -/
def bitsText (letter : String) (byteSize : Int) : String := letter ++ toString (byteSize * 8)

/-- `scalarValue`: the kind, the format text and the size. -/
def scalarValue : DType → Option (ValueKind × String × Int)
  | .basic .bool _ n => some (.bool, "bool", n)
  | .basic .float _ n => some (.float, bitsText "f" n, n)
  | .basic .int _ n => some (.scalar, bitsText "s" n, n)
  | .basic .uint _ n => some (.scalar, bitsText "u" n, n)
  | .basic .uchar _ n => some (.scalar, bitsText "u" n, n)
  | .basic .char _ n => some (.scalar, bitsText "s" n, n)
  | .basic .enum _ n => some (.scalar, bitsText "s" n, n)
  | _ => none

end GoFtrace.Uprobe
