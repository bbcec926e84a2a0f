import GoFtrace.Uprobe.Render

/-!
# Rendering values

`RenderValuesOpts` and `renderAuto` of `internal/uprobe/value.go`. `prepare` is the part of
`renderAuto` that takes the leaves of a value and builds the probe snapshot; what is left
is one call of `renderDynamicValue` on it.
-/

namespace GoFtrace.Uprobe

open Lib

/-! ## Words -/

/-- `concatLeaves`: the first eight bytes of each word leaf. -/
def concatLeaves (leaves : List LeafData) : List UInt8 :=
  leaves.flatMap fun l => l.data.take 8

/-- `copy(img[base:], bs)` behind the guard of `scatterWords`. -/
def blit (img : List UInt8) (base : Int) (bs : List UInt8) : List UInt8 :=
  if 0 ≤ base ∧ base + bs.length ≤ img.length then
    img.take base.toNat ++ bs ++ img.drop (base.toNat + bs.length)
  else img

/-- The state of `scatterWords`: the image and the bytes of the words consumed. -/
structure Scatter where
  img : List UInt8
  consume : Nat := 0

/-- Moves `n` bytes of the words into the image and consumes `step` bytes. -/
def Scatter.move (s : Scatter) (words : List UInt8) (base : Int) (n step : Nat) : Scatter :=
  let img :=
    if s.consume + n ≤ words.length then
      blit s.img base ((words.drop s.consume).take n)
    else s.img
  { img := img, consume := s.consume + step }

mutual

/-- `walk` of `scatterWords`. -/
def DType.scatter (words : List UInt8) : DType → Int → Scatter → Scatter
  | .typedef _ t, base, s => t.scatter words base s
  | .qual _ t, base, s => t.scatter words base s
  | .struct n name b fs, base, s =>
    if structKind name fs = .plain then fs.scatter words base s
    else
      let n := (DType.struct n name b fs).abiWordCount * 8
      s.move words base n n
  | t, base, s =>
    let sz := if t.size ≤ 0 then 8 else min t.size.toNat 8
    s.move words base sz 8

def Fields.scatter (words : List UInt8) : Fields → Int → Scatter → Scatter
  | .nil, _, s => s
  | .cons _ off t rest, base, s => rest.scatter words base (t.scatter words (base + off) s)

end

/-- `scatterWords`. -/
def scatterWords (t : DType) (words : List UInt8) : List UInt8 :=
  if t.size ≤ 0 then words
  else (t.scatter words 0 { img := List.replicate t.size.toNat 0 }).img

/-! ## One value -/

/-- What `renderAuto` renders: a fixed text, or the bytes of a value of a type over a
snapshot. -/
inductive Prepared where
  | text (s : String)
  | dynamic (lead : String) (t : DType) (data : List UInt8) (addr : UInt64)
      (snap : MemSnapshot)

/-- The pointer cases of `renderAuto`. -/
def preparePointer (recipes : Recipes) (t elem : DType) (header : List UInt8)
    (captures all : List LeafData) (k : Cursor) : Prepared × Cursor :=
  let ptr := word header
  if ptr = 0 then (.text "nil", k)
  else if t.objectPointee.isSome then
    match captures with
    | [] => (.text (t.typeName ++ "(<unavailable>)"), k)
    | obj :: rest =>
      if obj.unavailable then (.text (t.typeName ++ "(<unavailable>)"), k)
      else
        let snap := MemSnapshot.put {} ptr obj
        let (_, snap) := elem.consumeMemCaptures obj.data rest snap
        let (k, snap) := elem.applyNestedRecipes recipes all obj.data k snap
        (.dynamic "&" elem obj.data ptr snap, k)
  else (.text (hexText ptr), k)

/-- The struct cases of `renderAuto`. `orig` is the type of the value and `st` the class of
its underlying struct type. -/
def prepareStruct (recipes : Recipes) (orig : DType) (st : StructKind) (header : List UInt8)
    (captures all : List LeafData) (k : Cursor) : Prepared × Cursor :=
  match st with
  | .plain =>
    let img := scatterWords orig header
    let (_, snap) := orig.consumeRegCaptures img captures {}
    (.dynamic "" orig img 0 snap, k)
  | .string | .slice =>
    let snap := match captures with
      | [] => {}
      | leaf :: _ => MemSnapshot.put {} (word header) leaf
    (.dynamic "" orig header 0 snap, k)
  | .iface _ =>
    let snap := bindIfaceCaptures header captures {}
    let (k, snap) :=
      if 16 ≤ header.length then
        applyRecipeExtras recipes (word header) (word (header.drop 8)) all k snap
      else (k, snap)
    (.dynamic "" orig header 0 snap, k)

/-- Whether `t` is a struct that `isInterface` accepts. -/
def DType.isInterfaceType : DType → Bool
  | .struct _ s _ fs => isInterface s fs
  | _ => false

def DType.isPtr : DType → Bool
  | .ptr _ _ _ => true
  | _ => false

/-- `renderAuto` once the leaves of the value are cut out, up to the rendering. -/
def prepareLeaves (recipes : Recipes) (v : Value) (words captures all : List LeafData)
    (k : Cursor) : Prepared × Cursor :=
  let t := v.type.underlying
  let ifaceNil := t.isInterfaceType &&
    match words with
    | [] => false
    | w :: _ => w.isNil || word w.data == 0
  let objNil := t.isPtr &&
    match captures with
    | [] => false
    | leaf :: _ => leaf.isNil
  let header := concatLeaves words
  if ifaceNil then (.text "nil", k)
  else if words.any (·.unavailable) then (.text "<unavailable>", k)
  else if objNil then (.text "nil", k)
  else if header.isEmpty then (.text "<unavailable>", k)
  else
    match t with
    | .ptr n b elem => preparePointer recipes (.ptr n b elem) elem header captures all k
    | .struct _ s _ fs => prepareStruct recipes v.type (structKind s fs) header captures all k
    | _ => (.dynamic "" v.type header 0 {}, k)

/-- `renderAuto`, up to the rendering. -/
def prepare (recipes : Recipes) (v : Value) (data : List LeafData) (k : Cursor) :
    Prepared × Cursor :=
  let n := v.leafCount
  if n = 0 ∨ data.length < k.cur + n then
    let cur := if n = 0 then k.cur else min (k.cur + n) data.length
    (.text "<unavailable>", { k with cur := cur })
  else
    let words := (data.drop k.cur).take v.wordCount
    let captures := (data.drop (k.cur + v.wordCount)).take v.captures
    prepareLeaves recipes v words captures data { k with cur := k.cur + n }

/-- The text of a prepared value. -/
def Prepared.render (env : RenderEnv) : Prepared → String
  | .text s => s
  | .dynamic lead t data addr snap =>
    lead ++ renderDynamicValue env snap.read maxDynamicDepth t data addr

/-- `renderAuto`. -/
def renderAuto (env : RenderEnv) (recipes : Recipes) (v : Value) (data : List LeafData)
    (k : Cursor) : String × Cursor :=
  let (p, k) := prepare recipes v data k
  (p.render env, k)

/-! ## All values -/

/-- The loop of `RenderValuesOpts`: the rendered values and the leaves bound on the way. -/
def renderValues (env : RenderEnv) (recipes : Recipes) (data : List LeafData) :
    List Value → Cursor → List String × Cursor
  | [], k => ([], k)
  | v :: vs, k =>
    let (s, k) := renderAuto env recipes v data k
    let (parts, k) := renderValues env recipes data vs k
    ((v.name ++ "=" ++ s) :: parts, k)

/-- The cursor that `RenderValuesOpts` starts with: recipe leaves follow the planned
ones. -/
def Cursor.start (values : List Value) : Cursor :=
  { extraCur := (values.map Value.leafCount).sum }

/-- `RenderValuesOpts`. -/
def renderValuesOpts (env : RenderEnv) (recipes : Recipes) (values : List Value)
    (data : List LeafData) : String :=
  ", ".intercalate (renderValues env recipes data values (.start values)).1

/-- `FetchArg.SprintValue`. -/
def FetchArg.sprintValue (g : GoText) (a : FetchArg) (data : List UInt8) : String :=
  let data := data.take a.size.toNat
  match integerText a.type data with
  | some s => s
  | none =>
    if a.type = "f32" then g.sprintFloat32 (UInt32.ofNat (leNat (data.take 4)))
    else if a.type = "f64" then g.sprintFloat64 (word data)
    else if a.type = "bool" then boolText data
    else if ["c8", "c16", "c32", "c64", "c128", "c256", "c512"].contains a.type then
      g.ofBytes data
    else ""

end GoFtrace.Uprobe
