import GoFtrace.Uprobe.Value

/-!
# Hiding fields

Rendering with `HideUnexported` next to rendering without it. What is rendered is a tree with
a node for every plain struct, whatever the option is; the option takes the entries of
unexported fields out of the tree.

* `renderDynamicValue_print`: rendering prints the tree.
* `renderValuesOpts_hide`: the two texts of a list of values.
-/

namespace GoFtrace.Uprobe

open Lib

/-! ## Printed trees -/

mutual

/-- A rendered value: a text, a value behind a mark such as `&`, or a plain struct. -/
inductive Printed where
  | text (s : String)
  | lead (mark : String) (value : Printed)
  | struct (name : String) (entries : Entries)

/-- The fields of a plain struct, with whether their names are exported. -/
inductive Entries where
  | nil
  | cons (name : String) (exported : Bool) (value : Printed) (rest : Entries)

end

mutual

def Printed.print : Printed → String
  | .text s => s
  | .lead mark value => mark ++ value.print
  | .struct name entries => name ++ "\x7b" ++ ", ".intercalate entries.print ++ "\x7d"

/-- The texts `name:value`. -/
def Entries.print : Entries → List String
  | .nil => []
  | .cons name _ value rest => (name ++ ":" ++ value.print) :: rest.print

end

mutual

/-- The tree without the entries of unexported fields, at any depth. -/
def Printed.hide : Printed → Printed
  | .text s => .text s
  | .lead mark value => .lead mark value.hide
  | .struct name entries => .struct name entries.hide

def Entries.hide : Entries → Entries
  | .nil => .nil
  | .cons name true value rest => .cons name true value.hide rest.hide
  | .cons _ false _ rest => rest.hide

end

/-- The text with the option and without it. -/
def Printed.shown (hide : Bool) (p : Printed) : String := if hide then p.hide.print else p.print

/-- The texts of the entries with the option and without it. -/
def Entries.shown (hide : Bool) (es : Entries) : List String :=
  if hide then es.hide.print else es.print

namespace Printed

@[simp] theorem shown_text (h : Bool) (s : String) : (text s).shown h = s := by cases h <;> rfl

@[simp] theorem shown_lead (h : Bool) (mark : String) (p : Printed) :
    (lead mark p).shown h = mark ++ p.shown h := by cases h <;> rfl

@[simp] theorem shown_struct (h : Bool) (name : String) (es : Entries) :
    (struct name es).shown h = name ++ "\x7b" ++ ", ".intercalate (es.shown h) ++ "\x7d" := by
  cases h <;> rfl

end Printed

theorem Entries.shown_nil (h : Bool) : Entries.nil.shown h = [] := by cases h <;> rfl

theorem Entries.shown_cons (h exported : Bool) (name : String) (p : Printed) (rest : Entries) :
    (Entries.cons name exported p rest).shown h =
      if h && !exported then rest.shown h else (name ++ ":" ++ p.shown h) :: rest.shown h := by
  cases h <;> cases exported <;> rfl

/-! ## The tree of a value -/

/-- A builder of the tree of a value of a type from its bytes and its address. -/
abbrev Builder := DType → List UInt8 → UInt64 → Printed

def printedPointer (t elem : DType) (data : List UInt8) (read : MemoryReader)
    (deeper : Builder) : Printed :=
  if word data = 0 then .text "nil"
  else
    match if elem.size ≤ 0 ∨ maxReadSize < elem.size then none
      else read (word data) elem.size.toNat with
    | none => .text (t.typeName ++ "(<unavailable>)")
    | some buf => .lead "&" (deeper elem buf (word data))

def printedInterface (env : RenderEnv) (nonEmpty : Bool) (data : List UInt8)
    (read : MemoryReader) (deeper : Builder) : Printed :=
  if data.length < 16 then .text unknownInterface
  else if word data = 0 then .text "nil"
  else
    let dataAddr := word (data.drop 8)
    match resolveDynamic env nonEmpty (word data) read with
    | none => .text unknownInterface
    | some t =>
      if typeIsDirect t then
        if t.underlying.isPtr ∧ dataAddr = 0 then .text ("(" ++ t.typeName ++ ")(nil)")
        else deeper t (wordBytes dataAddr) dataAddr
      else
        let value := objectBytes t [] dataAddr read
        if value.isEmpty then .text (t.typeName ++ "(<unavailable>)")
        else deeper t value dataAddr

def printedField (off : Int) (t : DType) (data : List UInt8) (addr : UInt64)
    (read : MemoryReader) (deeper : Builder) : Printed :=
  if off < 0 then .text "<unavailable>"
  else
    let own := data.drop off.toNat
    let fieldAddr := addr + UInt64.ofInt off
    let fieldData :=
      if 0 < t.size ∧ own.length < t.size ∧ addr ≠ 0 then
        (read fieldAddr t.size.toNat).getD own
      else own
    if fieldData.isEmpty then .text "<unavailable>" else deeper t fieldData fieldAddr

/-- The entries of all the fields. -/
def printedFields (env : RenderEnv) (data : List UInt8) (addr : UInt64) (read : MemoryReader)
    (deeper : Builder) : Fields → Entries
  | .nil => .nil
  | .cons n off t rest =>
    .cons n (env.text.isExported n) (printedField off t data addr read deeper)
      (printedFields env data addr read deeper rest)

/-- One level. A plain struct is a node; strings, slices and the rest are texts. -/
def printedStep (env : RenderEnv) (read : MemoryReader) (deeper : Builder) : Builder :=
  fun t data addr =>
    match t.underlying with
    | .ptr n b elem => printedPointer (.ptr n b elem) elem data read deeper
    | .struct n s b fs =>
      match structKind s fs with
      | .string => .text (renderString env data read)
      | .slice => .text (renderSlice env s fs data read)
      | .iface nonEmpty => printedInterface env nonEmpty data read deeper
      | .plain =>
        let data := objectBytes (.struct n s b fs) data addr read
        .struct s (printedFields env data addr read deeper fs)
    | u => .text (renderScalar env u data)

/-- The tree of a value with `fuel` levels left. -/
def printed (env : RenderEnv) (read : MemoryReader) : Nat → Builder
  | 0 => fun _ _ _ => .text "<max-depth>"
  | fuel + 1 => printedStep env read (printed env read fuel)

/-! ## Rendering prints the tree -/

section
variable (env : RenderEnv) (h : Bool) (read : MemoryReader) (deeper : Builder)

/-- The renderer that prints what is built. -/
def Builder.shown (hide : Bool) (deeper : Builder) : Renderer :=
  fun t data addr => (deeper t data addr).shown hide

theorem renderPointer_print (t elem : DType) (data : List UInt8) :
    renderPointer t elem data read (deeper.shown h) =
      (printedPointer t elem data read deeper).shown h := by
  unfold renderPointer printedPointer
  dsimp only
  by_cases hptr : word data = 0
  · rw [if_pos hptr, if_pos hptr, Printed.shown_text]
  · rw [if_neg hptr, if_neg hptr]
    cases (if elem.size ≤ 0 ∨ maxReadSize < elem.size then none
      else read (word data) elem.size.toNat) with
    | none => exact (Printed.shown_text h _).symm
    | some buf => exact (Printed.shown_lead h "&" _).symm

theorem renderInterface_print (nonEmpty : Bool) (data : List UInt8) :
    renderInterface { env with hideUnexported := h } nonEmpty data read (deeper.shown h) =
      (printedInterface env nonEmpty data read deeper).shown h := by
  have hresolve : resolveDynamic { env with hideUnexported := h } nonEmpty (word data) read =
      resolveDynamic env nonEmpty (word data) read := rfl
  unfold renderInterface printedInterface
  dsimp only
  rw [hresolve]
  by_cases hlen : data.length < 16
  · rw [if_pos hlen, if_pos hlen, Printed.shown_text]
  rw [if_neg hlen, if_neg hlen]
  by_cases hnil : word data = 0
  · rw [if_pos hnil, if_pos hnil, Printed.shown_text]
  rw [if_neg hnil, if_neg hnil]
  cases resolveDynamic env nonEmpty (word data) read with
  | none => exact (Printed.shown_text h _).symm
  | some t =>
    dsimp only
    rw [apply_ite (Printed.shown h), apply_ite (Printed.shown h), apply_ite (Printed.shown h),
      Printed.shown_text, Printed.shown_text]
    rfl

theorem renderStructField_print (off : Int) (t : DType) (data : List UInt8) (addr : UInt64) :
    renderStructField off t data addr read (deeper.shown h) =
      (printedField off t data addr read deeper).shown h := by
  unfold renderStructField printedField
  dsimp only
  rw [apply_ite (Printed.shown h), apply_ite (Printed.shown h), Printed.shown_text]
  rfl

theorem renderFields_print (data : List UInt8) (addr : UInt64) :
    ∀ fs, renderFields { env with hideUnexported := h } data addr read (deeper.shown h) fs =
      (printedFields env data addr read deeper fs).shown h
  | .nil => (Entries.shown_nil h).symm
  | .cons n off t rest => by
    have hrest := renderFields_print data addr rest
    have hfield := renderStructField_print h read deeper off t data addr
    unfold renderFields printedFields
    dsimp only
    rw [hrest, hfield, Entries.shown_cons]

theorem renderStep_print :
    renderStep { env with hideUnexported := h } read (deeper.shown h) =
      (printedStep env read deeper).shown h := by
  funext t data addr
  unfold renderStep printedStep Builder.shown
  dsimp only
  cases hu : t.underlying with
  | ptr n b elem => exact renderPointer_print h read deeper _ elem data
  | struct n s b fs =>
    dsimp only
    cases structKind s fs with
    | string => exact (Printed.shown_text h _).symm
    | slice => exact (Printed.shown_text h _).symm
    | iface nonEmpty => exact renderInterface_print env h read deeper nonEmpty data
    | plain =>
      dsimp only
      rw [Printed.shown_struct, ← renderFields_print]
      rfl
  | _ => exact (Printed.shown_text h _).symm

/-- With the option or without it, rendering prints the same tree, with the entries of
unexported fields taken out or not. -/
theorem renderDynamicValue_print :
    ∀ fuel, renderDynamicValue { env with hideUnexported := h } read fuel =
      (printed env read fuel).shown h
  | 0 => by
    funext t data addr
    exact (Printed.shown_text h _).symm
  | fuel + 1 => by
    rw [renderDynamicValue, renderDynamicValue_print fuel, renderStep_print]
    rfl

end

/-! ## All values -/

/-- The tree of a prepared value. -/
def Prepared.printed (env : RenderEnv) : Prepared → Printed
  | .text s => .text s
  | .dynamic mark t data addr snap =>
    .lead mark (Uprobe.printed env snap.read maxDynamicDepth t data addr)

/-- The names of the values and their trees. -/
def printedValues (env : RenderEnv) (recipes : Recipes) (data : List LeafData) :
    List Value → Cursor → List (String × Printed)
  | [], _ => []
  | v :: vs, k =>
    let (p, k) := prepare recipes v data k
    (v.name, p.printed env) :: printedValues env recipes data vs k

/-- The text of a list of values. -/
def printValues (trees : List (String × Printed)) : String :=
  ", ".intercalate (trees.map fun (name, p) => name ++ "=" ++ p.print)

/-- The trees without the entries of unexported fields. -/
def hideValues (trees : List (String × Printed)) : List (String × Printed) :=
  trees.map fun (name, p) => (name, p.hide)

theorem prepared_print (env : RenderEnv) (h : Bool) (p : Prepared) :
    p.render { env with hideUnexported := h } = (p.printed env).shown h := by
  cases p with
  | text s => exact (Printed.shown_text h s).symm
  | dynamic mark t data addr snap =>
    rw [Prepared.render, renderDynamicValue_print, Prepared.printed, Printed.shown_lead]
    rfl

theorem renderValues_print (env : RenderEnv) (h : Bool) (recipes : Recipes)
    (data : List LeafData) :
    ∀ vs k, (renderValues { env with hideUnexported := h } recipes data vs k).1 =
      (printedValues env recipes data vs k).map fun (name, p) => name ++ "=" ++ p.shown h
  | [], _ => rfl
  | v :: vs, k => by
    have hvs := renderValues_print env h recipes data vs (prepare recipes v data k).2
    have hv := prepared_print env h (prepare recipes v data k).1
    unfold renderValues printedValues renderAuto
    dsimp only
    rw [hvs, hv, List.map_cons]

/-- The text without the option prints the trees; with it, it prints them without the entries of
unexported fields. The trees are the same. -/
theorem renderValuesOpts_hide (env : RenderEnv) (recipes : Recipes) (values : List Value)
    (data : List LeafData) :
    let trees := printedValues env recipes data values (.start values)
    renderValuesOpts { env with hideUnexported := false } recipes values data =
        printValues trees ∧
      renderValuesOpts { env with hideUnexported := true } recipes values data =
        printValues (hideValues trees) := by
  intro trees
  constructor
  · rw [renderValuesOpts, renderValues_print]
    rfl
  · rw [renderValuesOpts, renderValues_print, printValues, hideValues, List.map_map]
    rfl

end GoFtrace.Uprobe
