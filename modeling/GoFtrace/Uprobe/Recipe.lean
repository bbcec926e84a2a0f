import GoFtrace.Uprobe.FetchArg

/-!
# Type recipes

`internal/uprobe/recipe.go`: the extra copies BPF makes once the concrete type of an
interface is known. A recipe is relative to the interface data word and is keyed by the
runtime type descriptor address.
-/

namespace GoFtrace.Uprobe

def ArgRule.offset : ArgRule → Int
  | .register _ => 0
  | .stack off _ => off

def ArgRule.dereference : ArgRule → Bool
  | .register _ => false
  | .stack _ d => d

/-- `RelRule`. -/
structure RelRule where
  size : Int
  steps : List ArgRule
  deriving DecidableEq, Repr

/-- The recipe table: no entry and an empty recipe are the same. -/
abbrev Recipes := UInt64 → List RelRule

def maxTypeRecipeRules : Nat := 4

/-- `typeIsDirect`. -/
def typeIsDirect (t : DType) : Bool :=
  match t.underlying with
  | .ptr _ _ _ => true
  | .func _ _ _ => true
  | .struct _ s size fs =>
    if isString s || isSlice s fs || isInterface s fs then false
    else if isRuntimeStruct s then true
    else if size > 8 then false
    else
      let firstIsPtr : Bool := match fs with
        | .nil => false
        | .cons _ _ ft _ => match ft.underlying with
          | .ptr _ _ _ => true
          | _ => false
      if size = 8 ∧ firstIsPtr then true
      else decide (0 < size) && decide (size ≤ 8) && fs.names.isEmpty
  | u => decide (0 < u.size) && decide (u.size ≤ 8)

/-- `appendStep`. -/
def appendStep (steps : List ArgRule) (off : Int) (deref : Bool) : List ArgRule :=
  if off = 0 ∧ ¬ deref then steps else steps ++ [.stack off deref]

mutual

/-- `relMemCaptures`. -/
def DType.relMemCaptures : DType → List ArgRule → List RelRule
  | .typedef _ t, steps => t.relMemCaptures steps
  | .qual _ t, steps => t.relMemCaptures steps
  | .struct _ s _ fs, steps =>
    match structKind s fs with
    | .string => [{ size := 64, steps := appendStep steps 0 true }]
    | .slice => [{ size := 64, steps := appendStep steps 0 true }]
    | .iface _ => []
    | .plain => fs.relMemCaptures steps
  | _, _ => []

def Fields.relMemCaptures : Fields → List ArgRule → List RelRule
  | .nil, _ => []
  | .cons _ off t rest, steps =>
    t.relMemCaptures (appendStep steps off false) ++ rest.relMemCaptures steps

end

/-- `CompileTypeRecipe`. -/
def compileTypeRecipe (t : DType) : List RelRule :=
  let rules :=
    if typeIsDirect t then
      match t.underlying with
      | .ptr _ _ elem => elem.relMemCaptures []
      | _ => []
    else t.underlying.relMemCaptures []
  rules.take maxTypeRecipeRules

end GoFtrace.Uprobe
