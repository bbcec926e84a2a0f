import GoFtrace.Bpf.Rules
import GoFtrace.Lib.Bytes

/-!
# Fetching arguments

`fetch_args` and `apply_type_recipes` of `ftrace.c`: one leaf for each rule of the probe,
then the leaves of the recipes installed for the interface slots, up to eight leaves.

A read of user memory may fail; which reads do is part of the input.
-/

namespace GoFtrace.Bpf

open Lib (Memory word wordBytes)
open Uprobe (Reg)

/-- `struct pt_regs`. -/
structure PtRegs where
  ip : UInt64
  reg : Reg → UInt64

/-- User memory as the probe programs see it. `fails leaf n` says whether the `n`-th read
for that leaf fails; the copy into the slot counts as read 8. -/
structure UserMemory where
  mem : Memory
  fails : Nat → Nat → Bool

/-- The cases of `read_reg`; other numbers name no register. -/
def regOfCode : UInt8 → Option Reg
  | 0 => some .ax
  | 1 => some .dx
  | 2 => some .cx
  | 3 => some .bx
  | 4 => some .si
  | 5 => some .di
  | 6 => some .bp
  | 7 => some .sp
  | 8 => some .r8
  | 9 => some .r9
  | 10 => some .r10
  | 11 => some .r11
  | 12 => some .r12
  | 13 => some .r13
  | 14 => some .r14
  | 15 => some .r15
  | _ => none

/-- `read_reg` into a variable that holds `0`. -/
def readReg (regs : PtRegs) (reg : UInt8) : UInt64 :=
  match regOfCode reg with
  | some r => regs.reg r
  | none => 0

@[simp] theorem regOfCode_registerConstants (r : Reg) :
    regOfCode (registerConstants (some r)) = some r := by
  cases r <;> rfl

@[simp] theorem readReg_registerConstants (regs : PtRegs) (r : Reg) :
    readReg regs (registerConstants (some r)) = regs.reg r := by
  simp [readReg]

/-- The addressing loop shared by `fetch_args_from_memory` and `fetch_from_base`, from
step `i` on; `none` is a failed read. -/
def effectiveAddr (u : UserMemory) (leaf : Nat) :
    Nat → List (Int16 × Bool) → UInt64 → Option UInt64
  | _, [], addr => some addr
  | i, (off, deref) :: steps, addr =>
    let addr := addr + UInt64.ofInt off.toInt
    if deref then
      if u.fails leaf i then none else effectiveAddr u leaf (i + 1) steps (u.mem.wordAt addr)
    else effectiveAddr u leaf (i + 1) steps addr

/-- The steps that the loop `for (i = 0; i < 8 && i < rule->length; i++)` takes. -/
def takenSteps (length : UInt8) (steps : Steps) : List (Int16 × Bool) :=
  steps.toList.take length.toNat

/-- The copy of `size` bytes, at most `MAX_DATA_SIZE`, from the effective address. -/
def copyLeaf (u : UserMemory) (leaf : Nat) (size : UInt8) (addr : UInt64) : ArgData :=
  let n := min size.toNat maxDataSize
  if n = 0 then ArgData.zero
  else if u.fails leaf 8 then ArgData.ofError
  else ArgData.ofBytes (u.mem.slice addr n)

/-- What `fetch_args_from_memory` and `fetch_from_base` do once the base address is
known. -/
def fetchFrom (u : UserMemory) (leaf : Nat) (nilCheck : Bool) (length : UInt8)
    (steps : Steps) (size : UInt8) (base : UInt64) : ArgData :=
  if nilCheck && base == 0 then ArgData.ofNil
  else
    match effectiveAddr u leaf 0 (takenSteps length steps) base with
    | none => ArgData.ofError
    | some addr => copyLeaf u leaf size addr

def fetchArgsFromReg (regs : PtRegs) (rule : ArgRule) : ArgData :=
  ArgData.ofBytes (wordBytes (readReg regs rule.reg))

def fetchArgsFromMemory (regs : PtRegs) (u : UserMemory) (leaf : Nat) (rule : ArgRule) :
    ArgData :=
  fetchFrom u leaf rule.nilCheck rule.length rule.steps rule.size (readReg regs rule.reg)

def fetchFromBase (u : UserMemory) (leaf : Nat) (addr : UInt64) (rule : RelRule) : ArgData :=
  fetchFrom u leaf rule.nilCheck rule.length rule.steps rule.size addr

/-- The `switch` of `fetch_args`. -/
def fetchArg (regs : PtRegs) (u : UserMemory) (leaf : Nat) (rule : ArgRule) : ArgData :=
  match rule.type with
  | .reg => fetchArgsFromReg regs rule
  | .memory => fetchArgsFromMemory regs u leaf rule

/-- `load_arg_word`: the first word of a leaf; a slot not yet stored is zero. -/
def loadArgWord (leaves : List ArgData) (idx : Nat) : UInt64 :=
  word ((leaves.getD idx ArgData.zero).data)

/-- The inner loop of `apply_type_recipes`: one leaf for each rule while a slot is left. -/
def appendRecipe (u : UserMemory) (dataPtr : UInt64) :
    TypeRecipe → List ArgData → List ArgData
  | [], leaves => leaves
  | r :: rules, leaves =>
    if maxArgs ≤ leaves.length then leaves
    else
      appendRecipe u dataPtr rules (leaves ++ [fetchFromBase u leaves.length dataPtr r])

/-- The body of the outer loop of `apply_type_recipes`, for the rule at index `i`. -/
def applySlot (recipes : UInt64 → Option TypeRecipe) (u : UserMemory)
    (leaves : List ArgData) (i : Nat) (rule : ArgRule) : List ArgData :=
  if !rule.ifaceData || maxArgs ≤ rule.typeIdx.toNat then leaves
  else
    let typeAddr := loadArgWord leaves rule.typeIdx.toNat
    let dataPtr := loadArgWord leaves i
    if typeAddr = 0 then leaves
    else
      match recipes typeAddr with
      | none => leaves
      | some rec => appendRecipe u dataPtr rec leaves

def applyTypeRecipes (recipes : UInt64 → Option TypeRecipe) (u : UserMemory)
    (rules : ArgRules) (leaves : List ArgData) : List ArgData :=
  rules.zipIdx.foldl (fun leaves (rule, i) => applySlot recipes u leaves i rule) leaves

/-- The leaves of the generic rules. -/
def fetchLeaves (regs : PtRegs) (u : UserMemory) (rules : ArgRules) : List ArgData :=
  rules.zipIdx.map fun (rule, i) => fetchArg regs u i rule

/-- `fetch_args`, for a probe whose rules are `rules`. -/
def fetchArgs (recipes : UInt64 → Option TypeRecipe) (regs : PtRegs) (u : UserMemory)
    (rules : ArgRules) : List ArgData :=
  applyTypeRecipes recipes u rules (fetchLeaves regs u rules)

end GoFtrace.Bpf
