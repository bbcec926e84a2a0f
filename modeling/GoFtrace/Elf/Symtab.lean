import Mathlib.Data.UInt
import Mathlib.Data.List.Basic

/-!
# Symbol lookup

`ResolveAddress` of `elf/symtab.go`, over the symbol table that `Symbols` has sorted by
value.
-/

namespace GoFtrace.Elf

/-- The fields of `elf.Symbol` that lookups use. -/
structure Symbol where
  name : String
  value : UInt64
  deriving DecidableEq, Repr

/-- The loop of `sort.Search` on the indices from `i` to `j`. -/
def searchLoop (f : Nat → Bool) : Nat → Nat → Nat → Nat
  | 0, i, _ => i
  | fuel + 1, i, j =>
    if i < j then
      let h := (i + j) / 2
      if f h then searchLoop f fuel i h else searchLoop f fuel (h + 1) j
    else i

/-- `sort.Search`. The interval at least halves, so `n` turns are enough. -/
def sortSearch (n : Nat) (f : Nat → Bool) : Nat := searchLoop f n 0 n

/-- `ResolveAddress`; `none` is `SymbolNotFoundError`. -/
def resolveAddress (symbols : List Symbol) (addr : UInt64) : Option (List Symbol × UInt64) :=
  if addr = 0 then none
  else
    let idx := sortSearch symbols.length fun i =>
      match symbols[i]? with
      | some s => decide (addr < s.value)
      | none => false
    match (symbols.take idx).reverse with
    | [] => none
    | sym :: below =>
      let same := fun s : Symbol => s.value == sym.value
      some (sym :: below.takeWhile same ++ (symbols.drop idx).takeWhile same, addr - sym.value)

end GoFtrace.Elf
