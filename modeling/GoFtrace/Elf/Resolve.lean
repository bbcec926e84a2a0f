import GoFtrace.Elf.Tables

/-!
# Exact resolution

`ResolveAddress` of a file: the symbols in any order, any number of them at one value.

* `resolveAddress_exact`: all the symbols at the greatest value that is not above the address,
  each once.
-/

namespace GoFtrace.Elf

section
variable {τ : Type}

/-- `SymbolNotFoundError`, wrapped with the address. -/
def notFound (addr : UInt64) : String :=
  String.ofList (Nat.toDigits 16 addr.toNat) ++ ": symbol not found"

/-- `ResolveAddress`. -/
def File.resolveAddress (f : File τ) (c : Cache τ) (addr : UInt64) :
    Result (List Symbol × UInt64) × Cache τ :=
  if addr = 0 then (.returned ([], 0) (some "0: symbol not found"), c)
  else
    orReturn (f.symbolTable c) (fun err => .returned ([], 0) (some err)) fun table c =>
      match Elf.resolveAddress (table.1.map FileSymbol.toSymbol) addr with
      | none => (.returned ([], 0) (some (notFound addr)), c)
      | some (syms, offset) => (.returned (syms, offset) none, c)

/-! ## The symbols at an address -/

/-- `value` is the greatest value that is not above the address. -/
structure IsBase (symbols : List FileSymbol) (addr value : UInt64) : Prop where
  mem : ∃ s ∈ symbols, s.value = value
  le : value ≤ addr
  greatest : ∀ s ∈ symbols, s.value ≤ addr → s.value ≤ value

/-- All the symbols at that value, each as often as the table has it, and what is left of the
address. -/
def Resolves (symbols : List FileSymbol) (addr : UInt64) (syms : List Symbol)
    (offset : UInt64) : Prop :=
  ∃ value, IsBase symbols addr value ∧
    syms.Perm ((symbols.filter fun s => s.value == value).map FileSymbol.toSymbol) ∧
    offset = addr - value

/-- There is nothing to resolve. -/
def Unresolvable (symbols : List FileSymbol) (addr : UInt64) : Prop :=
  addr = 0 ∨ ∀ s ∈ symbols, addr < s.value

section
variable {symbols sorted : List FileSymbol} {addr : UInt64}

theorem IsBase.of_perm (hperm : sorted.Perm symbols) {value : UInt64}
    (h : IsBase sorted addr value) : IsBase symbols addr value where
  mem := by
    obtain ⟨s, hs, hvalue⟩ := h.mem
    exact ⟨s, hperm.mem_iff.mp hs, hvalue⟩
  le := h.le
  greatest s hs := h.greatest s (hperm.mem_iff.mpr hs)

theorem Resolves.of_perm (hperm : sorted.Perm symbols) {syms : List Symbol} {offset : UInt64}
    (h : Resolves sorted addr syms offset) : Resolves symbols addr syms offset := by
  obtain ⟨value, hbase, hsyms, hoffset⟩ := h
  exact ⟨value, hbase.of_perm hperm, hsyms.trans ((hperm.filter _).map _), hoffset⟩

theorem unresolvable_perm (hperm : sorted.Perm symbols) :
    Unresolvable sorted addr ↔ Unresolvable symbols addr :=
  or_congr_right (forall_congr' fun _ => by rw [hperm.mem_iff])

/-- A lookup in a sorted table. -/
theorem resolveAddress_cases (hsorted : sorted.Pairwise fun a b => a.value ≤ b.value)
    (addr : UInt64) :
    (Unresolvable sorted addr ∧
        Elf.resolveAddress (sorted.map FileSymbol.toSymbol) addr = none) ∨
      ¬ Unresolvable sorted addr ∧ ∃ syms offset, Resolves sorted addr syms offset ∧
        Elf.resolveAddress (sorted.map FileSymbol.toSymbol) addr = some (syms, offset) := by
  by_cases haddr : addr = 0
  · exact .inl ⟨.inl haddr, if_pos haddr⟩
  have hsorted' : Sorted (sorted.map FileSymbol.toSymbol) := List.pairwise_map.mpr hsorted
  rw [resolveAddress_eq hsorted' haddr]
  cases hlast : (atOrBelow (sorted.map FileSymbol.toSymbol) addr).getLast? with
  | none =>
    refine .inl ⟨.inr fun s hs => ?_, rfl⟩
    have hnil := List.getLast?_eq_none_iff.mp hlast
    have hno := List.filter_eq_nil_iff.mp hnil _ (List.mem_map_of_mem hs)
    simpa using hno
  | some sym =>
    obtain ⟨hmem, hle, hgreatest⟩ := last_atOrBelow hsorted' hlast
    obtain ⟨base, hbase, rfl⟩ := List.mem_map.mp hmem
    refine .inr ⟨?_, _, _, ⟨base.value, ⟨⟨base, hbase, rfl⟩, hle, fun s hs => ?_⟩, ?_, rfl⟩, rfl⟩
    · rintro (h | h)
      · exact haddr h
      · exact absurd hle (UInt64.not_le.mpr (h base hbase))
    · exact hgreatest _ (List.mem_map_of_mem hs)
    · rw [symbolsAt, List.filter_map]
      exact List.reverse_perm _

end

/-! ## Every lookup -/

theorem resolveAddress_returns {f : File τ} {symbols : List FileSymbol}
    (hsyms : f.symbols = .ok symbols) (addr : UInt64) {c : Cache τ} (hc : f.TablesOk c) :
    (Unresolvable symbols addr ∧
        ∃ err, (f.resolveAddress c addr).1 = .returned ([], 0) (some err)) ∨
      ¬ Unresolvable symbols addr ∧ ∃ syms offset, Resolves symbols addr syms offset ∧
        (f.resolveAddress c addr).1 = .returned (syms, offset) none := by
  unfold File.resolveAddress
  by_cases haddr : addr = 0
  · rw [if_pos haddr]
    exact .inl ⟨.inl haddr, _, rfl⟩
  have hperm := f.sortSymbols.perm symbols
  have htable := (File.symbolTable_returns hsyms c hc).1
  rw [if_neg haddr, File.orReturn_of_returned htable]
  rcases resolveAddress_cases (f.sortSymbols.sorted symbols) addr with
    ⟨hnone, heq⟩ | ⟨hsome, syms, offset, hresolves, heq⟩
  · refine .inl ⟨(unresolvable_perm hperm).mp hnone, notFound addr, ?_⟩
    dsimp only [File.table]
    rw [heq]
  · refine .inr ⟨fun h => hsome ((unresolvable_perm hperm).mpr h), syms, offset,
      hresolves.of_perm hperm, ?_⟩
    dsimp only [File.table]
    rw [heq]

/-- After any calls, `ResolveAddress` fails exactly on 0 and below every symbol; else it gives
all the symbols at the greatest value that is not above the address. -/
theorem resolveAddress_exact (f : File τ) {symbols : List FileSymbol}
    (hsyms : f.symbols = .ok symbols) (calls : List Call) (addr : UInt64) :
    ∃ syms offset err,
      (f.resolveAddress (Lib.Memo.after f.ask {} calls) addr).1 = .returned (syms, offset) err ∧
        (err ≠ none ↔ Unresolvable symbols addr) ∧
        (err = none → Resolves symbols addr syms offset) := by
  rcases resolveAddress_returns hsyms addr (File.after_tablesOk f calls) with
    ⟨hnone, err, heq⟩ | ⟨hsome, syms, offset, hresolves, heq⟩
  · exact ⟨[], 0, some err, heq, ⟨fun _ => hnone, fun _ => nofun⟩, nofun⟩
  · exact ⟨syms, offset, none, heq, ⟨fun h => absurd rfl h, fun h => absurd h hsome⟩,
      fun _ => hresolves⟩

end

/-- Two symbols at one value, before one below them. -/
def aliases : File Unit where
  symbols := .ok [{ name := "runtime.text", value := 4096, info := 0 },
    { name := "main.main", value := 4096, info := 2 },
    { name := "go.buildid", value := 16, info := 2 }]
  text := none
  entries := []
  entriesError := none
  sortSymbols := SliceSort.insertion _
  sortLines := SliceSort.insertion _

theorem aliases_exact : ∃ syms offset err,
    (aliases.resolveAddress {} 4100).1 = .returned (syms, offset) err ∧
      (err ≠ none ↔ Unresolvable [{ name := "runtime.text", value := 4096, info := 0 },
        { name := "main.main", value := 4096, info := 2 },
        { name := "go.buildid", value := 16, info := 2 }] 4100) ∧
      (err = none → Resolves [{ name := "runtime.text", value := 4096, info := 0 },
        { name := "main.main", value := 4096, info := 2 },
        { name := "go.buildid", value := 16, info := 2 }] 4100 syms offset) :=
  resolveAddress_exact aliases rfl [] 4100

end GoFtrace.Elf
