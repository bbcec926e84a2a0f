import GoFtrace.Elf.Tables

/-!
# Function bodies

`FuncRawInstructions` of `elf/text.go` cuts the bytes of a function out of `.text`. Each end of
the range is compared with the section on one side only.

* `funcPcRange_returns`: the range, of `.debug_info` or of the symbol table.
* `funcRawInstructions_cuts`: the functions that are cut out within the section.
-/

namespace GoFtrace.Elf

section
variable {τ : Type}

/-! ## Ranges -/

/-- Where a function is: from its DIE, or from its symbol and the next value above it. -/
inductive Extent where
  | die (lowpc highpc : UInt64)
  | symbol (value : UInt64) (next : Option UInt64)
  deriving DecidableEq, Repr

/-- The range that is cut out. -/
def Extent.range : Extent → UInt64 × UInt64
  | .die lowpc highpc => (lowpc, highpc)
  | .symbol value next => (value, next.getD 0)

/-- The range does not end before it starts. -/
def Extent.Ordered : Extent → Prop
  | .die lowpc highpc => lowpc ≤ highpc
  | .symbol value next => next ≠ none ∨ value = 0

/-- The end of a DIE: an address, or an offset from its start. -/
def Entry.endAddress (die : Entry τ) : UInt64 :=
  match die.highpc with
  | some (.address v) => v
  | some (.offset v) => die.lowpc.getD 0 + v.toUInt64
  | none => 0

/-- The least value above another one. -/
def nextValue (sorted : List FileSymbol) (value : UInt64) : Option UInt64 :=
  (sorted.find? fun s => decide (value < s.value)).map (·.value)

namespace File

/-- The extent of a function; `none` where neither table knows it. -/
def extent (f : File τ) (name : String) : Option Extent :=
  match f.symbols with
  | .error _ => none
  | .ok symbols =>
    match f.dies symbols name with
    | some die => some (.die (die.lowpc.getD 0) die.endAddress)
    | none => (((f.table symbols).2 name).filter FileSymbol.isFunc).map fun sym =>
        .symbol sym.value (nextValue (f.table symbols).1 sym.value)

/-- The search of `FuncPcRangeInSymtab` finds the first symbol above. -/
theorem search_next {sorted : List FileSymbol}
    (hsorted : sorted.Pairwise fun a b => a.value ≤ b.value) (value : UInt64) :
    sorted[sortSearch sorted.length fun i =>
      match sorted[i]? with
      | some s => decide (value < s.value)
      | none => false]? = sorted.find? fun s => decide (value < s.value) := by
  have habove : (fun i => match sorted[i]? with
      | some s => decide (value < s.value)
      | none => false) = isAbove (sorted.map FileSymbol.toSymbol) value := by
    funext i
    rw [isAbove, List.getElem?_map]
    cases sorted[i]? <;> rfl
  have hsorted' : Sorted (sorted.map FileSymbol.toSymbol) := List.pairwise_map.mpr hsorted
  have hsplit := search_split hsorted' value
  rw [habove]
  rw [List.length_map] at hsplit
  generalize sortSearch sorted.length (isAbove (sorted.map FileSymbol.toSymbol) value) = idx
    at hsplit ⊢
  obtain ⟨htake, hdrop⟩ := hsplit
  have hbelow : (sorted.take idx).find? (fun s => decide (value < s.value)) = none := by
    rw [List.find?_eq_none]
    intro s hs
    have hmem : s.toSymbol ∈ atOrBelow (sorted.map FileSymbol.toSymbol) value := by
      rw [← htake, ← List.map_take]
      exact List.mem_map_of_mem hs
    simpa [atOrBelow] using (List.mem_filter.mp hmem).2
  have hrest : (sorted.drop idx).find? (fun s => decide (value < s.value)) =
      (sorted.drop idx).head? := by
    cases hd : sorted.drop idx with
    | nil => rfl
    | cons s rest =>
      have hs := hdrop s.toSymbol (by rw [← List.map_drop, hd]; exact List.mem_cons_self)
      rw [List.find?_cons_of_pos (by simpa using hs)]
      rfl
  conv_rhs => rw [← List.take_append_drop idx sorted, List.find?_append, hbelow, Option.none_or,
    hrest, List.head?_drop]

section
variable {f : File τ} {name : String} {symbols : List FileSymbol}

theorem dwarf_returns (hsyms : f.symbols = .ok symbols) {die : Entry τ}
    (hdie : f.dies symbols name = some die) :
    Returns (TablesOk f) (fun c => f.funcPcRangeInDwarf c name)
      (.returned (die.lowpc.getD 0, die.endAddress) none) := by
  refine (dies_returns hsyms).andThen fun c hc => ?_
  rw [hdie]
  exact ⟨rfl, hc⟩

theorem dwarf_misses (hsyms : f.symbols = .ok symbols) (hdie : f.dies symbols name = none) :
    Returns (TablesOk f) (fun c => f.funcPcRangeInDwarf c name)
      (.returned (0, 0) (some (name ++ ": DIE not found"))) := by
  refine (dies_returns hsyms).andThen fun c hc => ?_
  rw [hdie]
  exact ⟨rfl, hc⟩

theorem symtab_returns (hsyms : f.symbols = .ok symbols) {sym : FileSymbol}
    (hsym : ((f.table symbols).2 name).filter FileSymbol.isFunc = some sym) :
    Returns (TablesOk f) (fun c => f.funcPcRangeInSymtab c name)
      (.returned (sym.value, (nextValue (f.table symbols).1 sym.value).getD 0) none) := by
  refine (symbolTable_returns hsyms).andThen fun c hc => ?_
  rw [hsym]
  have hnext := search_next (f.sortSymbols.sorted symbols) sym.value
  exact ⟨congrArg (fun s : Option FileSymbol =>
    Result.returned (sym.value, (s.map (·.value)).getD 0) none) hnext, hc⟩

theorem symtab_misses (hsyms : f.symbols = .ok symbols)
    (hsym : ((f.table symbols).2 name).filter FileSymbol.isFunc = none) :
    Returns (TablesOk f) (fun c => f.funcPcRangeInSymtab c name)
      (.returned (0, 0) (some (name ++ ": symbol not found"))) := by
  refine (symbolTable_returns hsyms).andThen fun c hc => ?_
  rw [hsym]
  exact ⟨rfl, hc⟩

/-- The range of `.debug_info` is taken where there is one. -/
theorem funcPcRange_dwarf {Inv : Cache τ → Prop} {range : UInt64 × UInt64}
    (hdwarf : Returns Inv (fun c => f.funcPcRangeInDwarf c name) (.returned range none)) :
    Returns Inv (fun c => f.funcPcRange c name) (.returned range none) := by
  intro c hc
  obtain ⟨hvalue, hkeep⟩ := hdwarf c hc
  dsimp only [funcPcRange] at hvalue hkeep ⊢
  generalize f.funcPcRangeInDwarf c name = call at hvalue hkeep
  obtain ⟨r, c'⟩ := call
  obtain rfl : r = .returned range none := hvalue
  exact ⟨rfl, hkeep⟩

/-- Else the one of the symbol table. -/
theorem funcPcRange_symtab {Inv : Cache τ → Prop} {v : UInt64 × UInt64} {err : String}
    {r : Result (UInt64 × UInt64)}
    (hdwarf : Returns Inv (fun c => f.funcPcRangeInDwarf c name) (.returned v (some err)))
    (hsymtab : Returns Inv (fun c => f.funcPcRangeInSymtab c name) r) :
    Returns Inv (fun c => f.funcPcRange c name) r := by
  intro c hc
  obtain ⟨hvalue, hkeep⟩ := hdwarf c hc
  dsimp only [funcPcRange] at hvalue hkeep ⊢
  generalize f.funcPcRangeInDwarf c name = call at hvalue hkeep
  obtain ⟨r', c'⟩ := call
  obtain rfl : r' = .returned v (some err) := hvalue
  exact hsymtab c' hkeep

theorem funcPcRange_returns {e : Extent} (he : f.extent name = some e) :
    Returns (TablesOk f) (fun c => f.funcPcRange c name) (.returned e.range none) := by
  unfold extent at he
  cases hsyms : f.symbols with
  | error err => rw [hsyms] at he; cases he
  | ok symbols =>
    simp only [hsyms] at he
    cases hdie : f.dies symbols name with
    | some die =>
      rw [hdie] at he
      obtain rfl := Option.some.inj he
      exact funcPcRange_dwarf (dwarf_returns hsyms hdie)
    | none =>
      rw [hdie] at he
      obtain ⟨sym, hsym, rfl⟩ := Option.map_eq_some_iff.mp he
      exact funcPcRange_symtab (dwarf_misses hsyms hdie) (symtab_returns hsyms hsym)

theorem funcPcRange_fails (he : f.extent name = none) :
    ∃ v err, Returns (TablesOk f) (fun c => f.funcPcRange c name) (.returned v (some err)) := by
  unfold extent at he
  cases hsyms : f.symbols with
  | error err =>
    have hdwarf : Returns (TablesOk f) (fun c => f.funcPcRangeInDwarf c name) _ :=
      (dies_fails hsyms).andFail
    exact ⟨_, _, funcPcRange_symtab hdwarf (symbolTable_fails hsyms).andFail⟩
  | ok symbols =>
    simp only [hsyms] at he
    cases hdie : f.dies symbols name with
    | some die => rw [hdie] at he; cases he
    | none =>
      rw [hdie] at he
      exact ⟨_, _, funcPcRange_symtab (dwarf_misses hsyms hdie)
        (symtab_misses hsyms (by simpa using he))⟩

/-- The range of an extent that ends after its start. -/
theorem extent_ordered {e : Extent} (he : f.extent name = some e) :
    e.range.1 ≤ e.range.2 ↔ e.Ordered := by
  unfold extent at he
  cases hsyms : f.symbols with
  | error err => rw [hsyms] at he; cases he
  | ok symbols =>
    simp only [hsyms] at he
    cases hdie : f.dies symbols name with
    | some die =>
      rw [hdie] at he
      obtain rfl := Option.some.inj he
      exact Iff.rfl
    | none =>
      rw [hdie] at he
      obtain ⟨sym, -, rfl⟩ := Option.map_eq_some_iff.mp he
      cases hnext : nextValue (f.table symbols).1 sym.value with
      | none => simp [Extent.range, Extent.Ordered]
      | some next =>
        -- the next value is above the one of the symbol
        obtain ⟨s, hfind, rfl⟩ := Option.map_eq_some_iff.mp hnext
        have habove : sym.value < s.value := by simpa using List.find?_some hfind
        simpa [Extent.range, Extent.Ordered] using UInt64.le_of_lt habove

end

end File

/-! ## The cut -/

/-- The bytes of a range that lies in the section, which could be read, with its start and the
offset of its start in the file. -/
structure Cut (sec : TextSection) (range : UInt64 × UInt64) (raw : List UInt8)
    (addr offset : UInt64) : Prop where
  read : sec.readError = none
  inside : sec.addr ≤ range.1
  ordered : range.1 ≤ range.2
  fits : range.2.toNat ≤ sec.addr.toNat + sec.bytes.length
  bytes : raw = (sec.bytes.drop (range.1.toNat - sec.addr.toNat)).take
    (range.2.toNat - range.1.toNat)
  start : addr = range.1
  file : offset = range.1 - sec.addr + sec.offset

/-- An error, or the bytes of a function; no slice bound is out of range. -/
def CutsOut (f : File τ) (sec : TextSection) (name : String) :
    Result (List UInt8 × UInt64 × UInt64) → Prop
  | .returned (raw, addr, offset) none =>
    ∃ e, f.extent name = some e ∧ Cut sec e.range raw addr offset
  | .returned _ (some _) => True
  | .panic => False

/-- The guard of `FuncRawInstructions`, with the sum as the code computes it. -/
def TextSection.rejects (sec : TextSection) (range : UInt64 × UInt64) : Prop :=
  range.1 < sec.addr ∨ UInt64.ofNat sec.bytes.length + sec.addr < range.2

/-- What is left of `FuncRawInstructions` once it has the range and the bytes. -/
def TextSection.cut (sec : TextSection) (range : UInt64 × UInt64) :
    Result (List UInt8 × UInt64 × UInt64) :=
  let start := range.1 - sec.addr
  let stop := range.2 - sec.addr
  if stop < start ∨ sec.bytes.length < stop.toNat then .panic
  else
    .returned ((sec.bytes.take stop.toNat).drop start.toNat, range.1, start + sec.offset) none

/-- A range that the guard lets pass is cut out of the section if its ends are in order. -/
theorem cut_of_ordered {sec : TextSection} {range : UInt64 × UInt64}
    (hread : sec.readError = none) (hpass : ¬ sec.rejects range)
    (hordered : range.1 ≤ range.2) :
    ∃ raw addr offset, sec.cut range = .returned (raw, addr, offset) none ∧
      Cut sec range raw addr offset := by
  obtain ⟨hlow, hhigh⟩ := not_or.mp hpass
  rw [UInt64.not_lt] at hlow hhigh
  have hfits : range.2.toNat ≤ sec.addr.toNat + sec.bytes.length := by
    have hsum : (UInt64.ofNat sec.bytes.length + sec.addr).toNat ≤
        sec.bytes.length + sec.addr.toNat := by
      rw [UInt64.toNat_add, UInt64.toNat_ofNat']
      exact (Nat.mod_le _ _).trans (Nat.add_le_add_right (Nat.mod_le _ _) _)
    have hle := UInt64.le_iff_toNat_le.mp hhigh
    omega
  have hl := UInt64.toNat_sub_of_le _ _ hlow
  have hh := UInt64.toNat_sub_of_le _ _ (UInt64.le_trans hlow hordered)
  have hlow' := UInt64.le_iff_toNat_le.mp hlow
  have hordered' := UInt64.le_iff_toNat_le.mp hordered
  refine ⟨(sec.bytes.take (range.2 - sec.addr).toNat).drop (range.1 - sec.addr).toNat, _, _, ?_,
    hread, hlow, hordered, hfits, ?_, rfl, rfl⟩
  · refine if_neg ?_
    rw [UInt64.lt_iff_toNat_lt, hl, hh]
    omega
  · rw [hl, hh, List.drop_take]
    congr 1
    omega

/-- What `FuncRawInstructions` comes to. -/
inductive RawStep (f : File τ) (sec : TextSection) (name : String) (c : Cache τ) :
    Result (List UInt8 × UInt64 × UInt64) → Prop
  /-- There is no range, the section is not read, or the guard rejects the range. -/
  | fails (why : ∀ e, f.extent name = some e → sec.readError = none ∨ c.textBytes ≠ none →
      sec.rejects e.range) (v : List UInt8 × UInt64 × UInt64) (err : String) :
      RawStep f sec name c (.returned v (some err))
  | cut {e : Extent} (he : f.extent name = some e)
      (hread : sec.readError = none ∨ c.textBytes ≠ none) (hpass : ¬ sec.rejects e.range) :
      RawStep f sec name c (sec.cut e.range)

theorem funcRawInstructions_step {f : File τ} {sec : TextSection} (hsec : f.text = some sec)
    (name : String) {c : Cache τ} (hc : f.TablesOk c) :
    RawStep f sec name c (f.funcRawInstructions c name).1 := by
  unfold File.funcRawInstructions
  dsimp only
  cases he : f.extent name with
  | none =>
    obtain ⟨v, err, hrange⟩ := File.funcPcRange_fails he
    rw [(hrange.andFail c hc).1]
    refine .fails (fun e he' => ?_) _ _
    rw [he] at he'
    cases he'
  | some e =>
    obtain ⟨hrange, hkeep⟩ := File.funcPcRange_returns he c hc
    rw [File.orReturn_of_returned hrange]
    dsimp only at hkeep ⊢
    have hslot : (f.funcPcRange c name).2.textBytes = c.textBytes :=
      File.funcPcRange_textBytes c name
    generalize (f.funcPcRange c name).2 = c' at hkeep hslot ⊢
    rcases File.textBytes_cases hsec hkeep with ⟨err, hread, hunread, htext⟩ | ⟨hread, htext⟩
    · rw [File.orReturn_of_failed htext]
      refine .fails (fun e' _ hread' => ?_) _ _
      rw [hread, ← hslot, hunread] at hread'
      simp at hread'
    · rw [hslot] at hread
      rw [File.orReturn_of_returned htext, hsec]
      dsimp only
      by_cases hrejects : sec.rejects e.range
      · rw [if_pos (show _ ∨ _ from hrejects)]
        refine .fails (fun e' he' _ => ?_) _ _
        obtain rfl := Option.some.inj (he.symm.trans he')
        exact hrejects
      · rw [if_neg (show ¬ (_ ∨ _) from hrejects), apply_ite Prod.fst]
        exact .cut he hread hrejects

/-- After any calls, a function is cut out within the section, or an error is returned, unless
the section could not be read and the buffer of an earlier call is cut, or the guard lets a range
pass that ends before its start: that of a DIE with such attributes, or that of a symbol without
a symbol above it. -/
theorem funcRawInstructions_cuts (f : File τ) {sec : TextSection} (hsec : f.text = some sec)
    (calls : List Call) (name : String) :
    let c := Lib.Memo.after f.ask {} calls
    CutsOut f sec name (f.funcRawInstructions c name).1 ↔
      ∀ e, f.extent name = some e → sec.readError = none ∨ c.textBytes ≠ none →
        ¬ sec.rejects e.range → sec.readError = none ∧ e.Ordered := by
  intro c
  have hstep := funcRawInstructions_step hsec name (File.after_tablesOk f calls)
  change RawStep f sec name c _ at hstep
  generalize (f.funcRawInstructions c name).1 = r at hstep ⊢
  cases hstep with
  | fails why v err =>
    constructor
    · intro _ e he hread hpass
      exact absurd (why e he hread) hpass
    · intro _
      trivial
  | @cut e he hread hpass =>
    constructor
    · intro hcut e' he' _ _
      obtain rfl := Option.some.inj (he.symm.trans he')
      rw [← File.extent_ordered he]
      dsimp only [TextSection.cut] at hcut
      split at hcut
      · exact hcut.elim
      · obtain ⟨e', he', hcut⟩ := hcut
        obtain rfl := Option.some.inj (he.symm.trans he')
        exact ⟨hcut.read, hcut.ordered⟩
    · intro h
      obtain ⟨hread', hordered⟩ := h e he hread hpass
      obtain ⟨raw, addr, offset, heq, hcut⟩ :=
        cut_of_ordered hread' hpass ((File.extent_ordered he).mpr hordered)
      rw [heq]
      exact ⟨e, he, hcut⟩

end

/-- `.text` of one `RET`. -/
def retSection : TextSection where
  addr := 4096
  offset := 4096
  bytes := [195]
  readError := none

/-- A file with one function, which no symbol is above of. -/
def lastFunction : File Unit where
  symbols := .ok [{ name := "main.main", value := 4096, info := 2 }]
  text := some retSection
  entries := []
  entriesError := none
  sortSymbols := SliceSort.insertion _
  sortLines := SliceSort.insertion _

/-- The end of the range is taken to be 0, and the guard lets it pass. -/
theorem lastFunction_panics :
    lastFunction.text = some retSection ∧
      (lastFunction.funcRawInstructions {} "main.main").1 = .panic ∧
      ¬ CutsOut lastFunction retSection "main.main"
        (lastFunction.funcRawInstructions {} "main.main").1 := by
  have hpanic : (lastFunction.funcRawInstructions {} "main.main").1 = .panic := by decide +kernel
  refine ⟨rfl, hpanic, ?_⟩
  rw [hpanic]
  exact id

/-- The same file with a symbol at its end. -/
def closedFunction : File Unit :=
  { lastFunction with
    symbols := .ok [{ name := "main.main", value := 4096, info := 2 },
      { name := "runtime.etext", value := 4097, info := 2 }] }

theorem closedFunction_cuts :
    CutsOut closedFunction retSection "main.main"
      (closedFunction.funcRawInstructions {} "main.main").1 := by
  have hextent : closedFunction.extent "main.main" = some (.symbol 4096 (some 4097)) := by
    decide +kernel
  refine (funcRawInstructions_cuts closedFunction rfl [] "main.main").mpr ?_
  intro e he _ _
  obtain rfl := Option.some.inj (hextent.symm.trans he)
  exact ⟨rfl, Or.inl nofun⟩

end GoFtrace.Elf
