import GoFtrace.Elf.Cache
import GoFtrace.Elf.Lookup

/-!
# What the tables hold

The symbols, the subprogram DIEs and the bytes of `.text` that a call finds, whatever calls were
made before it.

* `ask_tablesOk`: the slots of the cache hold what was read from the file.
* `symbolTable_returns`, `dies_returns`: what the accessors return.
* `funcPcRange_returns`: the range of a function.
-/

namespace GoFtrace.Elf

section
variable {τ α β : Type}

namespace File

/-! ## Contents -/

/-- The symbols sorted by value, and the map of their names. -/
def table (f : File τ) (symbols : List FileSymbol) : List FileSymbol × SymbolMap :=
  (f.sortSymbols.sort symbols, nameSymbols (f.sortSymbols.sort symbols) fun _ => none)

/-- The subprogram DIEs that agree with the symbols. -/
def dies (f : File τ) (symbols : List FileSymbol) : DieMap τ :=
  dieLoop (f.table symbols).2 f.entries fun _ => none

/-- The slots of the cache hold what was read from the file. -/
structure TablesOk (f : File τ) (c : Cache τ) : Prop where
  symbols : ∀ {table}, c.symbols = some table →
    ∃ symbols, f.symbols = .ok symbols ∧ f.table symbols = table
  text : ∀ {bytes}, c.textBytes = some bytes → ∃ sec, f.text = some sec ∧ sec.bytes = bytes
  dies : ∀ {dies}, c.subprogramdies = some dies →
    ∃ symbols, f.symbols = .ok symbols ∧ f.dies symbols = dies

theorem TablesOk.empty (f : File τ) : TablesOk f {} := ⟨nofun, nofun, nofun⟩

/-! ## Calls under an invariant -/

/-- A call keeps an invariant of the cache. -/
def Keeps (Inv : Cache τ → Prop) (g : Cache τ → Result α × Cache τ) : Prop :=
  ∀ c, Inv c → Inv (g c).2

/-- A call returns the same with every cache that has the invariant. -/
def Returns (Inv : Cache τ → Prop) (g : Cache τ → Result α × Cache τ) (r : Result α) : Prop :=
  ∀ c, Inv c → (g c).1 = r ∧ Inv (g c).2

section
variable {Inv : Cache τ → Prop} {g : Cache τ → Result α × Cache τ} {r : Result α}
  {fail : String → Result β} {next : α → Cache τ → Result β × Cache τ}

theorem Keeps.pure (r : Result α) : Keeps Inv fun c => (r, c) := fun _ hc => hc

theorem Returns.pure (r : Result α) : Returns Inv (fun c => (r, c)) r := fun _ hc => ⟨rfl, hc⟩

theorem Returns.keeps (hg : Returns Inv g r) : Keeps Inv g := fun c hc => (hg c hc).2

theorem Keeps.orReturn (hg : Keeps Inv g) (hnext : ∀ v, Keeps Inv (next v)) :
    Keeps Inv fun c => Elf.orReturn (g c) fail next := by
  intro c hc
  have hkeep := hg c hc
  dsimp only
  generalize g c = call at hkeep
  match call with
  | (.panic, c') => exact hkeep
  | (.returned _ (some err), c') => exact hkeep
  | (.returned v none, c') => exact hnext v c' hkeep

theorem orReturn_of_failed {call : Result α × Cache τ} {v : α} {err : String}
    (h : call.1 = .returned v (some err)) : Elf.orReturn call fail next = (fail err, call.2) := by
  obtain ⟨r, c⟩ := call
  obtain rfl : r = .returned v (some err) := h
  rfl

/-- The call goes on with a value. -/
theorem Returns.andThen {v : α} {s : Result β} (hg : Returns Inv g (.returned v none))
    (hnext : Returns Inv (next v) s) : Returns Inv (fun c => Elf.orReturn (g c) fail next) s := by
  intro c hc
  obtain ⟨hvalue, hkeep⟩ := hg c hc
  dsimp only
  rw [orReturn_of_returned hvalue]
  exact hnext _ hkeep

/-- The call fails. -/
theorem Returns.andFail {v : α} {err : String} (hg : Returns Inv g (.returned v (some err))) :
    Returns Inv (fun c => Elf.orReturn (g c) fail next) (fail err) := by
  intro c hc
  obtain ⟨herr, hkeep⟩ := hg c hc
  dsimp only
  rw [orReturn_of_failed herr]
  exact ⟨rfl, hkeep⟩

end

/-! ## The accessors -/

section
variable {f : File τ} {symbols : List FileSymbol}

theorem symbolTable_returns (hsyms : f.symbols = .ok symbols) :
    Returns (TablesOk f) f.symbolTable (.returned (f.table symbols) none) := by
  intro c hc
  unfold symbolTable
  cases hslot : c.symbols with
  | some table =>
    obtain ⟨symbols', hsame, rfl⟩ := hc.symbols hslot
    obtain rfl := Except.ok.inj (hsyms.symm.trans hsame)
    exact ⟨rfl, hc⟩
  | none =>
    dsimp only
    rw [hsyms]
    refine ⟨rfl, { hc with symbols := ?_ }⟩
    intro table heq
    exact ⟨symbols, hsyms, Option.some.inj heq⟩

theorem symbolTable_fails {err : String} (hsyms : f.symbols = .error err) :
    Returns (TablesOk f) f.symbolTable (.returned ([], fun _ => none) (some err)) := by
  intro c hc
  unfold symbolTable
  cases hslot : c.symbols with
  | some table =>
    obtain ⟨symbols', hok, -⟩ := hc.symbols hslot
    rw [hsyms] at hok
    cases hok
  | none =>
    dsimp only
    rw [hsyms]
    exact ⟨rfl, hc⟩

theorem symbolTable_keeps : Keeps (TablesOk f) f.symbolTable := by
  cases hsyms : f.symbols with
  | ok symbols => exact (symbolTable_returns hsyms).keeps
  | error err => exact (symbolTable_fails hsyms).keeps

theorem dies_returns (hsyms : f.symbols = .ok symbols) :
    Returns (TablesOk f) f.nonInlinedSubprogramDIEs (.returned (f.dies symbols) none) := by
  intro c hc
  unfold nonInlinedSubprogramDIEs
  cases hslot : c.subprogramdies with
  | some dies =>
    obtain ⟨symbols', hsame, rfl⟩ := hc.dies hslot
    obtain rfl := Except.ok.inj (hsyms.symm.trans hsame)
    exact ⟨rfl, hc⟩
  | none =>
    refine (symbolTable_returns hsyms).andThen (fun c hc => ⟨rfl, { hc with dies := ?_ }⟩) c hc
    intro dies heq
    exact ⟨symbols, hsyms, Option.some.inj heq⟩

theorem dies_fails {err : String} (hsyms : f.symbols = .error err) :
    Returns (TablesOk f) f.nonInlinedSubprogramDIEs (.returned (fun _ => none) (some err)) := by
  intro c hc
  unfold nonInlinedSubprogramDIEs
  cases hslot : c.subprogramdies with
  | some dies =>
    obtain ⟨symbols', hok, -⟩ := hc.dies hslot
    rw [hsyms] at hok
    cases hok
  | none => exact (symbolTable_fails hsyms).andFail c hc

theorem dies_keeps : Keeps (TablesOk f) f.nonInlinedSubprogramDIEs := by
  cases hsyms : f.symbols with
  | ok symbols => exact (dies_returns hsyms).keeps
  | error err => exact (dies_fails hsyms).keeps

/-- `Text` of a file with the section: the bytes, or an error where they are not in the cache
yet and cannot be read. -/
theorem textBytes_cases {sec : TextSection} (hsec : f.text = some sec) {c : Cache τ}
    (hc : TablesOk f c) :
    (∃ err, sec.readError = some err ∧ c.textBytes = none ∧
        (f.textBytes c).1 = .returned [] (some err)) ∨
      (sec.readError = none ∨ c.textBytes ≠ none) ∧
        (f.textBytes c).1 = .returned sec.bytes none := by
  unfold textBytes
  cases hslot : c.textBytes with
  | some bytes =>
    obtain ⟨sec', hsame, rfl⟩ := hc.text hslot
    obtain rfl := Option.some.inj (hsec.symm.trans hsame)
    exact .inr ⟨.inr (by simp), rfl⟩
  | none =>
    dsimp only
    rw [hsec]
    dsimp only
    cases herr : sec.readError with
    | some err => exact .inl ⟨err, rfl, rfl, rfl⟩
    | none => exact .inr ⟨.inl rfl, rfl⟩

theorem textBytes_keeps : Keeps (TablesOk f) f.textBytes := by
  intro c hc
  unfold textBytes
  cases c.textBytes with
  | some bytes => exact hc
  | none =>
    cases hsec : f.text with
    | none => exact hc
    | some sec =>
      have hset : TablesOk f { c with textBytes := some sec.bytes } :=
        { hc with text := fun heq => ⟨sec, hsec, Option.some.inj heq⟩ }
      dsimp only
      cases sec.readError with
      | some err => exact hset
      | none => exact hset

theorem lineEntries_keeps : Keeps (TablesOk f) f.lineEntries := by
  intro c hc
  unfold lineEntries
  cases c.lineEntries with
  | some rows => exact hc
  | none =>
    dsimp only
    split
    · exact hc
    · exact ⟨hc.symbols, hc.text, hc.dies⟩

theorem resolveSymbol_keeps {Inv : Cache τ → Prop} (hsyms : Keeps Inv f.symbolTable)
    (name : String) : Keeps Inv fun c => f.resolveSymbol c name := by
  refine hsyms.orReturn fun table => ?_
  cases table.2 name with
  | none => exact Keeps.pure _
  | some symbol => exact Keeps.pure _

theorem runtimeTypes_keeps {Inv : Cache τ → Prop} (hsyms : Keeps Inv f.symbolTable)
    (hset : ∀ c types, Inv c → Inv { c with runtimeTypes := some types }) :
    Keeps Inv f.runtimeTypes := by
  intro c hc
  unfold runtimeTypes
  cases c.runtimeTypes with
  | some types => exact hc
  | none =>
    refine (resolveSymbol_keeps hsyms "runtime.types").orReturn (fun typesBase => ?_) c hc
    cases f.entriesError with
    | some err => exact Keeps.pure _
    | none => exact fun c hc => hset c _ hc

theorem runtimeType_keeps {Inv : Cache τ → Prop} (htypes : Keeps Inv f.runtimeTypes)
    (addr : UInt64) : Keeps Inv fun c => f.runtimeType c addr := by
  refine htypes.orReturn fun types => ?_
  cases types addr with
  | none => exact Keeps.pure _
  | some t => exact Keeps.pure _

/-- `FuncPcRange` looks at the symbols and at the DIEs only. -/
theorem funcPcRange_keeps {Inv : Cache τ → Prop} (hsyms : Keeps Inv f.symbolTable)
    (hdies : Keeps Inv f.nonInlinedSubprogramDIEs) (name : String) :
    Keeps Inv fun c => f.funcPcRange c name := by
  have hdwarf : Keeps Inv fun c => f.funcPcRangeInDwarf c name := by
    refine hdies.orReturn fun dies => ?_
    cases dies name with
    | none => exact Keeps.pure _
    | some die => exact Keeps.pure _
  have hsymtab : Keeps Inv fun c => f.funcPcRangeInSymtab c name := by
    refine hsyms.orReturn fun table => ?_
    cases (table.2 name).filter FileSymbol.isFunc with
    | none => exact Keeps.pure _
    | some sym => exact Keeps.pure _
  intro c hc
  have hkeep := hdwarf c hc
  dsimp only [funcPcRange] at hkeep ⊢
  generalize f.funcPcRangeInDwarf c name = call at hkeep
  match call with
  | (.panic, c') => exact hkeep
  | (.returned _ (some err), c') => exact hsymtab c' hkeep
  | (.returned v none, c') => exact hkeep

/-! The bytes of `.text` stay where they are. -/

theorem symbolTable_textBytes (slot : Option (List UInt8)) :
    Keeps (fun c => c.textBytes = slot) f.symbolTable := by
  intro c hc
  unfold symbolTable
  cases c.symbols with
  | some table => exact hc
  | none => cases f.symbols <;> exact hc

theorem dies_textBytes (slot : Option (List UInt8)) :
    Keeps (fun c => c.textBytes = slot) f.nonInlinedSubprogramDIEs := by
  intro c hc
  unfold nonInlinedSubprogramDIEs
  cases c.subprogramdies with
  | some dies => exact hc
  | none => exact (symbolTable_textBytes slot).orReturn (fun _ _ hc => hc) c hc

theorem funcPcRange_textBytes (c : Cache τ) (name : String) :
    (f.funcPcRange c name).2.textBytes = c.textBytes :=
  funcPcRange_keeps (symbolTable_textBytes c.textBytes) (dies_textBytes c.textBytes) name c rfl

theorem funcRawInstructions_keeps {Inv : Cache τ → Prop} (hsyms : Keeps Inv f.symbolTable)
    (hdies : Keeps Inv f.nonInlinedSubprogramDIEs) (htext : Keeps Inv f.textBytes)
    (name : String) : Keeps Inv fun c => f.funcRawInstructions c name := by
  refine (funcPcRange_keeps hsyms hdies name).orReturn fun range => ?_
  refine htext.orReturn fun bytes => ?_
  dsimp only
  cases f.text with
  | none => exact Keeps.pure _
  | some sec =>
    dsimp only
    split
    · exact Keeps.pure _
    split
    · exact Keeps.pure _
    · exact Keeps.pure _

/-- Every call leaves the slots as they should be. -/
theorem ask_tablesOk (c : Cache τ) (q : Call) (hc : TablesOk f c) : TablesOk f (f.ask c q).2 := by
  have htypes : Keeps (TablesOk f) f.runtimeTypes :=
    runtimeTypes_keeps symbolTable_keeps fun c _ hc => ⟨hc.symbols, hc.text, hc.dies⟩
  cases q with
  | symbols => exact symbolTable_keeps c hc
  | text => exact textBytes_keeps c hc
  | lineEntries => exact lineEntries_keeps c hc
  | nonInlinedSubprogramDIEs => exact dies_keeps c hc
  | runtimeTypes => exact htypes c hc
  | lineInfoForPc pc =>
    have hrow : Keeps (TablesOk f) fun c => f.lineRowForPc c pc := by
      refine lineEntries_keeps.orReturn fun rows => ?_
      cases lineRow rows pc with
      | none => exact Keeps.pure _
      | some row => exact Keeps.pure _
    exact hrow.orReturn (fun _ => Keeps.pure _) c hc
  | funcRawInstructions name =>
    exact funcRawInstructions_keeps symbolTable_keeps dies_keeps textBytes_keeps name c hc
  | runtimeType addr => exact runtimeType_keeps htypes addr c hc

theorem after_tablesOk (f : File τ) (calls : List Call) :
    TablesOk f (Lib.Memo.after f.ask {} calls) :=
  Lib.Memo.after_inv (TablesOk.empty f) ask_tablesOk calls

end

end File

end

end GoFtrace.Elf
