import GoFtrace.Elf.File

/-!
# The cache and the answers

The answers of the accessors in any order of calls, compared with those of an empty cache.

* `lineLoop_eq`: what `LineEntries` reads.
* `caching_consistent_iff`: the files whose answers never change.
-/

namespace GoFtrace.Elf

section
variable {τ : Type}

/-! ## Calls -/

/-- The calls of the accessors and of the functions built on them. -/
inductive Call where
  | symbols
  | text
  | lineEntries
  | nonInlinedSubprogramDIEs
  | runtimeTypes
  | lineInfoForPc (pc : UInt64)
  | funcRawInstructions (name : String)
  | runtimeType (addr : UInt64)
  deriving DecidableEq, Repr

/-- What a call returns. -/
inductive Answer (τ : Type) where
  | symbols (r : Result (List FileSymbol × SymbolMap))
  | text (r : Result (List UInt8))
  | lineEntries (r : Result (List LineEntry))
  | dies (r : Result (DieMap τ))
  | types (r : Result (TypeMap τ))
  | lineInfo (r : Result (String × Int))
  | rawInstructions (r : Result (List UInt8 × UInt64 × UInt64))
  | type (r : Result (Option τ))

namespace File

variable (f : File τ)

/-- One call, with the cache that the calls before left. -/
def ask (c : Cache τ) : Call → Answer τ × Cache τ
  | .symbols => (f.symbolTable c).map .symbols id
  | .text => (f.textBytes c).map .text id
  | .lineEntries => (f.lineEntries c).map .lineEntries id
  | .nonInlinedSubprogramDIEs => (f.nonInlinedSubprogramDIEs c).map .dies id
  | .runtimeTypes => (f.runtimeTypes c).map .types id
  | .lineInfoForPc pc => (f.lineInfoForPc c pc).map .lineInfo id
  | .funcRawInstructions name => (f.funcRawInstructions c name).map .rawInstructions id
  | .runtimeType addr => (f.runtimeType c addr).map .type id

end File

/-! ## The rows of the units -/

/-- The reader stops with an error other than `io.EOF`. -/
def LineReader.Stops : LineReader → Prop
  | .rows _ (some _) => True
  | _ => False

/-- The rows of a reader. -/
def LineReader.read : LineReader → List LineEntry
  | .rows lines _ => lines
  | _ => []

/-- What a unit leaves in the named result `err`. -/
def LineReader.leaves : LineReader → Option String
  | .failed err => some err
  | .absent => none
  | .rows _ none => some eof
  | .rows _ (some err) => some err

/-- The line readers of the compile units. -/
def unitsOf (entries : List (Entry τ)) : List LineReader :=
  (entries.filter fun die => decide (die.tag = .compileUnit)).map (·.lineReader)

namespace File

/-- What the loop leaves when no reader stops. -/
theorem lineLoop_eq {entries : List (Entry τ)} (hstops : ∀ u ∈ unitsOf entries, ¬ u.Stops)
    (rows : List LineEntry) (err : Option String) :
    lineLoop entries rows err = (rows ++ (unitsOf entries).flatMap LineReader.read,
      ((unitsOf entries).getLast?.map LineReader.leaves).getD err, false) := by
  induction entries generalizing rows err with
  | nil => simp [lineLoop, unitsOf]
  | cons die entries ih =>
    by_cases htag : die.tag = .compileUnit
    · have hunits : unitsOf (die :: entries) = die.lineReader :: unitsOf entries := by
        simp [unitsOf, htag]
      rw [hunits] at hstops
      obtain ⟨hhead, htail⟩ := List.forall_mem_cons.mp hstops
      have hlast : (((unitsOf entries).getLast?.map LineReader.leaves).getD die.lineReader.leaves) =
          ((((die.lineReader :: unitsOf entries).getLast?).map LineReader.leaves).getD err) := by
        rw [List.getLast?_cons]
        cases (unitsOf entries).getLast? <;> rfl
      rw [hunits, List.flatMap_cons, ← hlast, ← List.append_assoc, lineLoop, if_pos htag]
      cases hreader : die.lineReader with
      | failed err =>
        exact (ih htail rows (some err)).trans (by simp [LineReader.read, LineReader.leaves])
      | absent => exact (ih htail rows none).trans (by simp [LineReader.read, LineReader.leaves])
      | rows lines stop =>
        cases stop with
        | none => exact ih htail (rows ++ lines) (some eof)
        | some err => exact absurd (by rw [hreader]; trivial) hhead
    · have hunits : unitsOf (die :: entries) = unitsOf entries := by simp [unitsOf, htag]
      rw [hunits] at hstops
      rw [hunits, lineLoop, if_neg htag]
      exact ih hstops rows err

/-- A reader that stops makes the loop return with its error. -/
theorem lineLoop_stops {entries : List (Entry τ)} (hstops : ∃ u ∈ unitsOf entries, u.Stops)
    (rows : List LineEntry) (err : Option String) :
    ∃ rows' err', lineLoop entries rows err = (rows', some err', true) := by
  induction entries generalizing rows err with
  | nil => simp [unitsOf] at hstops
  | cons die entries ih =>
    by_cases htag : die.tag = .compileUnit
    · have hunits : unitsOf (die :: entries) = die.lineReader :: unitsOf entries := by
        simp [unitsOf, htag]
      rw [hunits, List.exists_mem_cons_iff] at hstops
      rw [lineLoop, if_pos htag]
      cases hreader : die.lineReader with
      | failed err =>
        rw [hreader] at hstops
        exact ih (hstops.resolve_left id) rows (some err)
      | absent =>
        rw [hreader] at hstops
        exact ih (hstops.resolve_left id) rows none
      | rows lines stop =>
        cases stop with
        | none =>
          rw [hreader] at hstops
          exact ih (hstops.resolve_left id) (rows ++ lines) (some eof)
        | some err => exact ⟨_, err, rfl⟩
    · have hunits : unitsOf (die :: entries) = unitsOf entries := by simp [unitsOf, htag]
      rw [hunits] at hstops
      rw [lineLoop, if_neg htag]
      exact ih hstops rows err

/-! ## Answers that do not depend on the cache -/

/-- Each slot of the cache holds what its accessor returns on an empty cache. -/
structure CacheOk (f : File τ) (c : Cache τ) : Prop where
  symbols : ∀ {table}, c.symbols = some table → (f.symbolTable {}).1 = .returned table none
  text : ∀ {bytes}, c.textBytes = some bytes → (f.textBytes {}).1 = .returned bytes none
  lines : ∀ {rows}, c.lineEntries = some rows → (f.lineEntries {}).1 = .returned rows none
  dies : ∀ {dies}, c.subprogramdies = some dies →
    (f.nonInlinedSubprogramDIEs {}).1 = .returned dies none
  types : ∀ {types}, c.runtimeTypes = some types → (f.runtimeTypes {}).1 = .returned types none

theorem CacheOk.empty (f : File τ) : CacheOk f {} := ⟨nofun, nofun, nofun, nofun, nofun⟩

/-- A call answers as on the empty cache, and keeps the cache right. -/
def Answers (f : File τ) (g : Cache τ → Result α × Cache τ) : Prop :=
  ∀ c, CacheOk f c → (g c).1 = (g {}).1 ∧ CacheOk f (g c).2

section
variable {f : File τ}

theorem Answers.pure (r : Result α) : Answers f fun c => (r, c) := fun _ hc => ⟨rfl, hc⟩

/-- A call that goes on with the result of another one. -/
theorem Answers.bind {g : Cache τ → Result α × Cache τ}
    {k : Result α × Cache τ → Result β × Cache τ} (hg : Answers f g)
    (hk : Answers f fun c => k ((g {}).1, c)) : Answers f fun c => k (g c) := by
  intro c hc
  obtain ⟨hsame, hok⟩ := hg c hc
  obtain ⟨hanswer, hkeep⟩ := hk _ hok
  have hempty := (hk _ (hg {} (CacheOk.empty f)).2).1
  have heta : k (g c) = k ((g {}).1, (g c).2) := by rw [← hsame]
  dsimp only
  rw [heta]
  exact ⟨hanswer.trans hempty.symm, hkeep⟩

theorem Answers.orReturn {g : Cache τ → Result α × Cache τ} {fail : String → Result β}
    {next : α → Cache τ → Result β × Cache τ} (hg : Answers f g)
    (hnext : ∀ v, (g {}).1 = .returned v none → Answers f (next v)) :
    Answers f fun c => Elf.orReturn (g c) fail next := by
  refine hg.bind (k := fun r => Elf.orReturn r fail next) ?_
  match hr : (g {}).1 with
  | .panic => exact Answers.pure _
  | .returned _ (some err) => exact Answers.pure _
  | .returned v none => exact hnext v hr

theorem symbolTable_answers : Answers f f.symbolTable := by
  intro c hc
  unfold symbolTable
  cases hslot : c.symbols with
  | some table => exact ⟨(hc.symbols hslot).symm, hc⟩
  | none =>
    dsimp only
    cases hread : f.symbols with
    | error err => exact ⟨rfl, hc⟩
    | ok symbols =>
      refine ⟨rfl, { hc with symbols := ?_ }⟩
      rintro table heq
      obtain rfl := Option.some.inj heq
      simp only [symbolTable, hread]

theorem orReturn_of_returned {call : Result α × Cache τ} {fail : String → Result β}
    {next : α → Cache τ → Result β × Cache τ} {v : α} (h : call.1 = .returned v none) :
    Elf.orReturn call fail next = next v call.2 := by
  obtain ⟨r, c⟩ := call
  obtain rfl : r = .returned v none := h
  rfl

theorem nonInlinedSubprogramDIEs_answers : Answers f f.nonInlinedSubprogramDIEs := by
  intro c hc
  cases hslot : c.subprogramdies with
  | some dies =>
    simp only [nonInlinedSubprogramDIEs, hslot]
    exact ⟨(hc.dies hslot).symm, hc⟩
  | none =>
    have hcompute : Answers f f.computeSubprogramDIEs := by
      refine symbolTable_answers.orReturn fun table htable c hc => ⟨rfl, { hc with dies := ?_ }⟩
      rintro dies heq
      obtain rfl := Option.some.inj heq
      simp only [nonInlinedSubprogramDIEs, computeSubprogramDIEs, orReturn_of_returned htable]
    simp only [nonInlinedSubprogramDIEs, hslot]
    exact hcompute c hc

theorem funcPcRangeInDwarf_answers (name : String) :
    Answers f fun c => f.funcPcRangeInDwarf c name := by
  refine nonInlinedSubprogramDIEs_answers.orReturn fun dies _ => ?_
  cases dies name with
  | none => exact Answers.pure _
  | some die => exact Answers.pure _

theorem funcPcRangeInSymtab_answers (name : String) :
    Answers f fun c => f.funcPcRangeInSymtab c name := by
  refine symbolTable_answers.orReturn fun table _ => ?_
  cases (table.2 name).filter FileSymbol.isFunc with
  | none => exact Answers.pure _
  | some sym => exact Answers.pure _

theorem funcPcRange_answers (name : String) : Answers f fun c => f.funcPcRange c name := by
  intro c hc
  have hown := funcPcRangeInDwarf_answers name c hc
  have hempty := funcPcRangeInDwarf_answers name {} (CacheOk.empty f)
  have hsymtab : Answers f fun c => f.funcPcRangeInSymtab c name := funcPcRangeInSymtab_answers name
  dsimp only [funcPcRange] at hown hempty ⊢
  generalize f.funcPcRangeInDwarf c name = r at hown ⊢
  generalize f.funcPcRangeInDwarf {} name = r₀ at hown hempty ⊢
  obtain ⟨r, c'⟩ := r
  obtain ⟨r₀, c₀⟩ := r₀
  obtain ⟨hsame, hok⟩ := hown
  subst hsame
  cases r with
  | panic => exact ⟨rfl, hok⟩
  | returned v e =>
    cases e with
    | none => exact ⟨rfl, hok⟩
    | some err =>
      obtain ⟨hanswer, hkeep⟩ := hsymtab c' hok
      exact ⟨hanswer.trans (hsymtab c₀ hempty.2).1.symm, hkeep⟩

theorem resolveSymbol_answers (sym : String) : Answers f fun c => f.resolveSymbol c sym := by
  refine symbolTable_answers.orReturn fun table _ => ?_
  cases table.2 sym with
  | none => exact Answers.pure _
  | some symbol => exact Answers.pure _

theorem runtimeTypes_answers : Answers f f.runtimeTypes := by
  intro c hc
  cases hslot : c.runtimeTypes with
  | some types =>
    simp only [runtimeTypes, hslot]
    exact ⟨(hc.types hslot).symm, hc⟩
  | none =>
    have hcompute : Answers f f.computeRuntimeTypes := by
      refine (resolveSymbol_answers "runtime.types").orReturn fun typesBase hbase => ?_
      cases hend : f.entriesError with
      | some err => exact Answers.pure _
      | none =>
        refine fun c hc => ⟨rfl, { hc with types := ?_ }⟩
        rintro types heq
        obtain rfl := Option.some.inj heq
        simp only [runtimeTypes, computeRuntimeTypes, orReturn_of_returned hbase, hend]
    simp only [runtimeTypes, hslot]
    exact hcompute c hc

theorem runtimeType_answers (addr : UInt64) : Answers f fun c => f.runtimeType c addr := by
  refine runtimeTypes_answers.orReturn fun types _ => ?_
  cases types addr with
  | none => exact Answers.pure _
  | some t => exact Answers.pure _

/-- The bytes of `.text` are read without an error, where the file has the section. -/
def TextReads (f : File τ) : Prop := ∀ sec, f.text = some sec → sec.readError = none

/-- `LineEntries` either always fails, as the reader of a unit stops, or ends without an error,
as the last unit has no reader. -/
def LinesEnd (f : File τ) : Prop :=
  (∃ u ∈ unitsOf f.entries, u.Stops) ∨ ∀ u ∈ (unitsOf f.entries).getLast?, u = .absent

theorem textBytes_answers (h : f.TextReads) : Answers f f.textBytes := by
  intro c hc
  cases hslot : c.textBytes with
  | some bytes =>
    simp only [textBytes, hslot]
    exact ⟨(hc.text hslot).symm, hc⟩
  | none =>
    cases hsec : f.text with
    | none =>
      simp only [textBytes, hslot, hsec]
      exact ⟨trivial, hc⟩
    | some sec =>
      simp only [textBytes, hslot, hsec, h sec hsec]
      refine ⟨trivial, { hc with text := ?_ }⟩
      rintro bytes heq
      obtain rfl := Option.some.inj heq
      simp only [textBytes, hsec, h sec hsec]

theorem leaves_eq_none {u : LineReader} : u.leaves = none ↔ u = .absent := by
  cases u with
  | failed err => exact ⟨nofun, nofun⟩
  | absent => exact ⟨fun _ => rfl, fun _ => rfl⟩
  | rows lines stop => cases stop <;> exact ⟨nofun, nofun⟩

/-- The error of the last unit. -/
def lastError (f : File τ) : Option String :=
  ((unitsOf f.entries).getLast?.map LineReader.leaves).getD none

theorem lastError_eq_none : f.lastError = none ↔
    ∀ u ∈ (unitsOf f.entries).getLast?, u = .absent := by
  unfold lastError
  cases (unitsOf f.entries).getLast? with
  | none => exact ⟨fun _ => nofun, fun _ => rfl⟩
  | some u =>
    rw [Option.map_some, Option.getD_some, leaves_eq_none]
    exact ⟨fun hu v hv => Option.some.inj hv ▸ hu, fun hall => hall u rfl⟩

/-- The rows of all units, sorted. -/
def lineTable (f : File τ) : List LineEntry :=
  f.sortLines.sort ((unitsOf f.entries).flatMap LineReader.read)

/-- `LineEntries` on a cache without rows, when no reader stops. -/
theorem lineEntries_ends (hstops : ∀ u ∈ unitsOf f.entries, ¬ u.Stops) {c : Cache τ}
    (hslot : c.lineEntries = none) :
    f.lineEntries c =
      (.returned f.lineTable f.lastError, { c with lineEntries := some f.lineTable }) := by
  simp only [lineEntries, hslot, lineLoop_eq hstops, List.nil_append]
  rfl

/-- `LineEntries` on a cache without rows, when a reader stops. -/
theorem lineEntries_stops (hstops : ∃ u ∈ unitsOf f.entries, u.Stops) :
    ∃ rows err, ∀ c : Cache τ, c.lineEntries = none →
      f.lineEntries c = (.returned rows (some err), c) := by
  obtain ⟨rows, err, hloop⟩ := lineLoop_stops hstops [] none
  refine ⟨rows, err, fun c hslot => ?_⟩
  simp only [lineEntries, hslot, hloop]

theorem lineEntries_answers (h : f.LinesEnd) : Answers f f.lineEntries := by
  intro c hc
  cases hslot : c.lineEntries with
  | some rows =>
    have hrows : f.lineEntries c = (.returned rows none, c) := by simp only [lineEntries, hslot]
    rw [hrows]
    exact ⟨(hc.lines hslot).symm, hc⟩
  | none =>
    rcases h with hstops | hlast
    · obtain ⟨rows, err, hall⟩ := lineEntries_stops hstops
      rw [hall c hslot, hall {} rfl]
      exact ⟨rfl, hc⟩
    · by_cases hstops : ∃ u ∈ unitsOf f.entries, u.Stops
      · obtain ⟨rows, err, hall⟩ := lineEntries_stops hstops
        rw [hall c hslot, hall {} rfl]
        exact ⟨rfl, hc⟩
      · have hnone : ∀ u ∈ unitsOf f.entries, ¬ u.Stops := fun u hu hs => hstops ⟨u, hu, hs⟩
        rw [lineEntries_ends hnone hslot, lineEntries_ends hnone rfl]
        refine ⟨rfl, { hc with lines := ?_ }⟩
        rintro rows heq
        obtain rfl := Option.some.inj heq
        rw [lineEntries_ends hnone rfl, lastError_eq_none.mpr hlast]

theorem lineRowForPc_answers (h : f.LinesEnd) (pc : UInt64) :
    Answers f fun c => f.lineRowForPc c pc := by
  refine (lineEntries_answers h).orReturn fun rows _ => ?_
  cases lineRow rows pc with
  | none => exact Answers.pure _
  | some row => exact Answers.pure _

theorem lineInfoForPc_answers (h : f.LinesEnd) (pc : UInt64) :
    Answers f fun c => f.lineInfoForPc c pc :=
  (lineRowForPc_answers h pc).orReturn fun _ _ => Answers.pure _

theorem funcRawInstructions_answers (h : f.TextReads) (name : String) :
    Answers f fun c => f.funcRawInstructions c name := by
  refine (funcPcRange_answers name).orReturn fun range _ => ?_
  refine (textBytes_answers h).orReturn fun bytes _ => ?_
  dsimp only
  cases f.text with
  | none => exact Answers.pure _
  | some sec =>
    dsimp only
    split
    · exact Answers.pure _
    split
    · exact Answers.pure _
    · exact Answers.pure _

theorem Answers.ask {g : Cache τ → Result α × Cache τ} (hg : Answers f g)
    (answer : Result α → Answer τ) {c : Cache τ} (hc : CacheOk f c) :
    ((g c).map answer id).1 = ((g {}).map answer id).1 ∧ CacheOk f ((g c).map answer id).2 :=
  ⟨congrArg answer (hg c hc).1, (hg c hc).2⟩

/-- Every call answers as on the empty cache. -/
theorem ask_spec (htext : f.TextReads) (hlines : f.LinesEnd) (c : Cache τ) (q : Call)
    (hc : CacheOk f c) : (f.ask c q).1 = (f.ask {} q).1 ∧ CacheOk f (f.ask c q).2 := by
  cases q with
  | symbols => exact symbolTable_answers.ask _ hc
  | text => exact (textBytes_answers htext).ask _ hc
  | lineEntries => exact (lineEntries_answers hlines).ask _ hc
  | nonInlinedSubprogramDIEs => exact nonInlinedSubprogramDIEs_answers.ask _ hc
  | runtimeTypes => exact runtimeTypes_answers.ask _ hc
  | lineInfoForPc pc => exact (lineInfoForPc_answers hlines pc).ask _ hc
  | funcRawInstructions name => exact (funcRawInstructions_answers htext name).ask _ hc
  | runtimeType addr => exact (runtimeType_answers addr).ask _ hc

/-- A section that cannot be read is an error once, and bytes from then on. -/
theorem text_twice {sec : TextSection} (hsec : f.text = some sec) {err : String}
    (herr : sec.readError = some err) : ¬ Lib.Memo.Consistent f.ask {} := by
  intro h
  have htwice := h [] [] .text
  simp [Lib.Memo.answer, Lib.Memo.after, ask, textBytes, hsec, herr] at htwice

/-- A table that ends with an error returns it once. -/
theorem lines_twice (hstops : ∀ u ∈ unitsOf f.entries, ¬ u.Stops) {err : String}
    (herr : f.lastError = some err) : ¬ Lib.Memo.Consistent f.ask {} := by
  intro h
  have htwice := h [] [] .lineEntries
  have hfirst := lineEntries_ends (f := f) hstops (c := {}) rfl
  rw [herr] at hfirst
  have hsecond : f.lineEntries { lineEntries := some f.lineTable } =
      (.returned f.lineTable none, { lineEntries := some f.lineTable }) := rfl
  simp [Lib.Memo.answer, Lib.Memo.after, ask, hfirst, hsecond] at htwice

end

end File

/-- The answers never change with the cache exactly when `.text` can be read and the rows end
without an error, or always with one. -/
theorem caching_consistent_iff (f : File τ) :
    Lib.Memo.Consistent f.ask {} ↔ f.TextReads ∧ f.LinesEnd := by
  constructor
  · intro h
    constructor
    · intro sec hsec
      cases herr : sec.readError with
      | none => rfl
      | some err => exact absurd h (File.text_twice hsec herr)
    · by_cases hstops : ∃ u ∈ unitsOf f.entries, u.Stops
      · exact .inl hstops
      · refine .inr (File.lastError_eq_none.mp ?_)
        cases herr : f.lastError with
        | none => rfl
        | some err =>
          exact absurd h (File.lines_twice (fun u hu hs => hstops ⟨u, hu, hs⟩) herr)
  · rintro ⟨htext, hlines⟩
    exact Lib.Memo.consistent_of_spec (fun q => (f.ask {} q).1) (File.CacheOk.empty f)
      (File.ask_spec htext hlines)

end

/-- A file with one unit and two rows. -/
def oneUnit : File Unit where
  symbols := .ok []
  text := none
  entries := [{
    tag := .compileUnit
    lineReader := .rows [⟨4096, "main.go", 3⟩, ⟨4112, "main.go", 4⟩] none }]
  entriesError := none
  sortSymbols := SliceSort.insertion _
  sortLines := SliceSort.insertion _

/-- Its rows come with `io.EOF` the first time only. -/
theorem oneUnit_not_consistent : ¬ Lib.Memo.Consistent oneUnit.ask {} :=
  @File.lines_twice _ oneUnit
    (fun _ hu => List.mem_singleton.mp hu ▸ id) eof rfl

end GoFtrace.Elf
