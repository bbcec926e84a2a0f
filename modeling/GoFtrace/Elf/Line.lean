import GoFtrace.Elf.Tables

/-!
# Source lines

`LineInfoForPc` on the rows of all units, after any calls.

* `lineRow_eq`: the row that the search leads to.
* `lineInfo_covering_iff`: when it is the row that covers the address.
-/

namespace GoFtrace.Elf

/-! ## The row before the first one at or above an address -/

/-- The rows strictly below an address. -/
def rowsBelow (rows : List LineEntry) (pc : UInt64) : List LineEntry :=
  rows.filter fun row => decide (row.address < pc)

/-- The predicate that `LineInfoForPc` searches with. -/
def notBelow (rows : List LineEntry) (pc : UInt64) (i : Nat) : Bool :=
  match rows[i]? with
  | some row => decide (pc ≤ row.address)
  | none => false

theorem notBelow_getElem {rows : List LineEntry} {pc : UInt64} {i : Nat}
    (h : i < rows.length) : notBelow rows pc i = decide (pc ≤ rows[i].address) := by
  rw [notBelow, List.getElem?_eq_getElem h]

/-- The search splits the rows. -/
theorem line_split {rows : List LineEntry}
    (hsorted : rows.Pairwise fun a b => a.address ≤ b.address) (pc : UInt64) :
    rows.take (sortSearch rows.length (notBelow rows pc)) = rowsBelow rows pc := by
  have hmono : ∀ i j, i ≤ j → j < rows.length → notBelow rows pc i = true →
      notBelow rows pc j = true := by
    intro i j hij hj hi
    rcases Nat.lt_or_eq_of_le hij with hlt | rfl
    · rw [notBelow_getElem (by omega), decide_eq_true_eq] at hi
      rw [notBelow_getElem hj, decide_eq_true_eq]
      exact UInt64.le_trans hi (List.pairwise_iff_getElem.mp hsorted i j (by omega) hj hlt)
    · exact hi
  obtain ⟨hbelow, habove⟩ := sortSearch_spec hmono
  generalize sortSearch rows.length (notBelow rows pc) = idx at hbelow habove ⊢
  refine (take_eq_filter ?_ ?_).1
  · intro row hrow
    obtain ⟨i, hi, rfl⟩ := List.mem_take_iff_getElem.mp hrow
    have hno := hbelow i (by omega)
    rw [notBelow_getElem (by omega)] at hno
    simpa using hno
  · intro row hrow
    obtain ⟨i, hi, rfl⟩ := List.mem_drop_iff_getElem.mp hrow
    have hyes := habove (idx + i) (Nat.le_add_right _ _) (by omega)
    rw [notBelow_getElem (by omega)] at hyes
    simpa using hyes

/-- The row that the search leads to is the last one below the address. -/
theorem lineRow_eq {rows : List LineEntry}
    (hsorted : rows.Pairwise fun a b => a.address ≤ b.address) (pc : UInt64) :
    File.lineRow rows pc = (rowsBelow rows pc).getLast? := by
  have hle : sortSearch rows.length (notBelow rows pc) ≤ rows.length :=
    searchLoop_le _ _ 0 _ (Nat.zero_le _)
  rw [← line_split hsorted pc, List.getLast?_take]
  change (if sortSearch rows.length (notBelow rows pc) = 0 then none
    else rows[sortSearch rows.length (notBelow rows pc) - 1]?) = _
  split
  · rfl
  · rw [List.getElem?_eq_getElem (by omega), Option.some_or]

/-- The last row below an address has the greatest address of these. -/
theorem last_rowsBelow {rows : List LineEntry}
    (hsorted : rows.Pairwise fun a b => a.address ≤ b.address) {pc : UInt64} {row : LineEntry}
    (h : (rowsBelow rows pc).getLast? = some row) :
    row ∈ rows ∧ row.address < pc ∧ ∀ r ∈ rows, r.address < pc → r.address ≤ row.address := by
  obtain ⟨hmem, hlt⟩ := List.mem_filter.mp (List.mem_of_getLast? h)
  refine ⟨hmem, of_decide_eq_true hlt, fun r hr hrlt => ?_⟩
  obtain ⟨before, hbefore⟩ := List.getLast?_eq_some_iff.mp h
  have hsorted' : (rowsBelow rows pc).Pairwise fun a b => a.address ≤ b.address :=
    hsorted.sublist List.filter_sublist
  have hr' : r ∈ rowsBelow rows pc := List.mem_filter.mpr ⟨hr, decide_eq_true hrlt⟩
  rw [hbefore] at hsorted' hr'
  rcases List.mem_append.mp hr' with hr' | hr'
  · exact (List.pairwise_append.mp hsorted').2.2 r hr' row List.mem_cons_self
  · rw [List.mem_singleton.mp hr']
    exact UInt64.le_refl _

/-! ## The covering row -/

/-- The row covers the address: its own is the greatest one not above it. -/
structure Covers (rows : List LineEntry) (pc : UInt64) (row : LineEntry) : Prop where
  mem : row ∈ rows
  le : row.address ≤ pc
  greatest : ∀ r ∈ rows, r.address ≤ pc → r.address ≤ row.address

/-- The result is a covering row, or an error where there is none. -/
def RightRow (rows : List LineEntry) (pc : UInt64) : Result (Option LineEntry) → Prop
  | .returned _ (some _) => ∀ row ∈ rows, pc < row.address
  | .returned (some row) none => Covers rows pc row
  | .returned none none => False
  | .panic => False

/-- The search gives the covering row exactly when there is a row below the address and none
at it. -/
theorem lineRow_right {rows : List LineEntry}
    (hsorted : rows.Pairwise fun a b => a.address ≤ b.address) (pc : UInt64) :
    (∃ row, File.lineRow rows pc = some row ∧ Covers rows pc row) ↔
      (∃ row ∈ rows, row.address < pc) ∧ ∀ row ∈ rows, row.address ≠ pc := by
  rw [lineRow_eq hsorted]
  constructor
  · rintro ⟨row, hlast, hcovers⟩
    obtain ⟨hmem, hlt, -⟩ := last_rowsBelow hsorted hlast
    refine ⟨⟨row, hmem, hlt⟩, fun r hr heq => ?_⟩
    have hle := hcovers.greatest r hr (heq ▸ UInt64.le_refl _)
    rw [heq] at hle
    exact absurd hle (UInt64.not_le.mpr hlt)
  · rintro ⟨⟨row, hmem, hlt⟩, hnone⟩
    have hne : rowsBelow rows pc ≠ [] :=
      List.ne_nil_of_mem (List.mem_filter.mpr ⟨hmem, decide_eq_true hlt⟩)
    obtain ⟨last, hlast⟩ : ∃ last, (rowsBelow rows pc).getLast? = some last :=
      ⟨_, List.getLast?_eq_some_getLast hne⟩
    obtain ⟨hin, hbelow, hmax⟩ := last_rowsBelow hsorted hlast
    refine ⟨last, hlast, hin, UInt64.le_of_lt hbelow, fun r hr hle => hmax r hr ?_⟩
    exact UInt64.lt_of_le_of_ne hle (hnone r hr)

namespace File

section
variable {τ : Type} {f : File τ}

/-! ## The rows of the cache -/

/-- A call that leaves the rows of the cache alone. -/
def KeepsLines (g : Cache τ → Result α × Cache τ) : Prop :=
  ∀ c, (g c).2.lineEntries = c.lineEntries

theorem keepsLines_iff {g : Cache τ → Result α × Cache τ} :
    KeepsLines g ↔ ∀ slot, Keeps (fun c => c.lineEntries = slot) g := by
  constructor
  · intro hg slot c hc
    exact (hg c).trans hc
  · intro hg c
    exact hg c.lineEntries c rfl

theorem symbolTable_keepsLines : KeepsLines f.symbolTable := by
  intro c
  unfold symbolTable
  cases c.symbols with
  | some table => rfl
  | none => cases f.symbols <;> rfl

theorem nonInlinedSubprogramDIEs_keepsLines : KeepsLines f.nonInlinedSubprogramDIEs := by
  intro c
  unfold nonInlinedSubprogramDIEs
  cases c.subprogramdies with
  | some dies => rfl
  | none =>
    have hsyms := keepsLines_iff.mp (@symbolTable_keepsLines _ f) c.lineEntries
    exact hsyms.orReturn (fun _ _ hc => hc) c rfl

theorem textBytes_keepsLines : KeepsLines f.textBytes := by
  intro c
  unfold textBytes
  cases c.textBytes with
  | some bytes => rfl
  | none =>
    cases f.text with
    | none => rfl
    | some sec =>
      dsimp only
      cases sec.readError <;> rfl

theorem funcRawInstructions_keepsLines (name : String) :
    KeepsLines fun c => f.funcRawInstructions c name := by
  refine keepsLines_iff.mpr fun slot => ?_
  apply funcRawInstructions_keeps
  · exact keepsLines_iff.mp symbolTable_keepsLines slot
  · exact keepsLines_iff.mp nonInlinedSubprogramDIEs_keepsLines slot
  · exact keepsLines_iff.mp textBytes_keepsLines slot

theorem runtimeTypes_keepsLines : KeepsLines f.runtimeTypes := by
  refine keepsLines_iff.mpr fun slot => ?_
  exact runtimeTypes_keeps (keepsLines_iff.mp symbolTable_keepsLines slot) fun _ _ hc => hc

theorem runtimeType_keepsLines (addr : UInt64) : KeepsLines fun c => f.runtimeType c addr := by
  refine keepsLines_iff.mpr fun slot => ?_
  exact runtimeType_keeps (keepsLines_iff.mp runtimeTypes_keepsLines slot) addr

/-- The rows of the cache are those of the units, and no reader stopped. -/
def LinesOk (f : File τ) (c : Cache τ) : Prop :=
  ∀ rows, c.lineEntries = some rows → rows = f.lineTable ∧ ∀ u ∈ unitsOf f.entries, ¬ u.Stops

theorem KeepsLines.linesOk {g : Cache τ → Result α × Cache τ} (hg : KeepsLines g) {c : Cache τ}
    (hc : LinesOk f c) : LinesOk f (g c).2 := by
  unfold LinesOk
  rw [hg c]
  exact hc

theorem lineEntries_linesOk {c : Cache τ} (hc : LinesOk f c) : LinesOk f (f.lineEntries c).2 := by
  cases hslot : c.lineEntries with
  | some rows =>
    have hsame : (f.lineEntries c).2 = c := by simp only [lineEntries, hslot]
    rw [hsame]
    exact hc
  | none =>
    by_cases hstops : ∃ u ∈ unitsOf f.entries, u.Stops
    · obtain ⟨rows, err, hall⟩ := lineEntries_stops hstops
      rw [hall c hslot]
      exact hc
    · have hnone : ∀ u ∈ unitsOf f.entries, ¬ u.Stops := fun u hu hs => hstops ⟨u, hu, hs⟩
      rw [lineEntries_ends hnone hslot]
      intro rows heq
      exact ⟨(Option.some.inj heq).symm, hnone⟩

/-- Going on without the cache leaves it as it was. -/
theorem orReturn_cache {call : Result α × Cache τ} {fail : String → Result β}
    {next : α → Cache τ → Result β × Cache τ} (hnext : ∀ v c, (next v c).2 = c) :
    (Elf.orReturn call fail next).2 = call.2 := by
  match call with
  | (.panic, c) => rfl
  | (.returned _ (some err), c) => rfl
  | (.returned v none, c) => exact hnext v c

theorem lineRowForPc_cache (c : Cache τ) (pc : UInt64) :
    (f.lineRowForPc c pc).2 = (f.lineEntries c).2 := by
  refine orReturn_cache fun rows c => ?_
  cases lineRow rows pc <;> rfl

theorem lineInfoForPc_cache (c : Cache τ) (pc : UInt64) :
    (f.lineInfoForPc c pc).2 = (f.lineEntries c).2 :=
  (orReturn_cache fun _ _ => rfl).trans (lineRowForPc_cache c pc)

theorem ask_linesOk (c : Cache τ) (q : Call) (hc : LinesOk f c) : LinesOk f (f.ask c q).2 := by
  cases q with
  | symbols => exact symbolTable_keepsLines.linesOk hc
  | text => exact textBytes_keepsLines.linesOk hc
  | lineEntries => exact lineEntries_linesOk hc
  | nonInlinedSubprogramDIEs => exact nonInlinedSubprogramDIEs_keepsLines.linesOk hc
  | runtimeTypes => exact runtimeTypes_keepsLines.linesOk hc
  | lineInfoForPc pc =>
    change LinesOk f (f.lineInfoForPc c pc).2
    rw [lineInfoForPc_cache]
    exact lineEntries_linesOk hc
  | funcRawInstructions name => exact (funcRawInstructions_keepsLines name).linesOk hc
  | runtimeType addr => exact (runtimeType_keepsLines addr).linesOk hc

/-! ## The row of an address -/

/-- `LineEntries` returns the rows without an error: the cache has them, or no reader stops and
the last unit has none. -/
def HasTable (f : File τ) (c : Cache τ) : Prop :=
  c.lineEntries ≠ none ∨
    (∀ u ∈ unitsOf f.entries, ¬ u.Stops) ∧ ∀ u ∈ (unitsOf f.entries).getLast?, u = .absent

/-- The rows of the units. -/
def rows (f : File τ) : List LineEntry := (unitsOf f.entries).flatMap LineReader.read

theorem mem_lineTable {row : LineEntry} : row ∈ f.lineTable ↔ row ∈ f.rows :=
  (f.sortLines.perm _).mem_iff

/-- With a table, the rows are all of them, sorted. -/
theorem lineEntries_hasTable {c : Cache τ} (hc : LinesOk f c) (h : HasTable f c) :
    (f.lineEntries c).1 = .returned f.lineTable none := by
  cases hslot : c.lineEntries with
  | some rows =>
    obtain ⟨rfl, -⟩ := hc rows hslot
    simp only [lineEntries, hslot]
  | none =>
    obtain ⟨hstops, hlast⟩ := h.resolve_left (not_not_intro hslot)
    rw [lineEntries_ends hstops hslot, lastError_eq_none.mpr hlast]

/-- Without one, there is an error. -/
theorem lineEntries_no_table {c : Cache τ} (h : ¬ HasTable f c) :
    ∃ rows err, (f.lineEntries c).1 = .returned rows (some err) := by
  obtain ⟨hslot, hends⟩ := not_or.mp h
  rw [not_not] at hslot
  by_cases hstops : ∃ u ∈ unitsOf f.entries, u.Stops
  · obtain ⟨rows, err, hall⟩ := lineEntries_stops hstops
    exact ⟨rows, err, by rw [hall c hslot]⟩
  · have hnone : ∀ u ∈ unitsOf f.entries, ¬ u.Stops := fun u hu hs => hstops ⟨u, hu, hs⟩
    cases herr : f.lastError with
    | none => exact absurd ⟨hnone, lastError_eq_none.mp herr⟩ hends
    | some err => exact ⟨f.lineTable, err, by rw [lineEntries_ends hnone hslot, herr]⟩

/-- The error of `LineEntries` is that of `LineInfoForPc`. -/
theorem lineRowForPc_no_table {c : Cache τ} (h : ¬ HasTable f c) (pc : UInt64) :
    ∃ err, (f.lineRowForPc c pc).1 = .returned none (some err) := by
  obtain ⟨rows, err, hentries⟩ := lineEntries_no_table h
  refine ⟨err, ?_⟩
  unfold lineRowForPc
  generalize f.lineEntries c = call at hentries
  obtain ⟨r, c₁⟩ := call
  obtain rfl : r = .returned rows (some err) := hentries
  rfl

/-- With a table, the row is the one that the search leads to. -/
theorem lineRowForPc_hasTable {c : Cache τ} (hc : LinesOk f c) (h : HasTable f c) (pc : UInt64) :
    (f.lineRowForPc c pc).1 = match lineRow f.lineTable pc with
      | some row => .returned (some row) none
      | none => .panic := by
  unfold lineRowForPc
  rw [orReturn_of_returned (lineEntries_hasTable hc h)]
  cases lineRow f.lineTable pc <;> rfl

/-- When a call returns the covering row, or an error where there is none. -/
theorem lineRowForPc_right {c : Cache τ} (hc : LinesOk f c) (pc : UInt64) :
    RightRow f.rows pc (f.lineRowForPc c pc).1 ↔
      f.HasTable c ∧ (∃ row ∈ f.rows, row.address < pc) ∧ (∀ row ∈ f.rows, row.address ≠ pc) ∨
        ¬ f.HasTable c ∧ ∀ row ∈ f.rows, pc < row.address := by
  by_cases h : f.HasTable c
  · have hright := lineRow_right (f.sortLines.sorted ((unitsOf f.entries).flatMap
      LineReader.read)) pc
    have hcovers : ∀ row, Covers f.lineTable pc row ↔ Covers f.rows pc row := fun row =>
      ⟨fun hrow => ⟨mem_lineTable.mp hrow.mem, hrow.le,
          fun r hr => hrow.greatest r (mem_lineTable.mpr hr)⟩,
        fun hrow => ⟨mem_lineTable.mpr hrow.mem, hrow.le,
          fun r hr => hrow.greatest r (mem_lineTable.mp hr)⟩⟩
    change (∃ row, lineRow f.lineTable pc = some row ∧ Covers f.lineTable pc row) ↔
      (∃ row ∈ f.lineTable, row.address < pc) ∧ ∀ row ∈ f.lineTable, row.address ≠ pc at hright
    simp only [mem_lineTable, hcovers] at hright
    rw [lineRowForPc_hasTable hc h]
    simp only [h, true_and, not_true_eq_false, false_and, or_false]
    rw [← hright]
    cases lineRow f.lineTable pc with
    | none => exact ⟨nofun, nofun⟩
    | some row =>
      constructor
      · exact fun hrow => ⟨row, rfl, hrow⟩
      · rintro ⟨_, hsame, hrow⟩
        obtain rfl := Option.some.inj hsame
        exact hrow
  · obtain ⟨err, herr⟩ := lineRowForPc_no_table h pc
    rw [herr]
    simp only [h, false_and, false_or, not_false_eq_true, true_and]
    rfl

end

end File

/-- After any calls, `LineInfoForPc` takes the covering row, or returns an error where there
is none, exactly when it has a table with a row below the address and none at it, or has no
table and no row is at or below the address. -/
theorem lineInfo_covering_iff (f : File τ) (calls : List Call) (pc : UInt64) :
    let c := Lib.Memo.after f.ask {} calls
    (RightRow f.rows pc (f.lineRowForPc c pc).1 ↔
      f.HasTable c ∧ (∃ row ∈ f.rows, row.address < pc) ∧ (∀ row ∈ f.rows, row.address ≠ pc) ∨
        ¬ f.HasTable c ∧ ∀ row ∈ f.rows, pc < row.address) ∧
      ∀ row, (f.lineRowForPc c pc).1 = .returned (some row) none →
        (f.lineInfoForPc c pc).1 = .returned (row.file, row.line) none := by
  intro c
  have hc : f.LinesOk c := Lib.Memo.after_inv nofun File.ask_linesOk calls
  refine ⟨File.lineRowForPc_right hc pc, fun row hrow => ?_⟩
  unfold File.lineInfoForPc
  rw [File.orReturn_of_returned hrow]
  rfl

/-- With its table, a file with rows at 4096 and 4112 gives the row before for 4112, and
indexes outside the table for 4096. -/
theorem oneUnit_exact_hit :
    let c := Lib.Memo.after oneUnit.ask {} [.lineEntries]
    (oneUnit.lineInfoForPc c 4112).1 = .returned ("main.go", 3) none ∧
      (oneUnit.lineInfoForPc c 4096).1 = .panic ∧
      ¬ RightRow oneUnit.rows 4112 (oneUnit.lineRowForPc c 4112).1 ∧
      ¬ RightRow oneUnit.rows 4096 (oneUnit.lineRowForPc c 4096).1 := by
  intro c
  have hhit : (oneUnit.lineRowForPc c 4112).1 =
      .returned (some ⟨4096, "main.go", 3⟩) none := by decide +kernel
  have hfirst : (oneUnit.lineRowForPc c 4096).1 = .panic := by decide +kernel
  rw [hhit, hfirst]
  refine ⟨by decide +kernel, by decide +kernel, fun h => ?_, id⟩
  have hle := h.greatest ⟨4112, "main.go", 4⟩ (by decide) (by decide)
  exact absurd hle (by decide)

end GoFtrace.Elf
